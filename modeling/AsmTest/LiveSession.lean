import AsmTest.Recording

/-!
# A live session

The host sends the same lines that a file holds. The session takes them one at a time: a header
opens a recording, a footer or the next header closes it. Some lines exist only on the wire; they
move the session's status and belong to no recording.
-/

namespace AsmTest.Doc

open Lib

inductive LiveState where
  | idle
  | running
  | ended
  | failed
deriving DecidableEq, Repr

/-- A lifecycle line, kept in order -/
structure LiveNote (F : Type) where
  kind : Bytes
  body : Json F

structure LiveStatus where
  state : LiveState := .idle
  mode : Bytes := []
  pid : ℤ := 0
  lastErr : Bytes := []
  lastStopReason : Bytes := []
  skipCode : ℤ := 0
  skipReason : Bytes := []
  pausedDropped : ℕ := 0
  sessionsStarted : ℕ := 0
  sessionsEnded : ℕ := 0
deriving DecidableEq, Repr

structure LiveSession (F : Type) where
  st : LiveStatus := {}
  done : List (Recording F) := []
  notes : List (LiveNote F) := []
  cur : Recording F := {}
  /-- A header arrived and no `end` has yet. -/
  isOpen : Bool := false
  malformed : ℕ := 0

variable {F : Type}

/-- A recording that was closed without a footer is torn. -/
def LiveSession.closeCurrent (torn : Bool) (s : LiveSession F) : LiveSession F :=
  if s.isOpen then
    { s with
      done := s.done ++ [{ s.cur with torn := torn || !s.cur.hasEnd || s.cur.torn }]
      cur := {}
      isOpen := false }
  else s

def LiveSession.markEof (s : LiveSession F) : LiveSession F :=
  let s := s.closeCurrent true
  match s.st.state with
  | .running =>
    { s with st := { s.st with lastStopReason := ascii "host-eof", state := .ended, mode := [] } }
  | .failed => { s with st := { s.st with mode := [] } }
  | _ => { s with st := { s.st with state := .ended, mode := [] } }

section Feed

variable (L : JsonLib F) (floatToI64 : F → ℤ)

/-- `j.value(key, dflt)` for a string: a value of another type throws. -/
def valueStr (key : String) (dflt : Bytes) (m : Members F) : Option Bytes :=
  match member key m with
  | none => some dflt
  | some v => v.asStr

/-- `j.value(key, 0L)` -/
def valueLong (key : String) (m : Members F) : Option ℤ :=
  match member key m with
  | none => some 0
  | some (.int n) => some (n.bmod (2 ^ 64))
  | some (.float x) => some ((floatToI64 x).bmod (2 ^ 64))
  | some _ => none

/-- `j.value(key, 0)`: an `int` is also read from a boolean. -/
def valueInt (key : String) (m : Members F) : Option ℤ :=
  match member key m with
  | none => some 0
  | some (.bool b) => some (if b then 1 else 0)
  | some v => getInt L v

/-- The header is judged by the file loader, as a stream of one line. -/
def LiveSession.feedHeader (line : Bytes) (s : LiveSession F) : LiveSession F :=
  match loadRecording L (line ++ [10]) with
  | .error err =>
    { s with
      malformed := s.malformed + 1
      st := { s.st with lastErr := ascii "refused session header: " ++ err.toUTF8.toList } }
  -- the recording is not torn, it has not started yet
  | .ok hdr => { s with cur := { hdr with torn := false, hasEnd := false }, isOpen := true }

/-- The footer as the session reads it -/
def liveEnd (ev : Members F) (r : Recording F) : Recording F :=
  let drops := (objMember "drops" ev).getD []
  let skip := (objMember "skip" ev).getD []
  { r with
    hasEnd := true
    declaredEvents := (u64Member L "events" ev).getD r.declaredEvents
    endTruncated := (boolMember "truncated" ev).getD r.endTruncated
    dropsLost := (u64Member L "lost" drops).getD r.dropsLost
    dropsThrottled := (boolMember "throttled" drops).getD r.dropsThrottled
    skipped := (objMember "skip" ev).isSome || r.skipped
    skipCode := (intMember L "code" skip).getD r.skipCode
    skipReason := (strMember "reason" skip).getD r.skipReason }

/-- The skip of a terminal event: its code and its reason -/
def sessionSkip (m : Members F) : Option (ℤ × Bytes) :=
  match member "skip" m with
  | some (.obj sk) => do
    let code ← valueInt L "code" sk
    let reason ← valueStr "reason" [] sk
    some (code, reason)
  | _ => some (0, [])

/-- A `session` line: started, or over -/
def LiveSession.feedSession (m : Members F) (s : LiveSession F) : Option (LiveSession F) := do
  let state ← valueStr "state" [] m
  if state = ascii "started" then
    let mode ← valueStr "mode" [] m
    let pid ← valueLong floatToI64 "pid" m
    some { s with
      st := { s.st with
        state := .running
        mode
        pid
        sessionsStarted := s.st.sessionsStarted + 1
        skipCode := 0
        skipReason := []
        lastStopReason := []
        pausedDropped := 0
        lastErr := [] } }
  else if state = ascii "stopped" ∨ state = ascii "skip" then
    let skip ← if state = ascii "skip" then sessionSkip L m
      else some (s.st.skipCode, s.st.skipReason)
    let reason ← valueStr "reason" state m
    let s := { s with
      st := { s.st with
        skipCode := skip.1
        skipReason := skip.2
        lastStopReason := reason
        pausedDropped := (u64Member L "paused_dropped" m).getD 0
        sessionsEnded := s.st.sessionsEnded + 1
        mode := []
        state := .idle } }
    some (s.closeCurrent !s.cur.hasEnd)
  else some s

/-- The kinds that exist only on the wire -/
def isServeKind (k : Bytes) : Bool :=
  k = ascii "session" || k = ascii "cmd" || k = ascii "err"

def LiveSession.feedServe (k : Bytes) (m : Members F) (s : LiveSession F) :
    Option (LiveSession F) :=
  let s := { s with notes := s.notes ++ [⟨k, .obj m⟩] }
  if k = ascii "err" then do
    let reason ← valueStr "reason" (ascii "(no reason given)") m
    some { s with st := { s.st with lastErr := reason } }
  else if k ≠ ascii "session" then some s
  else s.feedSession L floatToI64 m

/-- An event of the open recording; with none open it belongs to no provenance. -/
def LiveSession.feedEvent (k : Bytes) (m : Members F) (s : LiveSession F) : LiveSession F :=
  if !s.isOpen then { s with malformed := s.malformed + 1 }
  else if k = ascii "end" then { s with cur := liveEnd L m s.cur }.closeCurrent false
  else { s with cur := pushEvent k (.obj m) s.cur }

/-- One line off the wire; `none` is an exception of the JSON library. -/
def LiveSession.feedLine (s : LiveSession F) (line : Bytes) : Option (LiveSession F) :=
  if line = [] then some s
  else
    match (L.parse line).bind Json.asObj with
    | none => some { s with malformed := s.malformed + 1 }
    | some m =>
      if (member "asmtrace" m).isSome then some ((s.closeCurrent true).feedHeader L line)
      else
        match strMember "k" m with
        | none => some { s with malformed := s.malformed + 1 }
        | some k =>
          if isServeKind k then s.feedServe L floatToI64 k m
          else some (s.feedEvent L k m)

end Feed

section Texts

variable (L : JsonLib F) (floatToI64 : F → ℤ)

/-- The lines of a text -/
def linesOf (text : Bytes) : List Bytes :=
  (getLines text).map Prod.fst

/-- The members of a line that holds an object -/
def lineObj (line : Bytes) : Option (Members F) :=
  (L.parse line).bind Json.asObj

def lineKind (line : Bytes) : Option Bytes :=
  (lineObj L line).bind (strMember "k")

def isEndLine (line : Bytes) : Bool :=
  lineKind L line = some (ascii "end")

/-- The text has a footer. -/
def hasEndLine (text : Bytes) : Bool :=
  (linesOf text).tail.any (isEndLine L)

/-- A text that the loader accepts, with no blank line, no line of the wire's own kinds and
nothing after the footer. -/
structure Admissible (text : Bytes) : Prop where
  loads : ∃ r, loadRecording L text = .ok r
  noBlank : [] ∉ linesOf text
  noServe : ∀ line ∈ (linesOf text).tail, ∀ k ∈ lineKind L line, isServeKind k = false
  endLast : ∀ line ∈ (linesOf text).tail.dropLast, isEndLine L line = false

/-- An event does not carry the member that makes a header, and a footer does not count steps. -/
def CleanLine (line : Bytes) : Prop :=
  ∀ m ∈ lineObj L line, member "asmtrace" m = none ∧
    (strMember "k" m = some (ascii "end") → member "steps_total" m = none)

def Clean (text : Bytes) : Prop :=
  ∀ line ∈ (linesOf text).tail, CleanLine L line

/-- The lines of the texts one after another, then the end of the stream if the last text has no
footer -/
def feedTexts (texts : List Bytes) : Option (LiveSession F) :=
  ((texts.flatMap linesOf).foldlM (LiveSession.feedLine L floatToI64) {}).map fun s =>
    if texts.getLast?.any fun text => !hasEndLine L text then s.markEof else s

end Texts

section Lines

lemma newline_notMem_getLines {text : Bytes} {l : Bytes × Bool} (h : l ∈ getLines text) :
    10 ∉ l.1 := by
  induction text generalizing l with
  | nil => cases h
  | cons b rest ih =>
    rw [getLines] at h
    split_ifs at h with hb
    · rcases List.mem_cons.1 h with rfl | h
      · exact List.not_mem_nil
      · exact ih h
    · split at h
      · rw [List.mem_singleton.1 h]
        exact fun hmem => hb (List.mem_singleton.1 hmem).symm
      · rename_i line eof lines hrest
        rcases List.mem_cons.1 h with rfl | h
        · intro hmem
          rcases List.mem_cons.1 hmem with hmem | hmem
          · exact hb hmem.symm
          · exact ih (hrest ▸ List.mem_cons_self) hmem
        · exact ih (hrest ▸ List.mem_cons_of_mem _ h)

/-- Only the last line can lack its newline. -/
def EofLast (lines : List (Bytes × Bool)) : Prop :=
  ∀ l ∈ lines.dropLast, l.2 = false

lemma EofLast.tail {l : Bytes × Bool} {lines : List (Bytes × Bool)} (h : EofLast (l :: lines)) :
    EofLast lines := by
  cases lines with
  | nil => exact fun _ hl => absurd hl List.not_mem_nil
  | cons l' lines => exact fun x hx => h x (List.mem_cons_of_mem _ hx)

lemma EofLast.nil_of_eof {line : Bytes} {lines : List (Bytes × Bool)}
    (h : EofLast ((line, true) :: lines)) : lines = [] := by
  cases lines with
  | nil => rfl
  | cons l' lines => exact absurd (h (line, true) List.mem_cons_self) (by simp)

lemma eofLast_getLines (text : Bytes) : EofLast (getLines text) := by
  induction text with
  | nil => exact fun _ hl => absurd hl List.not_mem_nil
  | cons b rest ih =>
    rw [getLines]
    split_ifs with hb
    · cases hrest : getLines rest with
      | nil => exact fun _ hl => absurd hl List.not_mem_nil
      | cons l lines =>
        intro x hx
        rcases List.mem_cons.1 hx with rfl | hx
        · rfl
        · exact ih x (hrest ▸ hx)
    · split
      · exact fun _ hl => absurd hl List.not_mem_nil
      · rename_i line eof lines hrest
        rw [hrest] at ih
        cases lines with
        | nil => exact fun _ hl => absurd hl List.not_mem_nil
        | cons l' lines =>
          intro x hx
          rcases List.mem_cons.1 hx with rfl | hx
          · exact ih (line, eof) List.mem_cons_self
          · exact ih x (List.mem_cons_of_mem _ hx)

end Lines

section Session

variable {L : JsonLib F} (floatToI64 : F → ℤ) {s : LiveSession F}

/-- The recordings when the stream ends here -/
def LiveSession.settled (s : LiveSession F) : List (Recording F) :=
  (s.closeCurrent true).done

lemma settled_of_open (h : s.isOpen = true) :
    s.settled = s.done ++ [{ s.cur with torn := true }] := by
  rw [LiveSession.settled, LiveSession.closeCurrent, if_pos h]
  rfl

lemma settled_of_closed (h : s.isOpen = false) : s.settled = s.done := by
  rw [LiveSession.settled, LiveSession.closeCurrent, if_neg (by simp [h])]

lemma done_prefix_closeCurrent (torn : Bool) (s : LiveSession F) :
    s.done <+: (s.closeCurrent torn).done := by
  rw [LiveSession.closeCurrent]
  split_ifs
  · exact List.prefix_append _ _
  · exact List.prefix_refl _

lemma done_prefix_settled (s : LiveSession F) : s.done <+: s.settled :=
  done_prefix_closeCurrent true s

@[simp] lemma done_feedHeader (line : Bytes) (s : LiveSession F) :
    (s.feedHeader L line).done = s.done := by
  rw [LiveSession.feedHeader]
  split <;> rfl

@[simp] lemma done_markEof (s : LiveSession F) : s.markEof.done = s.settled := by
  rw [LiveSession.markEof]
  dsimp only
  split <;> rfl

lemma done_prefix_feedEvent (k : Bytes) (m : Members F) (s : LiveSession F) :
    s.done <+: (s.feedEvent L k m).done := by
  rw [LiveSession.feedEvent]
  split_ifs
  · exact List.prefix_refl _
  · exact done_prefix_closeCurrent false { s with cur := liveEnd L m s.cur }
  · exact List.prefix_refl _

/-- A line of another kind than the wire's own throws nothing and takes nothing back. -/
lemma feedLine_total {line : Bytes} (s : LiveSession F)
    (h : ∀ k, lineKind L line = some k → isServeKind k = false) :
    ∃ s', s.feedLine L floatToI64 line = some s' ∧ s.done <+: s'.done := by
  rw [LiveSession.feedLine]
  rw [lineKind, lineObj] at h
  split_ifs
  · exact ⟨s, rfl, List.prefix_refl _⟩
  · cases hobj : (L.parse line).bind Json.asObj with
    | none => exact ⟨_, rfl, List.prefix_refl _⟩
    | some m =>
      rw [hobj, Option.bind_some] at h
      dsimp only
      split_ifs
      · refine ⟨_, rfl, ?_⟩
        rw [done_feedHeader]
        exact done_prefix_closeCurrent true s
      · cases hk : strMember "k" m with
        | none => exact ⟨_, rfl, List.prefix_refl _⟩
        | some k =>
          dsimp only
          rw [if_neg (by simp [h k hk])]
          exact ⟨_, rfl, done_prefix_feedEvent k m s⟩

/-- The same for a whole run of lines -/
lemma foldlM_feedLine_total {lines : List Bytes} (s : LiveSession F)
    (h : ∀ line ∈ lines, ∀ k, lineKind L line = some k → isServeKind k = false) :
    ∃ s', lines.foldlM (LiveSession.feedLine L floatToI64) s = some s' ∧ s.done <+: s'.done := by
  induction lines generalizing s with
  | nil => exact ⟨s, rfl, List.prefix_refl _⟩
  | cons line lines ih =>
    obtain ⟨hline, hlines⟩ := List.forall_mem_cons.1 h
    obtain ⟨s₁, hs₁, hle₁⟩ := feedLine_total floatToI64 s hline
    obtain ⟨s₂, hs₂, hle₂⟩ := ih s₁ hlines
    refine ⟨s₂, ?_, hle₁.trans hle₂⟩
    rw [List.foldlM_cons, hs₁]
    exact hs₂

end Session

section Agree

variable {L : JsonLib F} (floatToI64 : F → ℤ) {s : LiveSession F}

/-- The end of a file -/
def Recording.atEof (r : Recording F) : Recording F :=
  if r.hasEnd then r else { r with torn := true }

@[simp] lemma atEof_nextSeq (r : Recording F) : r.atEof.nextSeq = r.nextSeq := by
  rw [Recording.atEof]
  split_ifs <;> rfl

@[simp] lemma atEof_hasEnd (r : Recording F) : r.atEof.hasEnd = r.hasEnd := by
  rw [Recording.atEof]
  split_ifs <;> rfl

/-- What the loader does with a line: it was cut off, or it is an object with a kind. -/
lemma loadEvents_cons_ok {n : ℕ} {line : Bytes} {eof : Bool} {lines : List (Bytes × Bool)}
    {r r' : Recording F} (hne : line ≠ []) (h : loadEvents L n ((line, eof) :: lines) r = .ok r') :
    (L.parse line = none ∧ eof = true ∧ r' = { r with torn := true }) ∨
      ∃ m k, L.parse line = some (.obj m) ∧ strMember "k" m = some k ∧
        loadEvents L (n + 1) lines
          (if k = ascii "end" then loadEnd L m r else pushEvent k (.obj m) r) = .ok r' := by
  rw [loadEvents, if_neg hne] at h
  cases hev : L.parse line with
  | none =>
    rw [hev] at h
    cases eof with
    | false => cases h
    | true =>
      cases h
      exact .inl ⟨rfl, rfl, rfl⟩
  | some ev =>
    rw [hev] at h
    dsimp only at h
    cases hobj : ev.asObj with
    | none =>
      rw [loadEvent, hobj] at h
      cases h
    | some m =>
      cases hk : strMember "k" m with
      | none =>
        rw [loadEvent, hobj] at h
        dsimp only at h
        rw [hk] at h
        cases h
      | some k =>
        rw [loadEvent, hobj] at h
        dsimp only at h
        rw [hk] at h
        rw [Json.asObj_eq_some.1 hobj] at h ⊢
        exact .inr ⟨m, k, rfl, hk, h⟩

/-- Event lines only add to what was loaded. -/
lemma loadEvents_mono {n : ℕ} {lines : List (Bytes × Bool)} {r r' : Recording F}
    (h : loadEvents L n lines r = .ok r') :
    r.nextSeq ≤ r'.nextSeq ∧ (r.hasEnd = true → r'.hasEnd = true) := by
  induction lines generalizing n r with
  | nil =>
    cases h
    exact ⟨le_refl _, id⟩
  | cons l lines ih =>
    obtain ⟨line, eof⟩ := l
    by_cases hne : line = []
    · rw [loadEvents, if_pos hne] at h
      exact ih h
    rcases loadEvents_cons_ok hne h with ⟨-, -, rfl⟩ | ⟨m, k, -, -, h⟩
    · exact ⟨le_refl _, id⟩
    obtain ⟨hseq, hend⟩ := ih h
    split_ifs at hseq hend
    · exact ⟨hseq, fun _ => hend rfl⟩
    · exact ⟨(Nat.le_succ _).trans hseq, hend⟩

/-- The session holds what the loader has read so far. -/
structure Growing (s : LiveSession F) : Prop where
  isOpen : s.isOpen = true
  noEnd : s.cur.hasEnd = false
  noSteps : s.cur.hasStepsTotal = false
  whole : s.cur.torn = false

lemma Growing.settled (h : Growing s) : s.settled = s.done ++ [s.cur.atEof] := by
  rw [settled_of_open h.isOpen, Recording.atEof, if_neg (by simp [h.noEnd])]

section Line

variable {line : Bytes} {m : Members F} {k : Bytes}

lemma feedLine_header (hne : line ≠ []) (hobj : lineObj L line = some m)
    (hm : member "asmtrace" m ≠ none) :
    s.feedLine L floatToI64 line = some ((s.closeCurrent true).feedHeader L line) := by
  rw [lineObj] at hobj
  rw [LiveSession.feedLine, if_neg hne, hobj]
  dsimp only
  rw [if_pos (Option.isSome_iff_ne_none.2 hm)]

lemma feedLine_event (hne : line ≠ []) (hobj : lineObj L line = some m)
    (hm : member "asmtrace" m = none) (hk : strMember "k" m = some k)
    (hserve : isServeKind k = false) :
    s.feedLine L floatToI64 line = some (s.feedEvent L k m) := by
  rw [lineObj] at hobj
  rw [LiveSession.feedLine, if_neg hne, hobj]
  dsimp only
  rw [if_neg (by simp [hm]), hk]
  dsimp only
  rw [if_neg (by simp [hserve])]

lemma feedLine_junk (hne : line ≠ []) (hobj : lineObj L line = none) :
    s.feedLine L floatToI64 line = some { s with malformed := s.malformed + 1 } := by
  rw [lineObj] at hobj
  rw [LiveSession.feedLine, if_neg hne, hobj]

/-- A footer closes the recording. -/
lemma Growing.feedEnd (h : Growing s) (m : Members F) :
    (s.feedEvent L (ascii "end") m).done = s.done ++ [liveEnd L m s.cur] ∧
      (s.feedEvent L (ascii "end") m).isOpen = false := by
  rw [LiveSession.feedEvent, if_neg (by simp [h.isOpen]), if_pos rfl, LiveSession.closeCurrent,
    if_pos h.isOpen]
  refine ⟨?_, rfl⟩
  change s.done ++ [{ liveEnd L m s.cur with torn := s.cur.torn }] = _
  rw [h.whole]
  exact congrArg (fun t => s.done ++ [{ liveEnd L m s.cur with torn := t }]) h.whole.symm

lemma Growing.push (h : Growing s) (hk : k ≠ ascii "end") (m : Members F) :
    s.feedEvent L k m = { s with cur := pushEvent k (.obj m) s.cur } ∧
      Growing (s.feedEvent L k m) := by
  rw [LiveSession.feedEvent, if_neg (by simp [h.isOpen]), if_neg hk]
  exact ⟨rfl, h.isOpen, h.noEnd, h.noSteps, h.whole⟩

end Line

/-- The footer is read as the loader reads it, but for the steps. -/
lemma liveEnd_eq_loadEnd_iff {m : Members F} {r : Recording F} (hr : r.hasStepsTotal = false) :
    liveEnd L m r = loadEnd L m r ↔ member "steps_total" m = none := by
  constructor
  · intro h
    have hsteps : r.hasStepsTotal = ((member "steps_total" m).isSome || r.hasStepsTotal) :=
      congrArg Recording.hasStepsTotal h
    rw [hr, Bool.or_false] at hsteps
    exact Option.isNone_iff_eq_none.1 (by simpa using hsteps.symm)
  · intro h
    rw [liveEnd, loadEnd, u64Member, u64Member, u64Member, h]
    rfl

/-- What the session makes of the rest of a text, when the loader makes `r` of it -/
structure Fed (L : JsonLib F) (done : List (Recording F)) (lines : List Bytes) (r : Recording F)
    (s' : LiveSession F) : Prop where
  clean : (∀ line ∈ lines, CleanLine L line) →
    s'.settled = done ++ [r] ∧ s'.isOpen = !lines.any (isEndLine L)
  unclean : (¬∀ line ∈ lines, CleanLine L line) → ∃ x, x ≠ r ∧ done ++ [x] <+: s'.done

/-- An event line that has to be read as a header closes the recording too early. -/
lemma Growing.feed_header (h : Growing s) {line : Bytes} {m : Members F} {k : Bytes}
    {lines : List (Bytes × Bool)} {n : ℕ} {r : Recording F} (hne : line ≠ [])
    (hobj : lineObj L line = some m) (hm : member "asmtrace" m ≠ none)
    (hserve : ∀ line ∈ lines.map Prod.fst, ∀ k, lineKind L line = some k → isServeKind k = false)
    (hload : loadEvents L n lines
      (if k = ascii "end" then loadEnd L m s.cur else pushEvent k (.obj m) s.cur) = .ok r) :
    ∃ s', (line :: lines.map Prod.fst).foldlM (LiveSession.feedLine L floatToI64) s = some s' ∧
      Fed L s.done (line :: lines.map Prod.fst) r.atEof s' := by
  obtain ⟨s', hs', hle⟩ := foldlM_feedLine_total floatToI64
    ((s.closeCurrent true).feedHeader L line) hserve
  refine ⟨s', ?_, ?_, fun _ => ⟨s.cur.atEof, ?_, ?_⟩⟩
  · rw [List.foldlM_cons, feedLine_header floatToI64 hne hobj hm]
    exact hs'
  · intro hclean
    exact absurd (hclean line List.mem_cons_self m hobj).1 hm
  · -- the loader has one event more, or the footer
    intro hx
    obtain ⟨hseq, hend⟩ := loadEvents_mono hload
    have hxseq := congrArg Recording.nextSeq hx
    have hxend := congrArg Recording.hasEnd hx
    rw [atEof_nextSeq, atEof_nextSeq] at hxseq
    rw [atEof_hasEnd, atEof_hasEnd, h.noEnd] at hxend
    split_ifs at hseq hend
    · rw [hend rfl] at hxend
      cases hxend
    · have hpush : (pushEvent k (.obj m) s.cur).nextSeq = s.cur.nextSeq + 1 := rfl
      omega
  · rw [done_feedHeader] at hle
    rw [← h.settled]
    exact hle

/-- The producer died in this line: the session counts it and the loader stops. -/
lemma Growing.feed_torn (h : Growing s) {line : Bytes} (hne : line ≠ [])
    (hobj : lineObj L line = none) :
    ∃ s', [line].foldlM (LiveSession.feedLine L floatToI64) s = some s' ∧
      Fed L s.done [line] { s.cur with torn := true }.atEof s' := by
  have hend : isEndLine L line = false := by
    rw [isEndLine, lineKind, hobj]
    rfl
  refine ⟨{ s with malformed := s.malformed + 1 }, ?_, fun _ => ⟨?_, ?_⟩, fun hunclean => ?_⟩
  · rw [List.foldlM_cons, feedLine_junk floatToI64 hne hobj]
    rfl
  · have hopen : ({ s with malformed := s.malformed + 1 } : LiveSession F).isOpen = true :=
      h.isOpen
    rw [settled_of_open hopen, Recording.atEof, if_neg (by simp [h.noEnd])]
  · rw [List.any_cons, hend]
    exact h.isOpen
  · refine absurd (fun line' hmem m hm => ?_) hunclean
    rw [List.mem_singleton.1 hmem, hobj] at hm
    cases hm

/-- The footer, with nothing after it -/
lemma Growing.feed_footer (h : Growing s) {line : Bytes} {m : Members F} (hne : line ≠ [])
    (hobj : lineObj L line = some m) (hm : member "asmtrace" m = none)
    (hk : strMember "k" m = some (ascii "end")) (hserve : isServeKind (ascii "end") = false) :
    ∃ s', [line].foldlM (LiveSession.feedLine L floatToI64) s = some s' ∧
      Fed L s.done [line] (loadEnd L m s.cur).atEof s' := by
  have hisEnd : isEndLine L line = true := by
    rw [isEndLine, lineKind, hobj, Option.bind_some, hk]
    exact decide_eq_true rfl
  have hclean : (∀ l ∈ [line], CleanLine L l) ↔ member "steps_total" m = none := by
    constructor
    · intro h
      exact (h line List.mem_cons_self m hobj).2 hk
    · intro h l hl m' hm'
      rw [List.mem_singleton.1 hl, hobj] at hm'
      cases hm'
      exact ⟨hm, fun _ => h⟩
  have hatEof : (loadEnd L m s.cur).atEof = loadEnd L m s.cur := if_pos rfl
  obtain ⟨hdone, hopen⟩ := h.feedEnd (L := L) m
  rw [hatEof]
  refine ⟨s.feedEvent L (ascii "end") m, ?_, fun hc => ⟨?_, ?_⟩, fun hunclean => ?_⟩
  · rw [List.foldlM_cons, feedLine_event floatToI64 hne hobj hm hk hserve]
    rfl
  · rw [settled_of_closed hopen, hdone, (liveEnd_eq_loadEnd_iff h.noSteps).2 (hclean.1 hc)]
  · rw [List.any_cons, hisEnd, hopen]
    rfl
  · refine ⟨liveEnd L m s.cur, fun heq => ?_, ?_⟩
    · exact hunclean (hclean.2 ((liveEnd_eq_loadEnd_iff h.noSteps).1 heq))
    · rw [hdone]

/-- An event that both readers keep -/
lemma Fed.cons {done : List (Recording F)} {line : Bytes} {lines : List Bytes} {r : Recording F}
    {s' : LiveSession F} (hclean : CleanLine L line) (hend : isEndLine L line = false)
    (h : Fed L done lines r s') : Fed L done (line :: lines) r s' := by
  refine ⟨fun hc => ?_, fun hunclean => h.unclean fun hc => hunclean ?_⟩
  · rw [List.any_cons, hend, Bool.false_or]
    exact h.clean (List.forall_mem_cons.1 hc).2
  · exact List.forall_mem_cons.2 ⟨hclean, hc⟩

/-- The event lines of a text, one by one -/
lemma feed_events {lines : List (Bytes × Bool)} {n : ℕ} {r : Recording F} (hs : Growing s)
    (heof : EofLast lines) (hblank : [] ∉ lines.map Prod.fst)
    (hserve : ∀ line ∈ lines.map Prod.fst, ∀ k, lineKind L line = some k → isServeKind k = false)
    (hend : ∀ line ∈ (lines.map Prod.fst).dropLast, isEndLine L line = false)
    (hload : loadEvents L n lines s.cur = .ok r) :
    ∃ s', (lines.map Prod.fst).foldlM (LiveSession.feedLine L floatToI64) s = some s' ∧
      Fed L s.done (lines.map Prod.fst) r.atEof s' := by
  induction lines generalizing s n with
  | nil =>
    cases hload
    refine ⟨s, rfl, fun _ => ⟨hs.settled, hs.isOpen⟩, fun hunclean => absurd ?_ hunclean⟩
    exact fun _ h => absurd h List.not_mem_nil
  | cons l lines ih =>
    obtain ⟨line, eof⟩ := l
    rw [List.map_cons] at hblank hserve hend ⊢
    obtain ⟨hline, hserve'⟩ := List.forall_mem_cons.1 hserve
    have hne : line ≠ [] := fun h => hblank (h ▸ List.mem_cons_self)
    rcases loadEvents_cons_ok hne hload with ⟨hparse, rfl, rfl⟩ | ⟨m, k, hparse, hk, hload'⟩
    · rw [heof.nil_of_eof]
      exact hs.feed_torn floatToI64 hne (by rw [lineObj, hparse, Option.bind_none])
    have hobj : lineObj L line = some m := by
      rw [lineObj, hparse]
      rfl
    have hkind : lineKind L line = some k := by
      rw [lineKind, hobj]
      exact hk
    by_cases hm : member "asmtrace" m = none
    · by_cases hkend : k = ascii "end"
      · have hlines : lines = [] := by
          cases lines with
          | nil => rfl
          | cons l' lines =>
            have hno := hend line List.mem_cons_self
            rw [isEndLine, hkind, hkend] at hno
            exact absurd rfl (of_decide_eq_false hno)
        rw [hlines, if_pos hkend] at hload'
        rw [hkend] at hk hkind
        cases hload'
        rw [hlines]
        exact hs.feed_footer floatToI64 hne hobj hm hk (hline _ hkind)
      · rw [if_neg hkend] at hload'
        obtain ⟨heq, hs'⟩ := hs.push (L := L) hkend m
        have hend' : ∀ line ∈ (lines.map Prod.fst).dropLast, isEndLine L line = false := by
          intro l hl
          cases lines with
          | nil => cases hl
          | cons l' lines => exact hend l (List.mem_cons_of_mem _ hl)
        have hcur : (s.feedEvent L k m).cur = pushEvent k (.obj m) s.cur := by rw [heq]
        rw [← hcur] at hload'
        obtain ⟨s₁, hs₁, hfed⟩ := ih hs' heof.tail (fun h => hblank (List.mem_cons_of_mem _ h))
          hserve' hend' hload'
        rw [heq] at hfed
        refine ⟨s₁, ?_, hfed.cons ?_ ?_⟩
        · rw [List.foldlM_cons, feedLine_event floatToI64 hne hobj hm hk (hline k hkind)]
          exact hs₁
        · intro m' hm'
          rw [hobj] at hm'
          cases hm'
          exact ⟨hm, fun h => absurd (Option.some.inj (hk.symm.trans h)) hkend⟩
        · rw [isEndLine, hkind]
          exact decide_eq_false fun h => hkend (Option.some.inj h)
    · exact hs.feed_header floatToI64 hne hobj hm hserve' hload'

/-- The fields that only event lines set -/
lemma loadHeader_fresh {line : Bytes} {r : Recording F} (h : loadHeader L line = .ok r) :
    r.hasEnd = false ∧ r.hasStepsTotal = false ∧ r.torn = false := by
  rw [loadHeader] at h
  split at h
  · cases h
  · split at h
    · cases h
    · dsimp only at h
      split_ifs at h
      split at h
      · cases h
      · split at h
        · cases h
        · cases h
          exact ⟨rfl, rfl, rfl⟩

/-- A header line is an object that says so. -/
lemma loadHeader_obj {line : Bytes} {r : Recording F} (h : loadHeader L line = .ok r) :
    ∃ m, lineObj L line = some m ∧ member "asmtrace" m ≠ none := by
  rw [loadHeader] at h
  split at h
  · cases h
  · rename_i m hm
    refine ⟨m, hm, fun hnone => ?_⟩
    rw [hnone] at h
    cases h

/-- A header opens the recording that the loader starts with. -/
lemma feed_loadHeader {line : Bytes} {r : Recording F} (hnl : 10 ∉ line)
    (h : loadHeader L line = .ok r) (s : LiveSession F) :
    Growing (s.feedHeader L line) ∧ (s.feedHeader L line).cur = r ∧
      (s.feedHeader L line).done = s.done := by
  obtain ⟨hend, hsteps, htorn⟩ := loadHeader_fresh h
  have hload : loadRecording L (line ++ [10]) = .ok { r with torn := true } := by
    rw [loadRecording, getLines_line_append line [] hnl]
    dsimp only
    rw [h]
    change Except.ok (if r.hasEnd = true then r else { r with torn := true }) = _
    rw [if_neg (by simp [hend])]
  have hcur : { r with torn := false, hasEnd := false } = r := by
    cases r
    cases hend
    cases htorn
    rfl
  rw [LiveSession.feedHeader, hload]
  exact ⟨⟨rfl, rfl, hsteps, rfl⟩, hcur, rfl⟩

/-- A whole text, whatever came before it -/
lemma feed_text {text : Bytes} {r : Recording F} (h : Admissible L text)
    (hload : loadRecording L text = .ok r) (s : LiveSession F) :
    ∃ s', (linesOf text).foldlM (LiveSession.feedLine L floatToI64) s = some s' ∧
      s.done <+: s'.done ∧ Fed L s.settled (linesOf text).tail r s' := by
  obtain ⟨-, hblank, hserve, hend⟩ := h
  have heof := eofLast_getLines text
  rw [loadRecording] at hload
  rw [linesOf] at hblank hserve hend ⊢
  cases hlines : getLines text with
  | nil =>
    rw [hlines] at hload
    cases hload
  | cons l lines =>
    obtain ⟨line, eof⟩ := l
    rw [hlines] at hload heof hblank hserve hend
    rw [List.map_cons] at hblank hserve hend ⊢
    rw [List.tail_cons] at hserve hend ⊢
    dsimp only at hload
    cases hhead : loadHeader L line with
    | error e =>
      rw [hhead] at hload
      cases hload
    | ok r₀ =>
      rw [hhead] at hload
      dsimp only at hload
      have hnl : 10 ∉ line :=
        @newline_notMem_getLines text (line, eof) (hlines ▸ List.mem_cons_self)
      obtain ⟨m, hobj, hm⟩ := loadHeader_obj hhead
      obtain ⟨hgrow, hcur, hdone⟩ := feed_loadHeader hnl hhead (s.closeCurrent true)
      have hne : line ≠ [] := fun h => hblank (h ▸ List.mem_cons_self)
      cases hev : loadEvents L 2 lines r₀ with
      | error e =>
        rw [hev] at hload
        cases hload
      | ok r₁ =>
        rw [hev] at hload
        cases hload
        rw [← hcur] at hev
        obtain ⟨s', hs', hfed⟩ := feed_events floatToI64 hgrow heof.tail
          (fun h => hblank (List.mem_cons_of_mem _ h)) hserve hend hev
        obtain ⟨s₁, hs₁, hle⟩ := foldlM_feedLine_total floatToI64
          ((s.closeCurrent true).feedHeader L line) hserve
        rw [hs'] at hs₁
        cases hs₁
        rw [hdone] at hfed hle
        refine ⟨s', ?_, (done_prefix_settled s).trans hle, hfed⟩
        rw [List.foldlM_cons, feedLine_header floatToI64 hne hobj hm]
        exact hs'

/-- Somewhere the first list has an element that the second does not have there. -/
def Departs {α : Type} (l l' : List α) : Prop :=
  ∃ (i : ℕ) (x : α), l[i]? = some x ∧ l'[i]? ≠ some x

lemma Departs.ne {α : Type} {l l' : List α} (h : Departs l l') : l ≠ l' := by
  obtain ⟨i, x, hx, hne⟩ := h
  rintro rfl
  exact hne hx

lemma Departs.extend {α : Type} {l₀ l l' : List α} (h : Departs l₀ l') (hle : l₀ <+: l) :
    Departs l l' := by
  obtain ⟨i, x, hx, hne⟩ := h
  obtain ⟨t, rfl⟩ := hle
  refine ⟨i, x, ?_, hne⟩
  rw [List.getElem?_append_left (List.getElem?_eq_some_iff.1 hx).1, hx]

lemma departs_append_cons {α : Type} {l l' : List α} {x y : α} (h : x ≠ y) :
    Departs (l ++ [x]) (l ++ y :: l') := by
  refine ⟨l.length, x, ?_, ?_⟩
  · rw [List.getElem?_append_right (le_refl _), Nat.sub_self]
    rfl
  · rw [List.getElem?_append_right (le_refl _), Nat.sub_self]
    exact fun hy => h (Option.some.inj hy).symm

/-- The texts one after another -/
lemma feed_texts {texts : List Bytes} {recs : List (Recording F)}
    (h : ∀ text ∈ texts, Admissible L text)
    (hrecs : List.Forall₂ (fun text r => loadRecording L text = .ok r) texts recs)
    (s : LiveSession F) :
    ∃ s', (texts.flatMap linesOf).foldlM (LiveSession.feedLine L floatToI64) s = some s' ∧
      s.done <+: s'.done ∧
      ((∀ text ∈ texts, Clean L text) → s'.settled = s.settled ++ recs ∧
        ∀ text ∈ texts.getLast?, s'.isOpen = !hasEndLine L text) ∧
      ((¬∀ text ∈ texts, Clean L text) → Departs s'.done (s.settled ++ recs)) := by
  induction hrecs generalizing s with
  | nil =>
    refine ⟨s, rfl, List.prefix_refl _, fun _ => ⟨(List.append_nil _).symm, ?_⟩, fun hc => ?_⟩
    · exact fun _ hmem => absurd hmem (by simp)
    · exact absurd (fun _ hmem => absurd hmem List.not_mem_nil) hc
  | @cons text r texts recs hload _ ih =>
    obtain ⟨htext, htexts⟩ := List.forall_mem_cons.1 h
    obtain ⟨s₁, hs₁, hle₁, hfed⟩ := feed_text floatToI64 htext hload s
    obtain ⟨s₂, hs₂, hle, hclean, hunclean⟩ := ih htexts s₁
    refine ⟨s₂, ?_, ?_, fun hc => ?_, fun hc => ?_⟩
    · rw [List.flatMap_cons, List.foldlM_append, hs₁]
      exact hs₂
    · exact hle₁.trans hle
    · obtain ⟨hc₁, hc₂⟩ := List.forall_mem_cons.1 hc
      obtain ⟨hsettled, hopen⟩ := hfed.clean hc₁
      obtain ⟨hsettled', hopen'⟩ := hclean hc₂
      refine ⟨?_, ?_⟩
      · rw [hsettled', hsettled, List.append_assoc, List.singleton_append]
      · cases texts with
        | nil =>
          intro text' hlast
          cases hlast
          cases hs₂
          exact hopen
        | cons text' texts => exact hopen'
    · by_cases hc₁ : Clean L text
      · rw [List.forall_mem_cons, not_and] at hc
        have h' := hunclean (hc hc₁)
        rw [(hfed.clean hc₁).1, List.append_assoc, List.singleton_append] at h'
        exact h'
      · obtain ⟨x, hx, hxle⟩ := hfed.unclean hc₁
        exact (departs_append_cons hx).extend (hxle.trans hle)

/-- A live session and a replayed file agree about texts that are clean, and about no others. -/
theorem feedTexts_eq_load_iff (texts : List Bytes) (h : ∀ text ∈ texts, Admissible L text) :
    (∃ s, feedTexts L floatToI64 texts = some s ∧
        List.Forall₂ (fun text r => loadRecording L text = .ok r) texts s.done) ↔
      ∀ text ∈ texts, Clean L text := by
  obtain ⟨recs, hrecs⟩ : ∃ recs,
      List.Forall₂ (fun text r => loadRecording L text = .ok r) texts recs := by
    induction texts with
    | nil => exact ⟨[], .nil⟩
    | cons text texts ih =>
      obtain ⟨htext, htexts⟩ := List.forall_mem_cons.1 h
      obtain ⟨r, hr⟩ := htext.loads
      obtain ⟨recs, hrecs⟩ := ih htexts
      exact ⟨r :: recs, .cons hr hrecs⟩
  obtain ⟨s', hs', -, hclean, hunclean⟩ := feed_texts floatToI64 h hrecs {}
  have hempty : ({} : LiveSession F).settled = [] := settled_of_closed rfl
  rw [hempty, List.nil_append] at hclean hunclean
  rw [feedTexts, hs']
  constructor
  · rintro ⟨s, hs, hrecs'⟩
    by_contra hc
    have hdep := hunclean hc
    cases hs
    have heq := List.right_unique_forall₂'
      (fun a b c hb hc => Except.ok.inj (hb.symm.trans hc)) hrecs' hrecs
    refine Departs.ne (Departs.extend hdep ?_) heq
    split_ifs
    · rw [done_markEof]
      exact done_prefix_settled s'
    · exact List.prefix_refl _
  · intro hc
    obtain ⟨hsettled, hopen⟩ := hclean hc
    refine ⟨_, rfl, ?_⟩
    rw [← hsettled] at hrecs
    split_ifs with hlast
    · rw [done_markEof]
      exact hrecs
    · convert hrecs using 1
      cases hl : texts.getLast? with
      | none =>
        rw [List.getLast?_eq_none_iff.1 hl] at hs'
        cases hs'
        exact (settled_of_closed rfl).symm
      | some text =>
        rw [hl, Option.any_some, Bool.not_eq_true'] at hlast
        refine (settled_of_closed ?_).symm
        rw [hopen text (hl ▸ rfl)]
        simpa using hlast

end Agree

/-- A header with its provenance -/
def headerSample : Bytes :=
  (JText.obj [(ascii "asmtrace", .int 1),
    (ascii "provenance", .obj [(ascii "exact", .bool true)])]).render ++ [10]

/-- One recording cut off in a line, and one with a footer -/
def liveSamples : List Bytes :=
  [headerSample ++ (JText.obj [(ascii "k", .str (ascii "later"))]).render ++ [10] ++ ascii "[1,",
    headerSample ++ (JText.obj [(ascii "k", .str (ascii "note"))]).render ++ [10] ++
      (JText.obj [(ascii "k", .str (ascii "end")), (ascii "events", .int 1)]).render ++ [10]]

lemma admissible_of_check {L : JsonLib F} {text : Bytes}
    (hloads : (loadRecording L text).toOption.isSome = true)
    (h : [] ∉ linesOf text ∧
      (∀ line ∈ (linesOf text).tail, ∀ k ∈ lineKind L line, isServeKind k = false) ∧
      ∀ line ∈ (linesOf text).tail.dropLast, isEndLine L line = false) :
    Admissible L text := by
  cases hload : loadRecording L text with
  | error e =>
    rw [hload] at hloads
    cases hloads
  | ok r => exact ⟨⟨r, hload⟩, h.1, h.2.1, h.2.2⟩

theorem feedTexts_liveSamples :
    ∃ s, feedTexts compactJson (fun x : Empty => x.elim) liveSamples = some s ∧
      List.Forall₂ (fun text r => loadRecording compactJson text = .ok r) liveSamples s.done := by
  refine (feedTexts_eq_load_iff (fun x : Empty => x.elim) liveSamples ?_).2 ?_
  · intro text htext
    rcases List.mem_pair.1 htext with rfl | rfl
    · exact admissible_of_check (by decide +kernel) (by decide +kernel)
    · exact admissible_of_check (by decide +kernel) (by decide +kernel)
  · unfold Clean CleanLine
    decide +kernel

/-- A footer that counts steps -/
def stepsSample : Bytes :=
  headerSample ++
    (JText.obj [(ascii "k", .str (ascii "end")), (ascii "events", .int 0),
      (ascii "steps_total", .int 5)]).render ++ [10]

theorem feedTexts_stepsSample :
    Admissible compactJson stepsSample ∧
      ¬∃ s, feedTexts compactJson (fun x : Empty => x.elim) [stepsSample] = some s ∧
        List.Forall₂ (fun text r => loadRecording compactJson text = .ok r) [stepsSample]
          s.done := by
  refine ⟨admissible_of_check (by decide +kernel) (by decide +kernel), ?_⟩
  rintro ⟨s, hs, hall⟩
  have hlive : (feedTexts compactJson (fun x : Empty => x.elim) [stepsSample]).map
      (fun s => s.done.map Recording.hasStepsTotal) = some [false] := by
    decide +kernel
  have hfile : (loadRecording compactJson stepsSample).toOption.map Recording.hasStepsTotal =
      some true := by
    decide +kernel
  rw [hs] at hlive
  cases hdone : s.done with
  | nil =>
    rw [hdone] at hall
    cases hall
  | cons r rest =>
    rw [hdone] at hall
    cases hall with
    | cons hr hrest =>
      rw [hr] at hfile
      rw [Option.map_some, hdone, List.map_cons, Option.some.inj hfile] at hlive
      cases hlive

end AsmTest.Doc
