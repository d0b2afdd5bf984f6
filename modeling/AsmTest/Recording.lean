import AsmTest.Lib.JsonText
import Mathlib.Data.List.Sort

/-!
# The `.asmtrace` document

The loader takes an NDJSON stream apart: a header line, one event a line, an `end` footer whose
facts are kept as fields. The writer puts the same document together again. What the JSON library
does is a parameter; nothing here depends on more than its laws.
-/

namespace AsmTest.Doc

open Lib

def kAsmtraceMajor : ℤ := 1

structure Producer where
  name : Bytes := []
  version : Bytes := []
deriving DecidableEq, Repr

structure Provenance (F : Type) where
  backend : Bytes := []
  exact : Bool := true
  trust : Bytes := []
  redacted : Bool := false
  /-- The whole object as the header had it -/
  raw : Json F := .null

/-- The identity of the routine's bytes -/
structure Code where
  present : Bool := false
  name : Bytes := []
  sha256 : Bytes := []
  len : ℕ := 0
deriving DecidableEq, Repr

structure Event (F : Type) where
  kind : Bytes
  body : Json F
  /-- Position in the stream, over all kinds -/
  seq : ℕ

structure Recording (F : Type) where
  version : ℤ := 0
  producer : Producer := {}
  provenance : Provenance F := {}
  arch : Bytes := []
  code : Code := {}
  byKind : List (Bytes × List (Event F)) := []
  unknownKinds : ℕ := 0
  nextSeq : ℕ := 0
  hasEnd : Bool := false
  declaredEvents : ℕ := 0
  endTruncated : Bool := false
  dropsLost : ℕ := 0
  dropsThrottled : Bool := false
  torn : Bool := false
  hasStepsTotal : Bool := false
  stepsTotal : ℕ := 0
  skipped : Bool := false
  skipCode : ℤ := 0
  skipReason : Bytes := []

def kKnownKinds : List String :=
  ["trace", "coverage", "syscall", "stream", "call",
   "graph", "topo", "survey", "watch", "df_step",
   "df_edge", "regstate", "result", "note", "stitch",
   "end", "session", "cmd", "err", "codeimage",
   "mem", "blame", "statediff", "procinfo", "vmmap"]

def isKnownKind (kind : Bytes) : Bool :=
  kKnownKinds.any fun k => kind = ascii k

/-- `std::getline` until it fails: every line, and whether the stream ended instead of the line. -/
def getLines : Bytes → List (Bytes × Bool)
  | [] => []
  | b :: rest =>
    if b = 10 then ([], false) :: getLines rest
    else
      match getLines rest with
      | [] => [([b], true)]
      | (line, eof) :: lines => (b :: line, eof) :: lines

abbrev Members (F : Type) := List (Bytes × Json F)

variable {F : Type}

def member (key : String) (m : Members F) : Option (Json F) :=
  mapFind (ascii key) m

/-- `m[key] = v` -/
def assign (key : String) (v : Json F) (m : Members F) : Members F :=
  mapInsert (ascii key) v m

def assignIf (c : Bool) (key : String) (v : Json F) (m : Members F) : Members F :=
  if c then assign key v m else m

def strMember (key : String) (m : Members F) : Option Bytes :=
  (member key m).bind Json.asStr

def boolMember (key : String) (m : Members F) : Option Bool :=
  (member key m).bind Json.asBool

def objMember (key : String) (m : Members F) : Option (Members F) :=
  (member key m).bind Json.asObj

section Loader

variable (L : JsonLib F)

/-- `get<uint64_t>()`, for a number. -/
def getU64 : Json F → Option ℕ
  | .int n => some (n % 2 ^ 64).toNat
  | .float x => some (L.floatToU64 x % 2 ^ 64)
  | _ => none

/-- `get<int>()`, for a number. -/
def getInt : Json F → Option ℤ
  | .int n => some (n.bmod (2 ^ 32))
  | .float x => some ((L.floatToI32 x).bmod (2 ^ 32))
  | _ => none

def asU64 (v : Json F) (dflt : ℕ) : ℕ :=
  (getU64 L v).getD dflt

def u64Member (key : String) (m : Members F) : Option ℕ :=
  (member key m).map (asU64 L · 0)

def intMember (key : String) (m : Members F) : Option ℤ :=
  (member key m).bind (getInt L)

def loadProvenance (prov : Members F) : Except String (Provenance F) :=
  match boolMember "exact" prov with
  | none => .error "line 1: provenance.exact is mandatory and must not be defaulted"
  | some exact => .ok {
      exact
      backend := (strMember "backend" prov).getD []
      trust := (strMember "trust" prov).getD []
      redacted := (boolMember "redacted" prov).getD false
      raw := .obj prov }

def loadProducer (header : Members F) : Producer :=
  match objMember "producer" header with
  | none => {}
  | some p => {
      name := (strMember "name" p).getD []
      version := (strMember "version" p).getD [] }

/-- A `code` object without a hash is as good as none. -/
def loadCode (header : Members F) : Code :=
  match objMember "code" header with
  | none => {}
  | some c =>
    match strMember "sha256" c with
    | none => {}
    | some sha256 => {
        present := true
        sha256
        name := (strMember "name" c).getD []
        len := (u64Member L "len" c).getD 0 }

def loadHeader (line : Bytes) : Except String (Recording F) :=
  match (L.parse line).bind Json.asObj with
  | none => .error "line 1: header is not a JSON object"
  | some header =>
    match (member "asmtrace" header).bind Json.asInt with
    | none => .error "line 1: header has no integer \"asmtrace\" major"
    | some n =>
      let major := n.bmod (2 ^ 32)
      if kAsmtraceMajor < major then
        .error ("asmtrace major " ++ toString major ++ " is newer than this reader's major " ++
          toString kAsmtraceMajor ++ " — refusing by name")
      else
        match objMember "provenance" header with
        | none => .error "line 1: header has no \"provenance\" object (D7: not a recording)"
        | some prov =>
          match loadProvenance prov with
          | .error e => .error e
          | .ok provenance => .ok {
              version := major
              provenance
              producer := loadProducer header
              arch := (strMember "arch" header).getD []
              code := loadCode L header }

/-- The footer is not stored; what it says overrides what an earlier one said. -/
def loadEnd (ev : Members F) (r : Recording F) : Recording F :=
  let drops := (objMember "drops" ev).getD []
  let skip := (objMember "skip" ev).getD []
  { r with
    hasEnd := true
    declaredEvents := (u64Member L "events" ev).getD r.declaredEvents
    endTruncated := (boolMember "truncated" ev).getD r.endTruncated
    dropsLost := (u64Member L "lost" drops).getD r.dropsLost
    dropsThrottled := (boolMember "throttled" drops).getD r.dropsThrottled
    hasStepsTotal := (member "steps_total" ev).isSome || r.hasStepsTotal
    stepsTotal := (u64Member L "steps_total" ev).getD r.stepsTotal
    skipped := (objMember "skip" ev).isSome || r.skipped
    skipCode := (intMember L "code" skip).getD r.skipCode
    skipReason := (strMember "reason" skip).getD r.skipReason }

def pushEvent (k : Bytes) (body : Json F) (r : Recording F) : Recording F :=
  { r with
    byKind := mapInsert k ((mapFind k r.byKind).getD [] ++ [⟨k, body, r.nextSeq⟩]) r.byKind
    nextSeq := r.nextSeq + 1
    unknownKinds := if isKnownKind k then r.unknownKinds else r.unknownKinds + 1 }

/-- One event line that is JSON -/
def loadEvent (lineno : ℕ) (ev : Json F) (r : Recording F) : Except String (Recording F) :=
  match ev.asObj with
  | none => .error ("line " ++ toString lineno ++ ": event is not a JSON object")
  | some m =>
    match strMember "k" m with
    | none => .error ("line " ++ toString lineno ++ ": event has no string \"k\"")
    | some k => .ok (if k = ascii "end" then loadEnd L m r else pushEvent k ev r)

/-- The event lines. Only the last line can be cut off; every other line must be JSON. -/
def loadEvents : ℕ → List (Bytes × Bool) → Recording F → Except String (Recording F)
  | _, [], r => .ok r
  | lineno, (line, eof) :: lines, r =>
    if line = [] then loadEvents (lineno + 1) lines r
    else
      match L.parse line with
      | none =>
        if eof then .ok { r with torn := true }
        else .error ("line " ++ toString lineno ++ ": not valid JSON")
      | some ev =>
        match loadEvent L lineno ev r with
        | .error e => .error e
        | .ok r => loadEvents (lineno + 1) lines r

def loadRecording (text : Bytes) : Except String (Recording F) :=
  match getLines text with
  | [] => .error "empty stream: no header line"
  | (line, _) :: lines =>
    match loadHeader L line with
    | .error e => .error e
    | .ok r =>
      match loadEvents L 2 lines r with
      | .error e => .error e
      -- a file without an `end` is torn
      | .ok r => .ok (if r.hasEnd then r else { r with torn := true })

end Loader

/-- `Recording::event_count` -/
def Recording.eventCount (r : Recording F) : ℕ :=
  (r.byKind.map fun kv => kv.2.length).sum % 2 ^ 64

/-- The events of every kind, back in stream order -/
def Recording.events (r : Recording F) : List (Event F) :=
  (r.byKind.flatMap fun kv => kv.2).insertionSort fun a b => a.seq ≤ b.seq

def saveProducer (p : Producer) : Members F :=
  assignIf (p.version ≠ []) "version" (.str p.version) (assign "name" (.str p.name) [])

/-- Verbatim what was loaded; the decoded fields only where there is no such object. -/
def saveProvenance (p : Provenance F) : Json F :=
  match p.raw.asObj with
  | some m => .obj m
  | none =>
    .obj (assignIf p.redacted "redacted" (.bool true) (assign "trust" (.str p.trust)
      (assign "exact" (.bool p.exact) (assign "backend" (.str p.backend) []))))

def saveCode (c : Code) : Members F :=
  assign "len" (.int c.len) (assign "sha256" (.str c.sha256) (assign "name" (.str c.name) []))

def saveHeader (r : Recording F) : Members F :=
  assignIf r.code.present "code" (.obj (saveCode r.code))
    (assignIf (r.arch ≠ []) "arch" (.str r.arch)
      (assign "provenance" (saveProvenance r.provenance)
        (assignIf (r.producer.name ≠ [] || r.producer.version ≠ []) "producer"
            (.obj (saveProducer r.producer))
          (assign "asmtrace" (.int (if r.version ≠ 0 then r.version else kAsmtraceMajor)) []))))

def saveDrops (r : Recording F) : Members F :=
  assign "throttled" (.bool r.dropsThrottled) (assign "lost" (.int r.dropsLost) [])

def saveSkip (r : Recording F) : Members F :=
  assign "reason" (.str r.skipReason) (assign "code" (.int r.skipCode) [])

def saveEnd (r : Recording F) : Members F :=
  assignIf r.skipped "skip" (.obj (saveSkip r))
    (assignIf r.hasStepsTotal "steps_total" (.int r.stepsTotal)
      (assignIf (r.dropsLost ≠ 0 || r.dropsThrottled) "drops" (.obj (saveDrops r))
        (assignIf r.endTruncated "truncated" (.bool true)
          (assign "events" (.int r.eventCount) (assign "k" (.str (ascii "end")) [])))))

def recordingToAsmtrace (L : JsonLib F) (r : Recording F) : Bytes :=
  (Json.obj (saveHeader r) :: r.events.map Event.body ++
    if r.hasEnd then [Json.obj (saveEnd r)] else []).flatMap fun j => L.dump j ++ [10]

section Lines

/-- Lines that are written out come back as they were. -/
lemma getLines_line_append (line rest : Bytes) (h : 10 ∉ line) :
    getLines (line ++ 10 :: rest) = (line, false) :: getLines rest := by
  induction line with
  | nil => rw [List.nil_append, getLines, if_pos rfl]
  | cons b line ih =>
    obtain ⟨hb, hline⟩ := not_or.1 (List.mem_cons.not.1 h)
    rw [List.cons_append, getLines, if_neg (Ne.symm hb), ih hline]

lemma getLines_dumps (L : JsonLib F) (hL : L.Lawful) (js : List (Json F)) :
    getLines (js.flatMap fun j => L.dump j ++ [10]) = js.map fun j => (L.dump j, false) := by
  induction js with
  | nil => rfl
  | cons j js ih =>
    rw [List.flatMap_cons, List.append_assoc, List.singleton_append,
      getLines_line_append _ _ (hL.newline_notMem_dump j), ih, List.map_cons]

end Lines

section Members

@[simp] lemma member_nil (key : String) : member key ([] : Members F) = none :=
  rfl

@[simp] lemma member_assign (key key' : String) (v : Json F) (m : Members F) :
    member key (assign key' v m) = if ascii key = ascii key' then some v else member key m := by
  rw [member, assign, mapFind_mapInsert]
  congr

@[simp] lemma member_assignIf (c : Bool) (key key' : String) (v : Json F) (m : Members F) :
    member key (assignIf c key' v m) =
      if c = true ∧ ascii key = ascii key' then some v else member key m := by
  cases c <;> simp [assignIf]

lemma wf_assign {m : Members F} (hm : (Json.obj m).WF) {key : String}
    (hkey : utf8Ok (ascii key) = true) {v : Json F} (hv : v.WF) : (Json.obj (assign key v m)).WF :=
  hm.mapInsert hkey hv

lemma wf_assignIf {m : Members F} (hm : (Json.obj m).WF) {c : Bool} {key : String}
    (hkey : utf8Ok (ascii key) = true) {v : Json F} (hv : c = true → v.WF) :
    (Json.obj (assignIf c key v m)).WF := by
  cases c with
  | false => exact hm
  | true => exact wf_assign hm hkey (hv rfl)

lemma wf_u64 {n : ℕ} (h : n < 2 ^ 64) : (Json.int n : Json F).WF :=
  .int (by omega) (by omega)

end Members

section Stream

/-- The fields that hold the events are the same. -/
structure SameEvents (r r' : Recording F) : Prop where
  byKind : r.byKind = r'.byKind
  nextSeq : r.nextSeq = r'.nextSeq
  unknownKinds : r.unknownKinds = r'.unknownKinds

/-- The kinds and bodies of a stream, taken in from the front -/
def pushAll (evs : List (Bytes × Json F)) (r : Recording F) : Recording F :=
  evs.foldl (fun r e => pushEvent e.1 e.2 r) r

/-- The events of a stream that starts at position `n` -/
def stamp : ℕ → List (Bytes × Json F) → List (Event F)
  | _, [] => []
  | n, e :: evs => ⟨e.1, e.2, n⟩ :: stamp (n + 1) evs

lemma SameEvents.pushEvent {r r' : Recording F} (h : SameEvents r r') (k : Bytes) (body : Json F) :
    SameEvents (pushEvent k body r) (pushEvent k body r') := by
  obtain ⟨hkind, hseq, hunknown⟩ := h
  constructor <;> simp [Doc.pushEvent, hkind, hseq, hunknown]

lemma SameEvents.pushAll {r r' : Recording F} (h : SameEvents r r') (evs : List (Bytes × Json F)) :
    SameEvents (pushAll evs r) (pushAll evs r') := by
  induction evs generalizing r r' with
  | nil => exact h
  | cons e evs ih => exact ih (h.pushEvent e.1 e.2)

lemma pushAll_append (evs evs' : List (Bytes × Json F)) (r : Recording F) :
    pushAll (evs ++ evs') r = pushAll evs' (pushAll evs r) :=
  List.foldl_append

/-- Taking in events touches no other field. -/
lemma exists_pushAll_eq (evs : List (Bytes × Json F)) (r : Recording F) :
    ∃ byKind nextSeq unknownKinds, pushAll evs r = { r with byKind, nextSeq, unknownKinds } := by
  induction evs generalizing r with
  | nil => exact ⟨_, _, _, rfl⟩
  | cons e evs ih =>
    obtain ⟨m, n, u, h⟩ := ih (pushEvent e.1 e.2 r)
    exact ⟨m, n, u, h⟩

lemma mapFind_eq_none_of_lt {K V : Type} [LinearOrder K] {k : K} {m : List (K × V)}
    (h : ∀ e ∈ m, k < e.1) : mapFind k m = none := by
  induction m with
  | nil => rfl
  | cons e m ih =>
    rw [mapFind, if_neg (h e List.mem_cons_self).ne,
      ih fun e' he' => h e' (List.mem_cons_of_mem _ he')]

/-- An event joins its kind and nothing else moves. -/
lemma flatMap_push_perm {m : List (Bytes × List (Event F))} (hm : KeysSorted m) (k : Bytes)
    (e : Event F) :
    ((mapInsert k ((mapFind k m).getD [] ++ [e]) m).flatMap fun kv => kv.2).Perm
      (m.flatMap (fun kv => kv.2) ++ [e]) := by
  induction m with
  | nil => exact List.Perm.refl _
  | cons kv m ih =>
    obtain ⟨k', es⟩ := kv
    obtain ⟨hhead, htail⟩ := List.pairwise_cons.1 hm
    rw [mapFind, mapInsert]
    split_ifs with hk hlt
    · simp only [List.flatMap_cons, Option.getD_some, List.append_assoc]
      exact List.perm_append_comm.append_left es
    · have hnone : mapFind k m = none :=
        mapFind_eq_none_of_lt fun e' he' => hlt.trans (hhead e' he')
      simp only [hnone, Option.getD_none, List.nil_append, List.flatMap_cons]
      exact @List.perm_append_comm _ [e] _
    · simp only [List.flatMap_cons, List.append_assoc]
      exact (ih htail).append_left es

lemma flatMap_pushAll_perm (evs : List (Bytes × Json F)) {r : Recording F}
    (h : KeysSorted r.byKind) :
    ((pushAll evs r).byKind.flatMap fun kv => kv.2).Perm
      (r.byKind.flatMap (fun kv => kv.2) ++ stamp r.nextSeq evs) := by
  induction evs generalizing r with
  | nil => rw [stamp, List.append_nil]; exact List.Perm.refl _
  | cons e evs ih =>
    have hpush := flatMap_push_perm h e.1 ⟨e.1, e.2, r.nextSeq⟩
    calc ((pushAll evs (pushEvent e.1 e.2 r)).byKind.flatMap fun kv => kv.2).Perm _ :=
          ih (keysSorted_mapInsert _ _ h)
      _ |>.Perm _ := hpush.append_right (stamp (r.nextSeq + 1) evs)
      _ = _ := by simp [stamp]

lemma le_seq_of_mem_stamp {n : ℕ} {evs : List (Bytes × Json F)} {e : Event F}
    (h : e ∈ stamp n evs) : n ≤ e.seq ∧ e.seq < n + evs.length := by
  induction evs generalizing n with
  | nil => simp [stamp] at h
  | cons e' evs ih =>
    rcases List.mem_cons.1 h with rfl | h
    · simp
    · obtain ⟨hlo, hhi⟩ := ih h
      simp only [List.length_cons]
      omega

lemma pairwise_stamp (n : ℕ) (evs : List (Bytes × Json F)) :
    (stamp n evs).Pairwise fun a b => a.seq < b.seq := by
  induction evs generalizing n with
  | nil => exact List.Pairwise.nil
  | cons e evs ih =>
    refine List.pairwise_cons.2 ⟨fun e' he' => ?_, ih (n + 1)⟩
    exact (le_seq_of_mem_stamp he').1

/-- Sorting by position undoes the grouping by kind. -/
lemma insertionSort_eq_of_perm {es es' : List (Event F)} (hperm : es.Perm es')
    (h : es'.Pairwise fun a b => a.seq < b.seq) :
    (es.insertionSort fun a b => a.seq ≤ b.seq) = es' := by
  have hsorted : (es.insertionSort fun a b => a.seq ≤ b.seq).Pairwise fun a b => a.seq ≤ b.seq :=
    List.Pairwise.imp (fun h => h)
      (@List.pairwise_insertionSort _ (fun a b : Event F => a.seq ≤ b.seq) _
        ⟨fun a b => le_total a.seq b.seq⟩ ⟨fun _ _ _ => le_trans⟩ es)
  refine List.Perm.eq_of_pairwise ?_ hsorted (h.imp le_of_lt)
    ((List.perm_insertionSort _ es).trans hperm)
  intro a b ha hb hab hba
  have hne : es'.Pairwise fun a b => a.seq ≠ b.seq := h.imp ne_of_lt
  have : Std.Symm fun a b : Event F => a.seq ≠ b.seq := ⟨fun _ _ => Ne.symm⟩
  by_contra hab'
  exact hne.forall (hperm.subset ((List.mem_insertionSort _).1 ha)) hb hab' (le_antisymm hab hba)

lemma events_pushAll (evs : List (Bytes × Json F)) (r : Recording F)
    (h : SameEvents r (pushAll evs {})) : r.events = stamp 0 evs := by
  rw [Recording.events, h.byKind]
  exact insertionSort_eq_of_perm (flatMap_pushAll_perm evs keysSorted_nil) (pairwise_stamp 0 evs)

lemma map_body_stamp (n : ℕ) (evs : List (Bytes × Json F)) :
    (stamp n evs).map Event.body = evs.map Prod.snd := by
  induction evs generalizing n with
  | nil => rfl
  | cons e evs ih => simp [stamp, ih]

end Stream

section Loaded

variable (L : JsonLib F)

/-- A header that the writer can write; read again, its provenance is `p`. -/
structure HeaderOk (r : Recording F) (p : Provenance F) : Prop where
  version : -2 ^ 31 ≤ r.version ∧ r.version ≤ kAsmtraceMajor
  provenance : ∃ prov, (Json.obj prov).WF ∧ r.provenance.raw = .obj prov ∧
    loadProvenance prov = .ok p
  producer : utf8Ok r.producer.name = true ∧ utf8Ok r.producer.version = true
  arch : utf8Ok r.arch = true
  code : r.code.present = false → r.code = {}
  codeOk : utf8Ok r.code.name = true ∧ utf8Ok r.code.sha256 = true ∧ r.code.len < 2 ^ 64

/-- The footer's fields are values of their types. -/
structure FooterRange (r : Recording F) : Prop where
  dropsLost : r.dropsLost < 2 ^ 64
  stepsTotal : r.stepsTotal < 2 ^ 64
  skipCode : -2 ^ 31 ≤ r.skipCode ∧ r.skipCode < 2 ^ 31
  skipReason : utf8Ok r.skipReason = true

/-- The footer's fields are at their defaults unless a footer said otherwise. -/
structure FooterOk (r : Recording F) : Prop extends FooterRange r where
  noEnd : r.hasEnd = false → r.endTruncated = false ∧ r.dropsLost = 0 ∧
    r.dropsThrottled = false ∧ r.hasStepsTotal = false ∧ r.skipped = false
  noSteps : r.hasStepsTotal = false → r.stepsTotal = 0
  noSkip : r.skipped = false → r.skipCode = 0 ∧ r.skipReason = []

/-- An event line that is stored: the body names its kind, which is not the footer's. -/
def Storable (e : Bytes × Json F) : Prop :=
  e.2.WF ∧ e.1 ≠ ascii "end" ∧ ∃ m, e.2 = .obj m ∧ strMember "k" m = some e.1

/-- A document that the loader can have built, with its stream of events -/
structure Loaded (r : Recording F) (evs : List (Bytes × Json F)) : Prop where
  header : HeaderOk r r.provenance
  footer : FooterOk r
  events : SameEvents r (pushAll evs {})
  storable : ∀ e ∈ evs, Storable e

lemma utf8Ok_strMember {m : Members F} (hm : (Json.obj m).WF) (key : String) :
    utf8Ok ((strMember key m).getD []) = true := by
  rw [strMember]
  cases h : member key m with
  | none => rfl
  | some j =>
    have hj : j.WF := hm.of_mapFind h
    cases j with
    | str s => exact hj.utf8Ok_str
    | _ => rfl

lemma wf_objMember {m m' : Members F} (hm : (Json.obj m).WF) {key : String}
    (h : objMember key m = some m') : (Json.obj m').WF := by
  obtain ⟨j, hj, hobj⟩ := Option.bind_eq_some_iff.1 h
  exact Json.asObj_eq_some.1 hobj ▸ hm.of_mapFind hj

lemma asU64_lt (j : Json F) : asU64 L j 0 < 2 ^ 64 := by
  cases j with
  | int n =>
    simp only [asU64, getU64, Option.getD_some]
    omega
  | float x => exact Nat.mod_lt _ (by norm_num)
  | _ => norm_num [asU64, getU64]

lemma getD_u64Member_lt (key : String) (m : Members F) {n : ℕ} (hn : n < 2 ^ 64) :
    (u64Member L key m).getD n < 2 ^ 64 := by
  rw [u64Member]
  cases member key m with
  | none => exact hn
  | some j => exact asU64_lt L j

lemma bmod_int_range (n : ℤ) :
    -2 ^ 31 ≤ n.bmod (2 ^ 32) ∧ n.bmod (2 ^ 32) < 2 ^ 31 := by
  have hlo := @Int.le_bmod n (2 ^ 32) (by norm_num)
  have hhi := @Int.bmod_lt n (2 ^ 32) (by norm_num)
  norm_num at hlo hhi ⊢
  omega

lemma getD_intMember_range (key : String) (m : Members F) {n : ℤ}
    (hn : -2 ^ 31 ≤ n ∧ n < 2 ^ 31) :
    -2 ^ 31 ≤ (intMember L key m).getD n ∧ (intMember L key m).getD n < 2 ^ 31 := by
  rw [intMember]
  cases member key m with
  | none => exact hn
  | some j =>
    cases j with
    | int n => exact bmod_int_range n
    | float x => exact bmod_int_range _
    | _ => exact hn

lemma utf8Ok_loadProducer {header : Members F} (h : (Json.obj header).WF) :
    utf8Ok (loadProducer header).name = true ∧ utf8Ok (loadProducer header).version = true := by
  rw [loadProducer]
  cases hp : objMember "producer" header with
  | none => exact ⟨rfl, rfl⟩
  | some p =>
    have hwf := wf_objMember h hp
    exact ⟨utf8Ok_strMember hwf _, utf8Ok_strMember hwf _⟩

lemma loadCode_ok {header : Members F} (h : (Json.obj header).WF) :
    ((loadCode L header).present = false → loadCode L header = {}) ∧
      utf8Ok (loadCode L header).name = true ∧ utf8Ok (loadCode L header).sha256 = true ∧
      (loadCode L header).len < 2 ^ 64 := by
  rw [loadCode]
  cases hc : objMember "code" header with
  | none => exact ⟨fun _ => rfl, rfl, rfl, by norm_num⟩
  | some c =>
    have hwf := wf_objMember h hc
    have hsha := utf8Ok_strMember hwf "sha256"
    dsimp only
    cases hs : strMember "sha256" c with
    | none => exact ⟨fun _ => rfl, rfl, rfl, by norm_num⟩
    | some sha256 =>
      rw [hs] at hsha
      exact ⟨by simp, utf8Ok_strMember hwf _, hsha, getD_u64Member_lt L _ _ (by norm_num)⟩

lemma loadProvenance_raw {prov : Members F} {p : Provenance F} (h : loadProvenance prov = .ok p) :
    p.raw = .obj prov := by
  rw [loadProvenance] at h
  split at h
  · cases h
  · obtain rfl := Except.ok.inj h
    rfl

/-- The header starts a document without events and without a footer. -/
lemma loadHeader_loaded (hL : L.Lawful) {line : Bytes} {r : Recording F}
    (h : loadHeader L line = .ok r) : Loaded r [] := by
  rw [loadHeader] at h
  split at h
  · cases h
  rename_i header hparse
  obtain ⟨j, hj, hobj⟩ := Option.bind_eq_some_iff.1 hparse
  obtain rfl := Json.asObj_eq_some.1 hobj
  have hwf : (Json.obj header).WF := hL.parse_wf hj
  split at h
  · cases h
  rename_i n hn
  dsimp only at h
  split_ifs at h with hmajor
  split at h
  · cases h
  rename_i prov hprov
  split at h
  · cases h
  rename_i provenance hload
  obtain rfl := Except.ok.inj h
  obtain ⟨hcode, hcodeOk⟩ := loadCode_ok L hwf
  refine ⟨⟨⟨(bmod_int_range n).1, not_lt.1 hmajor⟩, ⟨prov, wf_objMember hwf hprov, loadProvenance_raw hload, hload⟩,
    utf8Ok_loadProducer hwf, utf8Ok_strMember hwf _, hcode, hcodeOk⟩, ?_, ⟨rfl, rfl, rfl⟩, by simp⟩
  refine ⟨⟨?_, ?_, ?_, ?_⟩, ?_, ?_, ?_⟩ <;> simp [utf8Ok, utf8From]

lemma footerOk_loadEnd {m : Members F} (hm : (Json.obj m).WF) {r : Recording F}
    (h : FooterOk r) : FooterOk (loadEnd L m r) := by
  have hskip : (Json.obj ((objMember "skip" m).getD [])).WF := by
    cases hs : objMember "skip" m with
    | none => exact .obj_nil
    | some skip => exact wf_objMember hm hs
  refine ⟨⟨?dropsLost, ?stepsTotal, ?skipCode, ?skipReason⟩, ?noEnd, ?noSteps, ?noSkip⟩
  case noEnd => simp [loadEnd]
  case noSteps =>
    intro hsteps
    simp only [loadEnd, Bool.or_eq_false_iff, Option.isSome_eq_false_iff, Option.isNone_iff_eq_none]
      at hsteps
    simp [loadEnd, u64Member, hsteps.1, h.noSteps hsteps.2]
  case noSkip =>
    intro hskipped
    simp only [loadEnd, Bool.or_eq_false_iff, Option.isSome_eq_false_iff, Option.isNone_iff_eq_none]
      at hskipped
    simp [loadEnd, intMember, strMember, hskipped.1, h.noSkip hskipped.2]
  case dropsLost => exact getD_u64Member_lt L _ _ h.dropsLost
  case stepsTotal => exact getD_u64Member_lt L _ _ h.stepsTotal
  case skipCode => exact getD_intMember_range L _ _ h.skipCode
  case skipReason =>
    have hreason := utf8Ok_strMember hskip "reason"
    simp only [loadEnd]
    cases hr : strMember "reason" ((objMember "skip" m).getD []) with
    | none => exact h.skipReason
    | some s => rw [hr] at hreason; exact hreason

lemma FooterOk.withEvents {r : Recording F} (h : FooterOk r) (byKind : List (Bytes × List (Event F)))
    (nextSeq unknownKinds : ℕ) : FooterOk { r with byKind, nextSeq, unknownKinds } :=
  ⟨⟨h.dropsLost, h.stepsTotal, h.skipCode, h.skipReason⟩, h.noEnd, h.noSteps, h.noSkip⟩

/-- One event line keeps the document loaded; a footer adds no event. -/
lemma loadEvent_loaded {lineno : ℕ} {ev : Json F} (hev : ev.WF) {r r' : Recording F}
    {evs : List (Bytes × Json F)} (hr : Loaded r evs) (h : loadEvent L lineno ev r = .ok r') :
    ∃ evs', Loaded r' evs' := by
  rw [loadEvent] at h
  split at h
  · cases h
  rename_i m hobj
  obtain rfl := Json.asObj_eq_some.1 hobj
  split at h
  · cases h
  rename_i k hk
  obtain rfl := Except.ok.inj h
  split_ifs with hend
  · refine ⟨evs, ?_, footerOk_loadEnd L hev hr.footer, ?_, hr.storable⟩
    · exact ⟨hr.header.version, hr.header.provenance, hr.header.producer, hr.header.arch,
        hr.header.code, hr.header.codeOk⟩
    · exact ⟨hr.events.byKind, hr.events.nextSeq, hr.events.unknownKinds⟩
  · refine ⟨evs ++ [(k, .obj m)], ?_, ?_, ?_, ?_⟩
    · exact ⟨hr.header.version, hr.header.provenance, hr.header.producer, hr.header.arch,
        hr.header.code, hr.header.codeOk⟩
    · exact hr.footer.withEvents _ _ _
    · rw [pushAll_append]
      exact hr.events.pushEvent k (.obj m)
    · intro e he
      rcases List.mem_append.1 he with he | he
      · exact hr.storable e he
      · obtain rfl := List.mem_singleton.1 he
        exact ⟨hev, hend, m, rfl, hk⟩

lemma Loaded.torn {r : Recording F} {evs : List (Bytes × Json F)} (h : Loaded r evs) (b : Bool) :
    Loaded { r with torn := b } evs :=
  ⟨⟨h.header.version, h.header.provenance, h.header.producer, h.header.arch, h.header.code,
      h.header.codeOk⟩,
    ⟨⟨h.footer.dropsLost, h.footer.stepsTotal, h.footer.skipCode, h.footer.skipReason⟩,
      h.footer.noEnd, h.footer.noSteps, h.footer.noSkip⟩,
    ⟨h.events.byKind, h.events.nextSeq, h.events.unknownKinds⟩, h.storable⟩

lemma loadEvents_loaded (hL : L.Lawful) {lineno : ℕ} {lines : List (Bytes × Bool)}
    {r r' : Recording F} {evs : List (Bytes × Json F)} (hr : Loaded r evs)
    (h : loadEvents L lineno lines r = .ok r') : ∃ evs', Loaded r' evs' := by
  induction lines generalizing lineno r evs with
  | nil =>
    obtain rfl := Except.ok.inj h
    exact ⟨evs, hr⟩
  | cons line lines ih =>
    rw [loadEvents] at h
    by_cases hnil : line.1 = []
    · rw [if_pos hnil] at h
      exact ih hr h
    rw [if_neg hnil] at h
    split at h
    · split_ifs at h with heof
      obtain rfl := Except.ok.inj h
      exact ⟨evs, hr.torn true⟩
    · rename_i ev hparse
      split at h
      · cases h
      rename_i r₁ hev
      obtain ⟨evs₁, hr₁⟩ := loadEvent_loaded L (hL.parse_wf hparse) hr hev
      exact ih hr₁ h

theorem loadRecording_loaded (hL : L.Lawful) {text : Bytes} {r : Recording F}
    (h : loadRecording L text = .ok r) : ∃ evs, Loaded r evs := by
  rw [loadRecording] at h
  split at h
  · cases h
  split at h
  · cases h
  rename_i r₀ hheader
  split at h
  · cases h
  rename_i r₁ hevents
  obtain ⟨evs, hr₁⟩ := loadEvents_loaded L hL (loadHeader_loaded L hL hheader) hevents
  obtain rfl := Except.ok.inj h
  split_ifs
  · exact ⟨evs, hr₁⟩
  · exact ⟨evs, hr₁.torn true⟩

end Loaded

section Reload

lemma wf_saveProducer {p : Producer} (h : utf8Ok p.name = true ∧ utf8Ok p.version = true) :
    (Json.obj (saveProducer p : Members F)).WF :=
  wf_assignIf (wf_assign .obj_nil rfl (.str h.1)) rfl fun _ => .str h.2

lemma saveProvenance_eq {prov : Members F} {p : Provenance F} (h : p.raw = .obj prov) :
    saveProvenance p = .obj prov := by
  rw [saveProvenance, h]
  rfl

lemma wf_saveCode {c : Code}
    (h : utf8Ok c.name = true ∧ utf8Ok c.sha256 = true ∧ c.len < 2 ^ 64) :
    (Json.obj (saveCode c : Members F)).WF :=
  wf_assign (wf_assign (wf_assign .obj_nil rfl (.str h.1)) rfl (.str h.2.1)) rfl (wf_u64 h.2.2)

lemma wf_saveHeader {r : Recording F} {p : Provenance F} (h : HeaderOk r p) :
    (Json.obj (saveHeader r)).WF := by
  obtain ⟨prov, hprov, hraw, -⟩ := h.provenance
  have hversion := h.version
  have hmajor : (Json.int (if r.version ≠ 0 then r.version else kAsmtraceMajor) : Json F).WF := by
    rw [kAsmtraceMajor] at *
    split_ifs
    · exact .int (by omega) (by omega)
    · exact .int (by norm_num) (by norm_num)
  refine wf_assignIf (wf_assignIf (wf_assign (wf_assignIf (wf_assign .obj_nil rfl hmajor) rfl
    fun _ => wf_saveProducer h.producer) rfl ?_) rfl fun _ => .str h.arch) rfl
    fun _ => wf_saveCode h.codeOk
  rw [saveProvenance_eq hraw]
  exact hprov

lemma loadProducer_saveHeader (r : Recording F) : loadProducer (saveHeader r) = r.producer := by
  rcases hp : r.producer with ⟨name, version⟩
  by_cases hn : name = [] <;> by_cases hv : version = [] <;>
    simp +decide [loadProducer, objMember, strMember, saveHeader, saveProducer, Json.asObj,
      Json.asStr, hp, hn, hv]

lemma loadCode_saveHeader (L : JsonLib F) {r : Recording F} {p : Provenance F} (h : HeaderOk r p) :
    loadCode L (saveHeader r) = r.code := by
  have hlen : (r.code.len : ℤ) % 2 ^ 64 = r.code.len :=
    Int.emod_eq_of_lt (by positivity) (by exact_mod_cast h.codeOk.2.2)
  cases hc : r.code.present with
  | false =>
    rw [h.code hc]
    simp +decide [loadCode, objMember, saveHeader, hc]
  | true =>
    rcases hcode : r.code with ⟨present, name, sha256, len⟩
    rw [hcode] at hc hlen
    obtain rfl : present = true := hc
    simp +decide [loadCode, objMember, strMember, u64Member, asU64, getU64, saveHeader, saveCode,
      Json.asObj, Json.asStr, hcode]
    simpa using congrArg Int.toNat hlen

/-- A document as it stands after its header line, with provenance `p` -/
def headOf (r : Recording F) (p : Provenance F) : Recording F where
  version := if r.version ≠ 0 then r.version else kAsmtraceMajor
  producer := r.producer
  provenance := p
  arch := r.arch
  code := r.code

lemma loadHeader_saveHeader (L : JsonLib F) (hL : L.Lawful) {r : Recording F} {p : Provenance F}
    (h : HeaderOk r p) :
    loadHeader L (L.dump (.obj (saveHeader r))) = .ok (headOf r p) := by
  obtain ⟨prov, hprov, hraw, hload⟩ := h.provenance
  obtain ⟨hlo, hhi⟩ := h.version
  have hmajor : (member "asmtrace" (saveHeader r)).bind Json.asInt =
      some (if r.version ≠ 0 then r.version else kAsmtraceMajor) := by
    simp +decide [saveHeader, Json.asInt]
  have hobj : objMember "provenance" (saveHeader r) = some prov := by
    simp +decide [objMember, saveHeader, saveProvenance_eq hraw, Json.asObj]
  have harch : (strMember "arch" (saveHeader r)).getD [] = r.arch := by
    by_cases ha : r.arch = [] <;> simp +decide [strMember, saveHeader, Json.asStr, ha]
  have hparse : (L.parse (L.dump (.obj (saveHeader r)))).bind Json.asObj = some (saveHeader r) := by
    rw [hL.parse_dump (wf_saveHeader h)]
    rfl
  set major := if r.version ≠ 0 then r.version else kAsmtraceMajor with hv
  have hle : major ≤ kAsmtraceMajor ∧ -2 ^ 31 ≤ major := by
    rw [hv]
    split_ifs
    · exact ⟨hhi, hlo⟩
    · rw [kAsmtraceMajor]
      norm_num
  have hbmod : major.bmod (2 ^ 32) = major := by
    have hk : kAsmtraceMajor = 1 := rfl
    exact Int.bmod_eq_of_le (by norm_num; omega) (by norm_num; omega)
  rw [loadHeader, hparse]
  dsimp only
  rw [hmajor]
  dsimp only
  rw [hbmod, if_neg (not_lt.2 hle.1), hobj]
  dsimp only
  rw [hload, loadProducer_saveHeader, loadCode_saveHeader L h, harch]
  rfl

/-- A stored event that is read again is stored again. -/
lemma loadEvents_dump_cons (L : JsonLib F) (hL : L.Lawful) (lineno : ℕ) (lines : List (Bytes × Bool))
    (r : Recording F) {e : Bytes × Json F} (h : Storable e) :
    loadEvents L lineno ((L.dump e.2, false) :: lines) r =
      loadEvents L (lineno + 1) lines (pushEvent e.1 e.2 r) := by
  obtain ⟨k, body⟩ := e
  obtain ⟨hwf, hend, m, rfl, hk⟩ := h
  have hev : loadEvent L lineno (.obj m) r = .ok (pushEvent k (.obj m) r) := by
    simp [loadEvent, Json.asObj, hk, hend]
  rw [loadEvents, if_neg (hL.dump_ne_nil hwf), hL.parse_dump hwf]
  dsimp only
  rw [hev]

lemma loadEvents_dumps (L : JsonLib F) (hL : L.Lawful) (lines : List (Bytes × Bool))
    {evs : List (Bytes × Json F)} (h : ∀ e ∈ evs, Storable e) (lineno : ℕ) (r : Recording F) :
    loadEvents L lineno ((evs.map Prod.snd).map (fun j => (L.dump j, false)) ++ lines) r =
      loadEvents L (lineno + evs.length) lines (pushAll evs r) := by
  induction evs generalizing lineno r with
  | nil => rfl
  | cons e evs ih =>
    rw [List.map_cons, List.map_cons, List.cons_append,
      loadEvents_dump_cons L hL _ _ _ (h e List.mem_cons_self),
      ih fun e' he' => h e' (List.mem_cons_of_mem _ he')]
    simp only [List.length_cons, pushAll, List.foldl_cons]
    congr 1
    omega

lemma eventCount_lt (r : Recording F) : r.eventCount < 2 ^ 64 :=
  Nat.mod_lt _ (by norm_num)

lemma wf_saveEnd {r : Recording F} (h : FooterRange r) : (Json.obj (saveEnd r)).WF := by
  have hskip : (Json.obj (saveSkip r)).WF :=
    wf_assign (wf_assign .obj_nil rfl (.int (by have := h.skipCode; omega)
      (by have := h.skipCode; omega))) rfl (.str h.skipReason)
  have hdrops : (Json.obj (saveDrops r)).WF :=
    wf_assign (wf_assign .obj_nil rfl (wf_u64 h.dropsLost)) rfl (.bool _)
  exact wf_assignIf (wf_assignIf (wf_assignIf (wf_assignIf (wf_assign (wf_assign .obj_nil rfl
    (.str rfl)) rfl (wf_u64 (eventCount_lt r))) rfl fun _ => .bool _) rfl fun _ => hdrops) rfl
    fun _ => wf_u64 h.stepsTotal) rfl fun _ => hskip

lemma asU64_int (L : JsonLib F) {n : ℕ} (h : n < 2 ^ 64) : asU64 L (.int n) 0 = n := by
  simp only [asU64, getU64, Option.getD_some]
  omega

lemma getInt_int (L : JsonLib F) {n : ℤ} (h : -2 ^ 31 ≤ n ∧ n < 2 ^ 31) :
    getInt L (.int n) = some n := by
  rw [getInt, Int.bmod_eq_of_le (by norm_num; omega) (by norm_num; omega)]

section Footer

variable (L : JsonLib F) (r : Recording F)

lemma member_events_saveEnd : member "events" (saveEnd r) = some (.int r.eventCount) := by
  simp +decide [saveEnd]

lemma boolMember_truncated_saveEnd :
    (boolMember "truncated" (saveEnd r)).getD false = r.endTruncated := by
  cases ht : r.endTruncated <;> simp +decide [saveEnd, boolMember, Json.asBool, ht]

lemma objMember_drops_saveEnd :
    objMember "drops" (saveEnd r) =
      if r.dropsLost ≠ 0 ∨ r.dropsThrottled = true then some (saveDrops r) else none := by
  have hmem : member "drops" (saveEnd r) =
      if r.dropsLost ≠ 0 ∨ r.dropsThrottled = true then some (.obj (saveDrops r)) else none := by
    simp +decide [saveEnd]
  rw [objMember, hmem]
  split_ifs <;> rfl

lemma member_steps_saveEnd :
    member "steps_total" (saveEnd r) =
      if r.hasStepsTotal then some (.int r.stepsTotal) else none := by
  simp +decide [saveEnd]

lemma objMember_skip_saveEnd :
    objMember "skip" (saveEnd r) = if r.skipped then some (saveSkip r) else none := by
  cases hs : r.skipped <;> simp +decide [saveEnd, objMember, Json.asObj, hs]

end Footer

/-- The written footer, read into a document that has none yet, gives the facts it was made of. -/
lemma loadEnd_saveEnd (L : JsonLib F) {r r' : Recording F} (h : FooterOk r) (hend : r'.hasEnd = false)
    (h' : FooterOk r') :
    loadEnd L (saveEnd r) r' = { r' with
      hasEnd := true
      declaredEvents := r.eventCount
      endTruncated := r.endTruncated
      dropsLost := r.dropsLost
      dropsThrottled := r.dropsThrottled
      hasStepsTotal := r.hasStepsTotal
      stepsTotal := r.stepsTotal
      skipped := r.skipped
      skipCode := r.skipCode
      skipReason := r.skipReason } := by
  obtain ⟨htrunc, hlost, hthrottled, hsteps, hskip⟩ := h'.noEnd hend
  have hstepsTotal := h'.noSteps hsteps
  obtain ⟨hcode, hreason⟩ := h'.noSkip hskip
  rw [loadEnd]
  congr 1
  · rw [u64Member, member_events_saveEnd, Option.map_some, Option.getD_some,
      asU64_int L (eventCount_lt r)]
  · rw [htrunc]
    exact boolMember_truncated_saveEnd r
  · rw [objMember_drops_saveEnd, hlost]
    split_ifs with hd
    · simp +decide [saveDrops, u64Member, asU64_int L h.dropsLost]
    · simp_all [u64Member]
  · rw [objMember_drops_saveEnd, hthrottled]
    split_ifs with hd
    · simp +decide [saveDrops, boolMember, Json.asBool]
    · simp_all [boolMember]
  · rw [member_steps_saveEnd, hsteps]
    cases r.hasStepsTotal <;> rfl
  · rw [u64Member, member_steps_saveEnd, hstepsTotal]
    cases hs : r.hasStepsTotal with
    | false => simp [h.noSteps hs]
    | true => simp [asU64_int L h.stepsTotal]
  · rw [objMember_skip_saveEnd, hskip]
    cases r.skipped <;> rfl
  · rw [objMember_skip_saveEnd, hcode]
    cases hs : r.skipped with
    | false => simp [intMember, h.noSkip hs]
    | true => simp +decide [intMember, saveSkip, getInt_int L h.skipCode]
  · rw [objMember_skip_saveEnd, hreason]
    cases hs : r.skipped with
    | false => simp [strMember, h.noSkip hs]
    | true => simp +decide [strMember, saveSkip, Json.asStr]

lemma loadEvents_saveEnd (L : JsonLib F) (hL : L.Lawful) {r : Recording F} (h : FooterRange r)
    (lineno : ℕ) (r' : Recording F) :
    loadEvents L lineno [(L.dump (.obj (saveEnd r)), false)] r' =
      .ok (loadEnd L (saveEnd r) r') := by
  have hk : strMember "k" (saveEnd r) = some (ascii "end") := by
    simp +decide [strMember, saveEnd, Json.asStr]
  have hev : loadEvent L lineno (.obj (saveEnd r)) r' = .ok (loadEnd L (saveEnd r) r') := by
    simp [loadEvent, Json.asObj, hk]
  rw [loadEvents, if_neg (hL.dump_ne_nil (wf_saveEnd h)), hL.parse_dump (wf_saveEnd h)]
  dsimp only
  rw [hev]
  rfl

/-- What a saved document is when it is read again: only the header, the bodies of the events in
stream order and the footer count. -/
theorem reload_eq (L : JsonLib F) (hL : L.Lawful) {r : Recording F} {p : Provenance F}
    {evs : List (Bytes × Json F)} (hheader : HeaderOk r p) (hfooter : FooterRange r)
    (hbodies : r.events.map Event.body = evs.map Prod.snd) (hstorable : ∀ e ∈ evs, Storable e) :
    loadRecording L (recordingToAsmtrace L r) =
      .ok (if r.hasEnd then loadEnd L (saveEnd r) (pushAll evs (headOf r p))
        else { pushAll evs (headOf r p) with torn := true }) := by
  rw [loadRecording, recordingToAsmtrace, getLines_dumps L hL, hbodies, List.cons_append,
    List.map_cons, List.map_append]
  dsimp only
  rw [loadHeader_saveHeader L hL hheader]
  dsimp only
  rw [loadEvents_dumps L hL _ hstorable]
  cases hend : r.hasEnd with
  | false =>
    obtain ⟨m, n, u, hpush⟩ := exists_pushAll_eq evs (headOf r p)
    rw [hpush]
    rfl
  | true =>
    rw [if_pos rfl, List.map_singleton, loadEvents_saveEnd L hL hfooter]
    rfl

/-- What a reload has in common with the document that was saved -/
structure Reloaded (r r' : Recording F) : Prop where
  producer : r'.producer = r.producer
  provenance : r'.provenance = r.provenance
  arch : r'.arch = r.arch
  code : r'.code = r.code
  byKind : r'.byKind = r.byKind
  nextSeq : r'.nextSeq = r.nextSeq
  unknownKinds : r'.unknownKinds = r.unknownKinds
  hasEnd : r'.hasEnd = r.hasEnd
  endTruncated : r'.endTruncated = r.endTruncated
  dropsLost : r'.dropsLost = r.dropsLost
  dropsThrottled : r'.dropsThrottled = r.dropsThrottled
  hasStepsTotal : r'.hasStepsTotal = r.hasStepsTotal
  stepsTotal : r'.stepsTotal = r.stepsTotal
  skipped : r'.skipped = r.skipped
  skipCode : r'.skipCode = r.skipCode
  skipReason : r'.skipReason = r.skipReason
  /-- The footer's own count is right, whatever the one that was loaded said. -/
  declaredEvents : r'.hasEnd = true → r'.declaredEvents = r'.eventCount

lemma footerOk_headOf (r : Recording F) (p : Provenance F) : FooterOk (headOf r p) := by
  refine ⟨⟨?_, ?_, ?_, ?_⟩, ?_, ?_, ?_⟩ <;> simp [headOf, utf8Ok, utf8From]

/-- Saving and loading again is lossless. -/
theorem load_save_load (L : JsonLib F) (hL : L.Lawful) (text : Bytes) (r : Recording F)
    (h : loadRecording L text = .ok r) :
    ∃ r', loadRecording L (recordingToAsmtrace L r) = .ok r' ∧ Reloaded r r' := by
  obtain ⟨evs, hr⟩ := loadRecording_loaded L hL h
  have hbodies : r.events.map Event.body = evs.map Prod.snd := by
    rw [events_pushAll evs r hr.events, map_body_stamp]
  refine ⟨_, reload_eq L hL hr.header hr.footer.toFooterRange hbodies hr.storable, ?_⟩
  have hsame : SameEvents r (pushAll evs (headOf r r.provenance)) := by
    obtain ⟨hkind, hseq, hunknown⟩ := hr.events
    obtain ⟨hkind', hseq', hunknown'⟩ := SameEvents.pushAll
      (⟨rfl, rfl, rfl⟩ : SameEvents (headOf r r.provenance) ({} : Recording F)) evs
    exact ⟨hkind.trans hkind'.symm, hseq.trans hseq'.symm, hunknown.trans hunknown'.symm⟩
  obtain ⟨m, n, u, hpush⟩ := exists_pushAll_eq evs (headOf r r.provenance)
  rw [hpush] at hsame ⊢
  obtain ⟨rfl, rfl, rfl⟩ := hsame
  cases hend : r.hasEnd with
  | false =>
    obtain ⟨htrunc, hlost, hthrottled, hsteps, hskip⟩ := hr.footer.noEnd hend
    have htotal := hr.footer.noSteps hsteps
    obtain ⟨hcode, hreason⟩ := hr.footer.noSkip hskip
    constructor <;> simp [headOf, *]
  | true =>
    have hhead := (footerOk_headOf r r.provenance).withEvents r.byKind r.nextSeq r.unknownKinds
    rw [if_pos rfl, loadEnd_saveEnd L hr.footer rfl hhead]
    constructor <;> simp [headOf, Recording.eventCount, hend]

/-- An unknown kind, a footer with drops, and a last line that was cut off -/
def tornSample : Bytes :=
  [JText.obj [(ascii "asmtrace", .int 1), (ascii "provenance", .obj [(ascii "exact", .bool false)])],
    .obj [(ascii "v", .int 7), (ascii "k", .str (ascii "later"))],
    .obj [(ascii "k", .str (ascii "end")), (ascii "drops", .obj [(ascii "lost", .int 2)])]].flatMap
    (fun t => t.render ++ [10]) ++ ascii "[1,"

theorem load_save_load_tornSample :
    ∃ r r' : Recording Empty, loadRecording compactJson tornSample = .ok r ∧
      r.unknownKinds = 1 ∧ r.dropsLost = 2 ∧
      loadRecording compactJson (recordingToAsmtrace compactJson r) = .ok r' ∧ Reloaded r r' := by
  have hok : ((loadRecording compactJson tornSample).toOption.map fun r =>
      (r.unknownKinds, r.dropsLost)) = some (1, 2) := by
    decide +kernel
  cases h : loadRecording compactJson tornSample with
  | error e =>
    rw [h] at hok
    cases hok
  | ok r =>
    rw [h] at hok
    obtain ⟨hunknown, hlost⟩ := Prod.mk.inj (Option.some.inj hok)
    obtain ⟨r', hload, hsame⟩ := load_save_load compactJson compactJson_lawful tornSample r h
    exact ⟨r, r', rfl, hunknown, hlost, hload, hsame⟩

end Reload

end AsmTest.Doc
