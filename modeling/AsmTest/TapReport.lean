import AsmTest.Lib.CStr
import AsmTest.Lib.JsonText
import AsmTest.Lib.Lines
import AsmTest.RunParallel
import Mathlib.Data.List.TakeWhile

/-!
# The TAP stream

`main` prints the version, the plan, one block for each result and a summary. The strings of a
result are printed as they are, except the message of a failure, which is printed line by line under
its key. A reader takes the lines that are neither comments nor indented for the protocol.
-/

namespace AsmTest.Report

open Lib Lines
open Runner (Outcome)

section Source

/-- `test_result_t` without its time -/
structure TestResult where
  suite : CStr
  name : CStr
  outcome : Outcome
  line : ℤ
  file : CStr
  msg : CStr
  recPath : CStr
  recStep : ℤ
deriving DecidableEq

/-- `tap_palette_t` -/
structure Palette where
  grn : Bytes
  red : Bytes
  yel : Bytes
  dim : Bytes
  rst : Bytes

def esc (s : String) : Bytes := 27 :: ascii s

def palette (useColor : Bool) : Palette :=
  if useColor then ⟨esc "[32m", esc "[31m", esc "[33m", esc "[2m", esc "[0m"⟩
  else ⟨[], [], [], [], []⟩

/-- The loop over the lines of a message: up to a newline, and on behind it -/
def msgLines (s : Bytes) : List Bytes :=
  if s = [] then []
  else
    match _ : s.dropWhile (· ≠ 10) with
    | [] => [s]
    | _ :: rest => s.takeWhile (· ≠ 10) :: msgLines rest
termination_by s.length
decreasing_by
  have := (List.dropWhile_suffix (l := s) (· ≠ 10)).length_le
  rw [‹s.dropWhile _ = _›, List.length_cons] at this
  omega

/-- The keys of record mode -/
def recordTexts (r : TestResult) : List Bytes :=
  if r.recPath.bytes ≠ [] then
    (ascii "  recording: " ++ r.recPath.bytes) ::
      if 0 ≤ r.recStep then [ascii "  step: " ++ decimalInt r.recStep] else []
  else []

/-- The message as a block scalar -/
def msgTexts (r : TestResult) : List Bytes :=
  if r.msg.bytes = [] then [ascii "  msg: \"\""]
  else ascii "  msg: |" :: (msgLines r.msg.bytes).map (ascii "    " ++ ·)

/-- What the calls of `printf` print before their newlines -/
def tapTexts (num : ℕ) (r : TestResult) (p : Palette) : List Bytes :=
  match r.outcome with
  | .pass =>
    [p.grn ++ ascii "ok" ++ p.rst ++ ascii " " ++ decimal num ++ ascii " - " ++ r.suite.bytes ++
      ascii "." ++ r.name.bytes]
  | .skip =>
    [p.yel ++ ascii "ok" ++ p.rst ++ ascii " " ++ decimal num ++ ascii " - " ++ r.suite.bytes ++
      ascii "." ++ r.name.bytes ++ ascii " " ++ p.dim ++ ascii "# SKIP " ++ r.msg.bytes ++ p.rst]
  | .fail =>
    (p.red ++ ascii "not ok" ++ p.rst ++ ascii " " ++ decimal num ++ ascii " - " ++
        r.suite.bytes ++ ascii "." ++ r.name.bytes) ::
      (ascii "  " ++ p.dim ++ ascii "---" ++ p.rst) ::
      (ascii "  at:  " ++ r.file.bytes ++ ascii ":" ++ decimalInt r.line) ::
      (recordTexts r ++ msgTexts r ++ [ascii "  " ++ p.dim ++ ascii "..." ++ p.rst])

/-- `print_tap_result` -/
def printTapResult (num : ℕ) (r : TestResult) (p : Palette) : Bytes := unlines 10 (tapTexts num r p)

/-- `%llx` -/
def hexText (n : ℕ) : Bytes :=
  if n < 16 then [hexDigit n] else hexText (n / 16) ++ [hexDigit (n % 16)]

/-- The results that are printed: `--fail-fast` stops after a failure. -/
def ranResults (failFast : Bool) : List TestResult → List TestResult
  | [] => []
  | r :: rs => if failFast ∧ r.outcome = .fail then [r] else r :: ranResults failFast rs

def seedTexts : Option (BitVec 64) → List Bytes
  | some seed => [ascii "# shuffle seed=0x" ++ hexText seed.toNat]
  | none => []

/-- The plan at the end, for the `ran` of `n` tests -/
def failFastTexts (ran n : ℕ) : List Bytes :=
  (ascii "1.." ++ decimal ran) ::
    if ran < n then
      [ascii "# fail-fast: stopped after " ++ decimal ran ++ ascii " of " ++ decimal n ++
        ascii " tests"]
    else []

def summaryText (p : Palette) (ran : List TestResult) : Bytes :=
  let failed := ran.countP (·.outcome = .fail)
  (if failed = 0 then p.grn else p.red) ++ (ascii "#" ++ (ascii " " ++
    decimal (ran.countP (·.outcome = .pass)) ++ ascii " passed, " ++ decimal failed ++
    ascii " failed, " ++ decimal (ran.countP (·.outcome = .skip)) ++ ascii " skipped, " ++
    decimal ran.length ++ ascii " total" ++ p.rst))

/-- The TAP output of `main` for the tests of a selection -/
def tapStream (useColor failFast : Bool) (shuffleSeed : Option (BitVec 64))
    (results : List TestResult) : Bytes :=
  let p := palette useColor
  let ran := ranResults failFast results
  unlines 10 [ascii "TAP version 13"] ++
  unlines 10 (if failFast then [] else [ascii "1.." ++ decimal results.length]) ++
  unlines 10 (seedTexts shuffleSeed) ++
  ((ran.zipIdx 1).flatMap fun q => printTapResult q.2 q.1 p) ++
  unlines 10 (if failFast then failFastTexts ran.length results.length else []) ++
  unlines 10 [summaryText p ran]

end Source

section Reader

/-- Behind a colour sequence, if there is one -/
def dropSgr : Bytes → Bytes
  | 27 :: 91 :: s =>
    match s.dropWhile isDigit with
    | 109 :: t => t
    | _ => 27 :: 91 :: s
  | s => s

/-- A comment, or a line of a diagnostic block -/
def Quiet (l : Bytes) : Prop := ascii "#" <+: dropSgr l ∨ ascii "  " <+: dropSgr l

instance : DecidablePred Quiet := fun _ => inferInstanceAs (Decidable (_ ∨ _))

/-- What a line of the protocol says -/
inductive Item
  | version
  | plan (n : ℕ)
  | result (ok : Bool) (num : Option ℕ)
  | other
deriving DecidableEq

/-- The number of a result line -/
def readNum (l : Bytes) : Option ℕ :=
  match dropSgr l with
  | 32 :: l => (readNat l).map Prod.fst
  | _ => none

def readItem (l : Bytes) : Item :=
  if l = ascii "TAP version 13" then .version
  else
    match (ascii "1..").isPrefixOf? l with
    | some rest =>
      match readNat rest with
      | some (n, []) => .plan n
      | _ => .other
    | none =>
      match (ascii "not ok").isPrefixOf? (dropSgr l) with
      | some rest => .result false (readNum rest)
      | none =>
        match (ascii "ok").isPrefixOf? (dropSgr l) with
        | some rest => .result true (readNum rest)
        | none => .other

/-- What a reader of the stream makes of it -/
def readTap (stream : Bytes) : List Item :=
  ((lines 10 stream).filter fun l => ¬Quiet l).map readItem

/-- The items that the results should give, numbered from one -/
def resultItems (rs : List TestResult) : List Item :=
  (rs.zipIdx 1).map fun q => .result (q.1.outcome ≠ .fail) (some q.2)

/-- The protocol of a run: the version, the plan at either end and a line for each result -/
def tapItems (failFast : Bool) (results : List TestResult) : List Item :=
  let ran := ranResults failFast results
  .version :: (if failFast then [] else [.plan results.length]) ++ resultItems ran ++
    if failFast then [.plan ran.length] else []

/-- The strings that are printed as they are, with what follows them on their lines -/
def rawTexts (p : Palette) (r : TestResult) : List Bytes :=
  match r.outcome with
  | .pass => [r.suite.bytes ++ ascii "." ++ r.name.bytes]
  | .skip =>
    [r.suite.bytes ++ ascii "." ++ r.name.bytes ++ ascii " " ++ p.dim ++ ascii "# SKIP " ++
      r.msg.bytes ++ p.rst]
  | .fail =>
    [r.suite.bytes ++ ascii "." ++ r.name.bytes,
      r.file.bytes ++ ascii ":" ++ decimalInt r.line, r.recPath.bytes]

/-- A line that such a text begins with a newline of its own is a comment or indented. -/
def Contained (p : Palette) (r : TestResult) : Prop :=
  ∀ t ∈ rawTexts p r, ∀ l ∈ further 10 t, Quiet l

end Reader

section Colours

/-- A colour sequence, or none -/
structure IsSgr (c : Bytes) : Prop where
  drop : ∀ b x, b ≠ 27 → dropSgr (c ++ b :: x) = b :: x
  head : ∀ b ∈ c.head?, b = 27
  newline : 10 ∉ c

lemma isSgr_nil : IsSgr [] where
  drop b x hb := by
    rw [List.nil_append, dropSgr]
    rintro s heq
    exact hb (List.cons.inj heq).1
  head := nofun
  newline := List.not_mem_nil

lemma isSgr_seq {ds : Bytes} (h : ds.all isDigit = true) : IsSgr (27 :: 91 :: ds ++ [109]) where
  drop b x _ := by
    have hdrop : (ds ++ 109 :: b :: x).dropWhile isDigit = 109 :: b :: x := by
      rw [List.dropWhile_append_of_pos (List.all_eq_true.mp h)]
      rfl
    rw [List.append_assoc, List.cons_append, List.cons_append, dropSgr]
    simp only [List.singleton_append, hdrop]
  head b hb := (Option.some.inj hb).symm
  newline hmem := by
    have hds : 10 ∉ ds := fun hd => by
      have := List.all_eq_true.mp h 10 hd
      revert this
      decide
    simp [hds] at hmem

lemma isSgr_palette (useColor : Bool) :
    IsSgr (palette useColor).grn ∧ IsSgr (palette useColor).red ∧ IsSgr (palette useColor).yel ∧
      IsSgr (palette useColor).dim ∧ IsSgr (palette useColor).rst := by
  cases useColor
  · exact ⟨isSgr_nil, isSgr_nil, isSgr_nil, isSgr_nil, isSgr_nil⟩
  · exact ⟨@isSgr_seq [51, 50] (by decide), @isSgr_seq [51, 49] (by decide),
      @isSgr_seq [51, 51] (by decide), @isSgr_seq [50] (by decide), @isSgr_seq [48] (by decide)⟩

end Colours

section Lines

/-- What a reader makes of some lines -/
def items (ls : List Bytes) : List Item := (ls.filter fun l => ¬Quiet l).map readItem

lemma items_append (ls ms : List Bytes) : items (ls ++ ms) = items ls ++ items ms := by
  rw [items, List.filter_append, List.map_append]
  rfl

lemma items_quiet {l : Bytes} (h : Quiet l) (ls : List Bytes) : items (l :: ls) = items ls := by
  rw [items, List.filter_cons_of_neg (by simpa using h)]
  rfl

lemma items_loud {l : Bytes} (h : ¬Quiet l) (ls : List Bytes) :
    items (l :: ls) = readItem l :: items ls := by
  rw [items, List.filter_cons_of_pos (by simpa using h)]
  rfl

lemma items_eq_nil_iff {ls : List Bytes} : items ls = [] ↔ ∀ l ∈ ls, Quiet l := by
  rw [items, List.map_eq_nil_iff, List.filter_eq_nil_iff]
  simp

lemma quiet_indented (x : Bytes) : Quiet (ascii "  " ++ x) := .inr ⟨x, rfl⟩

lemma quiet_comment {c : Bytes} (hc : IsSgr c) (x : Bytes) : Quiet (c ++ (ascii "#" ++ x)) := by
  refine .inl ?_
  have hdrop := hc.drop 35 x (by decide)
  exact ⟨x, hdrop.symm⟩

lemma isPrefixOf?_append (pre l : Bytes) : pre.isPrefixOf? (pre ++ l) = some l := by
  induction pre with
  | nil => rfl
  | cons b pre ih =>
    rw [List.cons_append, List.isPrefixOf?, if_pos (beq_self_eq_true b)]
    exact ih

lemma isPrefixOf?_of_head {b : UInt8} {pre l : Bytes} (h : ∀ c ∈ l.head?, c ≠ b) :
    (b :: pre).isPrefixOf? l = none := by
  cases l with
  | nil => rfl
  | cons c l =>
    have hne : ¬(b == c) = true := by
      rw [beq_iff_eq]
      exact (h c rfl).symm
    rw [List.isPrefixOf?, if_neg hne]

lemma readNum_append {c : Bytes} (hc : IsSgr c) (num : ℕ) {rest : Bytes} (h : NoDigit rest) :
    readNum (c ++ (ascii " " ++ (decimal num ++ rest))) = some num := by
  have hdrop : dropSgr (c ++ (ascii " " ++ (decimal num ++ rest))) = 32 :: (decimal num ++ rest) :=
    hc.drop 32 _ (by decide)
  rw [readNum, hdrop]
  simp only [readNat_decimal num h]
  rfl

/-- `ok` or `not ok` -/
def verdict (ok : Bool) : Bytes := if ok then ascii "ok" else ascii "not ok"

/-- What a result line begins with -/
def headline (c : Bytes) (ok : Bool) (rst : Bytes) (num : ℕ) : Bytes :=
  c ++ (verdict ok ++ (rst ++ (ascii " " ++ (decimal num ++ ascii " - "))))

lemma headline_loud {c rst : Bytes} (hc : IsSgr c) (ok : Bool) (hrst : IsSgr rst) (num : ℕ)
    (first : Bytes) :
    ¬Quiet (headline c ok rst num ++ first) ∧
      readItem (headline c ok rst num ++ first) = .result ok (some num) := by
  -- the line behind the colour, and behind the verdict
  have hrest : ∃ rest, readNum rest = some num ∧
      dropSgr (headline c ok rst num ++ first) = verdict ok ++ rest := by
    refine ⟨rst ++ (ascii " " ++ (decimal num ++ (ascii " - " ++ first))), ?_, ?_⟩
    · exact readNum_append hrst num fun b hb => by
        obtain rfl := Option.some.inj hb
        rfl
    · have hcat : headline c ok rst num ++ first =
          c ++ (verdict ok ++ (rst ++ (ascii " " ++ (decimal num ++ (ascii " - " ++ first))))) := by
        simp only [headline, List.append_assoc]
      rw [hcat]
      cases ok
      · exact hc.drop 110 _ (by decide)
      · exact hc.drop 111 _ (by decide)
  obtain ⟨rest, hnum, hdrop⟩ := hrest
  have hhead : ∀ b ∈ (headline c ok rst num ++ first).head?, b ≠ 84 ∧ b ≠ 49 := by
    intro b hb
    rw [headline] at hb
    cases hc' : c with
    | nil =>
      subst hc'
      cases ok <;> obtain rfl := Option.some.inj hb <;> decide
    | cons d c' =>
      subst hc'
      have hd : d = 27 := hc.head d rfl
      obtain rfl : d = b := Option.some.inj hb
      rw [hd]
      decide
  refine ⟨fun hq => ?_, ?_⟩
  · rw [Quiet, hdrop] at hq
    obtain ⟨x, hx⟩ | ⟨x, hx⟩ := hq
    · cases ok <;> exact absurd (List.cons.inj hx).1 (by decide)
    · cases ok <;> exact absurd (List.cons.inj hx).1 (by decide)
  · have hversion : headline c ok rst num ++ first ≠ ascii "TAP version 13" := by
      intro heq
      rw [heq] at hhead
      exact (hhead 84 rfl).1 rfl
    have hplan : (ascii "1..").isPrefixOf? (headline c ok rst num ++ first) = none :=
      isPrefixOf?_of_head fun b hb => (hhead b hb).2
    rw [readItem, if_neg hversion]
    simp only [hplan, hdrop]
    cases ok
    · rw [verdict, if_neg Bool.false_ne_true]
      simp only [isPrefixOf?_append, hnum]
    · have hnot : (ascii "not ok").isPrefixOf? (verdict true ++ rest) = none :=
        isPrefixOf?_of_head fun b hb => by
          obtain rfl := Option.some.inj hb
          decide
      have hok : (ascii "ok").isPrefixOf? (verdict true ++ rest) = some rest :=
        isPrefixOf?_append _ _
      simp only [hnot, hok, hnum]

lemma newline_notMem_headline {c rst : Bytes} (hc : IsSgr c) (ok : Bool) (hrst : IsSgr rst)
    (num : ℕ) : 10 ∉ headline c ok rst num := by
  have hnum : 10 ∉ decimal num := JText.newline_notMem_decimalInt (.ofNat num)
  have hverdict : 10 ∉ verdict ok := by cases ok <;> decide
  simp only [headline, List.mem_append, not_or]
  exact ⟨hc.newline, hverdict, hrst.newline, by decide, hnum, by decide⟩

end Lines

section Blocks

variable {p : Palette} {r : TestResult} {num : ℕ}

/-- What a reader makes of the lines of some texts -/
def textItems (ts : List Bytes) : List Item := items (ts.flatMap (List.splitOn 10))

lemma textItems_append (ts us : List Bytes) :
    textItems (ts ++ us) = textItems ts ++ textItems us := by
  rw [textItems, List.flatMap_append, items_append]
  rfl

lemma textItems_cons (t : Bytes) (ts : List Bytes) :
    textItems (t :: ts) = textItems [t] ++ textItems ts := textItems_append [t] ts

lemma textItems_headline {c rst : Bytes} (hc : IsSgr c) (ok : Bool) (hrst : IsSgr rst) (num : ℕ)
    (t : Bytes) :
    textItems [headline c ok rst num ++ t] = .result ok (some num) :: items (further 10 t) := by
  obtain ⟨first, hsplit⟩ := splitOn_append (newline_notMem_headline hc ok hrst num) t
  obtain ⟨hloud, hread⟩ := headline_loud hc ok hrst num first
  rw [textItems, List.flatMap_singleton, hsplit, items_loud hloud, hread]

/-- An indented text gives nothing but what a newline in it begins. -/
lemma textItems_indented {pre : Bytes} (hpre : 10 ∉ pre) (t : Bytes) :
    textItems [ascii "  " ++ pre ++ t] = items (further 10 t) := by
  have hmem : 10 ∉ ascii "  " ++ pre :=
    fun h => (List.mem_append.mp h).elim (by decide) hpre
  obtain ⟨first, hsplit⟩ := splitOn_append hmem t
  rw [textItems, List.flatMap_singleton, hsplit, List.append_assoc,
    items_quiet (quiet_indented _)]

lemma textItems_quiet {ts : List Bytes} (h : ∀ t ∈ ts, Quiet t ∧ 10 ∉ t) : textItems ts = [] := by
  rw [textItems, items_eq_nil_iff]
  intro l hl
  obtain ⟨t, ht, hl⟩ := List.mem_flatMap.mp hl
  obtain ⟨hquiet, hnl⟩ := h t ht
  rw [List.splitOn_eq_singleton hnl] at hl
  obtain rfl := List.mem_singleton.mp hl
  exact hquiet

lemma textItems_eq_nil {ts : List Bytes} (h : ∀ t ∈ ts, ascii "  " <+: t ∧ 10 ∉ t) :
    textItems ts = [] := by
  refine textItems_quiet fun t ht => ?_
  obtain ⟨⟨x, rfl⟩, hnl⟩ := h t ht
  exact ⟨quiet_indented x, hnl⟩

lemma newline_notMem_msgLines (s : Bytes) : ∀ l ∈ msgLines s, 10 ∉ l := by
  fun_induction msgLines s with
  | case1 => nofun
  | case2 s hne hdrop =>
    intro l hl
    obtain rfl := List.mem_singleton.mp hl
    intro h
    have := List.dropWhile_eq_nil_iff.mp hdrop 10 h
    simp at this
  | case3 s hne c rest hdrop ih =>
    intro l hl
    obtain rfl | hl := List.mem_cons.mp hl
    · intro h
      have := List.mem_takeWhile_imp h
      simp at this
    · exact ih l hl

lemma textItems_record (r : TestResult) :
    textItems (recordTexts r) = items (further 10 r.recPath.bytes) := by
  have hstep : textItems
      (if 0 ≤ r.recStep then [ascii "  step: " ++ decimalInt r.recStep] else []) = [] := by
    refine textItems_eq_nil fun t ht => ?_
    split at ht
    · obtain rfl := List.mem_singleton.mp ht
      refine ⟨⟨_, rfl⟩, fun h => (List.mem_append.mp h).elim (by decide) ?_⟩
      exact JText.newline_notMem_decimalInt r.recStep
    · cases ht
  rw [recordTexts]
  split
  · have hrec := @textItems_indented (ascii "recording: ") (by decide) r.recPath.bytes
    rw [textItems_cons, hstep, List.append_nil]
    exact hrec
  · next hempty =>
    rw [not_not.mp hempty]
    rfl

lemma textItems_msg (r : TestResult) : textItems (msgTexts r) = [] := by
  refine textItems_eq_nil fun t ht => ?_
  rw [msgTexts] at ht
  split at ht
  · obtain rfl := List.mem_singleton.mp ht
    decide
  · obtain rfl | ht := List.mem_cons.mp ht
    · decide
    · obtain ⟨l, hl, rfl⟩ := List.mem_map.mp ht
      exact ⟨⟨_, rfl⟩, fun h => (List.mem_append.mp h).elim (by decide)
        (newline_notMem_msgLines _ l hl)⟩

/-- The marks at either end of a block -/
lemma textItems_mark (hdim : IsSgr p.dim) (hrst : IsSgr p.rst) {mark : Bytes} (h : 10 ∉ mark) :
    textItems [ascii "  " ++ p.dim ++ mark ++ p.rst] = [] := by
  refine textItems_eq_nil fun t ht => ?_
  obtain rfl := List.mem_singleton.mp ht
  refine ⟨⟨p.dim ++ (mark ++ p.rst), by simp only [List.append_assoc]⟩, ?_⟩
  simp only [List.mem_append, not_or]
  exact ⟨⟨⟨by decide, hdim.newline⟩, h⟩, hrst.newline⟩

/-- A block gives its result and what the newlines in its raw texts begin. -/
lemma textItems_block (useColor : Bool) (num : ℕ) (r : TestResult) :
    textItems (tapTexts num r (palette useColor)) =
      .result (r.outcome ≠ .fail) (some num) ::
        items ((rawTexts (palette useColor) r).flatMap (further 10)) := by
  obtain ⟨hgrn, hred, hyel, hdim, hrst⟩ := isSgr_palette useColor
  generalize palette useColor = p at *
  rw [tapTexts, rawTexts]
  cases hout : r.outcome with
  | pass =>
    have hhead := textItems_headline hgrn true hrst num
      (r.suite.bytes ++ ascii "." ++ r.name.bytes)
    simp only [headline, verdict, List.append_assoc, if_pos] at hhead ⊢
    rw [hhead, List.flatMap_singleton]
    rfl
  | skip =>
    have hhead := textItems_headline hyel true hrst num
      (r.suite.bytes ++ ascii "." ++ r.name.bytes ++ ascii " " ++ p.dim ++ ascii "# SKIP " ++
        r.msg.bytes ++ p.rst)
    simp only [headline, verdict, List.append_assoc, if_pos] at hhead ⊢
    rw [hhead, List.flatMap_singleton]
    rfl
  | fail =>
    have hhead := textItems_headline hred false hrst num
      (r.suite.bytes ++ ascii "." ++ r.name.bytes)
    have hat := @textItems_indented (ascii "at:  ") (by decide)
      (r.file.bytes ++ ascii ":" ++ decimalInt r.line)
    have hfirst : textItems [p.red ++ ascii "not ok" ++ p.rst ++ ascii " " ++ decimal num ++
        ascii " - " ++ r.suite.bytes ++ ascii "." ++ r.name.bytes] =
          .result false (some num) :: items (further 10 (r.suite.bytes ++ ascii "." ++
            r.name.bytes)) := by
      rw [← hhead]
      simp only [headline, verdict, List.append_assoc, if_neg Bool.false_ne_true]
    have hplace : textItems [ascii "  at:  " ++ r.file.bytes ++ ascii ":" ++ decimalInt r.line] =
        items (further 10 (r.file.bytes ++ ascii ":" ++ decimalInt r.line)) := by
      rw [← hat]
      simp only [List.append_assoc]
      rfl
    dsimp only
    rw [textItems_cons, hfirst, textItems_cons, textItems_mark hdim hrst (by decide),
      List.nil_append, textItems_cons, hplace, textItems_append, textItems_append,
      textItems_record, textItems_msg, textItems_mark hdim hrst (by decide)]
    simp only [List.flatMap_cons, List.flatMap_nil, List.append_nil, items_append]
    rfl

end Blocks

section Stream

lemma readTap_unlines (ts : List Bytes) : readTap (unlines 10 ts) = textItems ts := by
  rw [readTap, lines_unlines]
  rfl

lemma textItems_version : textItems [ascii "TAP version 13"] = [.version] := by decide

lemma textItems_plan (n : ℕ) : textItems [ascii "1.." ++ decimal n] = [.plan n] := by
  have hnl : 10 ∉ ascii "1.." ++ decimal n :=
    fun h => (List.mem_append.mp h).elim (by decide) (JText.newline_notMem_decimalInt (.ofNat n))
  have hloud : ¬Quiet (ascii "1.." ++ decimal n) := by
    rintro (⟨x, hx⟩ | ⟨x, hx⟩)
    · exact absurd (List.cons.inj hx).1 (by decide)
    · exact absurd (List.cons.inj hx).1 (by decide)
  have hversion : ascii "1.." ++ decimal n ≠ ascii "TAP version 13" :=
    fun h => absurd (List.cons.inj h).1 (by decide)
  have hread : readNat (decimal n) = some (n, []) := by
    have := @readNat_decimal n [] nofun
    rwa [List.append_nil] at this
  rw [textItems, List.flatMap_singleton, List.splitOn_eq_singleton hnl, items_loud hloud, readItem,
    if_neg hversion]
  simp only [isPrefixOf?_append, hread]
  rfl

lemma newline_notMem_hexText (n : ℕ) : 10 ∉ hexText n := by
  have hdigit : ∀ k < 16, hexDigit k ≠ 10 := by decide
  fun_induction hexText n with
  | case1 n hlt => exact fun h => hdigit n hlt (List.mem_singleton.mp h).symm
  | case2 n hge ih =>
    intro h
    obtain h | h := List.mem_append.mp h
    · exact ih h
    · exact hdigit (n % 16) (Nat.mod_lt n (by decide)) (List.mem_singleton.mp h).symm

/-- The blocks of the results, read: a result each, and what their raw texts add -/
lemma textItems_blocks (useColor : Bool) (ran : List TestResult) :
    textItems ((ran.zipIdx 1).flatMap fun q => tapTexts q.2 q.1 (palette useColor)) =
      (ran.zipIdx 1).flatMap fun q => .result (q.1.outcome ≠ .fail) (some q.2) ::
        items ((rawTexts (palette useColor) q.1).flatMap (further 10)) := by
  generalize ran.zipIdx 1 = l
  induction l with
  | nil => rfl
  | cons q l ih =>
    rw [List.flatMap_cons, textItems_append, ih, textItems_block, List.flatMap_cons]

lemma textItems_seed (shuffleSeed : Option (BitVec 64)) :
    textItems (seedTexts shuffleSeed) = [] := by
  cases shuffleSeed with
  | none => rfl
  | some seed =>
    refine textItems_quiet fun t ht => ?_
    obtain rfl := List.mem_singleton.mp ht
    exact ⟨quiet_comment isSgr_nil (ascii " shuffle seed=0x" ++ hexText seed.toNat), fun h =>
      (List.mem_append.mp h).elim (by decide) (newline_notMem_hexText _)⟩

lemma textItems_failFast (ran n : ℕ) : textItems (failFastTexts ran n) = [.plan ran] := by
  have hdec : ∀ n, 10 ∉ decimal n := fun n => JText.newline_notMem_decimalInt (.ofNat n)
  rw [failFastTexts, textItems_cons, textItems_plan]
  refine congrArg _ (textItems_quiet fun t ht => ?_)
  split at ht
  · obtain rfl := List.mem_singleton.mp ht
    refine ⟨.inl ⟨ascii " fail-fast: stopped after " ++ decimal ran ++ ascii " of " ++ decimal n ++
      ascii " tests", rfl⟩, ?_⟩
    simp only [List.mem_append, not_or]
    exact ⟨⟨⟨⟨by decide, hdec ran⟩, by decide⟩, hdec n⟩, by decide⟩
  · cases ht

lemma textItems_summary (useColor : Bool) (ran : List TestResult) :
    textItems [summaryText (palette useColor) ran] = [] := by
  obtain ⟨hgrn, hred, -, -, hrst⟩ := isSgr_palette useColor
  have hdec : ∀ n, 10 ∉ decimal n := fun n => JText.newline_notMem_decimalInt (.ofNat n)
  have hcolour : IsSgr (if ran.countP (·.outcome = .fail) = 0 then (palette useColor).grn
      else (palette useColor).red) := by
    split
    · exact hgrn
    · exact hred
  refine textItems_quiet fun t ht => ?_
  obtain rfl := List.mem_singleton.mp ht
  refine ⟨quiet_comment hcolour _, ?_⟩
  simp only [summaryText, List.mem_append, not_or]
  exact ⟨hcolour.newline, by decide, ⟨⟨⟨⟨⟨⟨⟨⟨by decide, hdec _⟩, by decide⟩, hdec _⟩, by decide⟩,
    hdec _⟩, by decide⟩, hdec _⟩, by decide⟩, hrst.newline⟩

lemma readTap_tapStream (useColor failFast : Bool) (shuffleSeed : Option (BitVec 64))
    (results : List TestResult) :
    readTap (tapStream useColor failFast shuffleSeed results) =
      .version :: (if failFast then [] else [.plan results.length]) ++
        ((ranResults failFast results).zipIdx 1).flatMap (fun q =>
          .result (q.1.outcome ≠ .fail) (some q.2) ::
            items ((rawTexts (palette useColor) q.1).flatMap (further 10))) ++
        if failFast then [.plan (ranResults failFast results).length] else [] := by
  rw [tapStream]
  simp only [printTapResult]
  rw [← unlines_flatMap, ← unlines_append, ← unlines_append, ← unlines_append, ← unlines_append,
    ← unlines_append, readTap_unlines, textItems_append, textItems_append, textItems_append,
    textItems_append, textItems_append, textItems_blocks, textItems_version, textItems_seed,
    textItems_summary, List.append_nil, List.append_nil]
  cases failFast
  · rw [if_neg Bool.false_ne_true, if_neg Bool.false_ne_true, if_neg Bool.false_ne_true,
      if_neg Bool.false_ne_true, textItems_plan]
    rfl
  · rw [if_pos rfl, if_pos rfl, if_pos rfl, if_pos rfl, textItems_failFast]
    rfl

/-- A reader gets the version, the plan and one line for each result, numbered from one, exactly if
every line that a newline in a raw text begins is a comment or indented. -/
theorem tap_stream_iff (useColor failFast : Bool) (shuffleSeed : Option (BitVec 64))
    (results : List TestResult) :
    readTap (tapStream useColor failFast shuffleSeed results) = tapItems failFast results ↔
      ∀ r ∈ ranResults failFast results, Contained (palette useColor) r := by
  rw [readTap_tapStream, tapItems, List.append_cancel_right_eq, List.append_cancel_left_eq,
    resultItems, flatMap_cons_eq_map_iff]
  constructor
  · intro h r hr t ht l hl
    obtain ⟨i, hi⟩ : ∃ i, (r, i) ∈ (ranResults failFast results).zipIdx 1 := by
      rw [← List.zipIdx_map_fst 1 (ranResults failFast results)] at hr
      obtain ⟨⟨r', i⟩, hmem, rfl⟩ := List.mem_map.mp hr
      exact ⟨i, hmem⟩
    exact items_eq_nil_iff.mp (h (r, i) hi) l (List.mem_flatMap.mpr ⟨t, ht, hl⟩)
  · rintro h ⟨r, i⟩ hq
    have hr : r ∈ ranResults failFast results := by
      have := List.mem_map_of_mem (f := Prod.fst) hq
      rwa [List.zipIdx_map_fst] at this
    refine items_eq_nil_iff.mpr fun l hl => ?_
    obtain ⟨t, ht, hl⟩ := List.mem_flatMap.mp hl
    exact h r hr t ht l hl

/-- A skipped test whose reason goes on in a line of its own -/
def forgingSkip : TestResult where
  suite := ⟨ascii "s", by decide⟩
  name := ⟨ascii "n", by decide⟩
  outcome := .skip
  line := 0
  file := ⟨[], by decide⟩
  msg := ⟨ascii "why" ++ [10] ++ ascii "not ok 2 - forged", by decide⟩
  recPath := ⟨[], by decide⟩
  recStep := -1

/-- The line is read as the result of a second test. -/
theorem tap_stream_forged :
    readTap (tapStream false false none [forgingSkip]) =
        [.version, .plan 1, .result true (some 1), .result false (some 2)] ∧
      tapItems false [forgingSkip] = [.version, .plan 1, .result true (some 1)] := by
  decide

end Stream

end AsmTest.Report
