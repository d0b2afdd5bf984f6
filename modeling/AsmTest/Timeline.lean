import AsmTest.StreamsExact
import AsmTest.DfRoundTrip

/-!
# Annotations of the timeline

The desktop rebuilds the engine's operand records from a decoded stream: the bytes of the wide
operands go into one side buffer, and the shared annotator prints an operand's bytes from there by
its offset and its size.
-/

namespace AsmTest.Doc

open Lib

section Model

def spaceOf (s : Bytes) : Dataflow.LocKind :=
  if s = ascii "reg" then .reg else if s = ascii "off" then .memOff else .memAbs

/-- The bytes of an operand that go into the side buffer -/
def sideBytes (r : ValRec) : Bytes :=
  if r.wide then r.bytes else []

/-- One record of `to_recs`, with the size of the side buffer before it -/
def toRec (r : ValRec) (sideLen : ℕ) : Dataflow.ValRec where
  kind := spaceOf r.space
  reg := BitVec.ofNat 32 r.reg
  addr := BitVec.ofNat 64 r.addr
  size := r.size % 2 ^ 16
  isWrite := r.write
  valueValid := r.valueValid
  wide := r.wide
  -- the offset of an operand without bytes stays 0
  wideOff := if sideBytes r = [] then 0 else BitVec.ofNat 32 sideLen
  value := BitVec.ofNat 64 r.value
  step := r.step

/-- `to_recs`: the records and the side buffer -/
def toRecs (wide : Bytes) : List ValRec → List Dataflow.ValRec × Bytes
  | [] => ([], wide)
  | r :: rs =>
    let rest := toRecs (wide ++ sideBytes r) rs
    (toRec r wide.length :: rest.1, rest.2)

/-- `0x` and the bytes, no more than 32 of them. -/
def showBytes (n : ℕ) (bytes : Bytes) : Bytes :=
  ascii "0x" ++ bytes.flatMap hexByte ++ if 32 < n then ascii ".." else []

/-- `asmspy_df_wide_hex`. Its buffer holds any such text; a side buffer without bytes is null. -/
def wideHex (wide : Bytes) (r : Dataflow.ValRec) : Bytes :=
  if r.valueValid = false ∨ wide = [] ∨ r.size = 0 ∨ wide.length < r.wideOff.toNat + r.size then []
  else showBytes r.size ((wide.drop r.wideOff.toNat).take (min r.size 32))

def placeholder : Bytes := ascii "[wide]"

/-- What stands for the value of a wide operand -/
def wideText (wide : Bytes) (r : Dataflow.ValRec) : Bytes :=
  if wideHex wide r = [] then placeholder else wideHex wide r

/-- `%llx` -/
def hexNat (n : ℕ) : Bytes :=
  (Nat.toDigits 16 n).map charByte

/-- The token of a record, if it has one, with the text of a wide value -/
def token (text : Bytes) (r : Dataflow.ValRec) : Option Bytes :=
  if r.kind = .reg then
    if !r.isWrite then none
    else if r.wide then some (ascii "->" ++ text)
    else if r.valueValid then some (ascii "->0x" ++ hexNat r.value.toNat)
    else none
  else
    let place := ascii "[0x" ++ hexNat r.addr.toNat ++ ascii "]" ++
      if r.isWrite then ascii "<-" else ascii "->"
    if r.wide then some (place ++ text)
    else if r.valueValid then some (place ++ ascii "0x" ++ hexNat r.value.toNat)
    else some (place ++ ascii "?")

/-- `asmspy_df_tok_append` -/
def tokAppend (cap : ℕ) (ann tok : Bytes) : Bytes :=
  if ann.length + 1 < cap then
    (ann ++ (if ann = [] then [] else ascii " ") ++ tok).take (cap - 1)
  else ann

/-- What `asmspy_df_annotate` leaves: the tokens it appends, the annotation they make, the number
of records of the step and the cursor. -/
structure Annotation where
  tokens : List Bytes
  ann : Bytes
  seen : ℕ
  cur : ℕ
deriving DecidableEq, Repr

def dfAnnotate (recs : List Dataflow.ValRec) (wide : Bytes) (s cur maxTokens cap : ℕ) :
    Annotation :=
  let c := cur + ((recs.drop cur).takeWhile fun r => r.step < s).length
  let here := (recs.drop c).takeWhile fun r => r.step = s
  let all := here.filterMap fun r => token (wideText wide r) r
  let tokens := all.take maxTokens
  let ann := tokens.foldl (tokAppend cap) []
  { tokens
    ann := if maxTokens < all.length then tokAppend cap ann (ascii "...") else ann
    seen := here.length
    cur := c + here.length }

/-- A row, with the tokens of its annotation -/
structure TimelineRow where
  step : ℕ
  missing : Bool
  off : ℕ
  rbase : ℕ
  disasm : Bytes
  tokens : List Bytes
  ann : Bytes
  nIn : ℕ
  nOut : ℕ
deriving DecidableEq, Repr

def timelineRow (df : DataflowStream) (step : ℕ) (a : Annotation) : TimelineRow where
  step
  missing := !df.stepPresent.getD step false
  off := df.insnOff.getD step 0
  rbase := df.insnRbase.getD step 0
  disasm := df.disasm.getD step []
  tokens := a.tokens
  ann := a.ann
  nIn := df.edges.countP fun e => e.2 = step
  nOut := df.edges.countP fun e => e.1 = step

/-- The row loop of `dt_timeline_build`: `n` rows from `step` on -/
def timelineRows (df : DataflowStream) (recs : List Dataflow.ValRec) (wide : Bytes) :
    ℕ → ℕ → ℕ → List TimelineRow
  | 0, _, _ => []
  | n + 1, step, cur =>
    let a := dfAnnotate recs wide step cur 4 256
    timelineRow df step a :: timelineRows df recs wide n (step + 1) a.cur

/-- The rows of `dt_timeline_build` -/
def timelineBuild (df : DataflowStream) : List TimelineRow :=
  let packed := toRecs [] df.recs
  timelineRows df packed.1 packed.2 df.nsteps 0 0

end Model

section Spec

/-- An operand's own bytes, when it has all of them, else the placeholder -/
def ownText (r : ValRec) : Bytes :=
  if r.valueValid = true ∧ 0 < r.size ∧ r.size ≤ r.bytes.length then
    showBytes r.size (r.bytes.take (min r.size 32))
  else placeholder

/-- An operand with a token: not the read of a register, and not a register's unknown value. -/
def printed (r : ValRec) : Bool :=
  if spaceOf r.space = .reg then r.write && (r.wide || r.valueValid) else true

/-- How many tokens come before the operand's in the row of its step -/
def place (pre : List ValRec) (r : ValRec) : ℕ :=
  (pre.filter fun q => q.step = r.step ∧ printed q).length

/-- A wide operand of the stream whose token is in the annotation of a row -/
structure Shown (df : DataflowStream) (pre : List ValRec) (r : ValRec) (post : List ValRec) :
    Prop where
  split : df.recs = pre ++ r :: post
  inRows : r.step < df.nsteps
  wide : r.wide = true
  printed : printed r = true
  early : place pre r < 4

/-- Every wide value in an annotation is the operand's own bytes or the placeholder. -/
def WideExact (df : DataflowStream) : Prop :=
  ∀ pre r post, Shown df pre r post → ∃ row, (timelineBuild df)[r.step]? = some row ∧
    row.tokens[place pre r]? = token (ownText r) (toRec r 0)

/-- The side buffer of a list of operands -/
def side (rs : List ValRec) : Bytes :=
  rs.flatMap sideBytes

/-- The operand has all its bytes, they are found again in the side buffer, and its size survives
the cut to 16 bits, or is still above the 32 bytes that are printed. -/
def FoundAgain (df : DataflowStream) (pre : List ValRec) (r : ValRec) : Prop :=
  (r.size < 2 ^ 16 ∨ 32 < r.size % 2 ^ 16) ∧
    ((side pre).length < 2 ^ 32 ∨
      ((side df.recs).drop ((side pre).length % 2 ^ 32)).take (min (r.size % 2 ^ 16) 32) =
        r.bytes.take (min (r.size % 2 ^ 16) 32))

/-- The operand lacks bytes, and the side buffer does not reach from its offset as far as its size
cut to 16 bits, if that is not 0. -/
def OutOfReach (df : DataflowStream) (pre : List ValRec) (r : ValRec) : Prop :=
  r.size % 2 ^ 16 = 0 ∨ (side df.recs).length <
    (if r.bytes = [] then 0 else (side pre).length % 2 ^ 32) + r.size % 2 ^ 16

/-- For every shown operand with a value -/
def SideHolds (df : DataflowStream) : Prop :=
  ∀ pre r post, Shown df pre r post → r.valueValid = true →
    if 0 < r.size ∧ r.size ≤ r.bytes.length then FoundAgain df pre r else OutOfReach df pre r

end Spec

section Packing

variable {rs pre post : List ValRec} {r : ValRec} {w : Bytes}

lemma toRecs_snd : (toRecs w rs).2 = w ++ side rs := by
  induction rs generalizing w with
  | nil => simp [toRecs, side]
  | cons r rs ih => simp [toRecs, ih, side]

lemma toRecs_fst_append : (toRecs w (pre ++ rs)).1 =
    (toRecs w pre).1 ++ (toRecs (w ++ side pre) rs).1 := by
  induction pre generalizing w with
  | nil => simp [toRecs, side]
  | cons r pre ih => simp [toRecs, ih, side]

/-- The records keep the steps, and each has a token exactly when its operand is printed. -/
lemma toRecs_filter_length (s : ℕ) (text : Dataflow.ValRec → Bytes) :
    (((toRecs w rs).1.filter fun o => o.step = s).filterMap fun o => token (text o) o).length =
      (rs.filter fun q => q.step = s ∧ printed q).length := by
  induction rs generalizing w with
  | nil => rfl
  | cons r rs ih =>
    have htok : ∀ t, (token t (toRec r w.length)).isSome = printed r := by
      intro t
      cases hw : r.write <;> cases hwide : r.wide <;> cases hv : r.valueValid <;>
        by_cases hk : spaceOf r.space = .reg <;> simp [token, toRec, printed, hw, hwide, hv, hk]
    simp only [toRecs]
    by_cases hs : r.step = s
    · have hstep : (toRec r w.length).step = s := hs
      rw [List.filter_cons_of_pos (by simpa using hstep), List.filterMap_cons]
      have hp := htok (text (toRec r w.length))
      cases ht : token (text (toRec r w.length)) (toRec r w.length) with
      | none =>
        rw [ht] at hp
        rw [List.filter_cons_of_neg (by simp [← hp])]
        exact ih
      | some t =>
        rw [ht] at hp
        rw [List.filter_cons_of_pos (by simp [hs, ← hp]), List.length_cons, List.length_cons, ih]
    · have hstep : ¬ (toRec r w.length).step = s := hs
      rw [List.filter_cons_of_neg (by simpa using hstep), List.filter_cons_of_neg (by simp [hs])]
      exact ih

lemma toRecs_steps : (toRecs w rs).1.map (fun o => o.step) = rs.map fun q => q.step := by
  induction rs generalizing w with
  | nil => rfl
  | cons r rs ih => simp [toRecs, ih, toRec]

end Packing

section Cursor

variable {recs : List Dataflow.ValRec} {s : ℕ}

/-- Records in the order of their steps split at a step. -/
lemma split_at_step (h : recs.Pairwise fun a b => a.step ≤ b.step) (s : ℕ) :
    recs = (recs.filter fun r => r.step < s) ++ ((recs.filter fun r => r.step = s) ++
      recs.filter fun r => s < r.step) := by
  induction recs with
  | nil => rfl
  | cons r recs ih =>
    obtain ⟨hr, hrecs⟩ := List.pairwise_cons.mp h
    have ih := ih hrecs
    rcases lt_trichotomy r.step s with hlt | heq | hgt
    · rw [List.filter_cons_of_pos (by simpa using hlt), List.filter_cons_of_neg (by simp; omega),
        List.filter_cons_of_neg (by simp; omega), List.cons_append, ← ih]
    · have hnone : recs.filter (fun r => r.step < s) = [] := by
        rw [List.filter_eq_nil_iff]
        intro q hq
        have := hr q hq
        simp
        omega
      rw [List.filter_cons_of_neg (by simp; omega), List.filter_cons_of_pos (by simpa using heq),
        List.filter_cons_of_neg (by simp; omega), hnone, List.nil_append, List.cons_append]
      rw [hnone, List.nil_append] at ih
      rw [← ih]
    · have hnone : recs.filter (fun r => r.step < s) = [] := by
        rw [List.filter_eq_nil_iff]
        intro q hq
        have := hr q hq
        simp
        omega
      have hnone' : recs.filter (fun r => r.step = s) = [] := by
        rw [List.filter_eq_nil_iff]
        intro q hq
        have := hr q hq
        simp
        omega
      rw [List.filter_cons_of_neg (by simp; omega), List.filter_cons_of_neg (by simp; omega),
        List.filter_cons_of_pos (by simpa using hgt), hnone, hnone', List.nil_append,
        List.nil_append]
      rw [hnone, hnone', List.nil_append, List.nil_append] at ih
      rw [← ih]

lemma takeWhile_append_filter {p : Dataflow.ValRec → Bool} {a b : List Dataflow.ValRec}
    (ha : ∀ r ∈ a, p r = true) (hb : ∀ r ∈ b, p r = false) : (a ++ b).takeWhile p = a := by
  rw [List.takeWhile_append_of_pos ha]
  cases b with
  | nil => simp
  | cons r b => simp [hb r List.mem_cons_self]

/-- With the cursor behind the records of the steps before, a row has the tokens of its step. -/
lemma dfAnnotate_spec (h : recs.Pairwise fun a b => a.step ≤ b.step) (wide : Bytes)
    (maxTokens cap : ℕ) :
    (dfAnnotate recs wide s (recs.filter fun r => r.step < s).length maxTokens cap).tokens =
      ((recs.filter fun r => r.step = s).filterMap fun r =>
        token (wideText wide r) r).take maxTokens ∧
    (dfAnnotate recs wide s (recs.filter fun r => r.step < s).length maxTokens cap).cur =
      (recs.filter fun r => r.step < s + 1).length := by
  have hsplit := split_at_step h s
  have hdrop : recs.drop (recs.filter fun r => r.step < s).length =
      (recs.filter fun r => r.step = s) ++ recs.filter fun r => s < r.step := by
    conv_lhs => rw [hsplit]
    rw [List.filter_append, List.filter_append]
    have h1 : ((recs.filter fun r => r.step = s).filter fun r => r.step < s) = [] := by
      rw [List.filter_filter, List.filter_eq_nil_iff]
      intro q _
      simp
      omega
    have h2 : ((recs.filter fun r => s < r.step).filter fun r => r.step < s) = [] := by
      rw [List.filter_filter, List.filter_eq_nil_iff]
      intro q _
      simp
      omega
    rw [h1, h2, List.append_nil, List.append_nil, List.filter_filter]
    simp only [Bool.and_self]
    exact List.drop_left
  have hnone : (recs.drop (recs.filter fun r => r.step < s).length).takeWhile
      (fun r => r.step < s) = [] := by
    rw [hdrop]
    refine takeWhile_append_filter (a := []) (by simp) fun q hq => ?_
    rcases List.mem_append.mp hq with hq | hq
    · have := (List.mem_filter.mp hq).2
      simp only [decide_eq_true_eq] at this
      simp [this]
    · have := (List.mem_filter.mp hq).2
      simp only [decide_eq_true_eq] at this
      simp
      omega
  have hhere : (recs.drop (recs.filter fun r => r.step < s).length).takeWhile
      (fun r => r.step = s) = recs.filter fun r => r.step = s := by
    rw [hdrop]
    refine takeWhile_append_filter (fun q hq => (List.mem_filter.mp hq).2) fun q hq => ?_
    have := (List.mem_filter.mp hq).2
    simp only [decide_eq_true_eq] at this
    simp
    omega
  have hcount : (recs.filter fun r => r.step < s + 1).length =
      (recs.filter fun r => r.step < s).length + (recs.filter fun r => r.step = s).length := by
    rw [← List.countP_eq_length_filter, ← List.countP_eq_length_filter,
      ← List.countP_eq_length_filter]
    clear hsplit hdrop hnone hhere h
    induction recs with
    | nil => rfl
    | cons r recs ih =>
      simp only [List.countP_cons, ih, decide_eq_true_eq]
      split_ifs <;> omega
  unfold dfAnnotate
  dsimp only
  rw [hnone, List.length_nil, Nat.add_zero, hhere]
  exact ⟨rfl, hcount.symm⟩

lemma timelineRows_spec (df : DataflowStream) (h : recs.Pairwise fun a b => a.step ≤ b.step)
    (wide : Bytes) {n i : ℕ} (hi : i < n) :
    ∃ row, (timelineRows df recs wide n s
        (recs.filter fun r => r.step < s).length)[i]? = some row ∧
      row.tokens = ((recs.filter fun r => r.step = s + i).filterMap fun r =>
        token (wideText wide r) r).take 4 := by
  induction n generalizing s i with
  | zero => omega
  | succ n ih =>
    obtain ⟨htok, hcur⟩ := dfAnnotate_spec (s := s) h wide 4 256
    unfold timelineRows
    dsimp only
    cases i with
    | zero => exact ⟨_, rfl, htok⟩
    | succ i =>
      rw [hcur]
      obtain ⟨row, hrow, htoks⟩ := ih (s := s + 1) (i := i) (by omega)
      refine ⟨row, by simpa using hrow, ?_⟩
      rw [htoks, show s + 1 + i = s + (i + 1) by omega]

end Cursor

section Text

variable {n m : ℕ} {a b : Bytes}

lemma length_flatMap_hexByte (a : Bytes) : (a.flatMap hexByte).length = 2 * a.length := by
  induction a with
  | nil => rfl
  | cons x a ih =>
    simp only [List.flatMap_cons, List.length_append, ih, hexByte, List.length_cons,
      List.length_nil]
    omega

lemma flatMap_hexByte_injective : Function.Injective fun a : Bytes => a.flatMap hexByte := by
  intro a b h
  have := congrArg decodeHex h
  simpa only [decodeHex_hex] using this

lemma showBytes_ne_placeholder : showBytes n a ≠ placeholder := by
  intro h
  have := congrArg List.head? h
  simp [showBytes, placeholder, ascii] at this

lemma showBytes_ne_nil : showBytes n a ≠ [] := by
  simp [showBytes, ascii]

/-- The texts of bytes cut at 32 agree when the bytes do and both are cut or none. -/
lemma showBytes_eq_iff (ha : a.length = min n 32) (hb : b.length = min m 32) :
    showBytes n a = showBytes m b ↔ min n 33 = min m 33 ∧ a = b := by
  have hlen : ∀ (k : ℕ) (c : Bytes), c.length = min k 32 →
      (showBytes k c).length = 2 + 2 * min k 33 := by
    intro k c hc
    simp only [showBytes, List.length_append, length_flatMap_hexByte, hc]
    by_cases hk : 32 < k
    · simp only [if_pos hk]
      simp only [ascii, List.length_map]
      have : min k 32 = 32 := by omega
      have : min k 33 = 33 := by omega
      simp +decide only [*]
    · simp only [if_neg hk, List.length_nil]
      simp only [ascii, List.length_map]
      have h2 : "0x".toList.length = 2 := by decide
      omega
  constructor
  · intro h
    have h1 := congrArg List.length h
    rw [hlen n a ha, hlen m b hb] at h1
    have hmin : min n 33 = min m 33 := by omega
    have hdots : (32 < n) = (32 < m) := propext (by omega)
    refine ⟨hmin, flatMap_hexByte_injective ?_⟩
    simp only [showBytes, hdots, List.append_assoc, List.append_cancel_left_eq] at h
    exact List.append_cancel_right h
  · rintro ⟨hmin, rfl⟩
    have hdots : (32 < n) = (32 < m) := propext (by omega)
    simp only [showBytes, hdots]

/-- The text of a wide record: the bytes in reach of its offset, or the placeholder. -/
lemma wideText_eq (wide : Bytes) (o : Dataflow.ValRec) : wideText wide o =
    if o.valueValid = true ∧ o.size ≠ 0 ∧ o.wideOff.toNat + o.size ≤ wide.length then
      showBytes o.size ((wide.drop o.wideOff.toNat).take (min o.size 32))
    else placeholder := by
  unfold wideText wideHex
  by_cases h : o.valueValid = true ∧ o.size ≠ 0 ∧ o.wideOff.toNat + o.size ≤ wide.length
  · obtain ⟨hv, hs, hr⟩ := h
    have hne : wide ≠ [] := by
      rintro rfl
      simp at hr
      omega
    have hcond : ¬ (o.valueValid = false ∨ wide = [] ∨ o.size = 0 ∨
        wide.length < o.wideOff.toNat + o.size) := by
      simp [hv, hne, hs, hr]
    rw [if_neg hcond, if_neg showBytes_ne_nil, if_pos ⟨hv, hs, hr⟩]
  · have hcond : o.valueValid = false ∨ wide = [] ∨ o.size = 0 ∨
        wide.length < o.wideOff.toNat + o.size := by
      by_contra hc
      simp only [not_or, Bool.not_eq_false, not_lt] at hc
      exact h ⟨hc.1, hc.2.2.1, hc.2.2.2⟩
    rw [if_pos hcond, if_pos rfl, if_neg h]

end Text

section Exact

variable {df : DataflowStream} {pre post : List ValRec} {r : ValRec}

lemma side_append (a b : List ValRec) : side (a ++ b) = side a ++ side b :=
  List.flatMap_append

/-- The record of an operand prints its own text exactly under the condition on its bytes. -/
lemma wideText_toRec_iff (hsplit : df.recs = pre ++ r :: post) (hwide : r.wide = true) :
    wideText (side df.recs) (toRec r (side pre).length) = ownText r ↔
      (r.valueValid = true → if 0 < r.size ∧ r.size ≤ r.bytes.length then FoundAgain df pre r
        else OutOfReach df pre r) := by
  have hside : side df.recs = side pre ++ (r.bytes ++ side post) := by
    rw [hsplit, side_append]
    simp [side, sideBytes, hwide]
  have hoff : (toRec r (side pre).length).wideOff.toNat =
      if r.bytes = [] then 0 else (side pre).length % 2 ^ 32 := by
    simp only [toRec, sideBytes, hwide, if_true]
    split_ifs <;> simp
  have hsize : (toRec r (side pre).length).size = r.size % 2 ^ 16 := rfl
  have hvalid : (toRec r (side pre).length).valueValid = r.valueValid := rfl
  rw [wideText_eq, hoff, hsize, hvalid]
  unfold ownText
  by_cases hv : r.valueValid = true
  swap
  · rw [if_neg (fun h => hv h.1), if_neg (fun h => hv h.1)]
    exact ⟨fun _ h => absurd h hv, fun _ => rfl⟩
  simp only [hv, true_and, forall_const]
  by_cases hfull : 0 < r.size ∧ r.size ≤ r.bytes.length
  · rw [if_pos hfull, if_pos hfull]
    have hne : r.bytes ≠ [] := by
      intro h
      rw [h] at hfull
      simp at hfull
      omega
    rw [if_neg hne]
    have hmod : r.size % 2 ^ 16 ≤ r.size := Nat.mod_le _ _
    have hmod' : (side pre).length % 2 ^ 32 ≤ (side pre).length := Nat.mod_le _ _
    have hlen : (side df.recs).length =
        (side pre).length + (r.bytes.length + (side post).length) := by
      rw [hside, List.length_append, List.length_append]
    by_cases hn : r.size % 2 ^ 16 = 0
    · rw [if_neg (fun h => h.1 hn)]
      constructor
      · exact fun h => absurd h.symm showBytes_ne_placeholder
      · rintro ⟨h, -⟩
        omega
    · rw [if_pos ⟨hn, by omega⟩, showBytes_eq_iff]
      · have hown : min (r.size % 2 ^ 16) 33 = min r.size 33 →
            min (r.size % 2 ^ 16) 32 = min r.size 32 := by omega
        -- below 2^32 the offset is the operand's own place in the buffer
        have hplace : (side pre).length < 2 ^ 32 →
            ((side df.recs).drop ((side pre).length % 2 ^ 32)).take (min (r.size % 2 ^ 16) 32) =
              r.bytes.take (min (r.size % 2 ^ 16) 32) := by
          intro hlt
          rw [Nat.mod_eq_of_lt hlt, hside, List.drop_left,
            List.take_append_of_le_length (by omega)]
        constructor
        · rintro ⟨hmin, heq⟩
          rw [← hown hmin] at heq
          exact ⟨by omega, .inr heq⟩
        · rintro ⟨hcut, hfound⟩
          have hmin : min (r.size % 2 ^ 16) 33 = min r.size 33 := by omega
          refine ⟨hmin, ?_⟩
          rw [← hown hmin]
          rcases hfound with hlt | heq
          · exact hplace hlt
          · exact heq
      · rw [List.length_take, List.length_drop]
        omega
      · rw [List.length_take]
        omega
  · rw [if_neg hfull, if_neg hfull]
    by_cases hreach : r.size % 2 ^ 16 ≠ 0 ∧
        (if r.bytes = [] then 0 else (side pre).length % 2 ^ 32) + r.size % 2 ^ 16 ≤
          (side df.recs).length
    · rw [if_pos hreach]
      constructor
      · exact fun h => absurd h showBytes_ne_placeholder
      · rintro (h | h) <;> omega
    · rw [if_neg hreach]
      refine ⟨fun _ => ?_, fun _ => rfl⟩
      unfold OutOfReach
      omega

/-- The token of a shown operand is the token of its record, in the row of its step. -/
lemma token_shown (hasc : df.recs.Pairwise fun a b => a.step ≤ b.step)
    (h : Shown df pre r post) : ∃ row, (timelineBuild df)[r.step]? = some row ∧
      row.tokens[place pre r]? = token (wideText (side df.recs) (toRec r (side pre).length))
        (toRec r (side pre).length) := by
  have hasc' : (toRecs [] df.recs).1.Pairwise fun a b => a.step ≤ b.step := by
    rw [← List.pairwise_map (f := fun o : Dataflow.ValRec => o.step) (R := (· ≤ ·)), toRecs_steps,
      List.pairwise_map]
    exact hasc
  have hside : (toRecs [] df.recs).2 = side df.recs := by simp [toRecs_snd]
  have hstart : (((toRecs [] df.recs).1).filter fun o => o.step < 0).length = 0 := by simp
  obtain ⟨row, hrow, htok⟩ := timelineRows_spec df (s := 0) hasc' (side df.recs) h.inRows
  rw [hstart] at hrow
  refine ⟨row, by rw [timelineBuild, hside]; exact hrow, ?_⟩
  rw [htok, List.getElem?_take_of_lt h.early, Nat.zero_add]
  have hsplit : (toRecs [] df.recs).1 = (toRecs [] pre).1 ++
      (toRec r (side pre).length :: (toRecs (side pre ++ sideBytes r) post).1) := by
    rw [h.split, toRecs_fst_append, List.nil_append]
    rfl
  have hstep : (toRec r (side pre).length).step = r.step := rfl
  rw [hsplit, List.filter_append, List.filter_cons_of_pos (by simpa using hstep),
    List.filterMap_append, List.filterMap_cons]
  have hlen := @toRecs_filter_length pre [] r.step (wideText (side df.recs))
  have hsome : (token (wideText (side df.recs) (toRec r (side pre).length))
      (toRec r (side pre).length)).isSome = true := by
    have hp := h.printed
    have hw := h.wide
    unfold printed at hp
    by_cases hk : spaceOf r.space = .reg
    · rw [if_pos hk, hw, Bool.true_or, Bool.and_true] at hp
      simp [token, toRec, hk, hp, hw]
    · simp [token, toRec, hk, hw]
  obtain ⟨t, ht⟩ := Option.isSome_iff_exists.mp hsome
  rw [ht, place, ← hlen, List.getElem?_append_right le_rfl, Nat.sub_self]
  rfl

/-- The token of a wide operand tells its text. -/
lemma token_inj {t t' : Bytes} {k : ℕ} (hwide : r.wide = true) (hp : printed r = true) :
    token t (toRec r k) = token t' (toRec r 0) ↔ t = t' := by
  unfold printed at hp
  by_cases hk : spaceOf r.space = .reg
  · rw [if_pos hk, hwide, Bool.true_or, Bool.and_true] at hp
    simp [token, toRec, hk, hp, hwide]
  · simp [token, toRec, hk, hwide]

lemma wideExact_iff (hasc : df.recs.Pairwise fun a b => a.step ≤ b.step) :
    WideExact df ↔ SideHolds df := by
  have hone : ∀ pre r post, Shown df pre r post →
      ((∃ row, (timelineBuild df)[r.step]? = some row ∧
        row.tokens[place pre r]? = token (ownText r) (toRec r 0)) ↔
      (r.valueValid = true → if 0 < r.size ∧ r.size ≤ r.bytes.length then FoundAgain df pre r
        else OutOfReach df pre r)) := by
    intro pre r post h
    obtain ⟨row, hrow, htok⟩ := token_shown hasc h
    rw [← wideText_toRec_iff h.split h.wide, ← token_inj h.wide h.printed, ← htok]
    constructor
    · rintro ⟨row', hrow', htok'⟩
      rw [hrow] at hrow'
      obtain rfl := Option.some.inj hrow'
      exact htok'
    · exact fun heq => ⟨row, hrow, heq⟩
  constructor
  · exact fun h pre r post hs => (hone pre r post hs).mp (h pre r post hs)
  · exact fun h pre r post hs => (hone pre r post hs).mpr (h pre r post hs)

end Exact

section Decoded

variable {F : Type} {L : JsonLib F} {stepEvs edgeEvs : List (Event F)}

lemma step_of_mem_ops {st : DfStep} (hst : st ∈ decodedSteps L stepEvs) :
    ∀ o ∈ st.ops, o.step = st.step := by
  obtain ⟨body, -, hstep⟩ := List.mem_filterMap.1 hst
  rw [decodeStep] at hstep
  dsimp only at hstep
  split at hstep
  · cases hstep
  · cases hstep
    intro o ho
    obtain ⟨j, -, rfl⟩ := List.mem_map.1 ho
    rfl

/-- The decoder puts the operands in the order of their steps. -/
lemma recs_ascending :
    (decodeDataflow L stepEvs edgeEvs).recs.Pairwise fun a b => a.step ≤ b.step := by
  have hrecs : (decodeDataflow L stepEvs edgeEvs).recs =
      (sortedSteps L stepEvs).flatMap DfStep.ops := rfl
  rw [hrecs, List.pairwise_flatMap]
  constructor
  · intro st hst
    have hops := step_of_mem_ops (mem_sortedSteps.1 hst)
    refine List.pairwise_of_forall_mem_list fun a ha b hb => ?_
    rw [hops a ha, hops b hb]
  · have hsorted : (sortedSteps L stepEvs).Pairwise fun a b => a.step ≤ b.step :=
      List.pairwise_insertionSort (fun a b : DfStep => a.step ≤ b.step) _
    refine hsorted.imp_of_mem fun {st st'} hst hst' hle a ha b hb => ?_
    rw [step_of_mem_ops (mem_sortedSteps.1 hst) a ha, step_of_mem_ops (mem_sortedSteps.1 hst') b hb]
    exact hle

/-- A wide write of a register with its 16 bytes or with none -/
def wideOp (bytes : String) : Json Empty :=
  .obj [(ascii "space", .str (ascii "reg")), (ascii "size", .int 16), (ascii "write", .bool true),
    (ascii "value_valid", .bool true), (ascii "wide", .bool true),
    (ascii "bytes", .str (ascii bytes))]

/-- A step that writes two wide registers, the second without its bytes -/
def wideEvent : Event Empty :=
  ⟨ascii "df_step", .obj [(ascii "step", .int 0), (ascii "ops", .arr
    [wideOp "000102030405060708090a0b0c0d0e0f", wideOp ""])], 0⟩

def wideRec (bytes : Bytes) : ValRec where
  space := ascii "reg"
  size := 16
  write := true
  valueValid := true
  wide := true
  bytes := bytes

end Decoded

end AsmTest.Doc
