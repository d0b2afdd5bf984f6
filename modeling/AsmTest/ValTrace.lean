import Mathlib.Tactic
import Mathlib.Data.List.Basic
import Mathlib.Data.List.GetD

namespace AsmTest.Dataflow

/-- `at_loc_kind_t`: the address space a location lives in. -/
inductive LocKind
  | reg
  | memAbs
  | memOff
  deriving DecidableEq, Repr

/-- `at_val_rec_t`: one operand read or write of one step. -/
structure ValRec where
  kind : LocKind
  reg : BitVec 32 := 0
  base : BitVec 32 := 0
  index : BitVec 32 := 0
  scale : BitVec 32 := 0
  disp : BitVec 64 := 0
  addr : BitVec 64 := 0
  /-- Width in bytes, 0 when unknown. -/
  size : ℕ := 0
  isWrite : Bool := false
  valueValid : Bool := false
  wide : Bool := false
  wideOff : BitVec 32 := 0
  value : BitVec 64 := 0
  /-- Index into `insnOff`, stamped by `valtraceAppend`. -/
  step : ℕ := 0
  deriving DecidableEq, Repr

/-- `asmtest_valtrace_t`: the stored prefix of each array with its capacity; an
array that was never allocated has capacity 0. -/
structure ValTrace where
  insnOff : List (BitVec 64)
  stepsCap : ℕ
  stepsTotal : ℕ
  recs : List ValRec
  recsCap : ℕ
  recsTotal : ℕ
  truncated : Bool
  memSpace : LocKind
  deriving DecidableEq, Repr

namespace ValTrace

def stepsLen (v : ValTrace) : ℕ := v.insnOff.length

/-- The records of step `t`, in record order. -/
def stepRecs (v : ValTrace) (t : ℕ) : List ValRec := v.recs.filter fun r => r.step = t

end ValTrace

def valtraceNew (stepsCap recsCap : ℕ) : ValTrace :=
  ⟨[], stepsCap, 0, [], recsCap, 0, false, .memAbs⟩

/-- The body of the record loop of `asmtest_valtrace_append`. -/
def pushRec (stepIdx : ℕ) (v : ValTrace) (r : ValRec) : ValTrace :=
  if v.recs.length < v.recsCap then { v with recs := v.recs ++ [{ r with step := stepIdx }] }
  else { v with truncated := true }

def valtraceAppend (v : ValTrace) (off : BitVec 64) (recs : List ValRec) : ValTrace :=
  let v := { v with stepsTotal := v.stepsTotal + 1, recsTotal := v.recsTotal + recs.length }
  if v.insnOff.length < v.stepsCap then
    let stepIdx := v.insnOff.length % 2 ^ 32
    recs.foldl (pushRec stepIdx) { v with insnOff := v.insnOff ++ [off] }
  else { v with truncated := true }

/-- A sequence of appends. -/
def appendAll (v : ValTrace) (calls : List (BitVec 64 × List ValRec)) : ValTrace :=
  calls.foldl (fun v c => valtraceAppend v c.1 c.2) v

/-! ## The append contract -/

/-- Records are grouped in ascending step order, each stamped with a stored step. -/
structure Stamped (v : ValTrace) : Prop where
  sorted : v.recs.Pairwise fun a b => a.step ≤ b.step
  lt : ∀ r ∈ v.recs, r.step < v.stepsLen

/-- The record loop changes the records and the mark only. -/
lemma foldl_pushRec_frame (i : ℕ) (l : List ValRec) (v : ValTrace) :
    (l.foldl (pushRec i) v).insnOff = v.insnOff ∧ (l.foldl (pushRec i) v).stepsCap = v.stepsCap ∧
      (l.foldl (pushRec i) v).recsCap = v.recsCap ∧
      (l.foldl (pushRec i) v).stepsTotal = v.stepsTotal ∧
      (l.foldl (pushRec i) v).recsTotal = v.recsTotal := by
  induction l generalizing v with
  | nil => exact ⟨rfl, rfl, rfl, rfl, rfl⟩
  | cons r l ih =>
    obtain ⟨h1, h2, h3, h4, h5⟩ := ih (pushRec i v r)
    rw [List.foldl_cons, h1, h2, h3, h4, h5, pushRec]
    split_ifs
    · exact ⟨rfl, rfl, rfl, rfl, rfl⟩
    · exact ⟨rfl, rfl, rfl, rfl, rfl⟩

lemma foldl_pushRec_insnOff (i : ℕ) (v : ValTrace) (l : List ValRec) :
    (l.foldl (pushRec i) v).insnOff = v.insnOff :=
  (foldl_pushRec_frame i l v).1

lemma valtraceAppend_stepsCap (v : ValTrace) (off : BitVec 64) (recs : List ValRec) :
    (valtraceAppend v off recs).stepsCap = v.stepsCap := by
  unfold valtraceAppend
  dsimp only
  split_ifs
  · rw [(foldl_pushRec_frame _ recs _).2.1]
  · rfl

lemma foldl_pushRec_recs (i : ℕ) (v : ValTrace) (l : List ValRec) :
    ∃ new, (l.foldl (pushRec i) v).recs = v.recs ++ new ∧ ∀ r ∈ new, r.step = i := by
  induction l generalizing v with
  | nil => exact ⟨[], by simp, by simp⟩
  | cons r l ih =>
    obtain ⟨new, hnew, hstep⟩ := ih (pushRec i v r)
    rw [List.foldl_cons, hnew]
    unfold pushRec
    split_ifs
    · refine ⟨{ r with step := i } :: new, by simp, ?_⟩
      simpa using hstep
    · exact ⟨new, rfl, hstep⟩

lemma stepsLen_append (v : ValTrace) (off : BitVec 64) (recs : List ValRec) :
    (valtraceAppend v off recs).stepsLen =
      if v.stepsLen < v.stepsCap then v.stepsLen + 1 else v.stepsLen := by
  unfold valtraceAppend ValTrace.stepsLen
  dsimp only
  split_ifs
  · rw [foldl_pushRec_insnOff]
    simp
  · rfl

lemma stepsLen_le_append (v : ValTrace) (off : BitVec 64) (recs : List ValRec) :
    v.stepsLen ≤ (valtraceAppend v off recs).stepsLen := by
  rw [stepsLen_append]
  split_ifs <;> omega

lemma stepsLen_le_appendAll (v : ValTrace) (calls : List (BitVec 64 × List ValRec)) :
    v.stepsLen ≤ (appendAll v calls).stepsLen := by
  induction calls generalizing v with
  | nil => exact le_rfl
  | cons c calls ih => exact (stepsLen_le_append v c.1 c.2).trans (ih _)

/-- One append keeps the contract as long as the step index fits 32 bits. -/
lemma Stamped.append {v : ValTrace} (hv : Stamped v) (off : BitVec 64) (recs : List ValRec)
    (hlt : v.stepsLen < 2 ^ 32) : Stamped (valtraceAppend v off recs) := by
  have hlen := stepsLen_append v off recs
  by_cases hroom : v.stepsLen < v.stepsCap
  · have hv' : valtraceAppend v off recs = recs.foldl (pushRec v.stepsLen)
        { v with stepsTotal := v.stepsTotal + 1, recsTotal := v.recsTotal + recs.length,
                 insnOff := v.insnOff ++ [off] } := by
      unfold valtraceAppend
      unfold ValTrace.stepsLen at hlt hroom ⊢
      rw [if_pos hroom, Nat.mod_eq_of_lt hlt]
    obtain ⟨new, hnew, hstep⟩ := foldl_pushRec_recs v.stepsLen
      { v with stepsTotal := v.stepsTotal + 1, recsTotal := v.recsTotal + recs.length,
               insnOff := v.insnOff ++ [off] } recs
    rw [if_pos hroom] at hlen
    rw [← hv'] at hnew
    constructor
    · rw [hnew, List.pairwise_append]
      refine ⟨hv.sorted, List.pairwise_of_forall_mem_list ?_, ?_⟩
      · intro a ha b hb
        rw [hstep a ha, hstep b hb]
      · intro a ha b hb
        rw [hstep b hb]
        exact (hv.lt a ha).le
    · intro r hr
      rw [hlen]
      rcases List.mem_append.mp (hnew ▸ hr) with h | h
      · exact (hv.lt r h).trans (Nat.lt_succ_self _)
      · rw [hstep r h]
        exact Nat.lt_succ_self _
  · -- a full trace counts the step and stores nothing
    have hv' : valtraceAppend v off recs =
        { v with stepsTotal := v.stepsTotal + 1, recsTotal := v.recsTotal + recs.length,
                 truncated := true } := by
      unfold valtraceAppend
      exact if_neg hroom
    rw [hv']
    exact ⟨hv.sorted, hv.lt⟩

lemma Stamped.appendAll {v : ValTrace} (hv : Stamped v) (calls : List (BitVec 64 × List ValRec))
    (hlt : (appendAll v calls).stepsLen < 2 ^ 32) : Stamped (appendAll v calls) := by
  induction calls generalizing v with
  | nil => exact hv
  | cons c calls ih =>
    have hle := stepsLen_le_appendAll (valtraceAppend v c.1 c.2) calls
    have hle' := stepsLen_le_append v c.1 c.2
    have hlt' : (Dataflow.appendAll (valtraceAppend v c.1 c.2) calls).stepsLen < 2 ^ 32 := hlt
    exact ih (hv.append c.1 c.2 (by omega)) hlt'

lemma stamped_new (stepsCap recsCap : ℕ) : Stamped (valtraceNew stepsCap recsCap) :=
  ⟨List.Pairwise.nil, by simp [valtraceNew]⟩

/-- Every trace built from empty by appends, below 2^32 steps, meets the contract. -/
theorem stamped_appendAll (stepsCap recsCap : ℕ) (calls : List (BitVec 64 × List ValRec))
    (hlt : (appendAll (valtraceNew stepsCap recsCap) calls).stepsLen < 2 ^ 32) :
    Stamped (appendAll (valtraceNew stepsCap recsCap) calls) :=
  (stamped_new stepsCap recsCap).appendAll calls hlt

/-! ## Traces with room -/

lemma foldl_pushRec_of_room (i : ℕ) (l : List ValRec) {v : ValTrace}
    (h : v.recs.length + l.length ≤ v.recsCap) :
    l.foldl (pushRec i) v = { v with recs := v.recs ++ l.map fun r => { r with step := i } } := by
  induction l generalizing v with
  | nil => simp
  | cons r l ih =>
    rw [List.length_cons] at h
    have hroom : (v.recs ++ [{ r with step := i }]).length + l.length ≤ v.recsCap := by
      rw [List.length_append, List.length_singleton]
      omega
    rw [List.foldl_cons, pushRec, if_pos (by omega), ih hroom]
    simp

/-- With room for everything each append stores one step and all its records. -/
lemma appendAll_of_room {stepsCap recsCap : ℕ} (calls : List (BitVec 64 × List ValRec))
    (hsteps : calls.length ≤ stepsCap) (hlt : calls.length ≤ 2 ^ 32)
    (hrecs : (calls.flatMap Prod.snd).length ≤ recsCap) :
    ∃ w, appendAll (valtraceNew stepsCap recsCap) calls = w ∧ w.stepsLen = calls.length ∧
      w.stepsCap = stepsCap ∧ w.recsCap = recsCap ∧ w.recs.length = (calls.flatMap Prod.snd).length ∧
      w.recs = (List.range calls.length).flatMap fun i =>
        (calls.getD i (0, [])).2.map fun r => { r with step := i } := by
  induction calls using List.reverseRecOn with
  | nil => exact ⟨_, rfl, rfl, rfl, rfl, rfl, rfl⟩
  | append_singleton calls c ih =>
    simp only [List.length_append, List.length_singleton, List.flatMap_append,
      List.flatMap_singleton] at hsteps hlt hrecs
    obtain ⟨w, h1, h2, h3, h4, h5, h6⟩ := ih (by omega) (by omega) (by omega)
    have hidx : w.insnOff.length % 2 ^ 32 = calls.length := by
      rw [← h2, ValTrace.stepsLen] at hlt ⊢
      exact Nat.mod_eq_of_lt (by omega)
    have happ : appendAll (valtraceNew stepsCap recsCap) (calls ++ [c]) = valtraceAppend w c.1 c.2 := by
      rw [← h1, appendAll, appendAll, List.foldl_append]
      rfl
    have hroom : w.insnOff.length < w.stepsCap := by
      rw [ValTrace.stepsLen] at h2
      omega
    refine ⟨_, happ, ?_⟩
    rw [valtraceAppend]
    dsimp only
    rw [if_pos hroom, hidx, foldl_pushRec_of_room calls.length c.2 (by dsimp only; omega)]
    refine ⟨?_, h3, h4, ?_, ?_⟩
    · simpa [ValTrace.stepsLen] using h2
    · simp [h5]
    · rw [h6]
      dsimp only
      rw [List.length_append, List.length_singleton, List.range_succ, List.flatMap_append,
        List.flatMap_singleton]
      congr 1
      · apply List.flatMap_congr
        intro i hi
        rw [List.getD_append _ _ _ _ (List.mem_range.mp hi)]
      · simp

end AsmTest.Dataflow
