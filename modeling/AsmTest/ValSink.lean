import AsmTest.ValTrace

/-!
# The value-trace sink when it fills up

Steps, records and wide values have buffers of their own, and an append may find room for its step
and only for some of its records. What is stored is always a prefix of what was appended, the
totals go on counting, and one flag says that something was dropped. The step of a record is a
32-bit number.
-/

namespace AsmTest.Dataflow

section Code

/-- `asmtest_valtrace_t` with its side buffer for wide values -/
structure Sink extends ValTrace where
  wide : List (BitVec 8)
  wideCap : ℕ
  deriving DecidableEq, Repr

def sinkNew (stepsCap recsCap wideCap : ℕ) : Sink :=
  { valtraceNew stepsCap recsCap with wide := [], wideCap := wideCap }

/-- `asmtest_valtrace_stash_wide`; `none` is `(size_t)-1`. -/
def valtraceStashWide (v : Sink) (bytes : List (BitVec 8)) : Option ℕ × Sink :=
  if bytes.length = 0 then (none, v)
  else if v.wideCap < v.wide.length + bytes.length then (none, { v with truncated := true })
  else (some v.wide.length, { v with wide := v.wide ++ bytes })

/-- A call of a producer -/
inductive SinkCall
  | append (off : BitVec 64) (recs : List ValRec)
  | stash (bytes : List (BitVec 8))
  deriving DecidableEq, Repr

def Sink.call (v : Sink) : SinkCall → Sink
  | .append off recs => { v with toValTrace := valtraceAppend v.toValTrace off recs }
  | .stash bytes => (valtraceStashWide v bytes).2

def Sink.run (v : Sink) (calls : List SinkCall) : Sink := calls.foldl Sink.call v

end Code

section Spec

/-- The appended steps, with their records -/
def appended (calls : List SinkCall) : List (BitVec 64 × List ValRec) :=
  calls.filterMap fun c => match c with
    | .append off recs => some (off, recs)
    | .stash _ => none

/-- The wide values -/
def stashed (calls : List SinkCall) : List (List (BitVec 8)) :=
  calls.filterMap fun c => match c with
    | .append _ _ => none
    | .stash bytes => some bytes

/-- The records of some steps in order, each with the index of its step -/
def indexed (steps : List (BitVec 64 × List ValRec)) : List (ValRec × ℕ) :=
  steps.zipIdx.flatMap fun p => p.1.2.map fun r => (r, p.2)

def stamp (p : ValRec × ℕ) : ValRec := { p.1 with step := p.2 }

/-- The sink holds a prefix of what was appended, its totals are those of everything, and it is
marked just when something was dropped. -/
structure Honest (stepsCap : ℕ) (calls : List SinkCall) (v : Sink) : Prop where
  steps : v.insnOff = ((appended calls).map Prod.fst).take stepsCap
  recs : v.recs <+: (indexed (appended calls)).map stamp
  stepsTotal : v.stepsTotal = (appended calls).length
  recsTotal : v.recsTotal = (indexed (appended calls)).length
  truncated : v.truncated = true ↔ v.insnOff.length < v.stepsTotal ∨
    v.recs.length < v.recsTotal ∨ v.wide.length < (stashed calls).flatten.length

end Spec

section Fill

lemma indexed_append_singleton (steps : List (BitVec 64 × List ValRec))
    (c : BitVec 64 × List ValRec) :
    indexed (steps ++ [c]) = indexed steps ++ c.2.map fun r => (r, steps.length) := by
  rw [indexed, List.zipIdx_append, List.flatMap_append]
  simp [indexed]

/-- The record loop stores what there is room for. -/
lemma foldl_pushRec_fills (i : ℕ) (l : List ValRec) {v : ValTrace}
    (h : v.recs.length ≤ v.recsCap) :
    (l.foldl (pushRec i) v).recs =
        v.recs ++ (l.map fun r => stamp (r, i)).take (v.recsCap - v.recs.length) ∧
      ((l.foldl (pushRec i) v).truncated = true ↔
        v.truncated = true ∨ v.recsCap < v.recs.length + l.length) := by
  induction l generalizing v with
  | nil =>
    refine ⟨by simp, ?_⟩
    rw [List.foldl_nil, List.length_nil, Nat.add_zero, or_iff_left (Nat.not_lt.2 h)]
  | cons r l ih =>
    rw [List.foldl_cons, pushRec, List.length_cons]
    by_cases hroom : v.recs.length < v.recsCap
    · rw [if_pos hroom]
      obtain ⟨hrecs, hmark⟩ := @ih { v with recs := v.recs ++ [{ r with step := i }] }
        (by rw [List.length_append]; exact hroom)
      obtain ⟨k, hk⟩ : ∃ k, v.recsCap - v.recs.length = k + 1 :=
        ⟨v.recsCap - v.recs.length - 1, by omega⟩
      have hk' : v.recsCap - (v.recs.length + 1) = k := by omega
      dsimp only at hrecs hmark
      rw [List.length_append, List.length_singleton] at hrecs hmark
      rw [hrecs, hmark, hk, hk', List.map_cons, List.take_succ_cons, List.append_assoc]
      refine ⟨rfl, ?_⟩
      rw [Nat.add_assoc, Nat.add_comm 1]
    · have hfull : v.recsCap - v.recs.length = 0 := by omega
      rw [if_neg hroom]
      obtain ⟨hrecs, hmark⟩ := @ih { v with truncated := true } h
      dsimp only at hrecs hmark
      rw [hfull, List.take_zero] at hrecs
      rw [hrecs, hmark, hfull, List.take_zero]
      refine ⟨rfl, ?_⟩
      have hover : v.recsCap < v.recs.length + (l.length + 1) := by omega
      simp only [true_or, hover, or_true]

/-- What the code stamps on a record -/
def stamp32 (p : ValRec × ℕ) : ValRec := { p.1 with step := p.2 % 2 ^ 32 }

/-- The state of the sink after some calls -/
structure Filled (stepsCap recsCap : ℕ) (calls : List SinkCall) (v : Sink) : Prop where
  caps : v.stepsCap = stepsCap ∧ v.recsCap = recsCap
  steps : v.insnOff = ((appended calls).map Prod.fst).take stepsCap
  recs : v.recs = ((indexed ((appended calls).take stepsCap)).take recsCap).map stamp32
  stepsTotal : v.stepsTotal = (appended calls).length
  recsTotal : v.recsTotal = (indexed (appended calls)).length
  wide : v.wide.length ≤ (stashed calls).flatten.length
  truncated : v.truncated = true ↔ v.insnOff.length < v.stepsTotal ∨
    v.recs.length < v.recsTotal ∨ v.wide.length < (stashed calls).flatten.length

variable {stepsCap recsCap : ℕ} {calls : List SinkCall} {v : Sink}

lemma filled_new (stepsCap recsCap wideCap : ℕ) :
    Filled stepsCap recsCap [] (sinkNew stepsCap recsCap wideCap) := by
  refine ⟨⟨rfl, rfl⟩, List.take_nil.symm, ?_, rfl, rfl, le_rfl, ?_⟩
  · simp [sinkNew, valtraceNew, appended, indexed]
  · simp [sinkNew, valtraceNew, stashed]

lemma appended_append (a b : List SinkCall) : appended (a ++ b) = appended a ++ appended b :=
  List.filterMap_append

lemma stashed_append (a b : List SinkCall) : stashed (a ++ b) = stashed a ++ stashed b :=
  List.filterMap_append

/-- A step that finds room, with as many of its records as fit -/
lemma Filled.append_room (h : Filled stepsCap recsCap calls v) (off : BitVec 64)
    (recs : List ValRec) (hroom : (appended calls).length < stepsCap) :
    Filled stepsCap recsCap (calls ++ [.append off recs]) (v.call (.append off recs)) := by
  obtain ⟨⟨hsc, hrc⟩, hsteps, hrecs, hst, hrt, hwide, htr⟩ := h
  have hlen : v.insnOff.length = (appended calls).length := by
    rw [hsteps, List.length_take, List.length_map]
    omega
  have hall : (appended calls).take stepsCap = appended calls :=
    List.take_of_length_le hroom.le
  rw [hall] at hrecs
  have hrl : v.recs.length = min recsCap (indexed (appended calls)).length := by
    rw [hrecs, List.length_map, List.length_take]
  have hfit : v.recs.length ≤ v.recsCap := by
    rw [hrl, hrc]
    exact Nat.min_le_left _ _
  have hcall : v.call (.append off recs) = { v with
      toValTrace := recs.foldl (pushRec (v.insnOff.length % 2 ^ 32)) { v.toValTrace with
        stepsTotal := v.stepsTotal + 1
        recsTotal := v.recsTotal + recs.length
        insnOff := v.insnOff ++ [off] } } := by
    rw [Sink.call, valtraceAppend]
    dsimp only
    rw [if_pos (by omega)]
  have happ : appended (calls ++ [.append off recs]) = appended calls ++ [(off, recs)] := by
    rw [appended_append]
    rfl
  have hstash : stashed (calls ++ [.append off recs]) = stashed calls := by
    rw [stashed_append]
    exact List.append_nil _
  have hidx : indexed (appended calls ++ [(off, recs)]) =
      indexed (appended calls) ++ recs.map fun r => (r, (appended calls).length) :=
    indexed_append_singleton _ _
  obtain ⟨hnew, hmark⟩ := @foldl_pushRec_fills (v.insnOff.length % 2 ^ 32) recs { v.toValTrace with
    stepsTotal := v.stepsTotal + 1
    recsTotal := v.recsTotal + recs.length
    insnOff := v.insnOff ++ [off] } hfit
  obtain ⟨hoff, hsc', hrc', hst', hrt'⟩ := foldl_pushRec_frame (v.insnOff.length % 2 ^ 32) recs
    { v.toValTrace with
      stepsTotal := v.stepsTotal + 1
      recsTotal := v.recsTotal + recs.length
      insnOff := v.insnOff ++ [off] }
  rw [hcall]
  dsimp only at hnew hmark hoff hsc' hrc' hst' hrt'
  have hrl' : (recs.map fun r => stamp (r, v.insnOff.length % 2 ^ 32)).length = recs.length :=
    List.length_map _
  refine ⟨⟨hsc'.trans hsc, hrc'.trans hrc⟩, ?_, ?_, ?_, ?_, ?_, ?_⟩
  · rw [hoff, happ, List.map_append, List.map_singleton, hsteps,
      List.take_of_length_le (by rw [List.length_map]; exact hroom.le), List.take_of_length_le]
    rw [List.length_append, List.length_map, List.length_singleton]
    exact hroom
  · have hall' : (appended calls ++ [(off, recs)]).take stepsCap =
        appended calls ++ [(off, recs)] :=
      List.take_of_length_le (by rw [List.length_append]; exact hroom)
    rw [hnew, happ, hall', hidx, List.take_append, List.map_append, ← hrecs, hrc, hrl, hlen,
      show recsCap - min recsCap (indexed (appended calls)).length =
        recsCap - (indexed (appended calls)).length by omega, List.map_take, List.map_map]
    rfl
  · rw [hst', happ, hst, List.length_append]
    rfl
  · rw [hrt', happ, hidx, hrt, List.length_append, List.length_map]
  · rw [hstash]
    exact hwide
  · dsimp only
    rw [hmark, hst', hrt', hoff, hnew, hstash, htr, List.length_append, List.length_append,
      List.length_take, hrl', List.length_singleton]
    omega

/-- A step that finds no room is dropped with its records. -/
lemma Filled.append_full (h : Filled stepsCap recsCap calls v) (off : BitVec 64)
    (recs : List ValRec) (hfull : stepsCap ≤ (appended calls).length) :
    Filled stepsCap recsCap (calls ++ [.append off recs]) (v.call (.append off recs)) := by
  obtain ⟨⟨hsc, hrc⟩, hsteps, hrecs, hst, hrt, hwide, htr⟩ := h
  have hlen : v.insnOff.length = stepsCap := by
    rw [hsteps, List.length_take, List.length_map]
    omega
  have hcall : v.call (.append off recs) = { v with
      toValTrace := { v.toValTrace with
        stepsTotal := v.stepsTotal + 1
        recsTotal := v.recsTotal + recs.length
        truncated := true } } := by
    rw [Sink.call, valtraceAppend]
    dsimp only
    rw [if_neg (by omega)]
  have happ : appended (calls ++ [.append off recs]) = appended calls ++ [(off, recs)] := by
    rw [appended_append]
    rfl
  have hstash : stashed (calls ++ [.append off recs]) = stashed calls := by
    rw [stashed_append]
    exact List.append_nil _
  rw [hcall]
  refine ⟨⟨hsc, hrc⟩, ?_, ?_, ?_, ?_, ?_, ?_⟩
  · rw [happ, List.map_append, List.take_append_of_le_length (by rw [List.length_map]; exact hfull)]
    exact hsteps
  · rw [happ, List.take_append_of_le_length hfull]
    exact hrecs
  · rw [happ, List.length_append, ← hst]
    rfl
  · rw [happ, indexed_append_singleton, List.length_append, List.length_map, ← hrt]
  · rw [hstash]
    exact hwide
  · dsimp only
    rw [hlen, hst]
    have hdrop : stepsCap < (appended calls).length + 1 := by omega
    simp only [hdrop, true_or]

lemma Filled.stash (h : Filled stepsCap recsCap calls v) (bytes : List (BitVec 8)) :
    Filled stepsCap recsCap (calls ++ [.stash bytes]) (v.call (.stash bytes)) := by
  obtain ⟨hcaps, hsteps, hrecs, hst, hrt, hwide, htr⟩ := h
  have happ : appended (calls ++ [.stash bytes]) = appended calls := by
    rw [appended_append]
    exact List.append_nil _
  have hstash : (stashed (calls ++ [.stash bytes])).flatten.length =
      (stashed calls).flatten.length + bytes.length := by
    rw [stashed_append, List.flatten_append, List.length_append]
    exact congrArg _ (congrArg List.length (List.append_nil bytes))
  rw [Sink.call, valtraceStashWide]
  by_cases hnil : bytes.length = 0
  · rw [if_pos hnil]
    rw [hnil, Nat.add_zero] at hstash
    exact ⟨hcaps, happ ▸ hsteps, happ ▸ hrecs, happ ▸ hst, happ ▸ hrt, hstash ▸ hwide,
      hstash ▸ htr⟩
  rw [if_neg hnil]
  by_cases hover : v.wideCap < v.wide.length + bytes.length
  · rw [if_pos hover]
    refine ⟨hcaps, happ ▸ hsteps, happ ▸ hrecs, happ ▸ hst, happ ▸ hrt, ?_, ?_⟩
    · rw [hstash]
      exact hwide.trans (Nat.le_add_right _ _)
    · dsimp only
      have hdrop : v.wide.length < (stashed calls).flatten.length + bytes.length := by omega
      rw [hstash]
      simp only [hdrop, or_true]
  · rw [if_neg hover]
    refine ⟨hcaps, happ ▸ hsteps, happ ▸ hrecs, happ ▸ hst, happ ▸ hrt, ?_, ?_⟩
    · dsimp only
      rw [hstash, List.length_append]
      exact Nat.add_le_add_right hwide _
    · dsimp only
      rw [hstash, List.length_append, htr]
      omega

/-- Every sequence of calls -/
lemma filled_run (stepsCap recsCap wideCap : ℕ) (calls : List SinkCall) :
    Filled stepsCap recsCap calls ((sinkNew stepsCap recsCap wideCap).run calls) := by
  induction calls using List.reverseRecOn with
  | nil => exact filled_new stepsCap recsCap wideCap
  | append_singleton calls c ih =>
    rw [Sink.run, List.foldl_append]
    cases c with
    | append off recs =>
      rcases Nat.lt_or_ge (appended calls).length stepsCap with hroom | hfull
      · exact ih.append_room off recs hroom
      · exact ih.append_full off recs hfull
    | stash bytes => exact ih.stash bytes

end Fill

section Honest

lemma indexed_take_initial (n : ℕ) (steps : List (BitVec 64 × List ValRec)) :
    indexed (steps.take n) <+: indexed steps := by
  refine ⟨((steps.drop n).zipIdx (steps.take n).length).flatMap fun p =>
    p.1.2.map fun r => (r, p.2), ?_⟩
  conv_rhs => rw [indexed, ← List.take_append_drop n steps, List.zipIdx_append,
    List.flatMap_append, Nat.zero_add]
  rfl

/-- The stored records are a prefix of the stamped ones just when every index fits 32 bits. -/
lemma map_stamp32_prefix_iff {a b : List (ValRec × ℕ)} (h : a <+: b) :
    a.map stamp32 <+: b.map stamp ↔ ∀ p ∈ a, p.2 < 2 ^ 32 := by
  obtain ⟨c, rfl⟩ := h
  rw [List.map_append]
  constructor
  · rintro ⟨d, hd⟩ p hp
    have hmap : a.map stamp32 = a.map stamp :=
      (List.append_inj hd (by rw [List.length_map, List.length_map])).1
    have hstep := congrArg ValRec.step (List.map_inj_left.1 hmap p hp)
    change p.2 % 2 ^ 32 = p.2 at hstep
    omega
  · intro hp
    have hmap : a.map stamp32 = a.map stamp := by
      refine List.map_inj_left.2 fun p hmem => ?_
      rw [stamp32, Nat.mod_eq_of_lt (hp p hmem)]
      rfl
    rw [hmap]
    exact List.prefix_append _ _

/-- The sink is honest just when none of the records it has room for belongs to a step from `2^32`
on: the index of a step is stored in 32 bits. -/
theorem valtrace_honest_iff (stepsCap recsCap wideCap : ℕ) (calls : List SinkCall) :
    Honest stepsCap calls ((sinkNew stepsCap recsCap wideCap).run calls) ↔
      ∀ p ∈ (indexed ((appended calls).take stepsCap)).take recsCap, p.2 < 2 ^ 32 := by
  obtain ⟨-, hsteps, hrecs, hst, hrt, -, htr⟩ := filled_run stepsCap recsCap wideCap calls
  have hprefix : (indexed ((appended calls).take stepsCap)).take recsCap <+:
      indexed (appended calls) :=
    (List.take_prefix _ _).trans (indexed_take_initial _ _)
  constructor
  · intro h
    have hp := h.recs
    rw [hrecs] at hp
    exact (map_stamp32_prefix_iff hprefix).1 hp
  · intro h
    refine ⟨hsteps, ?_, hst, hrt, htr⟩
    rw [hrecs]
    exact (map_stamp32_prefix_iff hprefix).2 h

/-- Steps without records, and one record behind them -/
def lateRecord (n : ℕ) : List SinkCall :=
  List.replicate n (.append 0 []) ++ [.append 0 [{ kind := .reg }]]

lemma indexed_lateRecord (n : ℕ) :
    indexed (appended (lateRecord n)) = [({ kind := .reg }, n)] := by
  have hquiet : ∀ n : ℕ, appended (List.replicate n (.append 0 [])) = List.replicate n (0, []) := by
    intro n
    induction n with
    | zero => rfl
    | succ n ih =>
      rw [List.replicate_succ, List.replicate_succ, ← ih]
      rfl
  have hnone : ∀ n : ℕ, indexed (List.replicate n (0, [])) = [] := by
    intro n
    induction n with
    | zero => rfl
    | succ n ih => rw [List.replicate_succ', indexed_append_singleton, ih]; rfl
  rw [lateRecord, appended_append, hquiet]
  change indexed (List.replicate n (0, []) ++ [(0, [{ kind := .reg }])]) = _
  rw [indexed_append_singleton, hnone, List.length_replicate]
  rfl

lemma not_honest_lateRecord {n : ℕ} (hn : 2 ^ 32 ≤ n) :
    ¬Honest (n + 1) (lateRecord n) ((sinkNew (n + 1) 1 0).run (lateRecord n)) := by
  intro h
  have hp := h.recs
  have hlen : (appended (lateRecord n)).length ≤ n + 1 := by
    refine (List.length_filterMap_le _ _).trans ?_
    rw [lateRecord, List.length_append, List.length_replicate]
    rfl
  rw [(filled_run (n + 1) 1 0 (lateRecord n)).recs, List.take_of_length_le hlen] at hp
  have hlt := (map_stamp32_prefix_iff (List.take_prefix _ _)).1 hp
  rw [indexed_lateRecord] at hlt
  exact Nat.not_lt.2 hn (hlt _ List.mem_cons_self)

/-- The record of step `2^32` is stored under step 0. -/
theorem valtrace_step_wraps :
    ¬Honest (2 ^ 32 + 1) (lateRecord (2 ^ 32))
      ((sinkNew (2 ^ 32 + 1) 1 0).run (lateRecord (2 ^ 32))) :=
  not_honest_lateRecord le_rfl

end Honest

end AsmTest.Dataflow
