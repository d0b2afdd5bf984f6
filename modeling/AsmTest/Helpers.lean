import AsmTest.DefUse
import AsmTest.Method

/-!
# Runtime-helper summaries

Each maximal run of steps that resolve to one helper entry is replaced, at its
first step, by the helper's declared reads and writes. Allocations are taken to
succeed.
-/

namespace AsmTest.Dataflow

open LastWriter ProbeTable

inductive HelperLocKind
  | reg
  | memAtReg
  deriving DecidableEq, Repr

/-- `asmtest_helper_loc_t` -/
structure HelperLoc where
  kind : HelperLocKind
  reg : BitVec 32
  size : ℕ
  deriving DecidableEq, Repr

/-- `asmtest_helper_t` -/
structure Helper where
  name : Option (List Char)
  ins : List HelperLoc
  outs : List HelperLoc
  deriving DecidableEq, Repr

/-- An exact name, or with a trailing `*` a name with that beginning. -/
def patMatches (name pat : List Char) : Bool :=
  if pat.getLast? = some '*' then pat.dropLast.isPrefixOf name else name = pat

def helperMatch (helpers : List Helper) (name : Option (List Char)) : ℤ :=
  match name with
  | none => -1
  | some name =>
    match helpers.findIdx? fun h => h.name.any (patMatches name) with
    | none => -1
    | some i => toInt32 i

/-! ## Captured register values -/

abbrev RvMap := Table (BitVec 32) (BitVec 64)

def rvHash (reg : BitVec 32) : BitVec 64 :=
  let h := reg.setWidth 64 * 0x9E3779B97F4A7C15#64
  let h := h ^^^ (h >>> 29)
  let h := h * 0xBF58476D1CE4E5B9#64
  h ^^^ (h >>> 32)

/-- The capacity `rv_grow` allocates, whatever is wanted. -/
def rvNewCap (cap _want : ℕ) : ℕ := growPow2 cap (if cap = 0 then 32 else cap)

def rvPut (m : RvMap) (reg : BitVec 32) (val : BitVec 64) : Option RvMap :=
  m.put (fun k => (rvHash k).toNat) rvNewCap reg val

def rvGet (m : RvMap) (reg : BitVec 32) : Option (Option (BitVec 64)) :=
  m.get (fun k => (rvHash k).toNat) reg

/-! ## The rewrite -/

def emitHelperLoc (out : List ValRec) (loc : HelperLoc) (isWrite : Bool) (step : ℕ) (regvals : RvMap) :
    Option (List ValRec) := do
  match loc.kind with
  | .reg => return out ++ [{ kind := .reg, reg := loc.reg, isWrite := isWrite, step := step }]
  | .memAtReg =>
    match ← rvGet regvals loc.reg with
    | none => return out
    | some base =>
      return out ++ [{ kind := .memAbs, addr := base, size := if loc.size ≠ 0 then loc.size else 8,
                       isWrite := isWrite, step := step }]

/-- The helper entry a step resolves to, or a negative number. -/
def helperIndex (methods : List Method) (helpers : List Helper) (pc : BitVec 64) : ℤ :=
  let rec' := methodResolvePc methods pc
  if 0 ≤ rec' then helperMatch helpers (methods[rec'.toNat]?.bind Method.name) else -1

/-- `rstart`: the first record not before step `s`, from where the last scan stopped. -/
def recStart (recs : List ValRec) : ℕ → ℕ
  | 0 => 0
  | s + 1 => recStart recs s + ((recs.drop (recStart recs s)).takeWhile fun r => r.step < s + 1).length

/-- The records `[rstart[s], rstart[s + 1])`. -/
def recRange (recs : List ValRec) (s : ℕ) : List ValRec :=
  (recs.drop (recStart recs s)).take (recStart recs (s + 1) - recStart recs s)

structure SumState where
  s : ℕ
  out : List ValRec
  regvals : RvMap

def copyRec (st : List ValRec × RvMap) (r : ValRec) : Option (List ValRec × RvMap) := do
  let out := st.1 ++ [r]
  if r.kind = .reg ∧ r.isWrite ∧ r.valueValid then
    let regvals ← rvPut st.2 r.reg r.value
    return (out, regvals)
  else return (out, st.2)

/-- The last step of the stretch after `s` with the same helper entry. -/
def runEnd (hi : List ℤ) (s : ℕ) : ℕ :=
  s + ((hi.drop (s + 1)).takeWhile fun h => h = hi.getD s (-1)).length

/-- One round of the rewriting loop. -/
def sumStep (recs : List ValRec) (helpers : List Helper) (hi : List ℤ) (st : SumState) :
    Option SumState := do
  let h := hi.getD st.s (-1)
  if h < 0 then
    let (out, regvals) ← (recRange recs st.s).foldlM copyRec (st.out, st.regvals)
    return ⟨st.s + 1, out, regvals⟩
  else
    let H := helpers.getD h.toNat ⟨none, [], []⟩
    let step := st.s % 2 ^ 32
    let out ← H.ins.foldlM (fun out loc => emitHelperLoc out loc false step st.regvals) st.out
    let out ← H.outs.foldlM (fun out loc => emitHelperLoc out loc true step st.regvals) out
    return ⟨runEnd hi st.s + 1, out, st.regvals⟩

/-- `while (s < nsteps)`, for at most `fuel` rounds. -/
def sumLoop (recs : List ValRec) (helpers : List Helper) (hi : List ℤ) :
    ℕ → SumState → Option SumState
  | 0, st => if st.s < hi.length then none else some st
  | fuel + 1, st =>
    if st.s < hi.length then do
      let st ← sumStep recs helpers hi st
      sumLoop recs helpers hi fuel st
    else some st

def stepHelpers (v : ValTrace) (methods : List Method) (helpers : List Helper) : List ℤ :=
  v.insnOff.map (helperIndex methods helpers)

def defuseBuildSummarized (v : ValTrace) (methods : List Method) (helpers : List Helper) :
    Option DefUse :=
  if helpers = [] ∨ methods = [] then defuseBuild v
  else do
    let hi := stepHelpers v methods helpers
    let st ← sumLoop v.recs helpers hi v.stepsLen ⟨0, [], Table.empty⟩
    defuseBuild
      { insnOff := v.insnOff, stepsCap := v.stepsLen, stepsTotal := v.stepsLen, recs := st.out,
        recsCap := st.out.length, recsTotal := st.out.length, truncated := false,
        memSpace := v.memSpace }

/-! ## Captured values as a function -/

namespace RvMap

def Ok (m : RvMap) : Prop := Table.Ok (fun k => (rvHash k).toNat) m

def view (m : RvMap) (reg : BitVec 32) : Option (BitVec 64) := lookup m.e reg

end RvMap

lemma rvNewCap_policy : Table.Policy rvNewCap := by
  intro cap cnt h
  have hc : cap = 0 ∨ ∃ e, cap = 2 ^ e := h.imp And.left And.left
  refine ⟨pow2_growPow2 hc _, ?_⟩
  have hlt : cap < rvNewCap cap (cnt + 1) := lt_growPow2 _ _
  rcases h with ⟨rfl, rfl⟩ | ⟨⟨e, he⟩, hload⟩
  · decide
  · -- a larger power of two is at least twice as large
    obtain ⟨e', he'⟩ := pow2_growPow2 hc (if cap = 0 then 32 else cap)
    have hee : e < e' := by
      rw [rvNewCap, he', he] at hlt
      exact (Nat.pow_lt_pow_iff_right (by decide)).mp hlt
    have hdouble : 2 ^ (e + 1) ≤ 2 ^ e' := Nat.pow_le_pow_right (by decide) hee
    have hnew : rvNewCap cap (cnt + 1) = 2 ^ e' := he'
    have hpos : 0 < 2 ^ e := Nat.two_pow_pos e
    rw [pow_succ] at hdouble
    omega

lemma rvGet_eq {m : RvMap} (hm : m.Ok) (reg : BitVec 32) : rvGet m reg = some (m.view reg) :=
  Table.get_eq_lookup hm reg

lemma rvPut_spec {m : RvMap} (hm : m.Ok) (reg : BitVec 32) (val : BitVec 64) :
    ∃ m', rvPut m reg val = some m' ∧ RvMap.Ok m' ∧
      RvMap.view m' = Function.update m.view reg (some val) :=
  Table.put_spec rvNewCap_policy hm reg val

/-- What one record tells about the registers. -/
def capture (vals : BitVec 32 → Option (BitVec 64)) (r : ValRec) : BitVec 32 → Option (BitVec 64) :=
  if r.kind = .reg ∧ r.isWrite ∧ r.valueValid then Function.update vals r.reg (some r.value) else vals

/-- The record a declared location stands for at step `s`; an unknown pointer gives none. -/
def declared (vals : BitVec 32 → Option (BitVec 64)) (isWrite : Bool) (s : ℕ) (loc : HelperLoc) :
    Option ValRec :=
  match loc.kind with
  | .reg => some { kind := .reg, reg := loc.reg, isWrite := isWrite, step := s }
  | .memAtReg => (vals loc.reg).map fun base =>
      { kind := .memAbs, addr := base, size := if loc.size ≠ 0 then loc.size else 8,
        isWrite := isWrite, step := s }

lemma declared_step {vals : BitVec 32 → Option (BitVec 64)} {isWrite : Bool} {s : ℕ} {loc : HelperLoc}
    {r : ValRec} (h : declared vals isWrite s loc = some r) : r.step = s ∧ r.isWrite = isWrite := by
  unfold declared at h
  cases hk : loc.kind with
  | reg =>
    rw [hk] at h
    obtain rfl := Option.some.inj h
    exact ⟨rfl, rfl⟩
  | memAtReg =>
    rw [hk] at h
    obtain ⟨base, -, rfl⟩ := Option.map_eq_some_iff.mp h
    exact ⟨rfl, rfl⟩

lemma emitHelperLoc_eq {m : RvMap} (hm : m.Ok) (out : List ValRec) (loc : HelperLoc) (isWrite : Bool)
    (step : ℕ) :
    emitHelperLoc out loc isWrite step m =
      some (out ++ (declared m.view isWrite step loc).toList) := by
  unfold emitHelperLoc declared
  cases loc.kind with
  | reg => rfl
  | memAtReg =>
    dsimp only
    rw [rvGet_eq hm]
    cases m.view loc.reg with
    | none => simp
    | some base => simp

lemma foldlM_emitHelperLoc {m : RvMap} (hm : m.Ok) (isWrite : Bool) (step : ℕ) (locs : List HelperLoc)
    (out : List ValRec) :
    locs.foldlM (fun out loc => emitHelperLoc out loc isWrite step m) out =
      some (out ++ locs.filterMap (declared m.view isWrite step)) := by
  induction locs generalizing out with
  | nil => simp
  | cons loc locs ih =>
    rw [List.foldlM_cons, emitHelperLoc_eq hm, Option.bind_eq_bind, Option.bind_some, ih]
    cases hd : declared m.view isWrite step loc <;> simp [hd]

lemma foldlM_copyRec (l : List ValRec) (out : List ValRec) {m : RvMap} (hm : m.Ok) :
    ∃ m', l.foldlM copyRec (out, m) = some (out ++ l, m') ∧ RvMap.Ok m' ∧
      RvMap.view m' = l.foldl capture m.view := by
  induction l generalizing out m with
  | nil => exact ⟨m, by simp, hm, rfl⟩
  | cons r l ih =>
    rw [List.foldlM_cons, List.foldl_cons, copyRec, capture]
    by_cases hr : r.kind = .reg ∧ r.isWrite ∧ r.valueValid
    · obtain ⟨m₁, g1, g2, g3⟩ := rvPut_spec hm r.reg r.value
      obtain ⟨m', h1, h2, h3⟩ := ih (out ++ [r]) g2
      refine ⟨m', ?_, h2, ?_⟩
      · simp [hr, g1, h1]
      · rw [if_pos hr, ← g3, h3]
    · obtain ⟨m', h1, h2, h3⟩ := ih (out ++ [r]) hm
      refine ⟨m', ?_, h2, ?_⟩
      · simp only [if_neg hr, Option.pure_def, Option.bind_eq_bind, Option.bind_some, h1,
          List.append_assoc, List.singleton_append]
      · rw [if_neg hr, h3]

/-! ## The rewritten stream, step by step -/

/-- The first step of a maximal run of steps that resolve to one helper entry. -/
def RunHead (hi : List ℤ) (s : ℕ) : Prop :=
  0 ≤ hi.getD s (-1) ∧ (s = 0 ∨ hi.getD (s - 1) (-1) ≠ hi.getD s (-1))

/-- A later step of such a run. -/
def RunTail (hi : List ℤ) (s : ℕ) : Prop :=
  0 ≤ hi.getD s (-1) ∧ 0 < s ∧ hi.getD (s - 1) (-1) = hi.getD s (-1)

instance (hi : List ℤ) (s : ℕ) : Decidable (RunTail hi s) := inferInstanceAs (Decidable (_ ∧ _))

/-- The register values the steps outside helper runs have captured before step `s`. -/
def captured (v : ValTrace) (hi : List ℤ) : ℕ → BitVec 32 → Option (BitVec 64)
  | 0 => fun _ => none
  | s + 1 => if hi.getD s (-1) < 0 then (v.stepRecs s).foldl capture (captured v hi s)
    else captured v hi s

/-- The helper entry of step `s`. -/
def helperAt (helpers : List Helper) (hi : List ℤ) (s : ℕ) : Helper :=
  helpers.getD (hi.getD s (-1)).toNat ⟨none, [], []⟩

/-- The declared reads and writes of a helper entered at step `s`. -/
def summary (vals : BitVec 32 → Option (BitVec 64)) (s : ℕ) (H : Helper) : List ValRec :=
  H.ins.filterMap (declared vals false s) ++ H.outs.filterMap (declared vals true s)

def rewritten (v : ValTrace) (helpers : List Helper) (hi : List ℤ) (s : ℕ) : List ValRec :=
  if hi.getD s (-1) < 0 then v.stepRecs s
  else if RunTail hi s then []
  else summary (captured v hi s) s (helperAt helpers hi s)

lemma rewritten_step {v : ValTrace} {helpers : List Helper} {hi : List ℤ} {s : ℕ} {r : ValRec}
    (h : r ∈ rewritten v helpers hi s) : r.step = s := by
  unfold rewritten at h
  split_ifs at h
  · simpa using (List.mem_filter.mp h).2
  · simp at h
  · rcases List.mem_append.mp h with h | h
    · obtain ⟨loc, -, hd⟩ := List.mem_filterMap.mp h
      exact (declared_step hd).1
    · obtain ⟨loc, -, hd⟩ := List.mem_filterMap.mp h
      exact (declared_step hd).1

lemma take_drop_length_takeWhile {α : Type*} (p : α → Bool) (l : List α) :
    l.take (l.takeWhile p).length = l.takeWhile p ∧ l.drop (l.takeWhile p).length = l.dropWhile p := by
  refine ⟨(List.prefix_iff_eq_take.mp (List.takeWhile_prefix p)).symm, ?_⟩
  refine List.append_cancel_left (?_ : l.takeWhile p ++ _ = l.takeWhile p ++ _)
  rw [List.takeWhile_append_dropWhile]
  nth_rewrite 1 [List.prefix_iff_eq_take.mp (List.takeWhile_prefix p)]
  exact List.take_append_drop _ _

lemma recStart_spec {recs : List ValRec} (hs : recs.Pairwise fun a b => a.step ≤ b.step) (s : ℕ) :
    recs.drop (recStart recs s) = (recs.filter fun r => s ≤ r.step) ∧
      recRange recs s = recs.filter fun r => r.step = s := by
  -- the records are sorted by step, so one step's records come first among those from it on
  have hsplit : ∀ s, ((recs.filter fun r => s ≤ r.step).takeWhile fun r => r.step < s + 1) =
        (recs.filter fun r => r.step = s) ∧
      ((recs.filter fun r => s ≤ r.step).dropWhile fun r => r.step < s + 1) =
        recs.filter fun r => s + 1 ≤ r.step := by
    intro s
    have hp : ∀ a ∈ recs.filter (fun r => s ≤ r.step), ∀ b ∈ recs.filter (fun r => s ≤ r.step),
        a.step ≤ b.step → decide (b.step < s + 1) → decide (a.step < s + 1) := by
      simp only [decide_eq_true_eq]
      omega
    obtain ⟨h1, h2⟩ := takeWhile_dropWhile_eq_filter (hs.filter _) hp
    rw [h1, h2, List.filter_filter, List.filter_filter]
    constructor
    · apply List.filter_congr
      intro r _
      simp only [Bool.and_eq_decide, decide_eq_decide, decide_eq_true_eq]
      omega
    · apply List.filter_congr
      intro r _
      simp only [← decide_not, Bool.and_eq_decide, decide_eq_decide, decide_eq_true_eq]
      omega
  have hdrop : ∀ s, recs.drop (recStart recs s) = recs.filter fun r => s ≤ r.step := by
    intro s
    induction s with
    | zero => simp [recStart]
    | succ s ih =>
      rw [recStart, ← List.drop_drop, ih, (take_drop_length_takeWhile _ _).2, (hsplit s).2]
  refine ⟨hdrop s, ?_⟩
  rw [recRange, recStart, Nat.add_sub_cancel_left, hdrop, (take_drop_length_takeWhile _ _).1,
    (hsplit s).1]

/-! ## The loop -/

lemma length_takeWhile_spec {α : Type*} (p : α → Bool) (l : List α) (d : α) :
    (∀ i < (l.takeWhile p).length, p (l.getD i d)) ∧
      ((l.takeWhile p).length < l.length → ¬ p (l.getD (l.takeWhile p).length d)) := by
  induction l with
  | nil => simp
  | cons a l ih =>
    cases ha : p a with
    | false => simp [ha]
    | true =>
      simp only [List.takeWhile_cons_of_pos ha, List.length_cons]
      refine ⟨fun i hlt => ?_, fun hlt => by simpa using ih.2 (by omega)⟩
      cases i with
      | zero => exact ha
      | succ i => simpa using ih.1 i (by omega)

lemma runEnd_spec {hi : List ℤ} {s : ℕ} (hs : s < hi.length) :
    runEnd hi s < hi.length ∧ (∀ t, s ≤ t → t ≤ runEnd hi s → hi.getD t (-1) = hi.getD s (-1)) ∧
      (runEnd hi s + 1 < hi.length → hi.getD (runEnd hi s + 1) (-1) ≠ hi.getD s (-1)) := by
  obtain ⟨hin, hout⟩ := length_takeWhile_spec (fun h => decide (h = hi.getD s (-1))) (hi.drop (s + 1)) (-1)
  have hle := (List.takeWhile_prefix (fun h => decide (h = hi.getD s (-1))) (l := hi.drop (s + 1))).length_le
  have hget : ∀ i, (hi.drop (s + 1)).getD i (-1) = hi.getD (s + 1 + i) (-1) := by
    intro i
    rw [List.getD_eq_getElem?_getD, List.getElem?_drop, ← List.getD_eq_getElem?_getD]
  simp only [decide_eq_true_eq, hget] at hin hout
  rw [List.length_drop] at hle hout
  unfold runEnd
  refine ⟨by omega, ?_, ?_⟩
  · intro t h1 h2
    rcases h1.eq_or_lt with rfl | h1
    · rfl
    · have := hin (t - (s + 1)) (by omega)
      rwa [show s + 1 + (t - (s + 1)) = t by omega] at this
  · intro hlt
    have := hout (by omega)
    rwa [Nat.add_right_comm] at this

/-- Before step `s` of the walk the stream and the captured values are those of the steps done. -/
structure SumInv (v : ValTrace) (helpers : List Helper) (hi : List ℤ) (st : SumState) : Prop where
  out : st.out = (List.range st.s).flatMap (rewritten v helpers hi)
  ok : st.regvals.Ok
  vals : st.regvals.view = captured v hi st.s
  head : ¬ RunTail hi st.s

variable {v : ValTrace} {helpers : List Helper} {hi : List ℤ}

lemma rewritten_runTail {s : ℕ} (h : RunTail hi s) : rewritten v helpers hi s = [] := by
  rw [rewritten, if_neg (not_lt.mpr h.1), if_pos h]

/-- Inside a run nothing is emitted and nothing captured. -/
lemma skip_runTail (v : ValTrace) (helpers : List Helper) {s e : ℕ} (hs : 0 ≤ hi.getD s (-1))
    (hrun : ∀ t, s ≤ t → t ≤ e → hi.getD t (-1) = hi.getD s (-1)) (hse : s ≤ e) :
    (List.range (e + 1)).flatMap (rewritten v helpers hi) =
        (List.range s).flatMap (rewritten v helpers hi) ++ rewritten v helpers hi s ∧
      captured v hi (e + 1) = captured v hi s := by
  induction e, hse using Nat.le_induction with
  | base =>
    refine ⟨by rw [List.range_succ, List.flatMap_append, List.flatMap_singleton], ?_⟩
    rw [captured, if_neg (not_lt.mpr hs)]
  | succ e hse ih =>
    obtain ⟨h1, h2⟩ := ih fun t ht hte => hrun t ht (by omega)
    have he : hi.getD (e + 1) (-1) = hi.getD s (-1) := hrun (e + 1) (by omega) le_rfl
    have hprev : hi.getD (e + 1 - 1) (-1) = hi.getD s (-1) := hrun e hse (by omega)
    have htail : RunTail hi (e + 1) := ⟨by rw [he]; exact hs, by omega, by rw [hprev, he]⟩
    refine ⟨?_, ?_⟩
    · rw [List.range_succ, List.flatMap_append, List.flatMap_singleton, h1, rewritten_runTail htail,
        List.append_nil]
    · rw [captured, if_neg (not_lt.mpr htail.1), h2]

lemma sumStep_spec (hv : Stamped v) (hn : hi.length < 2 ^ 32) {st : SumState}
    (h : SumInv v helpers hi st) (hlt : st.s < hi.length) :
    ∃ st', sumStep v.recs helpers hi st = some st' ∧ SumInv v helpers hi st' ∧ st.s < st'.s ∧
      st'.s ≤ hi.length := by
  by_cases hh : hi.getD st.s (-1) < 0
  · -- no helper: the records are copied and their register values remembered
    obtain ⟨m', g1, g2, g3⟩ := foldlM_copyRec (recRange v.recs st.s) st.out h.ok
    refine ⟨⟨st.s + 1, st.out ++ recRange v.recs st.s, m'⟩, ?_, ⟨?_, g2, ?_, ?_⟩, Nat.lt_succ_self _, hlt⟩
    · rw [sumStep, if_pos hh, g1]
      rfl
    · rw [h.out, (recStart_spec hv.sorted st.s).2, List.range_succ, List.flatMap_append,
        List.flatMap_singleton, rewritten, if_pos hh]
      rfl
    · rw [g3, h.vals, (recStart_spec hv.sorted st.s).2, captured, if_pos hh]
      rfl
    · rintro ⟨h1, -, h3⟩
      rw [← h3] at h1
      exact absurd h1 (not_le.mpr hh)
  · -- the whole run of one helper collapses onto its first step
    obtain ⟨e1, e2, e3⟩ := runEnd_spec hlt
    have hle : st.s ≤ runEnd hi st.s := Nat.le_add_right _ _
    obtain ⟨k1, k2⟩ := skip_runTail v helpers (not_lt.mp hh) e2 hle
    have hsum : rewritten v helpers hi st.s =
        (helperAt helpers hi st.s).ins.filterMap (declared st.regvals.view false st.s) ++
          (helperAt helpers hi st.s).outs.filterMap (declared st.regvals.view true st.s) := by
      rw [rewritten, if_neg hh, if_neg h.head, summary, h.vals]
    refine ⟨⟨runEnd hi st.s + 1, st.out ++ rewritten v helpers hi st.s, st.regvals⟩, ?_,
      ⟨by rw [h.out, k1], h.ok, ?_, ?_⟩, by dsimp only; omega, e1⟩
    · rw [sumStep, if_neg hh, ← helperAt, Nat.mod_eq_of_lt (hlt.trans hn)]
      dsimp only
      rw [foldlM_emitHelperLoc h.ok, Option.bind_eq_bind, Option.bind_some, foldlM_emitHelperLoc h.ok,
        hsum, List.append_assoc]
      rfl
    · rw [k2]
      exact h.vals
    · rintro ⟨h1, -, h3⟩
      -- past the end there is no helper index to continue
      have hend : runEnd hi st.s + 1 < hi.length := by
        by_contra hge
        rw [List.getD_eq_default _ _ (not_lt.mp hge)] at h1
        omega
      apply e3 hend
      rw [← h3, Nat.add_sub_cancel]
      exact e2 _ hle le_rfl

lemma sumLoop_spec (hv : Stamped v) (hn : hi.length < 2 ^ 32) (fuel : ℕ) (st : SumState)
    (h : SumInv v helpers hi st) (hle : st.s ≤ hi.length) (hf : hi.length ≤ st.s + fuel) :
    ∃ st', sumLoop v.recs helpers hi fuel st = some st' ∧
      st'.out = (List.range hi.length).flatMap (rewritten v helpers hi) := by
  induction fuel generalizing st with
  | zero =>
    have hs : st.s = hi.length := by omega
    exact ⟨st, by rw [sumLoop, if_neg (by omega)], hs ▸ h.out⟩
  | succ fuel ih =>
    by_cases hlt : st.s < hi.length
    · obtain ⟨st', g1, g2, g3, g4⟩ := sumStep_spec hv hn h hlt
      obtain ⟨st'', k1, k2⟩ := ih st' g2 g4 (by omega)
      exact ⟨st'', by rw [sumLoop, if_pos hlt, g1]; exact k1, k2⟩
    · have hs : st.s = hi.length := by omega
      exact ⟨st, by rw [sumLoop, if_neg hlt], hs ▸ h.out⟩

end AsmTest.Dataflow
