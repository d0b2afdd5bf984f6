import AsmTest.Summaries

/-!
# The pointers of a summarized helper

A declared location behind a pointer register is found by the value the register was last captured
with, under its own id. What the register holds at the entry of the run is what the last write to
any byte of it left there.
-/

namespace AsmTest.Dataflow

open LastWriter ProbeTable

/-- Does the record write a byte of the register? A declared output counts like any other write. -/
def writesReg (reg : BitVec 32) (w : ValRec) : Bool :=
  w.isWrite && (lwKeys w).any fun k => k ∈ lwKeys { kind := .reg, reg }

/-- A write of the register under its own id, with its value -/
def ownWrite (reg : BitVec 32) (w : ValRec) : Bool :=
  w.kind = .reg ∧ w.isWrite = true ∧ w.valueValid = true ∧ w.reg = reg

section Writes

variable (v : ValTrace) (helpers : List Helper) (hi : List ℤ)

/-- The writes to the register before step `s`, of the caller and declared ones -/
def pointerWrites (s : ℕ) (reg : BitVec 32) : List ValRec :=
  ((List.range s).flatMap (rewritten v helpers hi)).filter (writesReg reg)

/-- The declared locations of the helper that is entered at step `s` -/
def helperLocs (s : ℕ) : List HelperLoc :=
  (helperAt helpers hi s).ins ++ (helperAt helpers hi s).outs

/-- A location behind a pointer is there only if the last write to the pointer had a value, and it
is at that value. -/
def PointersFresh : Prop :=
  ∀ s < hi.length, RunHead hi s → ∀ loc ∈ helperLocs helpers hi s, loc.kind = .memAtReg →
    ∀ isWrite r, declared (captured v hi s) isWrite s loc = some r →
      ∃ w ∈ (pointerWrites v helpers hi s loc.reg).getLast?, w.valueValid = true ∧ r.addr = w.value

/-- After the last write of a pointer under its own id no byte of it is written before the run is
entered, or the last time by a write that says the same value. -/
def PointersKept : Prop :=
  ∀ s < hi.length, RunHead hi s → ∀ loc ∈ helperLocs helpers hi s, loc.kind = .memAtReg →
    ∀ before w after, pointerWrites v helpers hi s loc.reg = before ++ w :: after →
      ownWrite loc.reg w = true → (∀ u ∈ after, ownWrite loc.reg u = false) →
        after = [] ∨ ∃ u ∈ after.getLast?, u.valueValid = true ∧ u.value = w.value

end Writes

section Captured

variable {v : ValTrace} {hi : List ℤ} {reg : BitVec 32}

lemma capture_apply (vals : BitVec 32 → Option (BitVec 64)) (r : ValRec) :
    capture vals r reg = if ownWrite reg r = true then some r.value else vals reg := by
  unfold capture ownWrite
  by_cases h : r.kind = .reg ∧ r.isWrite ∧ r.valueValid
  · rw [if_pos h]
    by_cases hreg : r.reg = reg
    · rw [← hreg, Function.update_self, if_pos (decide_eq_true ⟨h.1, h.2.1, h.2.2, rfl⟩)]
    · rw [Function.update_of_ne (Ne.symm hreg), if_neg]
      exact fun hown => hreg (of_decide_eq_true hown).2.2.2
  · rw [if_neg h, if_neg]
    intro hown
    obtain ⟨h1, h2, h3, -⟩ := of_decide_eq_true hown
    exact h ⟨h1, h2, h3⟩

/-- The last write of the register among the records decides. -/
lemma foldl_capture (l : List ValRec) (vals : BitVec 32 → Option (BitVec 64)) :
    l.foldl capture vals reg =
      ((l.filter (ownWrite reg)).getLast?.map ValRec.value).or (vals reg) := by
  induction l using List.reverseRecOn with
  | nil => rfl
  | append_singleton l r ih =>
    rw [List.foldl_append, List.foldl_cons, List.foldl_nil, capture_apply, List.filter_append]
    by_cases hown : ownWrite reg r = true
    · rw [if_pos hown, List.filter_singleton, hown]
      simp
    · rw [if_neg hown, List.filter_singleton, Bool.eq_false_of_not_eq_true hown]
      simpa using ih

/-- A declared location has no captured value. -/
lemma ownWrite_summary {vals : BitVec 32 → Option (BitVec 64)} {s : ℕ} {H : Helper} :
    (summary vals s H).filter (ownWrite reg) = [] := by
  rw [List.filter_eq_nil_iff]
  have hnone : ∀ isWrite loc r, declared vals isWrite s loc = some r → ownWrite reg r ≠ true := by
    intro isWrite loc r hr hown
    obtain ⟨-, -, hvalid, -⟩ := of_decide_eq_true hown
    unfold declared at hr
    cases hk : loc.kind with
    | reg =>
      rw [hk, Option.some.injEq] at hr
      rw [← hr] at hvalid
      cases hvalid
    | memAtReg =>
      rw [hk] at hr
      obtain ⟨base, -, rfl⟩ := Option.map_eq_some_iff.1 hr
      cases hvalid
  intro r hr
  rcases List.mem_append.1 hr with hr | hr
  · obtain ⟨loc, -, hd⟩ := List.mem_filterMap.1 hr
    exact hnone _ _ _ hd
  · obtain ⟨loc, -, hd⟩ := List.mem_filterMap.1 hr
    exact hnone _ _ _ hd

/-- A write under the register's own id writes a byte of it. -/
lemma writesReg_of_ownWrite {w : ValRec} (h : ownWrite reg w = true) : writesReg reg w = true := by
  obtain ⟨hk, hw, -, hreg⟩ := of_decide_eq_true h
  rw [writesReg, hw, Bool.true_and, List.any_eq_true]
  unfold lwKeys
  rw [if_pos hk, if_pos rfl, hreg]
  cases hs : regSlice reg with
  | none => exact ⟨_, List.mem_singleton_self _, decide_eq_true (List.mem_singleton_self _)⟩
  | some s =>
    have hpos : 0 < s.len := by
      have := (regSlice_cases hs).2
      omega
    refine ⟨⟨2#8, containerBase s + BitVec.ofNat 64 0⟩, ?_, decide_eq_true ?_⟩
    · apply List.mem_map_of_mem
      rw [List.mem_range]
      split_ifs <;> omega
    · apply List.mem_map_of_mem
      rw [List.mem_range]
      split_ifs <;> omega

/-- The captured value is that of the last write under the register's own id. -/
lemma captured_eq (helpers : List Helper) (s : ℕ) :
    captured v hi s reg =
      ((pointerWrites v helpers hi s reg).filter (ownWrite reg)).getLast?.map ValRec.value := by
  have hstream : captured v hi s reg =
      (((List.range s).flatMap (rewritten v helpers hi)).filter (ownWrite reg)).getLast?.map
        ValRec.value := by
    induction s with
    | zero => rfl
    | succ s ih =>
      rw [List.range_succ, List.flatMap_append, List.flatMap_singleton, List.filter_append,
        captured]
      by_cases hneg : hi.getD s (-1) < 0
      · rw [if_pos hneg, foldl_capture, ih, rewritten, if_pos hneg, List.getLast?_append]
        cases ((v.stepRecs s).filter (ownWrite reg)).getLast? with
        | none => rfl
        | some w => rfl
      · have hnil : (rewritten v helpers hi s).filter (ownWrite reg) = [] := by
          rw [rewritten, if_neg hneg]
          split_ifs
          · rfl
          · exact ownWrite_summary
        rw [if_neg hneg, ih, hnil, List.append_nil]
  rw [hstream, pointerWrites, List.filter_filter]
  congr 2
  apply List.filter_congr
  intro w _
  by_cases hown : ownWrite reg w = true
  · rw [hown, writesReg_of_ownWrite hown, Bool.and_true]
  · rw [Bool.eq_false_of_not_eq_true hown, Bool.false_and]

end Captured

section Fresh

variable {v : ValTrace} {helpers : List Helper} {hi : List ℤ}

/-- A list with a last element that passes a test, split there -/
lemma exists_split_last {p : ValRec → Bool} {l : List ValRec} {w : ValRec}
    (h : (l.filter p).getLast? = some w) :
    ∃ before after, l = before ++ w :: after ∧ p w = true ∧ ∀ u ∈ after, p u = false := by
  induction l using List.reverseRecOn with
  | nil => cases h
  | append_singleton l r ih =>
    rw [List.filter_append, List.filter_singleton] at h
    cases hr : p r with
    | true =>
      rw [hr, cond_true, List.getLast?_concat, Option.some.injEq] at h
      rw [← h]
      exact ⟨l, [], rfl, hr, fun u hu => absurd hu List.not_mem_nil⟩
    | false =>
      rw [hr, cond_false, List.append_nil] at h
      obtain ⟨before, after, hl, hw, hafter⟩ := ih h
      refine ⟨before, after ++ [r], by rw [hl, List.append_assoc]; rfl, hw, fun u hu => ?_⟩
      rcases List.mem_append.1 hu with hu | hu
      · exact hafter u hu
      · rw [List.mem_singleton.1 hu]
        exact hr

lemma getLast?_filter_split {p : ValRec → Bool} {before after : List ValRec} {w : ValRec}
    (hw : p w = true) (hafter : ∀ u ∈ after, p u = false) :
    ((before ++ w :: after).filter p).getLast? = some w := by
  have hnil : after.filter p = [] := by
    rw [List.filter_eq_nil_iff]
    intro u hu
    rw [hafter u hu]
    exact Bool.false_ne_true
  rw [List.filter_append, List.filter_cons_of_pos hw, hnil, List.getLast?_concat]

lemma getLast?_cons_split (before after : List ValRec) (w : ValRec) :
    (before ++ w :: after).getLast? = some (after.getLast?.getD w) := by
  rw [List.getLast?_append, List.getLast?_cons]
  rfl

theorem pointersFresh_iff_kept : PointersFresh v helpers hi ↔ PointersKept v helpers hi := by
  constructor
  · intro hfresh s hs hhead loc hloc hk before w after hsplit hown hafter
    have hcap : captured v hi s loc.reg = some w.value := by
      rw [captured_eq helpers, hsplit, getLast?_filter_split hown hafter,
        Option.map_some]
    obtain ⟨u, hu, hvalid, haddr⟩ := hfresh s hs hhead loc hloc hk false _
      (by rw [declared, hk, hcap, Option.map_some])
    rw [hsplit, getLast?_cons_split, Option.mem_some_iff] at hu
    cases hlast : after.getLast? with
    | none => exact .inl (List.getLast?_eq_none_iff.1 hlast)
    | some u' =>
      rw [hlast, Option.getD_some] at hu
      rw [hu]
      exact .inr ⟨u, rfl, hvalid, haddr.symm⟩
  · intro hkept s hs hhead loc hloc hk isWrite r hr
    rw [declared, hk] at hr
    obtain ⟨base, hbase, rfl⟩ := Option.map_eq_some_iff.1 hr
    rw [captured_eq helpers] at hbase
    obtain ⟨w, hw, rfl⟩ := Option.map_eq_some_iff.1 hbase
    obtain ⟨before, after, hsplit, hown, hafter⟩ := exists_split_last hw
    rw [hsplit, getLast?_cons_split]
    rcases hkept s hs hhead loc hloc hk before w after hsplit hown hafter with rfl | ⟨u, hu, hu'⟩
    · exact ⟨w, rfl, (of_decide_eq_true hown).2.2.1, rfl⟩
    · rw [Option.mem_def.1 hu, Option.getD_some]
      exact ⟨u, rfl, hu'.1, hu'.2.symm⟩

/-- The graph is that of the rewritten stream, and the pointers of its declared locations are fresh
exactly when they are kept until the runs are entered. -/
theorem helper_pointers_fresh_iff (v : ValTrace) (methods : List Method) (helpers : List Helper)
    (hv : Stamped v) (hn : v.stepsLen < 2 ^ 32) :
    defuseBuildSummarized v methods helpers =
        some ⟨(edges ValRec.isWrite lwKeys (rewritten v helpers (stepHelpers v methods helpers))
          v.stepsLen).map toEdge, v.stepsLen⟩ ∧
      (PointersFresh v helpers (stepHelpers v methods helpers) ↔
        PointersKept v helpers (stepHelpers v methods helpers)) :=
  ⟨defuseBuildSummarized_eq hv hn methods helpers, pointersFresh_iff_kept⟩

/-- A write barrier: the field behind `rdi` -/
def barrierHelpers : List Helper :=
  [⟨some ['B'], [], [⟨.memAtReg, 39, 8⟩]⟩]

def barrierMethods : List Method :=
  [⟨0x100, 0x20, some ['B'], 0⟩]

/-- `rdi` is written with a value, then with the records of `between`, before the barrier runs and
the field is read. -/
def barrierTrace (between : List ValRec) : ValTrace :=
  appendAll (valtraceNew 8 8)
    [(0x10, [{ kind := .reg, reg := 39, isWrite := true, valueValid := true, value := 0x5000 }]),
     (0x14, between), (0x100, []), (0x18, [{ kind := .memAbs, addr := 0x5000, size := 8 }])]

theorem helper_pointers_fresh_barrier :
    let v := barrierTrace []
    defuseBuildSummarized v barrierMethods barrierHelpers =
        some ⟨(edges ValRec.isWrite lwKeys
          (rewritten v barrierHelpers (stepHelpers v barrierMethods barrierHelpers))
          v.stepsLen).map toEdge, v.stepsLen⟩ ∧
      (PointersFresh v barrierHelpers (stepHelpers v barrierMethods barrierHelpers) ↔
        PointersKept v barrierHelpers (stepHelpers v barrierMethods barrierHelpers)) :=
  helper_pointers_fresh_iff (barrierTrace []) barrierMethods barrierHelpers
    (stamped_appendAll 8 8 _ (by decide)) (by decide)

/-- After a write of unknown value the barrier still goes to the old address, and the read there
gets an edge from it. -/
theorem stale_pointer_edge :
    let v := barrierTrace [{ kind := .reg, reg := 39, isWrite := true }]
    ¬PointersFresh v barrierHelpers (stepHelpers v barrierMethods barrierHelpers) ∧
      ∃ g, defuseBuildSummarized v barrierMethods barrierHelpers = some g ∧
        ∃ e ∈ g.edges, e.fromStep = 2 ∧ e.toStep = 3 := by
  intro v
  have hi : stepHelpers v barrierMethods barrierHelpers = [-1, -1, 0, -1] := by decide +kernel
  constructor
  · intro hfresh
    rw [hi] at hfresh
    obtain ⟨w, hw, hvalid, -⟩ := hfresh 2 (by decide) ⟨by decide, .inr (by decide)⟩
      ⟨.memAtReg, 39, 8⟩ (by decide) rfl true
      { kind := .memAbs, addr := 0x5000, size := 8, isWrite := true, step := 2 } (by decide +kernel)
    have hlast : (pointerWrites v barrierHelpers [-1, -1, 0, -1] 2 39).getLast? =
        some { kind := .reg, reg := 39, isWrite := true, step := 1 } := by decide +kernel
    rw [hlast, Option.mem_some_iff] at hw
    rw [← hw] at hvalid
    cases hvalid
  · refine ⟨⟨[⟨2, 3, { kind := .memAbs, addr := 0x5000, size := 8, step := 3 }⟩], 4⟩,
      by decide +kernel, _, List.mem_singleton_self _, rfl, rfl⟩

end Fresh

end AsmTest.Dataflow
