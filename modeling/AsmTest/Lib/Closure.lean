import Mathlib.Data.Finset.Card
import Mathlib.Tactic

/-!
# The closure of a set of vertices

A queue and the set of the vertices that were put in it, over the vertices below `n`. Every vertex
is put in at most once, so the search ends after `n` turns with a closed set.
-/

namespace AsmTest.Closure

structure State where
  q : List ℕ := []
  seen : Finset ℕ := ∅

/-- A vertex that is new goes into the queue. -/
def visit (n : ℕ) (st : State) (t : ℕ) : State :=
  if t < n ∧ t ∉ st.seen then ⟨st.q ++ [t], insert t st.seen⟩ else st

def run (n : ℕ) (nbrs : ℕ → List ℕ) : ℕ → State → Option (Finset ℕ)
  | _, ⟨[], seen⟩ => some seen
  | 0, ⟨_ :: _, _⟩ => none
  | fuel + 1, ⟨s :: q, seen⟩ => run n nbrs fuel ((nbrs s).foldl (visit n) ⟨q, seen⟩)

/-- What is seen lies below `n`, and what is queued is seen. -/
structure Inv (n : ℕ) (st : State) : Prop where
  below : ∀ k ∈ st.seen, k < n
  queued : ∀ k ∈ st.q, k ∈ st.seen

/-- The neighbours of everything but the queue are seen. -/
def Closed (n : ℕ) (nbrs : ℕ → List ℕ) (st : State) : Prop :=
  ∀ k ∈ st.seen, k ∉ st.q → ∀ t ∈ nbrs k, t < n → t ∈ st.seen

variable {n : ℕ} {nbrs : ℕ → List ℕ}

lemma visit_spec {st : State} (h : Inv n st) (t : ℕ) :
    Inv n (visit n st t) ∧ (t < n → t ∈ (visit n st t).seen) ∧
      (∀ k ∈ st.seen, k ∈ (visit n st t).seen) ∧
      (∀ k ∈ (visit n st t).seen, k ∈ st.seen ∨ k ∈ (visit n st t).q) ∧
      (∀ k ∈ st.q, k ∈ (visit n st t).q) ∧
      (visit n st t).q.length + st.seen.card = st.q.length + (visit n st t).seen.card := by
  rw [visit]
  split_ifs with hnew
  · refine ⟨⟨?_, ?_⟩, fun _ => Finset.mem_insert_self _ _, fun k hk => Finset.mem_insert_of_mem hk,
      ?_, fun k hk => List.mem_append_left _ hk, ?_⟩
    · intro k hk
      rcases Finset.mem_insert.1 hk with rfl | hk
      · exact hnew.1
      · exact h.below k hk
    · intro k hk
      rcases List.mem_append.1 hk with hk | hk
      · exact Finset.mem_insert_of_mem (h.queued k hk)
      · rw [List.mem_singleton.1 hk]
        exact Finset.mem_insert_self _ _
    · intro k hk
      rcases Finset.mem_insert.1 hk with rfl | hk
      · exact .inr (List.mem_append_right _ List.mem_cons_self)
      · exact .inl hk
    · rw [Finset.card_insert_of_notMem hnew.2, List.length_append, List.length_singleton]
      omega
  · refine ⟨h, fun ht => ?_, fun k hk => hk, fun k hk => .inl hk, fun k hk => hk, rfl⟩
    by_contra hseen
    exact hnew ⟨ht, hseen⟩

lemma foldl_visit_spec (l : List ℕ) {st : State} (h : Inv n st) :
    Inv n (l.foldl (visit n) st) ∧ (∀ t ∈ l, t < n → t ∈ (l.foldl (visit n) st).seen) ∧
      (∀ k ∈ st.seen, k ∈ (l.foldl (visit n) st).seen) ∧
      (∀ k ∈ (l.foldl (visit n) st).seen, k ∈ st.seen ∨ k ∈ (l.foldl (visit n) st).q) ∧
      (∀ k ∈ st.q, k ∈ (l.foldl (visit n) st).q) ∧
      (l.foldl (visit n) st).q.length + st.seen.card =
        st.q.length + (l.foldl (visit n) st).seen.card := by
  induction l generalizing st with
  | nil => exact ⟨h, by simp, fun k hk => hk, fun k hk => .inl hk, fun k hk => hk, rfl⟩
  | cons t l ih =>
    obtain ⟨h1, h2, h3, h4, h5, h6⟩ := visit_spec h t
    obtain ⟨g1, g2, g3, g4, g5, g6⟩ := ih h1
    rw [List.foldl_cons]
    refine ⟨g1, ?_, fun k hk => g3 k (h3 k hk), fun k hk => ?_, fun k hk => g5 k (h5 k hk), ?_⟩
    · intro u hu hun
      rcases List.mem_cons.1 hu with rfl | hu
      · exact g3 u (h2 hun)
      · exact g2 u hu hun
    · rcases g4 k hk with hk | hk
      · rcases h4 k hk with hk | hk
        · exact .inl hk
        · exact .inr (g5 k hk)
      · exact .inr hk
    · omega

/-- The search ends with a closed set that has everything it started with. -/
theorem run_spec (fuel : ℕ) {st : State} (h : Inv n st) (hc : Closed n nbrs st)
    (hf : st.q.length + n ≤ fuel + st.seen.card) :
    ∃ seen, run n nbrs fuel st = some seen ∧ (∀ k ∈ st.seen, k ∈ seen) ∧
      ∀ k ∈ seen, ∀ t ∈ nbrs k, t < n → t ∈ seen := by
  induction fuel generalizing st with
  | zero =>
    obtain ⟨q, seen⟩ := st
    have hcard : seen.card ≤ n := by
      have hsub : seen ⊆ Finset.range n := fun k hk => Finset.mem_range.2 (h.below k hk)
      simpa using Finset.card_le_card hsub
    dsimp only at hf
    obtain rfl : q = [] := List.eq_nil_of_length_eq_zero (by omega)
    exact ⟨seen, rfl, fun k hk => hk, fun k hk => hc k hk List.not_mem_nil⟩
  | succ fuel ih =>
    obtain ⟨q, seen⟩ := st
    cases q with
    | nil => exact ⟨seen, rfl, fun k hk => hk, fun k hk => hc k hk List.not_mem_nil⟩
    | cons s q =>
      have h' : Inv n ⟨q, seen⟩ := ⟨h.below, fun k hk => h.queued k (List.mem_cons_of_mem _ hk)⟩
      obtain ⟨g1, g2, g3, g4, g5, g6⟩ := foldl_visit_spec (nbrs s) h'
      have hclosed : Closed n nbrs ((nbrs s).foldl (visit n) ⟨q, seen⟩) := by
        intro k hk hkq t ht htn
        by_cases hks : k = s
        · exact g2 t (hks ▸ ht) htn
        · rcases g4 k hk with hk | hk
          · refine g3 t (hc k hk (fun hmem => ?_) t ht htn)
            rcases List.mem_cons.1 hmem with hmem | hmem
            · exact hks hmem
            · exact hkq (g5 k hmem)
          · exact absurd hk hkq
      dsimp only [List.length_cons] at hf g6
      obtain ⟨out, hrun, hsub, hclosed'⟩ := ih g1 hclosed (by omega)
      exact ⟨out, hrun, fun k hk => hsub k (g3 k hk), hclosed'⟩

/-- From any list of start vertices -/
theorem run_start (n : ℕ) (nbrs : ℕ → List ℕ) (start : List ℕ) :
    ∃ seen, run n nbrs n (start.foldl (visit n) {}) = some seen ∧
      (∀ k ∈ start, k < n → k ∈ seen) ∧ ∀ k ∈ seen, ∀ t ∈ nbrs k, t < n → t ∈ seen := by
  have hempty : Inv n {} := ⟨by simp, by simp⟩
  obtain ⟨h1, h2, -, h4, -, h6⟩ := foldl_visit_spec start hempty
  have hclosed : Closed n nbrs (start.foldl (visit n) {}) := by
    intro k hk hkq
    rcases h4 k hk with hk | hk
    · exact absurd hk (Finset.notMem_empty k)
    · exact absurd hk hkq
  have hcard : (start.foldl (visit n) {}).q.length + n ≤
      n + (start.foldl (visit n) {}).seen.card := by
    have : (start.foldl (visit n) {}).q.length + 0 =
        0 + (start.foldl (visit n) {}).seen.card := h6
    omega
  obtain ⟨seen, hrun, hsub, hout⟩ := run_spec n h1 hclosed hcard
  exact ⟨seen, hrun, fun k hk hkn => hsub k (h2 k hk hkn), hout⟩

section Sound

variable {P : ℕ → Prop}

lemma visit_sound {st : State} (h : ∀ k ∈ st.seen, P k) {t : ℕ} (ht : t < n → P t) :
    ∀ k ∈ (visit n st t).seen, P k := by
  rw [visit]
  split_ifs with hnew
  · intro k hk
    rcases Finset.mem_insert.1 hk with rfl | hk
    · exact ht hnew.1
    · exact h k hk
  · exact h

lemma foldl_visit_sound (l : List ℕ) {st : State} (h : ∀ k ∈ st.seen, P k)
    (hl : ∀ t ∈ l, t < n → P t) : ∀ k ∈ (l.foldl (visit n) st).seen, P k := by
  induction l generalizing st with
  | nil => exact h
  | cons t l ih =>
    rw [List.forall_mem_cons] at hl
    exact ih (visit_sound h hl.1) hl.2

/-- What holds of the start and passes to the neighbours holds of all that is seen. -/
theorem run_sound {start : List ℕ} {out : Finset ℕ}
    (hrun : run n nbrs n (start.foldl (visit n) {}) = some out)
    (hstart : ∀ k ∈ start, k < n → P k)
    (hstep : ∀ k, P k → ∀ t ∈ nbrs k, t < n → P t) : ∀ k ∈ out, P k := by
  have hloop : ∀ (fuel : ℕ) (st : State), Inv n st → (∀ k ∈ st.seen, P k) →
      run n nbrs fuel st = some out → ∀ k ∈ out, P k := by
    intro fuel
    induction fuel with
    | zero =>
      rintro ⟨q, seen⟩ - hseen hrun
      cases q with
      | nil =>
        cases hrun
        exact hseen
      | cons s q => cases hrun
    | succ fuel ih =>
      rintro ⟨q, seen⟩ hinv hseen hrun
      cases q with
      | nil =>
        cases hrun
        exact hseen
      | cons s q =>
        have hinv' : Inv n ⟨q, seen⟩ :=
          ⟨hinv.below, fun k hk => hinv.queued k (List.mem_cons_of_mem _ hk)⟩
        have hs : P s := hseen s (hinv.queued s List.mem_cons_self)
        obtain ⟨hnext, -⟩ := foldl_visit_spec (nbrs s) hinv'
        exact ih _ hnext (foldl_visit_sound (nbrs s) hseen (hstep s hs)) hrun
  have hempty : Inv n {} := ⟨by simp, by simp⟩
  obtain ⟨hinv, -⟩ := foldl_visit_spec start hempty
  exact hloop n _ hinv (foldl_visit_sound start (by simp) hstart) hrun

end Sound

end AsmTest.Closure
