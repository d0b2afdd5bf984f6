import Mathlib.Tactic
import Mathlib.Data.List.GetD
import Mathlib.Data.List.Basic
import Mathlib.Logic.Relation
import Mathlib.Data.Finset.Card
import Mathlib.Data.List.Nodup

/-!
# Breadth-first closure with a visited array and a queue

The queue holds every vertex met so far and is read by a moving head, so its
content at the end is the closure of the origin.
-/

namespace AsmTest.Worklist

structure State where
  vis : List Bool
  q : List ℕ
  qh : ℕ

def visit (st : State) (b : ℕ) : State :=
  if st.vis.getD b false then st else ⟨st.vis.set b true, st.q ++ [b], st.qh⟩

/-- Dequeue one vertex and hand it to the loop body. -/
def expand (body : ℕ → State → State) (st : State) : State :=
  body (st.q.getD st.qh 0) { st with qh := st.qh + 1 }

/-- `while (qh < qt)`, for at most `fuel` dequeues. -/
def run (body : ℕ → State → State) : ℕ → State → Option State
  | 0, st => if st.qh < st.q.length then none else some st
  | fuel + 1, st => if st.qh < st.q.length then run body fuel (expand body st) else some st

def start (n origin : ℕ) : State := ⟨(List.replicate n false).set origin true, [origin], 0⟩

/-- `k` is reached from `origin` along the neighbour lists. -/
def Reaches (nbrs : ℕ → List ℕ) (origin k : ℕ) : Prop :=
  Relation.ReflTransGen (fun a b => b ∈ nbrs a) origin k

/-- The queue lists the visited vertices, each once and each reached from the origin. -/
structure Inv (nbrs : ℕ → List ℕ) (n origin : ℕ) (st : State) : Prop where
  len : st.vis.length = n
  vis_iff : ∀ k, st.vis.getD k false = true ↔ k ∈ st.q
  lt : ∀ k ∈ st.q, k < n
  nodup : st.q.Nodup
  origin_mem : origin ∈ st.q
  reached : ∀ k ∈ st.q, Reaches nbrs origin k

/-- The body visits the neighbours of the vertex it is given. -/
def Visits (n : ℕ) (body : ℕ → State → State) (nbrs : ℕ → List ℕ) : Prop :=
  ∀ u < n, ∀ st, body u st = (nbrs u).foldl visit st

variable {body : ℕ → State → State} {nbrs : ℕ → List ℕ} {n origin : ℕ}

lemma visit_spec {st : State} (h : Inv nbrs n origin st) {b : ℕ} (hb : b < n)
    (hr : Reaches nbrs origin b) :
    Inv nbrs n origin (visit st b) ∧ (visit st b).qh = st.qh ∧
      ∃ new, (visit st b).q = st.q ++ new ∧ b ∈ st.q ++ new := by
  unfold visit
  split_ifs with hv
  · exact ⟨h, rfl, [], by simp, by simpa using (h.vis_iff b).mp hv⟩
  · have hbq : b ∉ st.q := fun hm => hv ((h.vis_iff b).mpr hm)
    refine ⟨⟨by simpa using h.len, ?_, ?_, ?_, ?_, ?_⟩, rfl, [b], rfl, by simp⟩
    · intro k
      have hvk := h.vis_iff k
      have hbl : b < st.vis.length := by rw [h.len]; exact hb
      by_cases hk : k = b
      · subst hk
        simp [List.getD_eq_getElem?_getD, hbl]
      · have hkb : b ≠ k := fun e => hk e.symm
        simp only [List.getD_eq_getElem?_getD, List.getElem?_set_ne hkb, List.mem_append,
          List.mem_singleton, hk, or_false] at hvk ⊢
        exact hvk
    · intro k hk
      rcases List.mem_append.mp hk with hk | hk
      · exact h.lt k hk
      · rw [List.mem_singleton.mp hk]
        exact hb
    · rw [← List.concat_eq_append]
      exact h.nodup.concat hbq
    · exact List.mem_append_left _ h.origin_mem
    · intro k hk
      rcases List.mem_append.mp hk with hk | hk
      · exact h.reached k hk
      · rw [List.mem_singleton.mp hk]
        exact hr

lemma foldl_visit_spec (l : List ℕ) {st : State} (h : Inv nbrs n origin st) (hl : ∀ b ∈ l, b < n)
    (hr : ∀ b ∈ l, Reaches nbrs origin b) :
    Inv nbrs n origin (l.foldl visit st) ∧ (l.foldl visit st).qh = st.qh ∧
      ∃ new, (l.foldl visit st).q = st.q ++ new ∧ ∀ b ∈ l, b ∈ st.q ++ new := by
  induction l generalizing st with
  | nil => exact ⟨h, rfl, [], by simp, by simp⟩
  | cons b l ih =>
    obtain ⟨h1, h2, new, h3, h4⟩ := visit_spec h (hl b (by simp)) (hr b (by simp))
    obtain ⟨g1, g2, new', g3, g4⟩ := ih h1 (fun x hx => hl x (by simp [hx]))
      (fun x hx => hr x (by simp [hx]))
    refine ⟨g1, g2.trans h2, new ++ new', by simp only [List.foldl_cons, g3, h3, List.append_assoc], ?_⟩
    intro x hx
    rcases List.mem_cons.mp hx with rfl | hx
    · rw [← List.append_assoc]
      exact List.mem_append_left _ h4
    · have := g4 x hx
      rwa [h3, List.append_assoc] at this

/-- The neighbours of every dequeued vertex are in the queue. -/
def Closed (nbrs : ℕ → List ℕ) (st : State) : Prop :=
  ∀ i < st.qh, ∀ b ∈ nbrs (st.q.getD i 0), b ∈ st.q

lemma expand_spec (hv : Visits n body nbrs) (hn : ∀ a < n, ∀ b ∈ nbrs a, b < n) {st : State}
    (h : Inv nbrs n origin st) (hc : Closed nbrs st) (hq : st.qh < st.q.length) :
    Inv nbrs n origin (expand body st) ∧ Closed nbrs (expand body st) ∧
      (expand body st).qh = st.qh + 1 := by
  have hu : st.q.getD st.qh 0 ∈ st.q := by
    rw [List.getD_eq_getElem _ _ hq]
    exact List.getElem_mem hq
  have h' : Inv nbrs n origin { st with qh := st.qh + 1 } := ⟨h.1, h.2, h.3, h.4, h.5, h.6⟩
  obtain ⟨g1, g2, new, g3, g4⟩ := foldl_visit_spec (nbrs (st.q.getD st.qh 0)) h'
    (fun b hb => hn _ (h.lt _ hu) b hb) (fun b hb => (h.reached _ hu).tail hb)
  rw [expand, hv _ (h.lt _ hu)]
  refine ⟨g1, ?_, g2⟩
  intro i hi b hb
  rw [g2] at hi
  rw [g3] at hb ⊢
  have hil : i < st.q.length := by
    dsimp only at hi
    omega
  rw [List.getD_append _ _ _ _ hil] at hb
  rcases Nat.lt_succ_iff_lt_or_eq.mp hi with hlt | rfl
  · exact List.mem_append_left _ (hc i hlt b hb)
  · exact g4 b hb

lemma queue_length_le {st : State} (h : Inv nbrs n origin st) : st.q.length ≤ n := by
  have hsub : st.q.toFinset ⊆ Finset.range n := by
    intro k hk
    exact Finset.mem_range.mpr (h.lt k (List.mem_toFinset.mp hk))
  have hcard := Finset.card_le_card hsub
  rwa [List.toFinset_card_of_nodup h.nodup, Finset.card_range] at hcard

/-- Each dequeue uses one vertex, so `n` of them empty the queue. -/
lemma run_spec (hv : Visits n body nbrs) (hn : ∀ a < n, ∀ b ∈ nbrs a, b < n) (fuel : ℕ) {st : State}
    (h : Inv nbrs n origin st) (hc : Closed nbrs st) (hf : n ≤ st.qh + fuel) :
    ∃ st', run body fuel st = some st' ∧ Inv nbrs n origin st' ∧
      ∀ a ∈ st'.q, ∀ b ∈ nbrs a, b ∈ st'.q := by
  have hdone : ∀ st : State, Closed nbrs st → ¬ st.qh < st.q.length →
      ∀ a ∈ st.q, ∀ b ∈ nbrs a, b ∈ st.q := by
    intro st hc hq a ha b hb
    obtain ⟨i, hi, rfl⟩ := List.mem_iff_getElem.mp ha
    exact hc i (by omega) b (by rwa [List.getD_eq_getElem _ _ hi])
  induction fuel generalizing st with
  | zero =>
    have hle := queue_length_le h
    have hq : ¬ st.qh < st.q.length := by omega
    exact ⟨st, by rw [run, if_neg hq], h, hdone st hc hq⟩
  | succ fuel ih =>
    by_cases hq : st.qh < st.q.length
    · obtain ⟨g1, g2, g3⟩ := expand_spec hv hn h hc hq
      obtain ⟨st', k1, k2, k3⟩ := ih g1 g2 (by omega)
      exact ⟨st', by rw [run, if_pos hq, k1], k2, k3⟩
    · exact ⟨st, by rw [run, if_neg hq], h, hdone st hc hq⟩

lemma start_inv (ho : origin < n) : Inv nbrs n origin (start n origin) := by
  refine ⟨by simp [start], ?_, by simpa [start] using ho, by simp [start], by simp [start], ?_⟩
  · intro k
    by_cases hk : k = origin
    · subst hk
      simp [start, List.getD_eq_getElem?_getD, ho]
    · have hko : origin ≠ k := fun e => hk e.symm
      simp only [start, List.getD_eq_getElem?_getD, List.getElem?_set_ne hko, List.getElem?_replicate,
        List.mem_singleton, hk, iff_false]
      split_ifs <;> simp
  · intro k hk
    rw [start, List.mem_singleton] at hk
    rw [hk]
    exact Relation.ReflTransGen.refl

/-- The search ends and marks exactly the vertices reached from the origin. -/
theorem run_start (hv : Visits n body nbrs) (hn : ∀ a < n, ∀ b ∈ nbrs a, b < n) (ho : origin < n) :
    ∃ st, run body n (start n origin) = some st ∧ st.vis.length = n ∧
      ∀ k, st.vis.getD k false = true ↔ Reaches nbrs origin k := by
  have hc : Closed nbrs (start n origin) := by
    intro i hi
    simp [start] at hi
  obtain ⟨st, h1, h2, h3⟩ := run_spec hv hn n (start_inv ho) hc (by omega)
  refine ⟨st, h1, h2.len, fun k => ?_⟩
  rw [h2.vis_iff]
  refine ⟨h2.reached k, fun hk => ?_⟩
  induction hk with
  | refl => exact h2.origin_mem
  | tail _ hab ih => exact h3 _ ih _ hab

end AsmTest.Worklist
