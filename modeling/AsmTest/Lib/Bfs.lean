import AsmTest.Lib.OrderedMap
import AsmTest.Lib.Hops
import Mathlib.Logic.Relation
import Mathlib.Data.Finset.Card

/-!
# Breadth-first search with a map of depths

The map holds every vertex met so far with the depth it was met at, and the queue those whose
neighbours are still to be looked at.
-/

namespace AsmTest.Bfs

open Lib

structure State where
  q : List ℕ
  depth : List (ℕ × ℤ)

def State.seen (st : State) (k : ℕ) : Prop :=
  (mapFind k st.depth).isSome

/-- The neighbour `t` of `s`: the first time it is met is its depth. -/
def visit (sign : ℤ) (s : ℕ) (st : State) (t : ℕ) : State :=
  if (mapFind t st.depth).isSome then st
  else ⟨st.q ++ [t], mapInsert t ((mapFind s st.depth).getD 0 + sign) st.depth⟩

/-- `while (!q.empty())`, for at most `fuel` vertices -/
def run (body : ℕ → State → State) : ℕ → State → Option State
  | _, ⟨[], depth⟩ => some ⟨[], depth⟩
  | 0, ⟨_ :: _, _⟩ => none
  | fuel + 1, ⟨s :: q, depth⟩ => run body fuel (body s ⟨q, depth⟩)

def Reaches (nbrs : ℕ → List ℕ) (origin k : ℕ) : Prop :=
  Relation.ReflTransGen (fun a b => b ∈ nbrs a) origin k

/-- What is met is reached, and there is room for it below `n`. -/
structure Inv (nbrs : ℕ → List ℕ) (n origin : ℕ) (st : State) : Prop where
  sorted : KeysSorted st.depth
  queued : ∀ k ∈ st.q, st.seen k
  reached : ∀ k, st.seen k → Reaches nbrs origin k
  bound : ∀ k, st.seen k → k = origin ∨ k < n
  start : st.seen origin

/-- The neighbours of a vertex that has left the queue are met. -/
def Closed (nbrs : ℕ → List ℕ) (st : State) : Prop :=
  ∀ k, st.seen k → k ∉ st.q → ∀ b ∈ nbrs k, st.seen b

/-- What is still to be done: the queue and the vertices that are not met -/
def Fits (n fuel : ℕ) (st : State) : Prop :=
  st.q.length + (n + 1) ≤ fuel + st.depth.length

/-- The body visits the neighbours of the vertex it is given. -/
def Visits (body : ℕ → State → State) (nbrs : ℕ → List ℕ) (sign : ℤ) : Prop :=
  ∀ s st, body s st = (nbrs s).foldl (visit sign s) st

variable {body : ℕ → State → State} {nbrs : ℕ → List ℕ} {n origin : ℕ} {sign : ℤ}

theorem length_depth_le {st : State} (h : Inv nbrs n origin st) : st.depth.length ≤ n + 1 := by
  have hsub : (st.depth.map Prod.fst).toFinset ⊆ insert origin (Finset.range n) := by
    intro k hk
    rw [List.mem_toFinset, List.mem_map] at hk
    obtain ⟨⟨k, d⟩, he, rfl⟩ := hk
    rw [Finset.mem_insert, Finset.mem_range]
    exact h.bound k (by rw [State.seen, mapFind_of_mem h.sorted he]; rfl)
  have hcard := Finset.card_le_card hsub
  rw [List.toFinset_card_of_nodup (nodup_of_keysSorted h.sorted), List.length_map] at hcard
  have hins := Finset.card_insert_le origin (Finset.range n)
  rw [Finset.card_range] at hins
  omega

theorem length_mapInsert_of_none {k : ℕ} {d : ℤ} {m : List (ℕ × ℤ)} (h : mapFind k m = none) :
    (mapInsert k d m).length = m.length + 1 := by
  induction m with
  | nil => rfl
  | cons e m ih =>
    obtain ⟨k', d'⟩ := e
    rw [mapFind] at h
    split_ifs at h with hk
    rw [mapInsert, if_neg hk]
    split_ifs
    · simp
    · rw [List.length_cons, ih h, List.length_cons]

theorem visit_spec (sign : ℤ) (s : ℕ) {st : State} (h : Inv nbrs n origin st) {t : ℕ} (ht : t < n)
    (hr : Reaches nbrs origin t) :
    Inv nbrs n origin (visit sign s st t) ∧ (visit sign s st t).seen t ∧
      (∀ k, st.seen k → (visit sign s st t).seen k) ∧
      (∀ k, (visit sign s st t).seen k → st.seen k ∨ k ∈ (visit sign s st t).q) ∧
      (∃ new, (visit sign s st t).q = st.q ++ new) ∧
      (∀ fuel, Fits n fuel st → Fits n fuel (visit sign s st t)) := by
  rw [visit]
  split_ifs with hseen
  · exact ⟨h, hseen, fun k hk => hk, fun k hk => .inl hk, ⟨[], by simp⟩, fun _ hf => hf⟩
  · rw [Bool.not_eq_true, Option.isSome_eq_false_iff, Option.isNone_iff_eq_none] at hseen
    have hnew : ∀ k, State.seen ⟨st.q ++ [t],
        mapInsert t ((mapFind s st.depth).getD 0 + sign) st.depth⟩ k ↔ k = t ∨ st.seen k := by
      intro k
      simp only [State.seen, mapFind_mapInsert]
      by_cases hk : k = t
      · simp [hk]
      · simp [hk]
    refine ⟨⟨keysSorted_mapInsert _ _ h.sorted, ?_, ?_, ?_, (hnew _).2 (.inr h.start)⟩,
      (hnew t).2 (.inl rfl), fun k hk => (hnew k).2 (.inr hk), ?_, ⟨[t], rfl⟩, ?_⟩
    · intro k hk
      rw [hnew]
      rcases List.mem_append.1 hk with hk | hk
      · exact .inr (h.queued k hk)
      · exact .inl (List.mem_singleton.1 hk)
    · intro k hk
      rcases (hnew k).1 hk with rfl | hk
      · exact hr
      · exact h.reached k hk
    · intro k hk
      rcases (hnew k).1 hk with rfl | hk
      · exact .inr ht
      · exact h.bound k hk
    · intro k hk
      rcases (hnew k).1 hk with rfl | hk
      · exact .inr (by simp)
      · exact .inl hk
    · intro fuel hf
      rw [Fits, length_mapInsert_of_none hseen, List.length_append, List.length_singleton]
      rw [Fits] at hf
      omega

theorem foldl_visit_spec (sign : ℤ) (s : ℕ) (l : List ℕ) {st : State} (h : Inv nbrs n origin st)
    (hl : ∀ t ∈ l, t < n) (hr : ∀ t ∈ l, Reaches nbrs origin t) :
    Inv nbrs n origin (l.foldl (visit sign s) st) ∧
      (∀ t ∈ l, (l.foldl (visit sign s) st).seen t) ∧
      (∀ k, st.seen k → (l.foldl (visit sign s) st).seen k) ∧
      (∀ k, (l.foldl (visit sign s) st).seen k →
        st.seen k ∨ k ∈ (l.foldl (visit sign s) st).q) ∧
      (∃ new, (l.foldl (visit sign s) st).q = st.q ++ new) ∧
      (∀ fuel, Fits n fuel st → Fits n fuel (l.foldl (visit sign s) st)) := by
  induction l generalizing st with
  | nil => exact ⟨h, by simp, fun k hk => hk, fun k hk => .inl hk, ⟨[], by simp⟩, fun _ hf => hf⟩
  | cons t l ih =>
    rw [List.forall_mem_cons] at hl hr
    obtain ⟨h1, h2, h3, h4, ⟨new, h5⟩, h6⟩ := visit_spec sign s h hl.1 hr.1
    obtain ⟨g1, g2, g3, g4, ⟨new', g5⟩, g6⟩ := ih h1 hl.2 hr.2
    rw [List.foldl_cons]
    refine ⟨g1, ?_, fun k hk => g3 k (h3 k hk), fun k hk => ?_, ⟨new ++ new', ?_⟩,
      fun fuel hf => g6 fuel (h6 fuel hf)⟩
    · rw [List.forall_mem_cons]
      exact ⟨g3 t h2, g2⟩
    · rcases g4 k hk with hk | hk
      · rcases h4 k hk with hk | hk
        · exact .inl hk
        · rw [g5]
          exact .inr (List.mem_append_left _ hk)
      · exact .inr hk
    · rw [g5, h5, List.append_assoc]

/-- Every vertex leaves the queue once, so `n + 1` of them empty it. -/
theorem run_spec (hv : Visits body nbrs sign) (hn : ∀ a, ∀ b ∈ nbrs a, b < n) (fuel : ℕ)
    {st : State} (h : Inv nbrs n origin st) (hc : Closed nbrs st) (hf : Fits n fuel st) :
    ∃ st', run body fuel st = some st' ∧ Inv nbrs n origin st' ∧
      ∀ a, st'.seen a → ∀ b ∈ nbrs a, st'.seen b := by
  induction fuel generalizing st with
  | zero =>
    obtain ⟨q, depth⟩ := st
    have hle := length_depth_le h
    rw [Fits] at hf
    dsimp only at hle hf
    obtain rfl : q = [] := List.eq_nil_of_length_eq_zero (by omega)
    exact ⟨_, rfl, h, fun a ha => hc a ha List.not_mem_nil⟩
  | succ fuel ih =>
    obtain ⟨q, depth⟩ := st
    cases q with
    | nil => exact ⟨_, rfl, h, fun a ha => hc a ha List.not_mem_nil⟩
    | cons s q =>
      have h' : Inv nbrs n origin ⟨q, depth⟩ :=
        ⟨h.sorted, fun k hk => h.queued k (List.mem_cons_of_mem _ hk), h.reached, h.bound, h.start⟩
      have hs : Reaches nbrs origin s := h.reached s (h.queued s List.mem_cons_self)
      obtain ⟨g1, g2, g3, g4, ⟨new, g5⟩, g6⟩ := foldl_visit_spec sign s (nbrs s) h'
        (hn s) (fun t ht => hs.tail ht)
      rw [← hv] at g1 g2 g3 g4 g5 g6
      rw [run]
      refine ih g1 ?_ (g6 fuel ?_)
      · intro k hk hkq b hb
        by_cases hks : k = s
        · exact g2 b (hks ▸ hb)
        · rcases g4 k hk with hk | hk
          · refine g3 b (hc k hk ?_ b hb)
            rw [g5] at hkq
            rw [List.mem_cons, not_or]
            exact ⟨hks, fun hm => hkq (List.mem_append_left _ hm)⟩
          · exact absurd hk hkq
      · rw [Fits, List.length_cons] at hf
        rw [Fits]
        dsimp only at hf ⊢
        omega

/-- The search ends, and the map has exactly the vertices reached from the origin. -/
theorem run_start (n origin : ℕ) (hv : Visits body nbrs sign) (hn : ∀ a, ∀ b ∈ nbrs a, b < n) :
    ∃ st, run body (n + 1) ⟨[origin], [(origin, 0)]⟩ = some st ∧
      ∀ k, st.seen k ↔ Reaches nbrs origin k := by
  have hseen : ∀ k, State.seen ⟨[origin], [(origin, 0)]⟩ k ↔ k = origin := by
    intro k
    by_cases hk : k = origin
    · simp [State.seen, mapFind, hk]
    · simp [State.seen, mapFind, hk]
  have hinv : Inv nbrs n origin ⟨[origin], [(origin, 0)]⟩ := by
    refine ⟨List.pairwise_singleton _ _, ?_, ?_, ?_, (hseen _).2 rfl⟩
    · intro k hk
      exact (hseen k).2 (List.mem_singleton.1 hk)
    · intro k hk
      rw [(hseen k).1 hk]
      exact Relation.ReflTransGen.refl
    · intro k hk
      exact .inl ((hseen k).1 hk)
  have hclosed : Closed nbrs ⟨[origin], [(origin, 0)]⟩ := by
    intro k hk hkq
    exact absurd (List.mem_singleton.2 ((hseen k).1 hk)) hkq
  obtain ⟨st, h1, h2, h3⟩ := run_spec hv hn (n + 1) hinv hclosed (by simp [Fits]; omega)
  refine ⟨st, h1, fun k => ⟨h2.reached k, fun hk => ?_⟩⟩
  induction hk with
  | refl => exact h2.start
  | tail _ hab ih => exact h3 _ ih _ hab

section Depths

/-- The map has `sign` times the hop counts of the search. -/
structure Signed (sign : ℤ) (st : State) (s : Hops.Search ℕ) : Prop where
  q : st.q = s.q
  depth : ∀ k, mapFind k st.depth = (s.dist k).map fun d : ℕ => sign * (d : ℤ)
  sorted : KeysSorted st.depth

variable {st : State} {s : Hops.Search ℕ}

theorem visit_signed (h : Signed sign st s) {u d : ℕ} (hu : s.dist u = some d) (t : ℕ) :
    Signed sign (visit sign u st t) (Hops.visit (d + 1) s t) ∧
      (Hops.visit (d + 1) s t).dist u = some d := by
  have hiff : (mapFind t st.depth).isSome = (s.dist t).isSome := by
    rw [h.depth, Option.isSome_map]
  rw [visit, Hops.visit, hiff]
  split_ifs with ht
  · exact ⟨h, hu⟩
  · refine ⟨⟨by rw [h.q], fun k => ?_, keysSorted_mapInsert _ _ h.sorted⟩, ?_⟩
    · rw [mapFind_mapInsert]
      dsimp only
      by_cases hk : k = t
      · rw [if_pos hk, hk, Function.update_self, h.depth, hu, Option.map_some, Option.map_some,
          Option.getD_some]
        congr 1
        push_cast
        ring
      · rw [if_neg hk, Function.update_of_ne hk, h.depth]
    · have hne : u ≠ t := fun hut => ht (by rw [← hut, hu]; rfl)
      exact (Function.update_of_ne hne _ _).trans hu

theorem foldl_visit_signed {u d : ℕ} (l : List ℕ) (h : Signed sign st s) (hu : s.dist u = some d) :
    Signed sign (l.foldl (visit sign u) st) (l.foldl (Hops.visit (d + 1)) s) := by
  induction l generalizing st s with
  | nil => exact h
  | cons t l ih =>
    obtain ⟨h', hu'⟩ := visit_signed h hu t
    exact ih h' hu'

theorem run_signed (hv : Visits body nbrs sign) (fuel : ℕ) (h : Signed sign st s)
    (hinv : Hops.Inv nbrs origin none s) {s' : Hops.Search ℕ}
    (hs : Hops.run nbrs none fuel s = some s') :
    ∃ st', run body fuel st = some st' ∧ Signed sign st' s' := by
  induction fuel generalizing st s with
  | zero =>
    obtain ⟨dist, q, bounded⟩ := s
    obtain ⟨q', depth⟩ := st
    obtain rfl : q' = q := h.q
    cases q' with
    | nil =>
      cases hs
      exact ⟨_, rfl, h⟩
    | cons u q => cases hs
  | succ fuel ih =>
    obtain ⟨dist, q, bounded⟩ := s
    obtain ⟨q', depth⟩ := st
    obtain rfl : q' = q := h.q
    cases q' with
    | nil =>
      cases hs
      exact ⟨_, rfl, h⟩
    | cons u q =>
      obtain ⟨d, hu⟩ := hinv.queued u List.mem_cons_self
      dsimp only at hu
      have hexp : Hops.expand nbrs none u ⟨dist, q, bounded⟩ =
          (nbrs u).foldl (Hops.visit (d + 1)) ⟨dist, q, bounded⟩ := by
        rw [Hops.expand]
        dsimp only
        rw [if_pos (Hops.below_none _), hu, Option.getD_some]
      rw [Hops.run] at hs
      rw [run, hv]
      refine ih ?_ hinv.expand hs
      rw [hexp]
      exact foldl_visit_signed _ ⟨rfl, h.depth, h.sorted⟩ hu

/-- The depths are the hop distances, with the sign of the search. -/
theorem run_depths (n origin : ℕ) (hv : Visits body nbrs sign) (hn : ∀ a, ∀ b ∈ nbrs a, b < n) :
    ∃ st, run body (n + 1) ⟨[origin], [(origin, 0)]⟩ = some st ∧ KeysSorted st.depth ∧
      ∀ k v, mapFind k st.depth = some v ↔ ∃ d : ℕ, Hops.IsDist nbrs origin k d ∧ v = sign * d := by
  have hcard : (insert origin (Finset.range n)).card ≤ n + 1 := by
    have := Finset.card_insert_le origin (Finset.range n)
    rwa [Finset.card_range] at this
  obtain ⟨s, hrun, hinv, hq⟩ := Hops.run_start none (Finset.mem_insert_self origin _)
    (fun k _ b hb => Finset.mem_insert_of_mem (Finset.mem_range.2 (hn k b hb))) hcard
  have hstart : Signed sign ⟨[origin], [(origin, 0)]⟩ (Hops.start origin) := by
    refine ⟨rfl, fun k => ?_, List.pairwise_singleton _ _⟩
    rw [Hops.start]
    dsimp only
    by_cases hk : k = origin
    · rw [if_pos hk, hk, mapFind, if_pos rfl, Option.map_some, Nat.cast_zero, mul_zero]
    · rw [if_neg hk, mapFind, if_neg hk]
      rfl
  obtain ⟨st, hst, hsigned⟩ := run_signed hv _ hstart Hops.start_inv hrun
  refine ⟨st, hst, hsigned.sorted, fun k v => ?_⟩
  rw [hsigned.depth, Option.map_eq_some_iff]
  constructor
  · rintro ⟨d, hd, rfl⟩
    exact ⟨d, ((hinv.dist_iff hq).1 hd).1, rfl⟩
  · rintro ⟨d, hd, rfl⟩
    exact ⟨d, (hinv.dist_iff hq).2 ⟨hd, fun c hc => absurd hc (Option.not_mem_none c)⟩, rfl⟩

end Depths

end AsmTest.Bfs
