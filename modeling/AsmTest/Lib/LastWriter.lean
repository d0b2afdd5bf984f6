import Mathlib.Tactic
import Mathlib.Data.List.Basic

/-!
# Last-writer dependence over a log of steps

A log gives each step a list of access records; a record reads or writes a list
of cells.  A read depends on the step that most recently wrote each of its
cells, writes of the same step excluded.
-/

namespace AsmTest.LastWriter

/-! ## Distinct values in order of first appearance -/

def addNew (acc : List ℕ) (p : ℕ) : List ℕ := if p ∈ acc then acc else acc ++ [p]

def distinct (l : List ℕ) : List ℕ := l.foldl addNew []

lemma mem_foldl_addNew (l acc : List ℕ) (p : ℕ) : p ∈ l.foldl addNew acc ↔ p ∈ acc ∨ p ∈ l := by
  induction l generalizing acc with
  | nil => simp
  | cons q l ih =>
    rw [List.foldl_cons, ih, addNew]
    split_ifs with h
    · simp only [List.mem_cons]
      constructor
      · tauto
      · rintro (hp | rfl | hp)
        · exact Or.inl hp
        · exact Or.inl h
        · exact Or.inr hp
    · simp only [List.mem_append, List.mem_cons]
      tauto

lemma nodup_foldl_addNew (l : List ℕ) {acc : List ℕ} (h : acc.Nodup) :
    (l.foldl addNew acc).Nodup := by
  induction l generalizing acc with
  | nil => exact h
  | cons q l ih =>
    rw [List.foldl_cons]
    apply ih
    rw [addNew]
    split_ifs with hq
    · exact h
    · rw [← List.concat_eq_append]
      exact h.concat hq

lemma mem_distinct {l : List ℕ} {p : ℕ} : p ∈ distinct l ↔ p ∈ l := by
  simp [distinct, mem_foldl_addNew]

lemma nodup_distinct (l : List ℕ) : (distinct l).Nodup := nodup_foldl_addNew l List.nodup_nil

lemma foldl_addNew_map {φ : ℕ → ℕ} (l acc : List ℕ)
    (hφ : ∀ x ∈ acc ++ l, ∀ y ∈ acc ++ l, φ x = φ y → x = y) :
    (l.map φ).foldl addNew (acc.map φ) = (l.foldl addNew acc).map φ := by
  induction l generalizing acc with
  | nil => rfl
  | cons q l ih =>
    have hmem : φ q ∈ acc.map φ ↔ q ∈ acc := by
      refine ⟨fun h => ?_, fun h => List.mem_map_of_mem h⟩
      obtain ⟨x, hx, hxq⟩ := List.mem_map.mp h
      rwa [← hφ x (by simp [hx]) q (by simp) hxq]
    have hstep : addNew (acc.map φ) (φ q) = (addNew acc q).map φ := by
      simp only [addNew, hmem]
      split_ifs <;> simp
    rw [List.map_cons, List.foldl_cons, List.foldl_cons, hstep]
    apply ih
    intro x hx y hy
    have hsub : ∀ z ∈ addNew acc q ++ l, z ∈ acc ++ q :: l := by
      intro z hz
      rw [addNew] at hz
      split_ifs at hz <;> simp only [List.mem_append, List.mem_cons] at hz ⊢ <;> tauto
    exact hφ x (hsub x hx) y (hsub y hy)

lemma distinct_map {φ : ℕ → ℕ} (l : List ℕ) (hφ : ∀ x ∈ l, ∀ y ∈ l, φ x = φ y → x = y) :
    distinct (l.map φ) = (distinct l).map φ :=
  foldl_addNew_map l [] hφ

/-! ## The last writer of a cell -/

section Table

variable {κ : Type*} (writes : ℕ → List κ)

/-- `s` is the most recent step before `t` to have written `c`. -/
def IsLast (t : ℕ) (c : κ) (s : ℕ) : Prop :=
  s < t ∧ c ∈ writes s ∧ ∀ u, s < u → u < t → c ∉ writes u

variable [DecidableEq κ]

/-- The last-writer table after the steps below `t`. -/
def table : ℕ → κ → Option ℕ
  | 0, _ => none
  | t + 1, c => if c ∈ writes t then some t else table t c

theorem table_eq_some_iff {t : ℕ} {c : κ} {s : ℕ} :
    table writes t c = some s ↔ IsLast writes t c s := by
  induction t with
  | zero => simp [table, IsLast]
  | succ t ih =>
    rw [table]
    split_ifs with h
    · rw [Option.some.injEq]
      constructor
      · rintro rfl
        exact ⟨Nat.lt_succ_self _, h, fun u h1 h2 => by omega⟩
      · rintro ⟨h1, h2, h3⟩
        by_contra hne
        exact h3 t (by omega) (Nat.lt_succ_self t) h
    · rw [ih]
      constructor
      · rintro ⟨h1, h2, h3⟩
        refine ⟨by omega, h2, fun u hu hut => ?_⟩
        rcases Nat.lt_succ_iff_lt_or_eq.mp hut with hu' | rfl
        · exact h3 u hu hu'
        · exact h
      · rintro ⟨h1, h2, h3⟩
        -- step `t` does not write `c`, so it is not its last writer
        have hst : s ≠ t := by
          rintro rfl
          exact h h2
        exact ⟨by omega, h2, fun u hu hut => h3 u hu (by omega)⟩

/-- The distinct last writers of a list of cells. -/
def producers (t : ℕ) (cells : List κ) : List ℕ := distinct (cells.filterMap (table writes t))

theorem mem_producers {t : ℕ} {cells : List κ} {s : ℕ} :
    s ∈ producers writes t cells ↔ ∃ c ∈ cells, IsLast writes t c s := by
  simp only [producers, mem_distinct, List.mem_filterMap, table_eq_some_iff]

end Table

/-! ## Dependence edges -/

section Edges

variable {ρ κ : Type*} [DecidableEq κ] (isWrite : ρ → Bool) (cells : ρ → List κ)

def writesOf (log : ℕ → List ρ) (t : ℕ) : List κ := ((log t).filter isWrite).flatMap cells

/-- The edges into step `t`: one per read record and distinct producer. -/
def stepEdges (log : ℕ → List ρ) (t : ℕ) : List (ℕ × ℕ × ρ) :=
  ((log t).filter fun r => !isWrite r).flatMap fun r =>
    (producers (writesOf isWrite cells log) t (cells r)).map fun s => (s, t, r)

def edges (log : ℕ → List ρ) (n : ℕ) : List (ℕ × ℕ × ρ) :=
  (List.range n).flatMap (stepEdges isWrite cells log)

theorem mem_edges {log : ℕ → List ρ} {n s t : ℕ} {r : ρ} :
    (s, t, r) ∈ edges isWrite cells log n ↔ t < n ∧ r ∈ log t ∧ isWrite r = false ∧
      ∃ c ∈ cells r, IsLast (writesOf isWrite cells log) t c s := by
  simp only [edges, stepEdges, List.mem_flatMap, List.mem_range, List.mem_filter,
    Bool.not_eq_eq_eq_not, Bool.not_true, List.mem_map, Prod.mk.injEq, mem_producers]
  constructor
  · rintro ⟨t', ht', r', ⟨hr', hw⟩, s', hs', rfl, rfl, rfl⟩
    exact ⟨ht', hr', hw, hs'⟩
  · rintro ⟨ht, hr, hw, hc⟩
    exact ⟨t, ht, r, ⟨hr, hw⟩, s, hc, rfl, rfl, rfl⟩

end Edges

/-! ## Dropping the steps without records -/

section Collapse

variable {ρ κ : Type*}

/-- `kept` lists, in order, the steps of `log` that survive in the shortened log
`log'`; `stamp i` moves a record of its step `i` back to the old numbering. -/
structure Collapse (isWrite : ρ → Bool) (cells : ρ → List κ) (log log' : ℕ → List ρ) (n : ℕ)
    (kept : List ℕ) (stamp : ℕ → ρ → ρ) : Prop where
  kept_eq : ∃ keep : ℕ → Bool, kept = (List.range n).filter keep
  dropped : ∀ t < n, t ∉ kept → log t = []
  renumbered : ∀ i < kept.length, log (kept.getD i 0) = (log' i).map (stamp i)
  isWrite_stamp : ∀ i r, isWrite (stamp i r) = isWrite r
  cells_stamp : ∀ i r, cells (stamp i r) = cells r

variable {isWrite : ρ → Bool} {cells : ρ → List κ} {log log' : ℕ → List ρ} {n : ℕ}
  {kept : List ℕ} {stamp : ℕ → ρ → ρ} (h : Collapse isWrite cells log log' n kept stamp)
include h

namespace Collapse

lemma sorted : kept.Pairwise (· < ·) := by
  obtain ⟨keep, hk⟩ := h.kept_eq
  exact hk ▸ List.pairwise_lt_range.filter keep

lemma kept_lt {i : ℕ} (hi : i < kept.length) : kept.getD i 0 < n := by
  obtain ⟨keep, hk⟩ := h.kept_eq
  have hm : kept.getD i 0 ∈ (List.range n).filter keep := by
    rw [← hk]
    simp [hi]
  exact List.mem_range.mp (List.mem_of_mem_filter hm)

lemma getD_lt_iff {i j : ℕ} (hi : i < kept.length) (hj : j < kept.length) :
    kept.getD i 0 < kept.getD j 0 ↔ i < j := by
  have hmono : ∀ a b, b < kept.length → a < b → kept.getD a 0 < kept.getD b 0 := by
    intro a b hb hab
    simpa [hb, hab.trans hb] using List.pairwise_iff_getElem.mp h.sorted a b (hab.trans hb) hb hab
  refine ⟨fun hlt => ?_, hmono i j hj⟩
  by_contra hge
  rcases (not_lt.mp hge).lt_or_eq with hji | rfl
  · exact absurd hlt (hmono j i hi hji).le.not_gt
  · exact lt_irrefl _ hlt

lemma getD_inj {i j : ℕ} (hi : i < kept.length) (hj : j < kept.length)
    (he : kept.getD i 0 = kept.getD j 0) : i = j := by
  have h1 := (h.getD_lt_iff hi hj).not.mp he.not_lt
  have h2 := (h.getD_lt_iff hj hi).not.mp he.symm.not_lt
  omega

lemma writesOf_kept {i : ℕ} (hi : i < kept.length) :
    writesOf isWrite cells log (kept.getD i 0) = writesOf isWrite cells log' i := by
  simp only [writesOf, h.renumbered i hi, List.filter_map, List.flatMap_map, h.cells_stamp]
  congr 2
  funext r
  exact h.isWrite_stamp i r

lemma exists_kept_of_write {u : ℕ} (hu : u < n) {c : κ} (hc : c ∈ writesOf isWrite cells log u) :
    ∃ j < kept.length, kept.getD j 0 = u := by
  have hm : u ∈ kept := by
    by_contra hk
    simp [writesOf, h.dropped u hu hk] at hc
  obtain ⟨j, hj, rfl⟩ := List.mem_iff_getElem.mp hm
  exact ⟨j, hj, by simp [hj]⟩

lemma isLast_kept {i : ℕ} (hi : i < kept.length) {c : κ} {s : ℕ} :
    IsLast (writesOf isWrite cells log) (kept.getD i 0) c s ↔
      ∃ j, IsLast (writesOf isWrite cells log') i c j ∧ kept.getD j 0 = s := by
  constructor
  · rintro ⟨h1, h2, h3⟩
    obtain ⟨j, hj, rfl⟩ := h.exists_kept_of_write (h1.trans (h.kept_lt hi)) h2
    refine ⟨j, ⟨(h.getD_lt_iff hj hi).mp h1, h.writesOf_kept hj ▸ h2, ?_⟩, rfl⟩
    intro u hu1 hu2
    rw [← h.writesOf_kept (by omega)]
    exact h3 _ ((h.getD_lt_iff hj (by omega)).mpr hu1) ((h.getD_lt_iff (by omega) hi).mpr hu2)
  · rintro ⟨j, ⟨h1, h2, h3⟩, rfl⟩
    have hj : j < kept.length := h1.trans hi
    refine ⟨(h.getD_lt_iff hj hi).mpr h1, (h.writesOf_kept hj).symm ▸ h2, ?_⟩
    intro u hu1 hu2 hcu
    obtain ⟨m, hm, rfl⟩ := h.exists_kept_of_write (hu2.trans (h.kept_lt hi)) hcu
    exact h3 m ((h.getD_lt_iff hj hm).mp hu1) ((h.getD_lt_iff hm hi).mp hu2)
      (h.writesOf_kept hm ▸ hcu)

variable [DecidableEq κ]

lemma producers_kept {i : ℕ} (hi : i < kept.length) (l : List κ) :
    producers (writesOf isWrite cells log) (kept.getD i 0) l =
      (producers (writesOf isWrite cells log') i l).map fun j => kept.getD j 0 := by
  have htab : ∀ c, table (writesOf isWrite cells log) (kept.getD i 0) c =
      (table (writesOf isWrite cells log') i c).map fun j => kept.getD j 0 := by
    intro c
    apply Option.ext
    intro s
    rw [table_eq_some_iff, h.isLast_kept hi, Option.map_eq_some_iff]
    simp only [table_eq_some_iff]
  rw [producers, producers, ← distinct_map]
  · rw [List.map_filterMap]
    exact congrArg distinct (List.filterMap_congr fun c _ => htab c)
  · intro x hx y hy hxy
    simp only [List.mem_filterMap, table_eq_some_iff] at hx hy
    obtain ⟨-, -, hx', -⟩ := hx
    obtain ⟨-, -, hy', -⟩ := hy
    exact h.getD_inj (hx'.trans hi) (hy'.trans hi) hxy

lemma stepEdges_kept {i : ℕ} (hi : i < kept.length) :
    stepEdges isWrite cells log (kept.getD i 0) =
      (stepEdges isWrite cells log' i).map fun e =>
        (kept.getD e.1 0, kept.getD e.2.1 0, stamp e.2.1 e.2.2) := by
  simp only [stepEdges, h.renumbered i hi, List.filter_map, List.flatMap_map, List.map_flatMap,
    List.map_map, h.cells_stamp, h.producers_kept hi]
  congr 2
  funext r
  simp [h.isWrite_stamp i r]

lemma flatMap_range_eq_kept :
    edges isWrite cells log n = kept.flatMap (stepEdges isWrite cells log) := by
  obtain ⟨keep, hk⟩ := h.kept_eq
  have hskip : ∀ l : List ℕ, (∀ t ∈ l, t < n) → l.flatMap (stepEdges isWrite cells log) =
      (l.filter keep).flatMap (stepEdges isWrite cells log) := by
    intro l hl
    induction l with
    | nil => rfl
    | cons t l ih =>
      rw [List.flatMap_cons, ih (fun u hu => hl u (by simp [hu])), List.filter_cons]
      split_ifs with hkt
      · rfl
      · have ht : t ∉ kept := by rw [hk]; simp [hkt]
        simp [stepEdges, h.dropped t (hl t (by simp)) ht]
  rw [edges, hskip _ (by simp), ← hk]

/-- The edges are renumbered and nothing else changes. -/
theorem edges_eq :
    edges isWrite cells log n =
      (edges isWrite cells log' kept.length).map fun e =>
        (kept.getD e.1 0, kept.getD e.2.1 0, stamp e.2.1 e.2.2) := by
  have hrange : kept = (List.range kept.length).map fun i => kept.getD i 0 := by
    apply List.ext_getElem (by simp)
    intro i h1 h2
    simp [h1]
  calc edges isWrite cells log n
      = kept.flatMap (stepEdges isWrite cells log) := h.flatMap_range_eq_kept
    _ = (List.range kept.length).flatMap fun i =>
          stepEdges isWrite cells log (kept.getD i 0) := by
        conv_lhs => rw [hrange]
        rw [List.flatMap_map]
    _ = _ := by
        rw [edges, List.map_flatMap]
        exact List.flatMap_congr fun i hi => h.stepEdges_kept (List.mem_range.mp hi)

end Collapse

end Collapse

/-! ## A step put into a log -/

section Interposed

variable {ρ κ : Type*}

/-- The number of an old step after a new step `k` -/
def skip (k t : ℕ) : ℕ := if t < k then t else t + 1

lemma skip_ne (k t : ℕ) : skip k t ≠ k := by
  unfold skip
  split_ifs <;> omega

lemma skip_lt_skip {k s t : ℕ} : skip k s < skip k t ↔ s < t := by
  unfold skip
  split_ifs <;> omega

lemma skip_lt {k t : ℕ} : skip k t < k ↔ t < k := by
  unfold skip
  split_ifs <;> omega

lemma lt_skip {k t : ℕ} : k < skip k t ↔ k ≤ t := by
  unfold skip
  split_ifs <;> omega

lemma skip_injective (k : ℕ) : Function.Injective (skip k) := by
  intro s t h
  have h1 := (@skip_lt_skip k s t).not.mp h.not_lt
  have h2 := (@skip_lt_skip k t s).not.mp h.symm.not_lt
  omega

lemma exists_skip {k u : ℕ} (h : u ≠ k) : ∃ t, skip k t = u := by
  unfold skip
  rcases Nat.lt_or_gt_of_ne h with hlt | hgt
  · exact ⟨u, if_pos hlt⟩
  · exact ⟨u - 1, by rw [if_neg (by omega)]; omega⟩

/-- `log'` is `log` with a step `k` that reads nothing put in; `stamp` moves an old record to its
new number. -/
structure Interposed (isWrite : ρ → Bool) (cells : ρ → List κ) (log log' : ℕ → List ρ) (k : ℕ)
    (stamp : ρ → ρ) : Prop where
  moved : ∀ t, log' (skip k t) = (log t).map stamp
  placed : ∀ r ∈ log' k, isWrite r = true
  isWrite_stamp : ∀ r, isWrite (stamp r) = isWrite r
  cells_stamp : ∀ r, cells (stamp r) = cells r

variable {isWrite : ρ → Bool} {cells : ρ → List κ} {log log' : ℕ → List ρ} {k : ℕ} {stamp : ρ → ρ}
  (h : Interposed isWrite cells log log' k stamp)
include h

namespace Interposed

lemma writesOf_skip (t : ℕ) :
    writesOf isWrite cells log' (skip k t) = writesOf isWrite cells log t := by
  simp only [writesOf, h.moved, List.filter_map, List.flatMap_map, h.cells_stamp]
  congr 2
  funext r
  exact h.isWrite_stamp r

/-- An old step stays the last writer of a cell unless the new step comes between and writes it. -/
theorem isLast_skip {s t : ℕ} {c : κ} :
    IsLast (writesOf isWrite cells log') (skip k t) c (skip k s) ↔
      IsLast (writesOf isWrite cells log) t c s ∧
        (s < k → k ≤ t → c ∉ writesOf isWrite cells log' k) := by
  constructor
  · rintro ⟨h1, h2, h3⟩
    refine ⟨⟨skip_lt_skip.mp h1, h.writesOf_skip s ▸ h2, fun u hsu hut => ?_⟩, fun hs ht => ?_⟩
    · rw [← h.writesOf_skip u]
      exact h3 _ (skip_lt_skip.mpr hsu) (skip_lt_skip.mpr hut)
    · exact h3 k (skip_lt.mpr hs) (lt_skip.mpr ht)
  · rintro ⟨⟨h1, h2, h3⟩, hk⟩
    refine ⟨skip_lt_skip.mpr h1, (h.writesOf_skip s).symm ▸ h2, fun u hsu hut => ?_⟩
    by_cases hu : u = k
    · subst hu
      exact hk (skip_lt.mp hsu) (lt_skip.mp hut)
    · obtain ⟨v, rfl⟩ := exists_skip hu
      rw [h.writesOf_skip]
      exact h3 v (skip_lt_skip.mp hsu) (skip_lt_skip.mp hut)

variable [DecidableEq κ] {n n' : ℕ} (hn : ∀ t, log t ≠ [] → (skip k t < n' ↔ t < n))
include hn

/-- The edges of the longer log that do not come from the new step -/
theorem mem_edges_iff {e' : ℕ × ℕ × ρ} :
    (e' ∈ edges isWrite cells log' n' ∧ e'.1 ≠ k) ↔
      ∃ s t r, e' = (skip k s, skip k t, stamp r) ∧ t < n ∧ r ∈ log t ∧ isWrite r = false ∧
        ∃ c ∈ cells r, IsLast (writesOf isWrite cells log) t c s ∧
          (s < k → k ≤ t → c ∉ writesOf isWrite cells log' k) := by
  obtain ⟨s', t', r'⟩ := e'
  rw [mem_edges]
  constructor
  · rintro ⟨⟨ht', hr', hread, c, hc, hlast⟩, hs'⟩
    obtain ⟨s, rfl⟩ := exists_skip hs'
    -- the new step has no reads
    have htk : t' ≠ k := by
      rintro rfl
      rw [h.placed _ hr'] at hread
      cases hread
    obtain ⟨t, rfl⟩ := exists_skip htk
    rw [h.moved] at hr'
    obtain ⟨r, hr, rfl⟩ := List.mem_map.mp hr'
    rw [h.isWrite_stamp] at hread
    rw [h.cells_stamp] at hc
    exact ⟨s, t, r, rfl, (hn t (List.ne_nil_of_mem hr)).mp ht', hr, hread, c, hc,
      h.isLast_skip.mp hlast⟩
  · rintro ⟨s, t, r, he, ht, hr, hread, c, hc, hlast⟩
    cases he
    refine ⟨⟨(hn t (List.ne_nil_of_mem hr)).mpr ht, ?_, ?_, c, ?_, h.isLast_skip.mpr hlast⟩,
      skip_ne k s⟩
    · rw [h.moved]
      exact List.mem_map_of_mem hr
    · rw [h.isWrite_stamp, hread]
    · rw [h.cells_stamp]
      exact hc

/-- The edges of the log are those of the longer log exactly if a crossing edge never rests on
cells of the new step alone. -/
theorem edges_eq_iff (hinj : Function.Injective stamp) :
    (∀ e', (e' ∈ edges isWrite cells log' n' ∧ e'.1 ≠ k) ↔
      ∃ e ∈ edges isWrite cells log n, e' = (skip k e.1, skip k e.2.1, stamp e.2.2)) ↔
    ∀ s < k, ∀ t, k ≤ t → t < n → ∀ r ∈ log t, isWrite r = false →
      (∃ c ∈ cells r, IsLast (writesOf isWrite cells log) t c s) →
        ∃ c ∈ cells r, IsLast (writesOf isWrite cells log) t c s ∧
          c ∉ writesOf isWrite cells log' k := by
  constructor
  · intro heq s hs t hkt ht r hr hread hlast
    have he := (heq (skip k s, skip k t, stamp r)).mpr
      ⟨(s, t, r), (mem_edges _ _).mpr ⟨ht, hr, hread, hlast⟩, rfl⟩
    obtain ⟨s₁, t₁, r₁, heq₁, -, -, -, c, hc, hlast₁, hfree⟩ := (h.mem_edges_iff hn).mp he
    rw [Prod.mk.injEq, Prod.mk.injEq] at heq₁
    obtain rfl := skip_injective k heq₁.1
    obtain rfl := skip_injective k heq₁.2.1
    obtain rfl := hinj heq₁.2.2
    exact ⟨c, hc, hlast₁, hfree hs hkt⟩
  · intro hfree e'
    rw [h.mem_edges_iff hn]
    constructor
    · rintro ⟨s, t, r, rfl, ht, hr, hread, c, hc, hlast, -⟩
      exact ⟨(s, t, r), (mem_edges _ _).mpr ⟨ht, hr, hread, c, hc, hlast⟩, rfl⟩
    · rintro ⟨⟨s, t, r⟩, he, rfl⟩
      obtain ⟨ht, hr, hread, hlast⟩ := (mem_edges _ _).mp he
      refine ⟨s, t, r, rfl, ht, hr, hread, ?_⟩
      by_cases hcross : s < k ∧ k ≤ t
      · obtain ⟨c, hc, hl, hw⟩ := hfree s hcross.1 t hcross.2 ht r hr hread hlast
        exact ⟨c, hc, hl, fun _ _ => hw⟩
      · obtain ⟨c, hc, hl⟩ := hlast
        exact ⟨c, hc, hl, fun hs ht => absurd ⟨hs, ht⟩ hcross⟩

end Interposed

end Interposed

end AsmTest.LastWriter
