import Mathlib.Tactic
import Mathlib.Data.List.GetD
import Mathlib.Data.List.Basic
import Mathlib.Algebra.BigOperators.Group.Finset.Basic
import Mathlib.Algebra.Order.BigOperators.Group.Finset

/-!
# Compressed adjacency by a counting sort

The counters are machine integers modulo `M`. While the number of stored edges
stays below `M` the row of a vertex lists its targets in edge order; from `M`
edges on the fill pass runs past the end of `dst`.
-/

open Finset

namespace AsmTest.Csr

structure Adjacency where
  head : List ℕ
  dst : List ℕ
  deriving DecidableEq, Repr

def countEdge (M n : ℕ) (head : List ℕ) (e : ℕ × ℕ) : List ℕ :=
  if e.1 < n ∧ e.2 < n then head.set (e.1 + 1) ((head.getD (e.1 + 1) 0 + 1) % M) else head

/-- Out-degrees, one place to the right of their vertex. -/
def degrees (M n : ℕ) (es : List (ℕ × ℕ)) : List ℕ :=
  es.foldl (countEdge M n) (List.replicate (n + 1) 0)

def addPrev (M : ℕ) (head : List ℕ) (i : ℕ) : List ℕ :=
  head.set (i + 1) ((head.getD (i + 1) 0 + head.getD i 0) % M)

def prefixSums (M n : ℕ) (head : List ℕ) : List ℕ := (List.range n).foldl (addPrev M) head

structure Filling where
  dst : List ℕ
  fill : List ℕ

/-- `dst[fill[from]++] = to`; `none` when that is a write past the end of `dst`. -/
def placeEdge (M n : ℕ) (st : Filling) (e : ℕ × ℕ) : Option Filling :=
  if e.1 < n ∧ e.2 < n then
    let i := st.fill.getD e.1 0
    if i < st.dst.length then some ⟨st.dst.set i e.2, st.fill.set e.1 ((i + 1) % M)⟩ else none
  else some st

/-- `dst` resized to the last prefix sum, the cursors at the start of each block. -/
def filling (n : ℕ) (head : List ℕ) : Filling := ⟨List.replicate (head.getD n 0) 0, head.dropLast⟩

def build (M n : ℕ) (es : List (ℕ × ℕ)) : Option Adjacency :=
  let head := prefixSums M n (degrees M n es)
  (es.foldlM (placeEdge M n) (filling n head)).map fun st => ⟨head, st.dst⟩

/-- The slots a walk reads for the vertex `u`. -/
def row (a : Adjacency) (u : ℕ) : List ℕ :=
  (a.dst.drop (a.head.getD u 0)).take (a.head.getD (u + 1) 0 - a.head.getD u 0)

/-! ## What the counters count -/

/-- The targets of `v` among the edges with both ends below `n`, in edge order. -/
def targets (n : ℕ) (es : List (ℕ × ℕ)) (v : ℕ) : List ℕ :=
  es.filterMap fun e => if e.1 < n ∧ e.2 < n ∧ e.1 = v then some e.2 else none

/-- The number of edges stored for the vertices before `v`. -/
def below (n : ℕ) (es : List (ℕ × ℕ)) (v : ℕ) : ℕ := ∑ u ∈ range v, (targets n es u).length

def inRange (n : ℕ) (es : List (ℕ × ℕ)) : ℕ := es.countP fun e => e.1 < n ∧ e.2 < n

variable {M n : ℕ} {es : List (ℕ × ℕ)}

lemma mem_targets {v b : ℕ} : b ∈ targets n es v ↔ (v, b) ∈ es ∧ v < n ∧ b < n := by
  rw [targets, List.mem_filterMap]
  constructor
  · rintro ⟨⟨x, y⟩, he, hif⟩
    split_ifs at hif with hc
    obtain ⟨h1, h2, rfl⟩ := hc
    obtain rfl : y = b := Option.some.inj hif
    exact ⟨he, h1, h2⟩
  · rintro ⟨he, hv, hb⟩
    exact ⟨(v, b), he, by simp [hv, hb]⟩

lemma targets_append (es es' : List (ℕ × ℕ)) (v : ℕ) :
    targets n (es ++ es') v = targets n es v ++ targets n es' v := by
  simp [targets]

lemma targets_singleton (e : ℕ × ℕ) (v : ℕ) :
    targets n [e] v = if e.1 < n ∧ e.2 < n ∧ e.1 = v then [e.2] else [] := by
  simp only [targets, List.filterMap_cons, List.filterMap_nil]
  split_ifs <;> rfl

lemma below_succ (v : ℕ) : below n es (v + 1) = below n es v + (targets n es v).length :=
  sum_range_succ _ _

lemma below_mono (n : ℕ) (es : List (ℕ × ℕ)) {u v : ℕ} (h : u ≤ v) : below n es u ≤ below n es v :=
  sum_le_sum_of_subset (range_subset_range.mpr h)

lemma below_eq_inRange : below n es n = inRange n es := by
  induction es using List.reverseRecOn with
  | nil => simp [below, targets, inRange]
  | append_singleton l e ih =>
    have hstep : ∀ v, (targets n (l ++ [e]) v).length =
        (targets n l v).length + if e.1 < n ∧ e.2 < n ∧ e.1 = v then 1 else 0 := by
      intro v
      rw [targets_append, targets_singleton, List.length_append]
      split_ifs <;> rfl
    have hlast : (∑ v ∈ range n, if e.1 < n ∧ e.2 < n ∧ e.1 = v then 1 else 0) =
        if e.1 < n ∧ e.2 < n then 1 else 0 := by
      by_cases hc : e.1 < n ∧ e.2 < n
      · simp [hc.1, hc.2]
      · rw [if_neg hc]
        apply sum_eq_zero
        intro v _
        exact if_neg fun h => hc ⟨h.1, h.2.1⟩
    rw [below] at ih ⊢
    simp only [hstep, sum_add_distrib, ih, hlast, inRange, List.countP_append, List.countP_singleton,
      decide_eq_true_eq]

/-- A counter position lies in the block of one vertex. -/
lemma exists_block {p : ℕ} (hp : p < below n es n) :
    ∃ v < n, below n es v ≤ p ∧ p < below n es (v + 1) := by
  have hex : ∃ v, p < below n es (v + 1) := by
    cases n with
    | zero => simp [below] at hp
    | succ k => exact ⟨k, hp⟩
  classical
  have hlow : below n es (Nat.find hex) ≤ p := by
    cases hv : Nat.find hex with
    | zero => simp [below]
    | succ k => exact not_lt.mp (Nat.find_min hex (by omega))
  refine ⟨Nat.find hex, ?_, hlow, Nat.find_spec hex⟩
  by_contra hge
  have := below_mono n es (not_lt.mp hge)
  omega

lemma getD_set (l : List ℕ) (i a j : ℕ) :
    (l.set i a).getD j 0 = if i = j ∧ j < l.length then a else l.getD j 0 := by
  rw [List.getD_eq_getElem?_getD, List.getElem?_set, List.getD_eq_getElem?_getD]
  by_cases hij : i = j
  · subst hij
    by_cases hl : i < l.length
    · simp [hl]
    · simp [hl]
  · simp [hij]

lemma length_degrees : (degrees M n es).length = n + 1 := by
  induction es using List.reverseRecOn with
  | nil => simp [degrees]
  | append_singleton l e ih =>
    rw [degrees, List.foldl_append, List.foldl_cons, List.foldl_nil, ← degrees, countEdge]
    split_ifs
    · rw [List.length_set, ih]
    · exact ih

lemma getD_degrees_zero : (degrees M n es).getD 0 0 = 0 := by
  induction es using List.reverseRecOn with
  | nil => simp [degrees, List.getD_eq_getElem?_getD]
  | append_singleton l e ih =>
    rw [degrees, List.foldl_append, List.foldl_cons, List.foldl_nil, ← degrees, countEdge]
    by_cases hc : e.1 < n ∧ e.2 < n
    · rw [if_pos hc, getD_set, if_neg (by omega), ih]
    · rw [if_neg hc, ih]

lemma getD_degrees_succ {v : ℕ} (hv : v < n) :
    (degrees M n es).getD (v + 1) 0 = (targets n es v).length % M := by
  induction es using List.reverseRecOn with
  | nil => simp [degrees, targets, List.getD_eq_getElem?_getD, hv]
  | append_singleton l e ih =>
    rw [degrees, List.foldl_append, List.foldl_cons, List.foldl_nil, ← degrees, countEdge,
      targets_append, targets_singleton]
    by_cases hc : e.1 < n ∧ e.2 < n
    · rw [if_pos hc, getD_set]
      by_cases hev : e.1 = v
      · rw [if_pos ⟨by omega, by rw [length_degrees]; omega⟩, if_pos ⟨hc.1, hc.2, hev⟩, hev, ih,
          List.length_append, List.length_singleton, Nat.mod_add_mod]
      · rw [if_neg (by omega), if_neg (fun h => hev h.2.2), List.append_nil, ih]
    · rw [if_neg hc, if_neg (fun h => hc ⟨h.1, h.2.1⟩), List.append_nil, ih]

lemma prefixSums_spec {k : ℕ} (hk : k ≤ n) :
    ((List.range k).foldl (addPrev M) (degrees M n es)).length = n + 1 ∧
      (∀ j ≤ k, ((List.range k).foldl (addPrev M) (degrees M n es)).getD j 0 = below n es j % M) ∧
      ∀ j, k < j → ((List.range k).foldl (addPrev M) (degrees M n es)).getD j 0 =
        (degrees M n es).getD j 0 := by
  induction k with
  | zero =>
    refine ⟨length_degrees, fun j hj => ?_, fun j _ => rfl⟩
    obtain rfl : j = 0 := by omega
    show (degrees M n es).getD 0 0 = below n es 0 % M
    rw [getD_degrees_zero]
    simp [below]
  | succ k ih =>
    obtain ⟨h1, h2, h3⟩ := ih (by omega)
    rw [List.range_succ, List.foldl_append, List.foldl_cons, List.foldl_nil, addPrev]
    refine ⟨by rw [List.length_set, h1], fun j hj => ?_, fun j hj => ?_⟩
    · rw [getD_set]
      split_ifs with hjk
      · rw [h3 _ (by omega), h2 _ le_rfl, getD_degrees_succ (by omega), ← hjk.1, below_succ,
          ← Nat.add_mod, Nat.add_comm]
      · exact h2 j (by rw [h1] at hjk; omega)
    · rw [getD_set, if_neg (by omega), h3 j (by omega)]

lemma getD_prefixSums {j : ℕ} (hj : j ≤ n) :
    (prefixSums M n (degrees M n es)).getD j 0 = below n es j % M :=
  (prefixSums_spec le_rfl).2.1 j hj

/-! ## The fill pass -/

/-- After the edges `pre` each cursor stands behind the slots its vertex has used. -/
structure Cursor (M n : ℕ) (es pre : List (ℕ × ℕ)) (st : Filling) : Prop where
  len : st.fill.length = n
  fill : ∀ v < n, st.fill.getD v 0 = (below n es v + (targets n pre v).length) % M
  dst : st.dst.length = below n es n % M

lemma cursor_filling : Cursor M n es [] (filling n (prefixSums M n (degrees M n es))) := by
  have hlen : (prefixSums M n (degrees M n es)).length = n + 1 := (prefixSums_spec le_rfl).1
  refine ⟨by simp [filling, hlen], fun v hv => ?_, ?_⟩
  swap
  · rw [filling, List.length_replicate, getD_prefixSums le_rfl]
  have h : (prefixSums M n (degrees M n es)).getD v 0 = below n es v % M := getD_prefixSums (by omega)
  rw [List.getD_eq_getElem?_getD] at h ⊢
  rw [filling, List.getElem?_dropLast, if_pos (by omega), h]
  simp [targets]

lemma cursor_placeEdge {pre : List (ℕ × ℕ)} {st st' : Filling} {e : ℕ × ℕ}
    (h : Cursor M n es pre st) (hs : placeEdge M n st e = some st') : Cursor M n es (pre ++ [e]) st' := by
  unfold placeEdge at hs
  by_cases hc : e.1 < n ∧ e.2 < n
  · rw [if_pos hc] at hs
    obtain rfl := Option.some.inj (Option.ite_none_right_eq_some.mp hs).2
    refine ⟨by rw [List.length_set, h.len], fun v hv => ?_, by rw [List.length_set, h.dst]⟩
    rw [getD_set, targets_append, targets_singleton]
    by_cases hev : e.1 = v
    · rw [if_pos ⟨hev, by rw [h.len]; exact hv⟩, if_pos ⟨hc.1, hc.2, hev⟩, h.fill _ hc.1, hev,
        List.length_append, List.length_singleton, Nat.mod_add_mod, Nat.add_assoc]
    · rw [if_neg (fun h => hev h.1), if_neg (fun h => hev h.2.2), List.append_nil, h.fill v hv]
  · rw [if_neg hc] at hs
    obtain rfl := Option.some.inj hs
    refine ⟨h.len, fun v hv => ?_, h.dst⟩
    rw [targets_append, targets_singleton, if_neg (fun h => hc ⟨h.1, h.2.1⟩), List.append_nil,
      h.fill v hv]

lemma cursor_foldlM (l : List (ℕ × ℕ)) {pre : List (ℕ × ℕ)} {st st' : Filling}
    (h : Cursor M n es pre st) (hs : l.foldlM (placeEdge M n) st = some st') :
    Cursor M n es (pre ++ l) st' := by
  induction l generalizing pre st with
  | nil =>
    obtain rfl : st = st' := by simpa using hs
    simpa using h
  | cons e l ih =>
    rw [List.foldlM_cons] at hs
    obtain ⟨mid, h1, h2⟩ := Option.bind_eq_some_iff.mp hs
    have := ih (cursor_placeEdge h h1) h2
    rwa [List.append_assoc] at this

/-- The edge that fills a given slot of a vertex. -/
lemma exists_split {v j : ℕ} (hj : j < (targets n es v).length) :
    ∃ pre e post, es = pre ++ e :: post ∧ (targets n pre v).length = j ∧
      e.1 < n ∧ e.2 < n ∧ e.1 = v := by
  induction es using List.reverseRecOn with
  | nil => simp [targets] at hj
  | append_singleton l e ih =>
    by_cases hl : j < (targets n l v).length
    · obtain ⟨pre, e', post, rfl, h⟩ := ih hl
      exact ⟨pre, e', post ++ [e], by simp, h⟩
    · rw [targets_append, targets_singleton] at hj
      split_ifs at hj with hc
      · rw [List.length_append, List.length_singleton] at hj
        exact ⟨l, e, [], rfl, by omega, hc⟩
      · rw [List.append_nil] at hj
        omega

/-- From `M` stored edges on, some write misses `dst`. -/
theorem build_eq_none (hM : 0 < M) (h : M ≤ inRange n es) : build M n es = none := by
  by_contra hne
  obtain ⟨a, ha⟩ := Option.ne_none_iff_exists'.mp hne
  obtain ⟨st, hst, -⟩ := Option.map_eq_some_iff.mp ha
  rw [← below_eq_inRange] at h
  have hmod : below n es n % M < M := Nat.mod_lt _ hM
  -- slot number `below n % M` is one of the slots filled, and it is the length of `dst`
  obtain ⟨v, hv, hlo, hhi⟩ := exists_block
    (show below n es n % M < below n es n by omega)
  rw [below_succ] at hhi
  obtain ⟨pre, e, post, hes, hpre, he1, he2, hev⟩ := exists_split
    (show below n es n % M - below n es v < (targets n es v).length by omega)
  have hst' : (pre ++ e :: post).foldlM (placeEdge M n) (filling n (prefixSums M n (degrees M n es))) = some st := by
    rw [← hes]
    exact hst
  rw [List.foldlM_append] at hst'
  obtain ⟨mid, hmid, hrest⟩ := Option.bind_eq_some_iff.mp hst'
  have hcur := cursor_foldlM pre cursor_filling hmid
  rw [List.foldlM_cons] at hrest
  obtain ⟨nxt, hnxt, -⟩ := Option.bind_eq_some_iff.mp hrest
  have hfill := hcur.fill v hv
  rw [List.nil_append, hpre, show below n es v + (below n es n % M - below n es v) =
    below n es n % M by omega, Nat.mod_mod] at hfill
  rw [placeEdge, if_pos ⟨he1, he2⟩, hev] at hnxt
  dsimp only at hnxt
  rw [hfill, hcur.dst, if_neg (lt_irrefl _)] at hnxt
  cases hnxt

/-- The slots used so far hold the targets met so far. -/
def Placed (n : ℕ) (es pre : List (ℕ × ℕ)) (st : Filling) : Prop :=
  ∀ v < n, ∀ i < (targets n pre v).length, st.dst[below n es v + i]? = (targets n pre v)[i]?

lemma below_add_lt {v i : ℕ} (hv : v < n) (hi : i < (targets n es v).length) :
    below n es v + i < below n es n := by
  have := below_mono n es (show v + 1 ≤ n by omega)
  rw [below_succ] at this
  omega

/-- Slots of different vertices are different. -/
lemma below_add_ne {u v i j : ℕ} (huv : u ≠ v) (hi : i < (targets n es u).length)
    (hj : j < (targets n es v).length) : below n es u + i ≠ below n es v + j := by
  rcases Nat.lt_or_gt_of_ne huv with h | h
  · have := below_mono n es (show u + 1 ≤ v by omega)
    rw [below_succ] at this
    omega
  · have := below_mono n es (show v + 1 ≤ u by omega)
    rw [below_succ] at this
    omega

lemma length_targets_pre_le {pre post : List (ℕ × ℕ)} (v : ℕ) :
    (targets n pre v).length ≤ (targets n (pre ++ post) v).length := by
  simp [targets_append]

lemma placed_step {pre post : List (ℕ × ℕ)} {e : ℕ × ℕ} {st : Filling}
    (hes : es = pre ++ e :: post) (hN : inRange n es < M) (hc : Cursor M n es pre st)
    (hp : Placed n es pre st) :
    ∃ st', placeEdge M n st e = some st' ∧ Placed n es (pre ++ [e]) st' := by
  rw [← below_eq_inRange] at hN
  by_cases he : e.1 < n ∧ e.2 < n
  · -- the cursor of `e.1` is inside its own block of slots
    have hroom : (targets n pre e.1).length < (targets n es e.1).length := by
      rw [hes, List.append_cons, targets_append, targets_append, targets_singleton,
        if_pos ⟨he.1, he.2, rfl⟩]
      simp
    have hslot := below_add_lt he.1 hroom
    have hfill := hc.fill e.1 he.1
    rw [Nat.mod_eq_of_lt (by omega)] at hfill
    have hlen := hc.dst
    rw [Nat.mod_eq_of_lt hN] at hlen
    refine ⟨_, by rw [placeEdge, if_pos he, hfill, if_pos (by omega)], ?_⟩
    intro v hv i hi
    rw [targets_append, targets_singleton] at hi ⊢
    by_cases hev : e.1 = v
    · subst hev
      rw [if_pos ⟨he.1, he.2, rfl⟩] at hi ⊢
      rw [List.length_append, List.length_singleton] at hi
      by_cases hlast : i = (targets n pre e.1).length
      · rw [hlast, List.getElem?_set_self (by omega)]
        simp
      · rw [List.getElem?_set_ne (by omega), hp _ hv i (by omega),
          List.getElem?_append_left (by omega)]
    · rw [if_neg (fun h => hev h.2.2), List.append_nil] at hi ⊢
      have hiv : i < (targets n es v).length := by
        rw [hes]
        exact lt_of_lt_of_le hi (length_targets_pre_le v)
      rw [List.getElem?_set_ne (below_add_ne hev hroom hiv), hp v hv i hi]
  · refine ⟨st, by rw [placeEdge, if_neg he], ?_⟩
    intro v hv i hi
    rw [targets_append, targets_singleton, if_neg (fun h => he ⟨h.1, h.2.1⟩), List.append_nil] at hi ⊢
    exact hp v hv i hi

lemma placed_foldlM (post : List (ℕ × ℕ)) {pre : List (ℕ × ℕ)} {st : Filling}
    (hes : es = pre ++ post) (hN : inRange n es < M) (hc : Cursor M n es pre st)
    (hp : Placed n es pre st) :
    ∃ st', post.foldlM (placeEdge M n) st = some st' ∧ Placed n es es st' ∧ Cursor M n es es st' := by
  induction post generalizing pre st with
  | nil =>
    obtain rfl : es = pre := by simpa using hes
    exact ⟨st, rfl, hp, hc⟩
  | cons e post ih =>
    obtain ⟨st', h1, h2⟩ := placed_step hes hN hc hp
    obtain ⟨st'', h3, h4⟩ := ih (by simp [hes]) (cursor_placeEdge hc h1) h2
    exact ⟨st'', by rw [List.foldlM_cons, h1]; exact h3, h4⟩

/-- Below `M` stored edges each row lists the targets of its vertex in edge order. -/
theorem build_spec (h : inRange n es < M) :
    ∃ a, build M n es = some a ∧ ∀ v < n, row a v = targets n es v := by
  obtain ⟨st, h1, h2, h3⟩ := placed_foldlM es (List.nil_append es).symm h cursor_filling
    (fun v _ i hi => by simp [targets] at hi)
  refine ⟨⟨prefixSums M n (degrees M n es), st.dst⟩, ?_, ?_⟩
  · simp only [build, h1, Option.map_some]
  intro v hv
  rw [← below_eq_inRange] at h
  have hlen := h3.dst
  have hv1 := below_mono n es (show v + 1 ≤ n by omega)
  have hv0 := below_mono n es (show v ≤ v + 1 by omega)
  rw [Nat.mod_eq_of_lt h] at hlen
  rw [row, getD_prefixSums (by omega), getD_prefixSums (by omega), Nat.mod_eq_of_lt (by omega),
    Nat.mod_eq_of_lt (by omega), show below n es (v + 1) - below n es v =
      (targets n es v).length by rw [below_succ]; omega]
  rw [below_succ] at hv1
  apply List.ext_getElem?
  intro i
  rw [List.getElem?_take, List.getElem?_drop]
  split_ifs with hi
  · exact h2 v hv i hi
  · exact (List.getElem?_eq_none (by omega)).symm

end AsmTest.Csr
