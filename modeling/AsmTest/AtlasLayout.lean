import AsmTest.Projection

/-!
# The atlas tiles the plane

Whatever the lengths of the regions, there is a cut that gives every region of a run a cell, and
so the recursion of the split never fails. What it leaves is a partition of the plane, and the walk
down its nodes finds the rectangle of a cell.
-/

namespace AsmTest.Space

open Lib

section Boundaries

/-- The halving loop keeps the quotient from growing. -/
lemma planeBoundaryLoop_le (p s total : ℕ) :
    total * 2 ^ (planeBoundaryLoop p s total).1 ≤ (planeBoundaryLoop p s total).2 * 2 ^ s := by
  induction s generalizing total with
  | zero => rw [planeBoundaryLoop]
  | succ s ih =>
    rw [planeBoundaryLoop]
    split_ifs
    · have hhalf : total ≤ 2 * (total / 2 + total % 2) := by omega
      calc total * 2 ^ (planeBoundaryLoop p s (total / 2 + total % 2)).1
          ≤ 2 * (total / 2 + total % 2) *
              2 ^ (planeBoundaryLoop p s (total / 2 + total % 2)).1 :=
            Nat.mul_le_mul_right _ hhalf
        _ = 2 * ((total / 2 + total % 2) *
              2 ^ (planeBoundaryLoop p s (total / 2 + total % 2)).1) := Nat.mul_assoc _ _ _
        _ ≤ 2 * ((planeBoundaryLoop p s (total / 2 + total % 2)).2 * 2 ^ s) :=
            Nat.mul_le_mul_left _ (ih _)
        _ = (planeBoundaryLoop p s (total / 2 + total % 2)).2 * 2 ^ (s + 1) := by ring
    · exact le_refl _

lemma planeBoundary_le {order p total : ℕ} (h : p ≤ total) :
    planeBoundary order p total ≤ 2 ^ (2 * order) := by
  rw [planeBoundary]
  split_ifs with htotal
  · exact Nat.zero_le _
  · have hloop := planeBoundaryLoop_le p (2 * order) total
    revert hloop
    obtain ⟨s, total'⟩ := planeBoundaryLoop p (2 * order) total
    intro hloop
    dsimp only at hloop ⊢
    split_ifs with hpos
    · calc u64 (p * 2 ^ s) / total' ≤ p * 2 ^ s / total' := Nat.div_le_div_right (Nat.mod_le _ _)
        _ ≤ total' * 2 ^ (2 * order) / total' :=
          Nat.div_le_div_right ((Nat.mul_le_mul_right _ h).trans hloop)
        _ = 2 ^ (2 * order) := Nat.mul_div_cancel_left _ (Nat.pos_of_ne_zero hpos)
    · exact Nat.zero_le _

/-- After the upward sweep the boundaries below the last one grow. -/
lemma foldl_raise {b : ℕ → ℕ} {top : ℕ} (hb : ∀ j, b j ≤ top) (n : ℕ) (hn : top + n < 2 ^ 64) :
    (∀ j < n, (List.range' 1 n).foldl raise b j < (List.range' 1 n).foldl raise b (j + 1)) ∧
      (∀ j, n < j → (List.range' 1 n).foldl raise b j = b j) ∧
      (List.range' 1 n).foldl raise b 0 = b 0 ∧
      ∀ j ≤ n, (List.range' 1 n).foldl raise b j ≤ top + j := by
  induction n with
  | zero =>
    refine ⟨fun j hj => absurd hj (Nat.not_lt_zero j), fun j _ => rfl, rfl, fun j hj => ?_⟩
    exact (hb j).trans (Nat.le_add_right _ _)
  | succ n ih =>
    obtain ⟨hinc, hrest, hzero, htop⟩ := ih (by omega)
    rw [List.range'_1_concat, List.foldl_append, List.foldl_cons, List.foldl_nil]
    generalize (List.range' 1 n).foldl raise b = b' at *
    have hlast : b' (n + 1) = b (n + 1) := hrest (n + 1) (Nat.lt_succ_self n)
    have hword : u64 (b' n + 1) = b' n + 1 := by
      have hle := htop n (le_refl n)
      exact u64_of_lt (by omega)
    have hstep : raise b' (1 + n) = Function.update b' (n + 1) (max (b' (n + 1)) (b' n + 1)) := by
      rw [raise, Nat.add_comm 1 n, Nat.add_sub_cancel, hword]
      split_ifs with hlt
      · rw [max_eq_right hlt.le]
      · rw [max_eq_left (Nat.le_of_not_lt hlt), Function.update_eq_self]
    rw [hstep]
    refine ⟨fun j hj => ?_, fun j hj => ?_, ?_, fun j hj => ?_⟩
    · rcases Nat.lt_succ_iff_lt_or_eq.1 hj with hj | rfl
      · rw [Function.update_of_ne (by omega), Function.update_of_ne (by omega)]
        exact hinc j hj
      · rw [Function.update_of_ne (by omega), Function.update_self]
        exact lt_max_of_lt_right (Nat.lt_succ_self _)
    · rw [Function.update_of_ne (by omega)]
      exact hrest j (by omega)
    · rw [Function.update_of_ne (by omega)]
      exact hzero
    · rcases Nat.le_succ_iff.1 hj with hj | rfl
      · rw [Function.update_of_ne (by omega)]
        exact htop j hj
      · rw [Function.update_self, hlast]
        have hle := htop n (le_refl n)
        exact max_le ((hb _).trans (Nat.le_add_right _ _)) (by omega)

/-- The boundaries grow, from zero to the last. -/
def Increasing (b : ℕ → ℕ) (nreg : ℕ) : Prop :=
  ∀ j < nreg, b j < b (j + 1)

/-- The downward sweep off the pinned top finishes the job. -/
lemma foldl_lower {b : ℕ → ℕ} {n nreg : ℕ} (hn : n < nreg) (hzero : b 0 = 0)
    (hbelow : ∀ j < n, b j < b (j + 1)) (habove : ∀ j, n < j → j < nreg → b j < b (j + 1))
    (hcells : ∀ j ≤ nreg, j ≤ b j) (hword : ∀ j ≤ nreg, b j + 1 < 2 ^ 64) :
    Increasing ((List.range' 1 n).reverse.foldl lower b) nreg ∧
      (List.range' 1 n).reverse.foldl lower b nreg = b nreg := by
  induction n generalizing b with
  | zero =>
    refine ⟨fun j hj => ?_, rfl⟩
    rcases Nat.eq_zero_or_pos j with rfl | hpos
    · have hone := hcells 1 hn
      change b 0 < b 1
      omega
    · exact habove j hpos hj
  | succ n ih =>
    rw [List.range'_1_concat, List.reverse_append, List.reverse_singleton, List.singleton_append,
      List.foldl_cons, Nat.add_comm 1 n]
    have hnext := hcells (n + 1 + 1) hn
    have hstep : lower b (n + 1) =
        Function.update b (n + 1) (min (b (n + 1)) (b (n + 1 + 1) - 1)) := by
      rw [lower, u64_of_lt (hword (n + 1) hn.le),
        sub64_of_le (show 1 ≤ b (n + 1 + 1) by omega) (by have := hword (n + 1 + 1) hn; omega)]
      split_ifs with hlt
      · rw [min_eq_right (by omega)]
      · rw [min_eq_left (by omega), Function.update_eq_self]
    have hself : lower b (n + 1) (n + 1) = min (b (n + 1)) (b (n + 1 + 1) - 1) := by
      rw [hstep, Function.update_self]
    have hother : ∀ j, j ≠ n + 1 → lower b (n + 1) j = b j := by
      intro j hj
      rw [hstep, Function.update_of_ne hj]
    have hcell := hcells (n + 1) hn.le
    obtain ⟨hinc, htop⟩ := @ih (lower b (n + 1)) (by omega) (by rw [hother 0 (by omega), hzero])
      (fun j hj => by
        rw [hother j (by omega), hother (j + 1) (by omega)]
        exact hbelow j (by omega))
      (fun j hj hj' => by
        rw [hother (j + 1) (by omega)]
        rcases Nat.lt_or_ge (n + 1) j with hlt | hge
        · rw [hother j (by omega)]
          exact habove j hlt hj'
        · obtain rfl : j = n + 1 := by omega
          rw [hself]
          omega)
      (fun j hj => by
        by_cases hj' : j = n + 1
        · rw [hj', hself]
          omega
        · rw [hother j hj']
          exact hcells j hj)
      (fun j hj => by
        by_cases hj' : j = n + 1
        · rw [hj', hself]
          have := hword (n + 1) hn.le
          omega
        · rw [hother j hj']
          exact hword j hj)
    exact ⟨hinc, htop.trans (hother nreg (by omega))⟩

lemma Increasing.lt {b : ℕ → ℕ} {nreg : ℕ} (h : Increasing b nreg) {i j : ℕ} (hij : i < j)
    (hj : j ≤ nreg) : b i < b j := by
  induction j, hij using Nat.le_induction with
  | base => exact h i hj
  | succ j hij ih => exact (ih (by omega)).trans (h j hj)

end Boundaries

section Scan

variable {b : ℕ → ℕ} {lo hi across along : ℕ}

/-- A side of the plane has at most this many cells. -/
def maxSide : ℕ := 2 ^ 12

lemma maxSide_lt : maxSide < 2 ^ 32 := by
  decide

lemma columns_eq {n : ℕ} (hacross : across ≤ maxSide) (hn : n ≤ maxSide * maxSide) :
    columns across n = (n + across - 1) / across := by
  rw [maxSide] at *
  have hle : (n + across - 1) / across ≤ n + across - 1 := Nat.div_le_self _ _
  rw [columns, u64_of_lt (by omega), u32_of_lt (by omega)]

/-- The columns hold a cell for every region of the run. -/
lemma le_columns_mul {n : ℕ} (hpos : 0 < across) (hacross : across ≤ maxSide)
    (hn : n ≤ maxSide * maxSide) : n ≤ columns across n * across := by
  rw [columns_eq hacross hn]
  have hdiv := Nat.lt_div_mul_add (a := n + across - 1) hpos
  omega

/-- A split that this rectangle can realise -/
def Feasible (lo hi across along i : ℕ) : Prop :=
  lo < i ∧ i < hi ∧ columns across (i - lo) + columns across (hi - i) ≤ along

/-- There is always one: a full column on the left. -/
lemma exists_feasible (hpos : 0 < across) (hle : across ≤ along) (hacross : across ≤ maxSide)
    (htwo : 1 < hi - lo) (hcells : hi - lo ≤ across * along) (hmax : hi - lo ≤ maxSide * maxSide) :
    ∃ i, Feasible lo hi across along i := by
  have hcol : ∀ n ≤ hi - lo, columns across n = (n + across - 1) / across :=
    fun n hn => columns_eq hacross (hn.trans hmax)
  rcases Nat.lt_or_ge across (hi - lo) with hlt | hge
  · refine ⟨lo + across, by omega, by omega, ?_⟩
    rw [hcol _ (by omega), hcol _ (by omega), show lo + across - lo + across - 1 =
      across - 1 + across by omega, show hi - (lo + across) + across - 1 = hi - lo - 1 by omega,
      Nat.add_div_right _ hpos, Nat.div_eq_of_lt (by omega)]
    have hdiv : (hi - lo - 1) / across < along := by
      rw [Nat.div_lt_iff_lt_mul hpos, Nat.mul_comm]
      omega
    omega
  · refine ⟨lo + 1, by omega, by omega, ?_⟩
    have hone : ∀ n, 0 < n → n ≤ across → (n + across - 1) / across = 1 := by
      intro n hn hle
      rw [show n + across - 1 = n - 1 + across by omega, Nat.add_div_right _ hpos,
        Nat.div_eq_of_lt (by omega)]
    rw [hcol _ (by omega), hcol _ (by omega), hone _ (by omega) (by omega),
      hone _ (by omega) (by omega)]
    omega

/-- What the scan has kept can be realised. -/
structure Chosen (lo hi across along : ℕ) (s : Scan) : Prop where
  feasible : Feasible lo hi across along s.mid
  needL : s.needL = columns across (s.mid - lo)
  needR : s.needR = columns across (hi - s.mid)

lemma foldl_scanStep (l : List ℕ) (hl : ∀ i ∈ l, lo < i ∧ i < hi)
    (hd : ∀ i ∈ l, imbalance (sub64 (b hi) (b lo)) (sub64 (b i) (b lo)) < u64Max) (s : Scan)
    (hs : s.best ≠ u64Max → Chosen lo hi across along s)
    (hsome : s.best ≠ u64Max ∨ ∃ i ∈ l, Feasible lo hi across along i) :
    (l.foldl (scanStep b lo hi across along) s).best ≠ u64Max ∧
      Chosen lo hi across along (l.foldl (scanStep b lo hi across along) s) := by
  induction l generalizing s with
  | nil =>
    rcases hsome with hbest | ⟨i, hi, -⟩
    · exact ⟨hbest, hs hbest⟩
    · cases hi
  | cons i l ih =>
    obtain ⟨⟨hlo, hhi⟩, hl⟩ := List.forall_mem_cons.1 hl
    obtain ⟨hdi, hd⟩ := List.forall_mem_cons.1 hd
    rw [List.foldl_cons]
    by_cases hfit : along < columns across (i - lo) + columns across (hi - i)
    · have hskip : scanStep b lo hi across along s i = s := by
        rw [scanStep]
        exact if_pos hfit
      rw [hskip]
      refine ih hl hd s hs ?_
      rcases hsome with hbest | ⟨j, hj, hfeas⟩
      · exact .inl hbest
      · rcases List.mem_cons.1 hj with rfl | hj
        · exact absurd hfeas.2.2 (Nat.not_le_of_lt hfit)
        · exact .inr ⟨j, hj, hfeas⟩
    · have hfeas : Feasible lo hi across along i := ⟨hlo, hhi, Nat.le_of_not_lt hfit⟩
      by_cases hlt : imbalance (sub64 (b hi) (b lo)) (sub64 (b i) (b lo)) < s.best
      · have htake : scanStep b lo hi across along s i =
            ⟨i, imbalance (sub64 (b hi) (b lo)) (sub64 (b i) (b lo)), columns across (i - lo),
              columns across (hi - i)⟩ := by
          rw [scanStep]
          dsimp only
          rw [if_neg hfit, if_pos hlt]
        rw [htake]
        exact ih hl hd _ (fun _ => ⟨hfeas, rfl, rfl⟩) (.inl hdi.ne)
      · have hkeep : scanStep b lo hi across along s i = s := by
          rw [scanStep]
          dsimp only
          rw [if_neg hfit, if_neg hlt]
        rw [hkeep]
        exact ih hl hd s hs (.inl fun h => hlt (h ▸ hdi))

lemma scan_spec {nreg : ℕ} (hb : Increasing b nreg) (hhi : hi ≤ nreg)
    (htop : b hi ≤ maxSide * maxSide) (hsome : ∃ i, Feasible lo hi across along i) :
    (scan b lo hi across along).best ≠ u64Max ∧
      Chosen lo hi across along (scan b lo hi across along) := by
  have hmem : ∀ i ∈ List.range' (lo + 1) (hi - (lo + 1)), lo < i ∧ i < hi := by
    intro i h
    rw [List.mem_range'_1] at h
    omega
  refine foldl_scanStep _ hmem (fun i h => ?_) {} (fun h => absurd rfl h) (.inr ?_)
  · obtain ⟨hlo, hhi'⟩ := hmem i h
    have hleft := hb.lt hlo (hhi'.le.trans hhi)
    have hright := hb.lt hhi' hhi
    rw [maxSide] at htop
    rw [imbalance, sub64_of_le (by omega) (by omega), sub64_of_le (by omega) (by omega),
      u64_of_lt (by omega), u64Max]
    split_ifs
    · rw [sub64_of_le (by omega) (by omega)]
      omega
    · rw [sub64_of_le (by omega) (by omega)]
      omega
  · obtain ⟨i, hfeas⟩ := hsome
    refine ⟨i, ?_, hfeas⟩
    rw [List.mem_range'_1]
    have := hfeas.1
    have := hfeas.2.1
    omega

end Scan

section Encoding

/-- A reference into the nodes from `start` on stands for a tree. -/
def Encodes (nodes : List AtlasNode) (start : ℕ) : ℤ → Bsp ℕ ℕ → Prop
  | ref, .leaf i => ref = -(i : ℤ) - 1
  | ref, .node inX cut lo hi =>
    ∃ self nd, start ≤ self ∧ ref = (self : ℕ) ∧ nodes[self]? = some nd ∧
      nd.axis = (if inX then 0 else 1) ∧ nd.cut = cut ∧
      Encodes nodes start nd.lo lo ∧ Encodes nodes start nd.hi hi

lemma Encodes.mono {nodes nodes' : List AtlasNode} {start start' : ℕ} {ref : ℤ} {t : Bsp ℕ ℕ}
    (h : Encodes nodes start ref t) (hstart : start' ≤ start)
    (hkept : ∀ (i : ℕ) nd, start ≤ i → nodes[i]? = some nd → nodes'[i]? = some nd) :
    Encodes nodes' start' ref t := by
  induction t generalizing ref with
  | leaf i => exact h
  | node inX cut lo hi ihlo ihhi =>
    obtain ⟨self, nd, hself, href, hnd, haxis, hcut, hlo, hhi⟩ := h
    exact ⟨self, nd, hstart.trans hself, href, hkept self nd hself hnd, haxis, hcut, ihlo hlo,
      ihhi hhi⟩

/-- The walk of `unproject` is the walk down the tree. -/
lemma descend_encodes {nodes : List AtlasNode} {start : ℕ} {ref : ℤ} {t : Bsp ℕ ℕ} (x y : ℕ)
    (h : Encodes nodes start ref t) (href : 0 ≤ ref) {fuel : ℕ} (hfuel : t.depth ≤ fuel) :
    descend nodes x y fuel ref.toNat = .ok (t.find x y) := by
  induction t generalizing ref fuel with
  | leaf i =>
    change ref = -(i : ℤ) - 1 at h
    omega
  | node inX cut lo hi ihlo ihhi =>
    obtain ⟨self, nd, -, rfl, hnd, haxis, rfl, hlo, hhi⟩ := h
    rw [Bsp.depth] at hfuel
    obtain ⟨fuel, rfl⟩ : ∃ f, fuel = f + 1 := ⟨fuel - 1, by omega⟩
    have hcoord : (if nd.axis = 0 then x else y) = coord inX x y := by
      rw [haxis, coord]
      cases inX <;> rfl
    have hchild : ∀ {c : Bsp ℕ ℕ} {r : ℤ}, Encodes nodes start r c →
        (0 ≤ r → descend nodes x y fuel r.toNat = .ok (c.find x y)) →
        (if r < 0 then .ok (-(r + 1)).toNat else descend nodes x y fuel r.toNat) =
          (.ok (c.find x y) : Except Fault ℕ) := by
      intro c r hc hstep
      split_ifs with hneg
      · cases c with
        | leaf i =>
          change r = -(i : ℤ) - 1 at hc
          rw [Bsp.find]
          exact congrArg Except.ok (by omega)
        | node inX cut lo hi =>
          obtain ⟨self, nd, -, rfl, -⟩ := hc
          omega
      · exact hstep (by omega)
    rw [Int.toNat_natCast, descend, hnd]
    dsimp only
    rw [hcoord, Bsp.find]
    by_cases hlt : coord inX x y < nd.cut
    · rw [if_pos hlt, if_pos hlt]
      exact hchild hlo fun h => ihlo hlo h (by omega)
    · rw [if_neg hlt, if_neg hlt]
      exact hchild hhi fun h => ihhi hhi h (by omega)

end Encoding

section Split

variable {b : ℕ → ℕ} {nreg : ℕ}

/-- A rectangle of the plane -/
structure RectOk (r : AtlasRect) : Prop where
  x : r.x0 ≤ r.x1
  y : r.y0 ≤ r.y1
  right : r.x1 ≤ maxSide
  bottom : r.y1 ≤ maxSide

/-- What a split leaves behind: the rectangles of its run are the pieces of a tree, the tree is in
the nodes, and nothing else has changed. -/
structure Laid (lo hi : ℕ) (r : AtlasRect) (rects : List AtlasRect) (nodes : List AtlasNode)
    (ref : ℤ) (rects' : List AtlasRect) (nodes' : List AtlasNode) (t : Bsp ℕ ℕ) : Prop where
  fits : t.Fits r
  names : (t.pieces r).map Prod.fst = List.range' lo (hi - lo)
  depth : t.depth < hi - lo
  placed : ∀ p ∈ t.pieces r, rects'[p.1]? = some p.2
  length : rects'.length = rects.length
  frame : ∀ i : ℕ, i < lo ∨ hi ≤ i → rects'[i]? = rects[i]?
  grown : nodes.length ≤ nodes'.length
  kept : ∀ (i : ℕ) nd, nodes[i]? = some nd → nodes'[i]? = some nd
  encodes : Encodes nodes' nodes.length ref t
  root : 1 < hi - lo → ref = (nodes.length : ℕ)

/-- The rectangle of a single region -/
lemma laid_leaf {lo : ℕ} {r : AtlasRect} {rects : List AtlasRect} (nodes : List AtlasNode)
    (hr : r.Proper) (hlo : lo < rects.length) :
    Laid lo (lo + 1) r rects nodes (-(lo : ℤ) - 1) (rects.set lo r) nodes (.leaf lo) where
  fits := hr
  names := by
    rw [Nat.add_sub_cancel_left]
    rfl
  depth := by
    rw [Nat.add_sub_cancel_left]
    exact Nat.zero_lt_one
  placed p hp := by
    rw [List.mem_singleton.1 hp, List.getElem?_set_self hlo]
  length := List.length_set
  frame i hi := List.getElem?_set_ne (by omega)
  grown := le_refl _
  kept i nd h := h
  encodes := rfl
  root h := by omega

/-- Two runs side by side, under a node whose slot was taken first -/
lemma Laid.node {lo mid hi : ℕ} {r : AtlasRect} {inX : Bool} {cut : ℕ}
    {rects rects₁ rects₂ : List AtlasRect} {nodes nodes₁ nodes₂ : List AtlasNode} {ndLo ndHi : ℤ}
    {t₁ t₂ : Bsp ℕ ℕ} {slot : AtlasNode} (hlo : lo < mid) (hhi : mid < hi)
    (hcut : r.Within inX cut)
    (h₁ : Laid lo mid (r.cut inX cut).1 rects (nodes ++ [slot]) ndLo rects₁ nodes₁ t₁)
    (h₂ : Laid mid hi (r.cut inX cut).2 rects₁ nodes₁ ndHi rects₂ nodes₂ t₂) :
    Laid lo hi r rects nodes (nodes.length : ℕ) rects₂
      (nodes₂.set nodes.length ⟨cut, if inX then 0 else 1, ndLo, ndHi⟩)
      (.node inX cut t₁ t₂) := by
  have hgrown₁ := h₁.grown
  have hgrown₂ := h₂.grown
  rw [List.length_append, List.length_singleton] at hgrown₁
  have hset : ∀ (i : ℕ) nd, i ≠ nodes.length → nodes₂[i]? = some nd →
      (nodes₂.set nodes.length ⟨cut, if inX then 0 else 1, ndLo, ndHi⟩)[i]? = some nd := by
    intro i nd hi h
    rw [List.getElem?_set_ne (Ne.symm hi), h]
  refine ⟨⟨hcut, h₁.fits, h₂.fits⟩, ?_, ?_, fun p hp => ?_, h₂.length.trans h₁.length,
    fun i hi' => ?_, ?_, fun i nd h => ?_, ?_, fun _ => rfl⟩
  · rw [Bsp.pieces, List.map_append, h₁.names, h₂.names]
    have hmid : lo + 1 * (mid - lo) = mid := by omega
    have hlen : hi - lo = mid - lo + (hi - mid) := by omega
    rw [hlen, ← List.range'_append, hmid]
  · have hd₁ := h₁.depth
    have hd₂ := h₂.depth
    rw [Bsp.depth]
    omega
  · rcases List.mem_append.1 hp with hp | hp
    · rw [h₂.frame, h₁.placed p hp]
      have hmem : p.1 ∈ (t₁.pieces (r.cut inX cut).1).map Prod.fst := List.mem_map_of_mem hp
      rw [h₁.names, List.mem_range'_1] at hmem
      omega
    · exact h₂.placed p hp
  · rw [h₂.frame i (by omega), h₁.frame i (by omega)]
  · rw [List.length_set]
    omega
  · have hlt : i < nodes.length := (List.getElem?_eq_some_iff.1 h).1
    refine hset i nd hlt.ne (h₂.kept i nd (h₁.kept i nd ?_))
    rw [List.getElem?_append_left hlt, h]
  · refine ⟨nodes.length, _, le_refl _, rfl, List.getElem?_set_self (by omega), rfl, rfl, ?_, ?_⟩
    · refine h₁.encodes.mono (by simp) fun i nd hi h => hset i nd ?_ (h₂.kept i nd h)
      rw [List.length_append, List.length_singleton] at hi
      omega
    · exact h₂.encodes.mono (by omega) fun i nd hi h => hset i nd (by omega) h

def area (r : AtlasRect) : ℕ :=
  (r.x1 - r.x0) * (r.y1 - r.y0)

/-- Cells in one column of the cut, and the columns there are -/
def acrossOf (r : AtlasRect) (inX : Bool) : ℕ :=
  if inX then r.y1 - r.y0 else r.x1 - r.x0

def alongOf (r : AtlasRect) (inX : Bool) : ℕ :=
  if inX then r.x1 - r.x0 else r.y1 - r.y0

lemma area_eq (r : AtlasRect) (inX : Bool) : area r = acrossOf r inX * alongOf r inX := by
  cases inX with
  | false => rfl
  | true => exact Nat.mul_comm _ _

lemma RectOk.acrossOf_le {r : AtlasRect} (h : RectOk r) (inX : Bool) :
    acrossOf r inX ≤ maxSide := by
  cases inX with
  | false => exact (Nat.sub_le _ _).trans h.right
  | true => exact (Nat.sub_le _ _).trans h.bottom

lemma RectOk.alongOf_le {r : AtlasRect} (h : RectOk r) (inX : Bool) : alongOf r inX ≤ maxSide := by
  cases inX with
  | false => exact (Nat.sub_le _ _).trans h.bottom
  | true => exact (Nat.sub_le _ _).trans h.right

lemma RectOk.area_le {r : AtlasRect} (h : RectOk r) : area r ≤ maxSide * maxSide := by
  rw [area_eq r true]
  exact Nat.mul_le_mul (h.acrossOf_le true) (h.alongOf_le true)

/-- A cut on a cell boundary shares out the columns. -/
lemma RectOk.cut {r : AtlasRect} (h : RectOk r) (inX : Bool) {cut : ℕ}
    (hcut : cut ≤ alongOf r inX) :
    r.Within inX ((if inX then r.x0 else r.y0) + cut) ∧
      RectOk (r.cut inX ((if inX then r.x0 else r.y0) + cut)).1 ∧
      RectOk (r.cut inX ((if inX then r.x0 else r.y0) + cut)).2 ∧
      area (r.cut inX ((if inX then r.x0 else r.y0) + cut)).1 = cut * acrossOf r inX ∧
      area (r.cut inX ((if inX then r.x0 else r.y0) + cut)).2 =
        (alongOf r inX - cut) * acrossOf r inX := by
  obtain ⟨hx, hy, hright, hbottom⟩ := h
  cases inX with
  | false =>
    simp only [alongOf, acrossOf, Box.Within, Box.cut, area, Bool.false_eq_true, if_false] at *
    refine ⟨by omega, ⟨hx, by dsimp only; omega, hright, by dsimp only; omega⟩,
      ⟨hx, by dsimp only; omega, hright, hbottom⟩, ?_, ?_⟩
    · rw [Nat.add_sub_cancel_left, Nat.mul_comm]
    · rw [Nat.sub_add_eq, Nat.mul_comm]
  | true =>
    simp only [alongOf, acrossOf, Box.Within, Box.cut, area, if_true] at *
    refine ⟨by omega, ⟨by dsimp only; omega, hy, by dsimp only; omega, hbottom⟩,
      ⟨by dsimp only; omega, hy, hright, hbottom⟩, ?_, ?_⟩
    · rw [Nat.add_sub_cancel_left]
    · rw [Nat.sub_add_eq]

lemma RectOk.sub_eq {r : AtlasRect} (h : RectOk r) :
    sub32 r.x1 r.x0 = alongOf r true ∧ sub32 r.y1 r.y0 = acrossOf r true := by
  obtain ⟨hx, hy, hright, hbottom⟩ := h
  rw [maxSide] at hright hbottom
  exact ⟨sub32_of_le hx (by omega), sub32_of_le hy (by omega)⟩

lemma RectOk.u64_area {r : AtlasRect} (h : RectOk r) :
    u64 (alongOf r true * acrossOf r true) = area r := by
  have hmax := h.area_le
  rw [Nat.mul_comm, ← area_eq]
  rw [maxSide] at hmax
  exact u64_of_lt (by omega)

lemma RectOk.u32_pos {r : AtlasRect} (h : RectOk r) (inX : Bool) {cut : ℕ}
    (hcut : cut ≤ alongOf r inX) :
    u32 ((if inX then r.x0 else r.y0) + cut) = (if inX then r.x0 else r.y0) + cut := by
  obtain ⟨hx, hy, hright, hbottom⟩ := h
  rw [maxSide] at hright hbottom
  refine u32_of_lt ?_
  cases inX with
  | false =>
    change cut ≤ r.y1 - r.y0 at hcut
    change r.y0 + cut < 2 ^ 32
    omega
  | true =>
    change cut ≤ r.x1 - r.x0 at hcut
    change r.x0 + cut < 2 ^ 32
    omega

/-- The cut of a run: both sides have a cell for every region of theirs. -/
structure GoodCut (r : AtlasRect) (lo hi mid : ℕ) (inX : Bool) (pos : ℕ) : Prop where
  left : lo < mid
  right : mid < hi
  within : r.Within inX pos
  ok₁ : RectOk (r.cut inX pos).1
  ok₂ : RectOk (r.cut inX pos).2
  cells₁ : mid - lo ≤ area (r.cut inX pos).1
  cells₂ : hi - mid ≤ area (r.cut inX pos).2

/-- A cut that leaves the columns that the scan asked for is good. -/
lemma Chosen.goodCut {r : AtlasRect} {inX : Bool} {lo hi cut : ℕ} {s : Scan} (hr : RectOk r)
    (h : Chosen lo hi (acrossOf r inX) (alongOf r inX) s) (hpos : 0 < acrossOf r inX)
    (hrun : hi - lo ≤ maxSide * maxSide) (hcutL : s.needL ≤ cut)
    (hcutR : cut ≤ alongOf r inX - s.needR) :
    GoodCut r lo hi s.mid inX ((if inX then r.x0 else r.y0) + cut) := by
  obtain ⟨⟨hlo, hhi, hfit⟩, hneedL, hneedR⟩ := h
  obtain ⟨hwithin, hok₁, hok₂, harea₁, harea₂⟩ := hr.cut inX (hcutR.trans (Nat.sub_le _ _))
  refine ⟨hlo, hhi, hwithin, hok₁, hok₂, ?_, ?_⟩
  · rw [harea₁]
    refine (le_columns_mul hpos (hr.acrossOf_le inX) (by omega)).trans ?_
    rw [← hneedL]
    exact Nat.mul_le_mul_right _ hcutL
  · rw [harea₂]
    refine (le_columns_mul hpos (hr.acrossOf_le inX) (by omega)).trans ?_
    rw [← hneedR]
    rw [← hneedL, ← hneedR] at hfit
    exact Nat.mul_le_mul_right _ (by omega)

/-- One level of the recursion: some good cut is made. -/
lemma splitRect_node (hb : Increasing b nreg) (htop : b nreg ≤ maxSide * maxSide) (fuel : ℕ)
    {lo hi : ℕ} {r : AtlasRect} (rects : List AtlasRect) (nodes : List AtlasNode)
    (htwo : 1 < hi - lo) (hhi : hi ≤ nreg) (hr : RectOk r) (hcells : hi - lo ≤ area r) :
    ∃ mid inX pos, GoodCut r lo hi mid inX pos ∧
      splitRect b (fuel + 1) lo hi r rects nodes =
        match splitRect b fuel lo mid (r.cut inX pos).1 rects (nodes ++ [({} : AtlasNode)]) with
        | .error e => .error e
        | .ok none => .ok none
        | .ok (some (ndLo, rects, nodes')) =>
          match splitRect b fuel mid hi (r.cut inX pos).2 rects nodes' with
          | .error e => .error e
          | .ok none => .ok none
          | .ok (some (ndHi, rects, nodes')) =>
            .ok (some ((nodes.length : ℕ), rects,
              nodes'.set nodes.length ⟨pos, if inX then 0 else 1, ndLo, ndHi⟩)) := by
  have hmax := hr.area_le
  obtain ⟨hw, hh⟩ := hr.sub_eq
  -- the longer side is cut
  obtain ⟨inX, hinX⟩ : ∃ inX, decide (acrossOf r true ≤ alongOf r true) = inX := ⟨_, rfl⟩
  have hacross : (if inX = true then acrossOf r true else alongOf r true) = acrossOf r inX := by
    cases inX <;> rfl
  have halong : (if inX = true then alongOf r true else acrossOf r true) = alongOf r inX := by
    cases inX <;> rfl
  have hlonger : acrossOf r inX ≤ alongOf r inX := by
    cases inX with
    | false => exact (Nat.lt_of_not_le (of_decide_eq_false hinX)).le
    | true => exact of_decide_eq_true hinX
  rw [area_eq r inX] at hmax
  have hcells' : hi - lo ≤ acrossOf r inX * alongOf r inX := area_eq r inX ▸ hcells
  have hpos : 0 < acrossOf r inX := by
    rcases Nat.eq_zero_or_pos (acrossOf r inX) with hzero | hpos
    · rw [hzero, Nat.zero_mul] at hcells'
      omega
    · exact hpos
  have hthi : b hi ≤ maxSide * maxSide := by
    rcases Nat.eq_or_lt_of_le hhi with rfl | hlt
    · exact htop
    · exact (hb.lt hlt (le_refl _)).le.trans htop
  obtain ⟨hbest, hchosen⟩ := scan_spec hb hhi hthi
    (exists_feasible hpos hlonger (hr.acrossOf_le inX) htwo hcells' (hcells'.trans hmax))
  have hspan : sub64 (b hi) (b lo) ≠ 0 := by
    have hlt := hb.lt (show lo < hi by omega) hhi
    rw [maxSide] at hthi
    rw [sub64_of_le hlt.le (by omega)]
    omega
  rw [splitRect]
  dsimp only
  rw [hw, hh, hr.u64_area, if_neg (Nat.not_lt.2 hcells), if_neg htwo.ne', hinX, hacross, halong,
    if_neg hpos.ne', if_neg hbest, if_neg hspan]
  generalize scan b lo hi (acrossOf r inX) (alongOf r inX) = s at *
  have hfit := hchosen.feasible.2.2
  rw [← hchosen.needL, ← hchosen.needR] at hfit
  have hneed : s.needL ≤ alongOf r inX - s.needR := Nat.le_sub_of_add_le hfit
  have hsub : sub32 (alongOf r inX) s.needR = alongOf r inX - s.needR :=
    sub32_of_le ((Nat.le_add_left _ _).trans hfit) ((hr.alongOf_le inX).trans_lt maxSide_lt)
  rw [hsub]
  obtain ⟨cut, hcut⟩ : ∃ cut, min (max (u32 (u64 (alongOf r inX * sub64 (b s.mid) (b lo) +
      sub64 (b hi) (b lo) / 2) / sub64 (b hi) (b lo))) s.needL)
      (alongOf r inX - s.needR) = cut := ⟨_, rfl⟩
  have hcutL : s.needL ≤ cut := by
    rw [← hcut]
    exact le_min (le_max_right _ _) hneed
  have hcutR : cut ≤ alongOf r inX - s.needR := by
    rw [← hcut]
    exact min_le_right _ _
  have hword := hr.u32_pos inX (hcutR.trans (Nat.sub_le _ _))
  rw [hcut, hword]
  exact ⟨s.mid, inX, _, hchosen.goodCut hr hpos (hcells'.trans hmax) hcutL hcutR, rfl⟩

/-- The split succeeds whenever there is a cell for every region. -/
lemma splitRect_spec (hb : Increasing b nreg) (htop : b nreg ≤ maxSide * maxSide) (fuel : ℕ)
    {lo hi : ℕ} {r : AtlasRect} {rects : List AtlasRect} {nodes : List AtlasNode} (hlo : lo < hi)
    (hhi : hi ≤ nreg) (hfuel : hi - lo ≤ fuel) (hr : RectOk r) (hcells : hi - lo ≤ area r)
    (hlen : hi ≤ rects.length) :
    ∃ ref rects' nodes' t,
      splitRect b fuel lo hi r rects nodes = .ok (some (ref, rects', nodes')) ∧
      Laid lo hi r rects nodes ref rects' nodes' t := by
  induction fuel generalizing lo hi r rects nodes with
  | zero => omega
  | succ fuel ih =>
    by_cases hone : hi - lo = 1
    · obtain rfl : hi = lo + 1 := by omega
      obtain ⟨hw, hh⟩ := hr.sub_eq
      have hproper : r.Proper := by
        rw [hone, area] at hcells
        have hpos := Nat.pos_of_mul_pos_right (Nat.lt_of_lt_of_le Nat.zero_lt_one hcells)
        have hpos' := Nat.pos_of_mul_pos_left (Nat.lt_of_lt_of_le Nat.zero_lt_one hcells)
        exact ⟨by omega, by omega⟩
      rw [splitRect]
      dsimp only
      rw [hw, hh, hr.u64_area, if_neg (Nat.not_lt.2 hcells), if_pos hone]
      exact ⟨_, _, _, _, rfl, laid_leaf nodes hproper hlen⟩
    · obtain ⟨mid, inX, pos, hcut, hsplit⟩ := splitRect_node hb htop fuel rects nodes
        (show 1 < hi - lo by omega) hhi hr hcells
      obtain ⟨hmidlo, hmidhi, hwithin, hok₁, hok₂, hcells₁, hcells₂⟩ := hcut
      obtain ⟨ndLo, rects₁, nodes₁, t₁, hrun₁, hlaid₁⟩ :=
        @ih lo mid _ rects (nodes ++ [({} : AtlasNode)]) hmidlo (by omega) (by omega) hok₁ hcells₁
          (by omega)
      have hlen₁ := hlaid₁.length
      obtain ⟨ndHi, rects₂, nodes₂, t₂, hrun₂, hlaid₂⟩ :=
        @ih mid hi _ rects₁ nodes₁ hmidhi hhi (by omega) hok₂ hcells₂ (by omega)
      rw [hsplit, hrun₁]
      dsimp only
      rw [hrun₂]
      exact ⟨_, _, _, _, rfl, Laid.node hmidlo hmidhi hwithin hlaid₁ hlaid₂⟩

end Split

section Rebuild

/-- The bytes of all regions -/
def Projection.bytes (p : Projection) : ℕ :=
  (p.regions.map Region.len).sum

/-- A projection as `buildProjection` sets it up, whatever its layout -/
structure Projection.Built (p : Projection) : Prop where
  order_le : p.order ≤ 12
  domainOff : p.domainOff = prefixSums 0 p.regions

lemma getLast?_prefixSums (rs : List Region) {t : ℕ}
    (h : t + (rs.map Region.len).sum < 2 ^ 64) :
    (prefixSums t rs).getLast? = some (t + (rs.map Region.len).sum) := by
  induction rs generalizing t with
  | nil => rfl
  | cons r rs ih =>
    rw [List.map_cons, List.sum_cons] at h ⊢
    have hword : u64 (t + r.len) = t + r.len := u64_of_lt (by omega)
    rw [prefixSums, hword, List.getLast?_cons, ih (by omega), Option.getD_some, Nat.add_assoc]

lemma le_of_mem_prefixSums (rs : List Region) {t x : ℕ}
    (h : t + (rs.map Region.len).sum < 2 ^ 64) (hx : x ∈ prefixSums t rs) :
    x ≤ t + (rs.map Region.len).sum := by
  induction rs generalizing t with
  | nil =>
    rw [List.mem_singleton.1 hx]
    exact Nat.le_add_right _ _
  | cons r rs ih =>
    rw [List.map_cons, List.sum_cons] at h ⊢
    have hword : u64 (t + r.len) = t + r.len := u64_of_lt (by omega)
    rw [prefixSums, hword] at hx
    rcases List.mem_cons.1 hx with rfl | hx
    · exact Nat.le_add_right _ _
    · have := ih (show t + r.len + (rs.map Region.len).sum < 2 ^ 64 by omega) hx
      omega

namespace Projection.Built

variable {p : Projection}

lemma total_eq (h : p.Built) (hmax : p.bytes ≤ 2 ^ 63) : p.total = p.bytes := by
  rw [bytes] at hmax
  rw [total, h.domainOff, getLast?_prefixSums p.regions (by omega), Option.getD_some, Nat.zero_add,
    bytes]

lemma getD_domainOff_le (h : p.Built) (hmax : p.bytes ≤ 2 ^ 63) (i : ℕ) :
    p.domainOff.getD i 0 ≤ p.total := by
  rw [h.total_eq hmax, List.getD_eq_getElem?_getD]
  cases hi : p.domainOff[i]? with
  | none => exact Nat.zero_le _
  | some x =>
    have hmem := List.mem_of_getElem? hi
    rw [bytes] at hmax ⊢
    rw [h.domainOff] at hmem
    have := le_of_mem_prefixSums p.regions (by omega) hmem
    rw [Option.getD_some]
    omega

lemma side_eq (h : p.Built) : p.side = 2 ^ p.order ∧ p.side ≤ maxSide := by
  have hle : 2 ^ p.order ≤ 2 ^ 12 := Nat.pow_le_pow_right (by decide) h.order_le
  have heq : p.side = 2 ^ p.order := u32_of_lt (by omega)
  exact ⟨heq, heq ▸ hle⟩

lemma plane_eq (h : p.Built) : u64 (p.side * p.side) = 4 ^ p.order ∧
    4 ^ p.order ≤ maxSide * maxSide := by
  obtain ⟨heq, hle⟩ := h.side_eq
  have hmul : p.side * p.side = 4 ^ p.order := by
    rw [heq, ← Nat.mul_pow]
  have hplane : 4 ^ p.order ≤ maxSide * maxSide := hmul ▸ Nat.mul_le_mul hle hle
  rw [hmul]
  refine ⟨u64_of_lt ?_, hplane⟩
  rw [maxSide] at hplane
  omega

/-- The boundaries grow by a cell at least, up to the pinned plane. -/
lemma boundaries_spec (h : p.Built) (hmax : p.bytes ≤ 2 ^ 63) (hne : p.regions ≠ [])
    (hfit : p.regions.length ≤ 4 ^ p.order) :
    Increasing (boundaries p (4 ^ p.order)) p.regions.length ∧
      boundaries p (4 ^ p.order) p.regions.length = 4 ^ p.order := by
  have hnreg : 0 < p.regions.length := List.length_pos_of_ne_nil hne
  have hplane := h.plane_eq.2
  rw [maxSide] at hplane
  rw [boundaries]
  generalize hb₀ : (fun i =>
    if i = p.regions.length then 4 ^ p.order
    else if 1 ≤ i ∧ i < p.regions.length then
      planeBoundary p.order (p.domainOff.getD i 0) p.total
    else 0) = b₀
  have htop : ∀ j, b₀ j ≤ 4 ^ p.order := by
    intro j
    rw [← hb₀]
    dsimp only
    split_ifs
    · exact le_refl _
    · have hle := @planeBoundary_le p.order _ _ (h.getD_domainOff_le hmax j)
      rwa [Nat.pow_mul] at hle
    · exact Nat.zero_le _
  have hzero₀ : b₀ 0 = 0 := by
    rw [← hb₀]
    dsimp only
    rw [if_neg hnreg.ne, if_neg (by omega)]
  have hlast₀ : b₀ p.regions.length = 4 ^ p.order := by
    rw [← hb₀]
    exact if_pos rfl
  obtain ⟨hinc, hrest, hzero, hle⟩ := foldl_raise htop (p.regions.length - 1) (by omega)
  generalize (List.range' 1 (p.regions.length - 1)).foldl raise b₀ = b₁ at *
  have hlast₁ : b₁ p.regions.length = 4 ^ p.order :=
    (hrest p.regions.length (by omega)).trans hlast₀
  have hcells : ∀ j ≤ p.regions.length, j ≤ b₁ j := by
    intro j hj
    rcases Nat.eq_or_lt_of_le hj with rfl | hlt
    · rw [hlast₁]
      exact hfit
    · induction j with
      | zero => exact Nat.zero_le _
      | succ j ih =>
        have := ih (by omega) (by omega)
        have := hinc j (by omega)
        omega
  have hword : ∀ j ≤ p.regions.length, b₁ j + 1 < 2 ^ 64 := by
    intro j hj
    rcases Nat.eq_or_lt_of_le hj with rfl | hlt
    · rw [hlast₁]
      omega
    · have := hle j (by omega)
      omega
  obtain ⟨hinc', hlast'⟩ := foldl_lower (show p.regions.length - 1 < p.regions.length by omega)
    (hzero.trans hzero₀) hinc (fun j hj hj' => by omega) hcells hword
  exact ⟨hinc', hlast'.trans hlast₁⟩

/-- The atlas is laid out, and it stays an atlas. -/
lemma rebuildLayout_eq (h : p.Built) (hlayout : p.layout = .atlas) (hne : p.regions ≠ [])
    (hpos : 0 < p.bytes) (hmax : p.bytes ≤ 2 ^ 63) (hfit : p.regions.length ≤ 4 ^ p.order) :
    ∃ ref rects nodes t, rebuildLayout p = .ok { p with rects, nodes } ∧
      Laid 0 p.regions.length ⟨0, 0, p.side, p.side⟩
        (List.replicate p.regions.length ⟨0, 0, 0, 0⟩) [] ref rects nodes t := by
  obtain ⟨hplane, hplaneMax⟩ := h.plane_eq
  obtain ⟨hside, hsideMax⟩ := h.side_eq
  obtain ⟨hinc, htop⟩ := h.boundaries_spec hmax hne hfit
  have hnreg : 0 < p.regions.length := List.length_pos_of_ne_nil hne
  have harea : area ⟨0, 0, p.side, p.side⟩ = 4 ^ p.order := by
    rw [area, Nat.sub_zero, hside, ← Nat.mul_pow]
  obtain ⟨ref, rects, nodes, t, hsplit, hlaid⟩ := @splitRect_spec (boundaries p (4 ^ p.order))
    p.regions.length hinc (htop.le.trans hplaneMax) p.regions.length 0 p.regions.length
    ⟨0, 0, p.side, p.side⟩ (List.replicate p.regions.length ⟨0, 0, 0, 0⟩) [] hnreg (le_refl _)
    (le_refl _) ⟨Nat.zero_le _, Nat.zero_le _, hsideMax, hsideMax⟩ (harea ▸ hfit)
    (by rw [List.length_replicate])
  refine ⟨ref, rects, nodes, t, ?_, hlaid⟩
  have hbound : boundaries { p with rects := [], nodes := [] } (4 ^ p.order) =
      boundaries p (4 ^ p.order) := rfl
  have htotal : p.total ≠ 0 := by
    rw [h.total_eq hmax]
    omega
  rw [rebuildLayout]
  dsimp only
  rw [if_neg (not_not.2 hlayout)]
  change (if p.regions.length = 0 ∨ p.total = 0 ∨ u64 (p.side * p.side) < p.regions.length then _
    else _) = _
  rw [if_neg (by rw [hplane]; omega)]
  change (match splitRect (boundaries { p with rects := [], nodes := [] } (u64 (p.side * p.side)))
    p.regions.length 0 p.regions.length ⟨0, 0, p.side, p.side⟩
    (List.replicate p.regions.length ⟨0, 0, 0, 0⟩) [] with
    | .error e => _ | .ok none => _ | .ok (some (_, rects, nodes)) => _) = _
  rw [hplane, hbound, hsplit]

end Projection.Built

end Rebuild

end AsmTest.Space
