import AsmTest.AtlasLookup
import AsmTest.HilbertCurve
import AsmTest.Lib.Packing

/-!
# Addresses on the Hilbert plane

An address is found by its region's base, a cell by its place in the packed domain. The domain is
shifted down when the plane has fewer cells than the regions have bytes; a cell then stands for the
first of its bytes. A region without bytes owns no place in the domain, but it has a base, and the
search by base stops at it.
-/

namespace AsmTest.Space

open Lib.Packing

section Packed

/-- The address lies in the region. -/
def Region.Contains (r : Region) (a : ℕ) : Prop :=
  r.base ≤ a ∧ a < r.base + r.len

instance (r : Region) (a : ℕ) : Decidable (r.Contains a) :=
  inferInstanceAs (Decidable (_ ∧ _))

def Projection.region (p : Projection) (i : ℕ) : Region :=
  p.regions.getD i ⟨0, 0⟩

def Projection.lens (p : Projection) : List ℕ :=
  p.regions.map Region.len

/-- What `build_projection` may leave, the layout apart: `std::sort` puts equal bases in any
order. -/
structure Packed (regions : List Region) (keepOrder : Bool) (p : Projection) : Prop where
  kept : keepOrder = true → p.regions = regions
  sorted : keepOrder = false → p.regions.Pairwise (·.base ≤ ·.base)
  perm : p.regions.Perm regions
  domainOff : p.domainOff = prefixSums 0 p.regions
  byBase : p.byBase.Perm (List.range p.regions.length)
  byBase_sorted : p.byBase.Pairwise fun i j => (p.region i).base ≤ (p.region j).base
  order : p.order = orderFor p.total

/-- No address lies in two of the regions. -/
def NonOverlapping (regions : List Region) : Prop :=
  regions.Pairwise fun r r' => ∀ a, ¬(r.Contains a ∧ r'.Contains a)

lemma rebuildLayout_byBase {p p' : Projection} (h : rebuildLayout p = .ok p') :
    p'.byBase = p.byBase := by
  rw [rebuildLayout] at h
  dsimp only at h
  split_ifs at h
  · cases h
    rfl
  · cases h
    rfl
  · split at h
    · cases h
    · cases h
      rfl
    · cases h
      rfl

lemma pairwise_mergeSort_key {α : Type*} (key : α → ℕ) (l : List α) :
    (l.mergeSort fun a b => key a ≤ key b).Pairwise fun a b => key a ≤ key b := by
  have hsorted := @List.pairwise_mergeSort α (fun a b => decide (key a ≤ key b))
    (fun a b c hab hbc => decide_eq_true ((of_decide_eq_true hab).trans (of_decide_eq_true hbc)))
    (fun a b => by
      rw [Bool.or_eq_true, decide_eq_true_eq, decide_eq_true_eq]
      exact Nat.le_total (key a) (key b)) l
  exact hsorted.imp of_decide_eq_true

/-- What is built is packed, and stays so under another layout. -/
theorem buildProjection_packed {regions : List Region} {keepOrder : Bool} {p p' : Projection}
    {layout : Layout} (h : buildProjection regions keepOrder = .ok p)
    (h' : rebuildLayout { p with layout } = .ok p') : Packed regions keepOrder p' := by
  have hbuilt := h
  rw [buildProjection] at h
  have hkeeps := rebuildLayout_keeps h
  have hby := rebuildLayout_byBase h
  obtain ⟨hregions', horder', hoff'⟩ := rebuildLayout_keeps h'
  have hby' := rebuildLayout_byBase h'
  dsimp only at hkeeps hby hregions' horder' hoff' hby'
  obtain ⟨hregions, horder, hoff⟩ := hkeeps
  constructor
  · rintro rfl
    rw [hregions', hregions, if_pos rfl]
  · rintro rfl
    rw [hregions', hregions, if_neg (by decide)]
    exact pairwise_mergeSort_key Region.base regions
  · rw [hregions', hregions]
    split
    · exact List.Perm.refl _
    · exact List.mergeSort_perm _ _
  · rw [hoff', hregions', (buildProjection_built hbuilt).domainOff]
  · rw [hby', hby, hregions', hregions]
    exact List.mergeSort_perm _ _
  · rw [hby', hby]
    unfold Projection.region
    rw [hregions', hregions]
    exact pairwise_mergeSort_key _ _
  · rw [horder', horder, Projection.total, hoff', hoff]

namespace Packed

variable {regions : List Region} {keepOrder : Bool} {p : Projection}

lemma lens_sum (h : Packed regions keepOrder p) : p.lens.sum = (regions.map Region.len).sum :=
  (h.perm.map _).sum_eq

lemma nonOverlapping (h : Packed regions keepOrder p) (hover : NonOverlapping regions)
    {i j a : ℕ} (hi : (p.region i).Contains a) (hj : (p.region j).Contains a) : i = j := by
  have hbound : ∀ k, (p.region k).Contains a → k < p.regions.length := by
    intro k hk
    by_contra hge
    rw [Projection.region, List.getD_eq_default _ _ (Nat.le_of_not_lt hge)] at hk
    exact absurd hk.2 (Nat.not_lt_zero a)
  have hpair : p.regions.Pairwise fun r r' => ∀ a, ¬(r.Contains a ∧ r'.Contains a) :=
    (h.perm.pairwise_iff fun {r r'} hr a hboth => hr a hboth.symm).2 hover
  rw [List.pairwise_iff_getElem] at hpair
  have hget : ∀ k (hk : k < p.regions.length), p.region k = p.regions[k] := fun k hk =>
    List.getD_eq_getElem _ _ hk
  have hilt := hbound i hi
  have hjlt := hbound j hj
  rw [hget i hilt] at hi
  rw [hget j hjlt] at hj
  rcases Nat.lt_trichotomy i j with hlt | heq | hgt
  · exact absurd ⟨hi, hj⟩ (hpair i j hilt hjlt hlt a)
  · exact heq
  · exact absurd ⟨hj, hi⟩ (hpair j i hjlt hilt hgt a)

end Packed

end Packed

section Domain

lemma prefixSums_eq (rs : List Region) {t : ℕ} (h : t + (rs.map Region.len).sum < 2 ^ 64) :
    prefixSums t rs =
      (List.range (rs.length + 1)).map fun i => t + start (rs.map Region.len) i := by
  induction rs generalizing t with
  | nil => rfl
  | cons r rs ih =>
    rw [List.map_cons, List.sum_cons] at h
    have hrange : List.range (rs.length + 1 + 1) = 0 :: (List.range (rs.length + 1)).map Nat.succ :=
      List.range_succ_eq_map
    rw [prefixSums, u64_of_lt (by omega), ih (by omega), List.length_cons, hrange, List.map_cons,
      List.map_map]
    apply congrArg (t :: ·)
    apply List.map_congr_left
    intro i _
    exact Nat.add_assoc _ _ _

variable {regions : List Region} {keepOrder : Bool} {p : Projection}

/-- The words of the domain do not wrap. -/
structure Packed.Domain (p : Projection) : Prop where
  offsets : p.domainOff = (List.range (p.lens.length + 1)).map (start p.lens)
  total : p.total = p.lens.sum
  sum_lt : p.lens.sum < 2 ^ 64
  order : p.order = orderFor p.lens.sum

lemma Packed.domain (h : Packed regions keepOrder p)
    (hsum : (regions.map Region.len).sum < 2 ^ 64) : Packed.Domain p := by
  have hlt : p.lens.sum < 2 ^ 64 := h.lens_sum ▸ hsum
  have hlt' : 0 + (p.regions.map Region.len).sum < 2 ^ 64 := by
    rw [Nat.zero_add]
    exact hlt
  have htotal : p.total = p.lens.sum := by
    rw [Projection.total, h.domainOff, getLast?_prefixSums p.regions hlt', Nat.zero_add]
    rfl
  refine ⟨?_, htotal, hlt, htotal ▸ h.order⟩
  rw [h.domainOff, prefixSums_eq p.regions hlt', Projection.lens, List.length_map]
  apply List.map_congr_left
  intro i _
  exact Nat.zero_add _

lemma Packed.Domain.getD_domainOff (h : Packed.Domain p) {i : ℕ} (hi : i ≤ p.lens.length) :
    p.domainOff.getD i 0 = start p.lens i := by
  have hlt : i < p.lens.length + 1 := Nat.lt_succ_of_le hi
  rw [h.offsets, List.getD_eq_getElem?_getD, List.getElem?_map, List.getElem?_range hlt]
  rfl

lemma le_orderFor (total : ℕ) : 6 ≤ orderFor total := by
  rw [orderFor]
  cases h : (List.range' 6 6).find? fun order => total ≤ 2 ^ (2 * order) with
  | none => exact (by decide : 6 ≤ 12)
  | some order =>
    have hmem := List.mem_of_find?_eq_some h
    rw [List.mem_range'_1] at hmem
    exact hmem.1

/-- A domain that some plane can hold is held by the one that is chosen. -/
lemma le_plane_orderFor {total : ℕ} (h : total ≤ 4 ^ 12) : total ≤ 4 ^ orderFor total := by
  rw [orderFor]
  cases hfind : (List.range' 6 6).find? fun order => total ≤ 2 ^ (2 * order) with
  | none => exact h
  | some order =>
    have hle := List.find?_some hfind
    rw [decide_eq_true_eq, pow_mul] at hle
    exact hle

/-- The shift brings every index of the domain into the plane, and no word wraps on the way
back. -/
lemma domainShift_spec {order total : ℕ} (ho : 1 ≤ order) (hle : order ≤ 12)
    (ht : total < 2 ^ 64) :
    (∀ d < total, d / 2 ^ domainShift order total < 4 ^ order) ∧
      4 ^ order * 2 ^ domainShift order total ≤ 2 ^ 64 ∧
      (total ≤ 4 ^ order → domainShift order total = 0) := by
  have hplane : 2 ^ (2 * order) = 4 ^ order := pow_mul 2 2 order
  have hfits : 4 ^ order * 2 ^ 0 ≤ 2 ^ 64 := by
    rw [← hplane, ← pow_add]
    exact Nat.pow_le_pow_right Nat.two_pos (by omega)
  rw [domainShift]
  by_cases hzero : total = 0
  · rw [if_pos hzero]
    exact ⟨fun d hd => absurd hd (by omega), hfits, fun _ => rfl⟩
  rw [if_neg hzero]
  cases hfind : (List.range 64).find? fun shift => (total - 1) / 2 ^ shift < 2 ^ (2 * order) with
  | none =>
    -- dropping 63 bits of a word leaves at most one
    have hlast := List.find?_eq_none.1 hfind 63 (by decide)
    rw [decide_eq_true_eq] at hlast
    have hone : (total - 1) / 2 ^ 63 < 2 := by
      rw [Nat.div_lt_iff_lt_mul (by positivity)]
      omega
    have htwo : 2 ^ 1 ≤ 2 ^ (2 * order) := Nat.pow_le_pow_right Nat.two_pos (by omega)
    omega
  | some shift =>
    obtain ⟨hok, -, hfirst⟩ := List.find?_range_eq_some.1 hfind
    rw [decide_eq_true_eq] at hok
    rw [Option.getD_some]
    have hbefore : ∀ j < shift, 2 ^ (2 * order) * 2 ^ j ≤ total - 1 := fun j hj => by
      have hge := hfirst j hj
      rw [Bool.not_eq_true', decide_eq_false_iff_not, Nat.not_lt,
        Nat.le_div_iff_mul_le (by positivity)] at hge
      exact hge
    refine ⟨fun d hd => ?_, ?_, fun hfit => ?_⟩
    · rw [← hplane]
      exact (Nat.div_le_div_right (by omega)).trans_lt hok
    · cases shift with
      | zero => exact hfits
      | succ j =>
        have hge := hbefore j (Nat.lt_succ_self j)
        rw [← pow_add] at hge
        have hexp : 2 * order + j < 64 :=
          (Nat.pow_lt_pow_iff_right Nat.one_lt_two).1 (show 2 ^ (2 * order + j) < 2 ^ 64 by omega)
        rw [← hplane, ← pow_add]
        exact Nat.pow_le_pow_right Nat.two_pos (by omega)
    · by_contra hne
      have hge := hbefore 0 (Nat.pos_of_ne_zero hne)
      rw [hplane, pow_zero, Nat.mul_one] at hge
      omega

end Domain

section Resolve

variable {regions : List Region} {keepOrder : Bool} {p : Projection}

lemma searchBase_eq (p : Projection) (addr fuel lo hi : ℕ) :
    searchBase p addr fuel lo hi =
      bisect (fun j => (p.region (p.byBase.getD j 0)).base ≤ addr) fuel lo hi := by
  induction fuel generalizing lo hi with
  | zero => rfl
  | succ fuel ih =>
    rw [searchBase, bisect]
    dsimp only
    rw [ih, ih]
    rfl

namespace Packed

lemma getD_idxOf (h : Packed regions keepOrder p) {i : ℕ} (hi : i < p.regions.length) :
    p.byBase.idxOf i < p.byBase.length ∧ p.byBase.getD (p.byBase.idxOf i) 0 = i := by
  have hmem : i ∈ p.byBase := h.byBase.mem_iff.2 (List.mem_range.2 hi)
  have hlt := List.idxOf_lt_length_of_mem hmem
  refine ⟨hlt, ?_⟩
  rw [List.getD_eq_getElem _ _ hlt, List.getElem_idxOf hlt]

lemma idxOf_getD (h : Packed regions keepOrder p) {q : ℕ} (hq : q < p.byBase.length) :
    p.byBase.getD q 0 < p.regions.length ∧ p.byBase.idxOf (p.byBase.getD q 0) = q := by
  rw [List.getD_eq_getElem _ _ hq]
  refine ⟨List.mem_range.1 (h.byBase.mem_iff.1 (List.getElem_mem hq)), ?_⟩
  exact (h.byBase.nodup_iff.2 List.nodup_range).idxOf_getElem q hq

/-- Along `byBase` the bases go up. -/
lemma base_le (h : Packed regions keepOrder p) {i j : ℕ} (hij : i ≤ j)
    (hj : j < p.byBase.length) :
    (p.region (p.byBase.getD i 0)).base ≤ (p.region (p.byBase.getD j 0)).base := by
  rcases Nat.lt_or_eq_of_le hij with hlt | rfl
  · have hi := hlt.trans hj
    rw [List.getD_eq_getElem _ _ hi, List.getD_eq_getElem _ _ hj]
    exact List.pairwise_iff_getElem.1 h.byBase_sorted i j hi hj hlt
  · exact le_rfl

/-- The search finds the last region, in the order of `byBase`, that starts at or below the
address. -/
lemma resolve_cases (h : Packed regions keepOrder p) (addr : ℕ) :
    p.resolve addr = none ∧ (∀ i < p.regions.length, addr < (p.region i).base) ∨
      ∃ i, p.resolve addr = some i ∧ i < p.regions.length ∧ (p.region i).base ≤ addr ∧
        ∀ j < p.regions.length, p.byBase.idxOf i < p.byBase.idxOf j →
          addr < (p.region j).base := by
  have hends : EndsAt (fun j => (p.region (p.byBase.getD j 0)).base ≤ addr) p.byBase.length
      (searchBase p addr p.byBase.length 0 p.byBase.length) := by
    rw [searchBase_eq]
    apply bisect_spec
    · exact fun i j hij hj hle => (h.base_le hij hj).trans hle
    · exact Nat.sub_le _ _
    · exact Nat.zero_le _
    · exact le_rfl
    · exact fun j hj => absurd hj (Nat.not_lt_zero j)
    · exact fun j hj hlt => absurd hlt (Nat.not_lt_of_le hj)
  have habove : ∀ j < p.regions.length,
      searchBase p addr p.byBase.length 0 p.byBase.length ≤ p.byBase.idxOf j →
        addr < (p.region j).base := by
    intro j hj hle
    obtain ⟨hlt, hget⟩ := h.getD_idxOf hj
    have hnot := hends.ends _ hle hlt
    rw [hget] at hnot
    exact Nat.lt_of_not_le hnot
  rw [Projection.resolve]
  cases hr : searchBase p addr p.byBase.length 0 p.byBase.length with
  | zero =>
    left
    rw [hr] at habove
    exact ⟨rfl, fun i hi => habove i hi (Nat.zero_le _)⟩
  | succ q =>
    right
    rw [hr] at habove hends
    obtain ⟨hlt, hidx⟩ := h.idxOf_getD (Nat.lt_of_succ_le hends.le)
    refine ⟨_, rfl, hlt, hends.holds q (Nat.lt_succ_self q), fun j hj hafter => ?_⟩
    rw [hidx] at hafter
    exact habove j hj hafter

end Packed

end Resolve

section Cells

open Lib.Hilbert (index curve index_curve curve_index inSquare_curve index_lt)

/-- The cell that a byte of the domain maps to -/
def Projection.cellOf (p : Projection) (d : ℕ) : ℕ × ℕ :=
  d2xy p.order (d / 2 ^ domainShift p.order p.total)

/-- Byte `d` of the domain belongs to region `i` and has address `a`. -/
structure ByteAt (p : Projection) (d i a : ℕ) : Prop where
  owns : Owns p.lens d i
  addr : a = u64 ((p.region i).base + (d - start p.lens i))

variable {p : Projection} {d x y : ℕ}

lemma lens_getD (p : Projection) (i : ℕ) : p.lens.getD i 0 = (p.region i).len := by
  rw [Projection.lens, Projection.region, List.getD_eq_getElem?_getD, List.getElem?_map,
    List.getD_eq_getElem?_getD]
  cases p.regions[i]? with
  | none => rfl
  | some r => rfl

namespace Packed.Domain

lemma order_bounds (h : Packed.Domain p) : 6 ≤ p.order ∧ p.order ≤ 12 := by
  rw [h.order]
  exact ⟨le_orderFor _, orderFor_le _⟩

lemma side_eq (h : Packed.Domain p) : p.side = 2 ^ p.order := by
  have hle : 2 ^ p.order ≤ 2 ^ 12 := Nat.pow_le_pow_right Nat.two_pos h.order_bounds.2
  exact u32_of_lt (by omega)

lemma div_lt_plane (h : Packed.Domain p) (hd : d < p.lens.sum) :
    d / 2 ^ domainShift p.order p.total < 4 ^ p.order := by
  obtain ⟨hlo, hhi⟩ := h.order_bounds
  rw [h.total]
  exact (domainShift_spec (by omega) hhi h.sum_lt).1 d hd

lemma cellOf_lt (h : Packed.Domain p) (hd : d < p.lens.sum) :
    (p.cellOf d).1 < p.side ∧ (p.cellOf d).2 < p.side := by
  have hlt := h.div_lt_plane hd
  rw [Projection.cellOf, d2xy_eq (h.order_bounds.2.trans (by decide)) hlt, h.side_eq]
  exact inSquare_curve hlt

/-- The bytes of a cell are those with its index. -/
lemma cellOf_eq_iff (h : Packed.Domain p) (hd : d < p.lens.sum) (hx : x < p.side)
    (hy : y < p.side) :
    p.cellOf d = (x, y) ↔ d / 2 ^ domainShift p.order p.total = xy2d p.order x y := by
  have hle : p.order ≤ 32 := h.order_bounds.2.trans (by decide)
  have hlt := h.div_lt_plane hd
  rw [h.side_eq] at hx hy
  rw [Projection.cellOf, d2xy_eq hle hlt, xy2d_eq hle hx hy]
  constructor
  · intro heq
    rw [← heq, index_curve hlt]
  · intro heq
    rw [heq, curve_index ⟨hx, hy⟩]

/-- A cell holds nothing, or the first byte of the domain that maps to it. -/
lemma unprojectCell_cases (h : Packed.Domain p) (hlayout : p.layout = .hilbert) (hx : x < p.side)
    (hy : y < p.side) :
    p.unprojectCell x y = .ok none ∧ (∀ d < p.lens.sum, p.cellOf d ≠ (x, y)) ∨
      ∃ d i a, p.unprojectCell x y = .ok (some (a, i)) ∧ ByteAt p d i a ∧ p.cellOf d = (x, y) ∧
        ∀ d' < d, p.cellOf d' ≠ (x, y) := by
  have hle : p.order ≤ 32 := h.order_bounds.2.trans (by decide)
  obtain ⟨-, hwords, -⟩ := @domainShift_spec p.order p.total
    (Nat.le_trans (by decide) h.order_bounds.1) h.order_bounds.2 (h.total ▸ h.sum_lt)
  have hpos : 0 < 2 ^ domainShift p.order p.total := by positivity
  have hindex : xy2d p.order x y < 4 ^ p.order := by
    rw [h.side_eq] at hx hy
    rw [xy2d_eq hle hx hy]
    exact index_lt ⟨hx, hy⟩
  have hcell := fun d (hd : d < p.lens.sum) => h.cellOf_eq_iff hd hx hy
  have hmul : xy2d p.order x y * 2 ^ domainShift p.order p.total < 2 ^ 64 :=
    (Nat.mul_lt_mul_of_pos_right hindex hpos).trans_le hwords
  rw [Projection.unprojectCell, if_neg (by rw [hlayout]; decide)]
  dsimp only
  rw [u64_of_lt hmul]
  have hbelow : ∀ d, d < p.lens.sum → d < xy2d p.order x y * 2 ^ domainShift p.order p.total →
      p.cellOf d ≠ (x, y) := by
    intro d hd hlt heq
    rw [hcell d hd] at heq
    have hge := Nat.div_mul_le_self d (2 ^ domainShift p.order p.total)
    rw [heq] at hge
    omega
  generalize hd0 : xy2d p.order x y * 2 ^ domainShift p.order p.total = d0 at *
  by_cases hpad : p.total ≤ d0
  · left
    rw [if_pos hpad]
    rw [h.total] at hpad
    exact ⟨rfl, fun d hd => hbelow d hd (hd.trans_le hpad)⟩
  · right
    have hlt : d0 < p.lens.sum := by
      rw [h.total] at hpad
      exact Nat.lt_of_not_le hpad
    obtain ⟨i, howns⟩ := exists_owns hlt
    have hsub : sub64 d0 (start p.lens i) = d0 - start p.lens i :=
      sub64_of_le howns.start_le (hlt.trans h.sum_lt)
    refine ⟨d0, i, u64 ((p.region i).base + (d0 - start p.lens i)), ?_, ⟨howns, rfl⟩, ?_,
      fun d' hd' => hbelow d' (hd'.trans hlt) hd'⟩
    · rw [if_neg hpad, h.offsets, length_takeWhile_start howns, ← h.offsets, Nat.add_sub_cancel,
        h.getD_domainOff howns.lt_length.le, hsub]
      rfl
    · rw [hcell d0 hlt, ← hd0, Nat.mul_div_cancel _ hpos]

end Packed.Domain

end Cells

section RoundTrip

variable {regions : List Region} {keepOrder : Bool} {p : Projection}

/-- Region `j` has no bytes and starts in region `i`, and the search by base comes to it later. -/
def Projection.Hides (p : Projection) (j i : ℕ) : Prop :=
  (p.region j).len = 0 ∧ (p.region i).Contains (p.region j).base ∧
    p.byBase.idxOf i < p.byBase.idxOf j

instance (p : Projection) (j i : ℕ) : Decidable (p.Hides j i) :=
  inferInstanceAs (Decidable (_ ∧ _ ∧ _))

/-- Every address of a region goes to a cell and back: to itself while every byte can have a cell of
its own, to the first byte of the cell otherwise. -/
structure RoundTrip (p : Projection) : Prop where
  project : ∀ addr < 2 ^ 64,
    (∃ c, p.project addr = .ok (some c)) ↔ ∃ r ∈ p.regions, r.Contains addr
  unproject : p.bytes ≤ 4 ^ 12 → ∀ addr < 2 ^ 64, ∀ c, p.project addr = .ok (some c) →
    ∃ i r, p.unproject c.1 c.2 = .ok (some (addr, i)) ∧ p.regions[i]? = some r ∧ r.Contains addr
  first : 4 ^ 12 < p.bytes → ∀ addr < 2 ^ 64, ∀ c, p.project addr = .ok (some c) →
    ∃ d i a, p.unproject c.1 c.2 = .ok (some (a, i)) ∧ ByteAt p d i a ∧
      p.centre (p.cellOf d) = c ∧ ∀ d' < d, p.centre (p.cellOf d') ≠ c
  refuses : ∀ x < p.side, ∀ y < p.side,
    p.unproject (p.centre (x, y)).1 (p.centre (x, y)).2 = .ok none ↔
      ∀ d < p.bytes, p.cellOf d ≠ (x, y)

lemma owns_of_contains {i addr : ℕ} (h : (p.region i).Contains addr) :
    Owns p.lens (start p.lens i + (addr - (p.region i).base)) i := by
  apply owns_add
  rw [lens_getD]
  have hlo := h.1
  have hhi := h.2
  omega

lemma lt_length_of_contains {i addr : ℕ} (h : (p.region i).Contains addr) :
    i < p.regions.length := by
  have hlt := (owns_of_contains h).lt_length
  rwa [Projection.lens, List.length_map] at hlt

lemma project_of_resolve (hlayout : p.layout = .hilbert) (hne : p.regions ≠ []) {addr i : ℕ}
    (h : p.resolve addr = some i) :
    p.project addr = if (p.region i).len ≤ sub64 addr (p.region i).base then .ok none else
      .ok (some (p.centre (p.cellOf (u64 (p.domainOff.getD i 0 +
        sub64 addr (p.region i).base))))) := by
  have hatlas : ¬(p.layout = .atlas ∧ i < p.rects.length) := by
    rw [hlayout]
    exact fun h => absurd h.1 (by decide)
  rw [Projection.project, if_neg hne, h]
  dsimp only
  rw [if_neg hatlas]
  rfl

/-- An address is placed when the region found for it contains it. -/
lemma Packed.project_cases (h : Packed regions keepOrder p) (hdom : Packed.Domain p)
    (hlayout : p.layout = .hilbert) {addr : ℕ} (haddr : addr < 2 ^ 64) :
    (∃ i, p.resolve addr = some i ∧ (p.region i).Contains addr ∧ p.project addr =
        .ok (some (p.centre (p.cellOf (start p.lens i + (addr - (p.region i).base)))))) ∨
      p.project addr = .ok none ∧ ∀ i, p.resolve addr = some i → ¬(p.region i).Contains addr := by
  rcases h.resolve_cases addr with ⟨hnone, -⟩ | ⟨i, hsome, hi, hbase, -⟩
  · right
    refine ⟨?_, fun i hi => absurd (hnone ▸ hi) (Option.some_ne_none i).symm⟩
    rw [Projection.project, hnone]
    split
    · rfl
    · rfl
  · have hne : p.regions ≠ [] := List.ne_nil_of_length_pos (Nat.zero_lt_of_lt hi)
    rw [project_of_resolve hlayout hne hsome, sub64_of_le hbase haddr]
    by_cases hlen : (p.region i).len ≤ addr - (p.region i).base
    · right
      refine ⟨if_pos hlen, fun j hj hin => ?_⟩
      obtain rfl := Option.some_injective _ (hsome.symm.trans hj)
      have hhi := hin.2
      omega
    · left
      have hin : (p.region i).Contains addr := ⟨hbase, by omega⟩
      have hlt := (owns_of_contains hin).lt_sum.trans hdom.sum_lt
      have hlength : i ≤ p.lens.length := by
        rw [Projection.lens, List.length_map]
        exact hi.le
      refine ⟨i, hsome, hin, ?_⟩
      rw [if_neg hlen, hdom.getD_domainOff hlength, u64_of_lt hlt]

/-- Unless an empty region hides it, the region of an address is found. -/
lemma Packed.resolve_eq (h : Packed regions keepOrder p) (hover : NonOverlapping regions)
    (hhides : ∀ i < p.regions.length, ∀ j < p.regions.length, ¬p.Hides j i) {i addr : ℕ}
    (hin : (p.region i).Contains addr) : p.resolve addr = some i := by
  have hi := lt_length_of_contains hin
  rcases h.resolve_cases addr with ⟨-, habove⟩ | ⟨k, hsome, hk, hbase, hlast⟩
  · exact absurd hin.1 (Nat.not_le_of_lt (habove i hi))
  · obtain ⟨hilt, higet⟩ := h.getD_idxOf hi
    obtain ⟨hklt, hkget⟩ := h.getD_idxOf hk
    rcases Nat.lt_trichotomy (p.byBase.idxOf k) (p.byBase.idxOf i) with hlt | heq | hgt
    · exact absurd hin.1 (Nat.not_le_of_lt (hlast i hi hlt))
    · rw [hsome, ← hkget, heq, higet]
    · -- region `k` starts between the base of region `i` and the address
      have hle := h.base_le hgt.le hklt
      rw [higet, hkget] at hle
      have hstart : (p.region i).Contains (p.region k).base := ⟨hle, hbase.trans_lt hin.2⟩
      by_cases hzero : (p.region k).len = 0
      · exact absurd ⟨hzero, hstart, hgt⟩ (hhides i hi k hk)
      · have hown : (p.region k).Contains (p.region k).base := ⟨le_rfl, by omega⟩
        rw [hsome, h.nonOverlapping hover hown hstart]

lemma centre_injective (hside : p.side ≠ 0) {c c' : ℕ × ℕ} (h : p.centre c = p.centre c') :
    c = c' := by
  have hpos : (p.side : ℚ) ≠ 0 := Nat.cast_ne_zero.2 hside
  have hfst := congrArg Prod.fst h
  have hsnd := congrArg Prod.snd h
  dsimp only [Projection.centre] at hfst hsnd
  rw [div_left_inj' hpos, add_left_inj, Nat.cast_inj] at hfst hsnd
  exact Prod.ext hfst hsnd

/-- An address that is placed, the byte of the domain that it is, and what its cell leads back
to -/
lemma Packed.unproject_project (h : Packed regions keepOrder p) (hdom : Packed.Domain p)
    (hlayout : p.layout = .hilbert) {addr : ℕ} (haddr : addr < 2 ^ 64) {c : ℚ × ℚ}
    (hc : p.project addr = .ok (some c)) :
    ∃ i, (p.region i).Contains addr ∧
      c = p.centre (p.cellOf (start p.lens i + (addr - (p.region i).base))) ∧
      ∃ d k a, p.unproject c.1 c.2 = .ok (some (a, k)) ∧ ByteAt p d k a ∧
        p.cellOf d = p.cellOf (start p.lens i + (addr - (p.region i).base)) ∧
        ∀ d' < d, p.cellOf d' ≠ p.cellOf (start p.lens i + (addr - (p.region i).base)) := by
  rcases h.project_cases hdom hlayout haddr with ⟨i, -, hin, heq⟩ | ⟨hnone, -⟩
  · obtain rfl : p.centre _ = c := Option.some_injective _ (Except.ok.inj (heq.symm.trans hc))
    have hlt := (owns_of_contains hin).lt_sum
    obtain ⟨hx, hy⟩ := hdom.cellOf_lt hlt
    have hne : p.regions ≠ [] :=
      List.ne_nil_of_length_pos (Nat.zero_lt_of_lt (lt_length_of_contains hin))
    refine ⟨i, hin, rfl, ?_⟩
    rw [unproject_centre hne hx hy]
    rcases hdom.unprojectCell_cases hlayout hx hy with ⟨-, hempty⟩ | ⟨d, k, a, hd⟩
    · exact absurd rfl (hempty _ hlt)
    · exact ⟨d, k, a, hd⟩
  · cases hnone.symm.trans hc

lemma region_mem {i : ℕ} (hi : i < p.regions.length) : p.region i ∈ p.regions := by
  rw [Projection.region, List.getD_eq_getElem _ _ hi]
  exact List.getElem_mem hi

/-- The search stops at the empty region, so the address that it hides has no cell. -/
lemma Packed.project_hidden (h : Packed regions keepOrder p) (hdom : Packed.Domain p)
    (hlayout : p.layout = .hilbert) (hover : NonOverlapping regions) {i j : ℕ}
    (hj : j < p.regions.length) (haddr : (p.region j).base < 2 ^ 64) (hhide : p.Hides j i) :
    p.project (p.region j).base = .ok none := by
  obtain ⟨-, hin, hafter⟩ := hhide
  rcases h.project_cases hdom hlayout haddr with ⟨k, hres, hk, -⟩ | ⟨hnone, -⟩
  · obtain rfl := h.nonOverlapping hover hk hin
    rcases h.resolve_cases (p.region j).base with ⟨hnone, -⟩ | ⟨k', hsome, -, -, hlast⟩
    · cases hnone.symm.trans hres
    · obtain rfl := Option.some_injective _ (hsome.symm.trans hres)
      exact absurd (hlast j hj hafter) (lt_irrefl _)
  · exact hnone

/-- Without a shift, a cell is one byte. -/
lemma Packed.Domain.cellOf_inj (hdom : Packed.Domain p) (hfit : p.bytes ≤ 4 ^ 12) {d d' : ℕ}
    (hd : d < p.lens.sum) (hd' : d' < p.lens.sum) (h : p.cellOf d = p.cellOf d') : d = d' := by
  have hshift : domainShift p.order p.total = 0 := by
    obtain ⟨hlo, hhi⟩ := hdom.order_bounds
    apply (domainShift_spec (by omega) hhi (hdom.total ▸ hdom.sum_lt)).2.2
    rw [hdom.order, hdom.total]
    exact le_plane_orderFor hfit
  obtain ⟨hx, hy⟩ := hdom.cellOf_lt hd'
  have heq := (hdom.cellOf_eq_iff hd hx hy).1 h
  have heq' := (hdom.cellOf_eq_iff hd' hx hy).1 rfl
  rw [hshift, pow_zero, Nat.div_one] at heq heq'
  exact heq.trans heq'.symm

lemma Packed.unproject_self (h : Packed regions keepOrder p) (hdom : Packed.Domain p)
    (hlayout : p.layout = .hilbert) (hfit : p.bytes ≤ 4 ^ 12) {addr : ℕ} (haddr : addr < 2 ^ 64)
    {c : ℚ × ℚ} (hc : p.project addr = .ok (some c)) :
    ∃ i r, p.unproject c.1 c.2 = .ok (some (addr, i)) ∧ p.regions[i]? = some r ∧
      r.Contains addr := by
  obtain ⟨i, hin, rfl, d, k, a, hun, hbyte, hcell, -⟩ := h.unproject_project hdom hlayout haddr hc
  have howns := owns_of_contains hin
  obtain rfl : d = _ := hdom.cellOf_inj hfit hbyte.owns.lt_sum howns.lt_sum hcell
  obtain rfl := hbyte.owns.unique howns
  have ha : a = addr := by
    have hlo := hin.1
    rw [hbyte.addr, Nat.add_sub_cancel_left, Nat.add_sub_cancel' hlo, u64_of_lt haddr]
  refine ⟨k, p.region k, ha ▸ hun, ?_, hin⟩
  rw [Projection.region, List.getD_eq_getElem _ _ (lt_length_of_contains hin)]
  exact List.getElem?_eq_getElem _

/-- The points of a cell lead nowhere exactly when no byte has the cell. -/
lemma Packed.Domain.unproject_none_iff (hdom : Packed.Domain p) (hlayout : p.layout = .hilbert)
    {x y : ℕ} (hx : x < p.side) (hy : y < p.side) :
    p.unproject (p.centre (x, y)).1 (p.centre (x, y)).2 = .ok none ↔
      ∀ d < p.bytes, p.cellOf d ≠ (x, y) := by
  have hbytes : p.bytes = p.lens.sum := rfl
  by_cases hne : p.regions = []
  · rw [Projection.unproject, if_pos hne, hbytes, Projection.lens, hne]
    exact ⟨fun _ d hd => absurd hd (Nat.not_lt_zero d), fun _ => rfl⟩
  · rw [unproject_centre hne hx hy, hbytes]
    rcases hdom.unprojectCell_cases hlayout hx hy with ⟨heq, hempty⟩ | ⟨d, i, a, heq, hbyte, hd⟩
    · exact ⟨fun _ => hempty, fun _ => heq⟩
    · rw [heq]
      constructor
      · intro hnone
        cases hnone
      · exact fun hempty => absurd hd.1 (hempty d hbyte.owns.lt_sum)

/-- The round trip holds unless an empty region starts in another region and comes after it in the
order of the bases. -/
theorem hilbert_round_trip_iff (regions : List Region) (keepOrder : Bool) (p : Projection)
    (hp : Packed regions keepOrder p) (hlayout : p.layout = .hilbert)
    (hwords : ∀ r ∈ regions, r.base < 2 ^ 64) (hover : NonOverlapping regions)
    (hsum : (regions.map Region.len).sum < 2 ^ 64) :
    RoundTrip p ↔ ∀ i < p.regions.length, ∀ j < p.regions.length, ¬p.Hides j i := by
  have hdom := hp.domain hsum
  constructor
  · intro htrip i hi j hj hhide
    have haddr := hwords _ (hp.perm.mem_iff.1 (region_mem hj))
    obtain ⟨c, hc⟩ := (htrip.project _ haddr).2 ⟨_, region_mem hi, hhide.2.1⟩
    cases (hp.project_hidden hdom hlayout hover hj haddr hhide).symm.trans hc
  · intro hhides
    refine ⟨fun addr haddr => ⟨?_, ?_⟩,
      fun hfit addr haddr c hc => hp.unproject_self hdom hlayout hfit haddr hc,
      fun _ addr haddr c hc => ?_, fun x hx y hy => hdom.unproject_none_iff hlayout hx hy⟩
    · rintro ⟨c, hc⟩
      obtain ⟨i, hin, -⟩ := hp.unproject_project hdom hlayout haddr hc
      exact ⟨_, region_mem (lt_length_of_contains hin), hin⟩
    · rintro ⟨r, hr, hin⟩
      obtain ⟨i, hi, rfl⟩ := List.getElem_of_mem hr
      have hin' : (p.region i).Contains addr := by
        rw [Projection.region, List.getD_eq_getElem _ _ hi]
        exact hin
      have hres := hp.resolve_eq hover hhides hin'
      rcases hp.project_cases hdom hlayout haddr with ⟨k, -, -, heq⟩ | ⟨-, hnot⟩
      · exact ⟨_, heq⟩
      · exact absurd hin' (hnot i hres)
    · obtain ⟨i, hin, rfl, d, k, a, hun, hbyte, hcell, hfirst⟩ :=
        hp.unproject_project hdom hlayout haddr hc
      have hside : p.side ≠ 0 := by
        rw [hdom.side_eq]
        positivity
      refine ⟨d, k, a, hun, hbyte, by rw [hcell], fun d' hd' heq => ?_⟩
      exact hfirst d' hd' (centre_injective hside heq)

lemma nonOverlapping_pair {r r' : Region}
    (h : r.base + r.len ≤ r'.base ∨ r'.base + r'.len ≤ r.base ∨ r.len = 0 ∨ r'.len = 0) :
    NonOverlapping [r, r'] := by
  refine List.pairwise_cons.2 ⟨fun r₂ hr₂ a ha => ?_, List.pairwise_singleton _ _⟩
  obtain rfl := List.mem_singleton.1 hr₂
  obtain ⟨⟨hlo, hhi⟩, hlo', hhi'⟩ := ha
  omega

/-- Two regions with a gap between them -/
def gapSample : Projection where
  regions := [⟨4096, 100⟩, ⟨12288, 5000⟩]
  order := 7
  domainOff := [0, 100, 5100]
  byBase := [0, 1]
  layout := .hilbert

theorem hilbert_round_trip_gapSample : RoundTrip gapSample :=
  (hilbert_round_trip_iff [⟨12288, 5000⟩, ⟨4096, 100⟩] false gapSample
    ⟨by decide, by decide, by decide, by decide, by decide, by decide, by decide⟩ rfl (by decide)
    (nonOverlapping_pair (by decide)) (by decide)).2 (by decide)

/-- An empty region inside another, and one at the same base that the sort puts second -/
def hiddenSample (base : ℕ) : Projection where
  regions := [⟨4096, 100⟩, ⟨base, 0⟩]
  order := 6
  domainOff := [0, 100, 100]
  byBase := [0, 1]
  layout := .hilbert

lemma not_roundTrip_hiddenSample {base : ℕ}
    (h : (hiddenSample base).project 4150 = .ok none) : ¬RoundTrip (hiddenSample base) := by
  intro htrip
  obtain ⟨c, hc⟩ := (htrip.project 4150 (by decide)).2
    ⟨⟨4096, 100⟩, List.mem_cons_self, by decide⟩
  cases h.symm.trans hc

/-- The bytes behind an empty region are not found. -/
theorem hilbert_round_trip_hidden :
    (Packed [⟨4096, 100⟩, ⟨4146, 0⟩] false (hiddenSample 4146) ∧
      NonOverlapping [⟨4096, 100⟩, ⟨4146, 0⟩] ∧ ¬RoundTrip (hiddenSample 4146)) ∧
    Packed [⟨4096, 100⟩, ⟨4096, 0⟩] false (hiddenSample 4096) ∧
      NonOverlapping [⟨4096, 100⟩, ⟨4096, 0⟩] ∧ ¬RoundTrip (hiddenSample 4096) := by
  refine ⟨⟨?_, ?_, not_roundTrip_hiddenSample (by decide)⟩, ?_, ?_,
    not_roundTrip_hiddenSample (by decide)⟩
  · exact ⟨by decide, by decide, by decide, by decide, by decide, by decide, by decide⟩
  · exact nonOverlapping_pair (.inr (.inr (.inr rfl)))
  · exact ⟨by decide, by decide, by decide, by decide, by decide, by decide, by decide⟩
  · exact nonOverlapping_pair (.inr (.inr (.inr rfl)))

end RoundTrip

end AsmTest.Space
