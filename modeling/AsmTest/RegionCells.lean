import AsmTest.HilbertLookup
import Mathlib.Data.List.Destutter

/-!
# The cells of a region

The cells of a region are found by walking its part of the domain and not by projecting its
addresses. On the Hilbert plane the walk visits the cells of the region's bytes; every byte of a
region has an address, unless the region runs past the end of the address space.
-/

namespace AsmTest.Space

open Lib.Packing

section Cells

/-- The number of a cell, row by row -/
def Projection.cellNumber (p : Projection) (xy : ℕ × ℕ) : ℕ :=
  u32 (xy.2 * p.side + xy.1)

def Projection.regionCells (p : Projection) (i : ℕ) : List ℕ :=
  if p.regions.length ≤ i ∨ p.domainOff.length < p.regions.length + 1 then []
  else if p.layout = .atlas then
    if p.rects.length ≤ i then []
    else
      -- the rectangle that the region owns
      let r := p.rects.getD i ⟨0, 0, 0, 0⟩
      let cells := (List.range' r.y0 (r.y1 - r.y0)).flatMap fun y =>
        (List.range' r.x0 (r.x1 - r.x0)).map fun x => p.cellNumber (x, y)
      cells.mergeSort
  else
    let lo := p.domainOff.getD i 0
    let hi := p.domainOff.getD (i + 1) 0
    if hi ≤ lo then []
    else
      let shift := domainShift p.order p.total
      let hLo := lo / 2 ^ shift
      let hHi := (hi - 1) / 2 ^ shift
      let cells := (List.range' hLo (hHi + 1 - hLo)).map fun h => p.cellNumber (d2xy p.order h)
      -- `std::unique`
      cells.mergeSort.destutter (· ≠ ·)

variable {p : Projection} {i : ℕ}

/-- The numbers of the cells are those of the rows and columns. -/
lemma Packed.Domain.cellNumber_eq (h : Packed.Domain p) {x y : ℕ} (hx : x < p.side)
    (hy : y < p.side) : p.cellNumber (x, y) = y * p.side + x := by
  have hle : p.side ≤ 2 ^ 12 := by
    rw [h.side_eq]
    exact Nat.pow_le_pow_right Nat.two_pos h.order_bounds.2
  apply u32_of_lt
  change y * p.side + x < 2 ^ 32
  have hmul : y * p.side ≤ 2 ^ 12 * 2 ^ 12 := Nat.mul_le_mul (hy.le.trans hle) hle
  omega

lemma Packed.Domain.cellNumber_inj (h : Packed.Domain p) {c c' : ℕ × ℕ}
    (hc : c.1 < p.side ∧ c.2 < p.side) (hc' : c'.1 < p.side ∧ c'.2 < p.side)
    (heq : p.cellNumber c = p.cellNumber c') : c = c' := by
  have hpos : 0 < p.side := Nat.zero_lt_of_lt hc.1
  rw [show c = (c.1, c.2) from rfl, show c' = (c'.1, c'.2) from rfl, h.cellNumber_eq hc.1 hc.2,
    h.cellNumber_eq hc'.1 hc'.2] at heq
  have hmod := congrArg (· % p.side) heq
  have hdiv := congrArg (· / p.side) heq
  rw [Nat.mul_add_mod_self_right, Nat.mul_add_mod_self_right, Nat.mod_eq_of_lt hc.1,
    Nat.mod_eq_of_lt hc'.1] at hmod
  rw [Nat.add_div_of_dvd_right (Nat.dvd_mul_left _ _), Nat.div_eq_of_lt hc.1,
    Nat.mul_div_cancel _ hpos, Nat.add_div_of_dvd_right (Nat.dvd_mul_left _ _),
    Nat.div_eq_of_lt hc'.1, Nat.mul_div_cancel _ hpos] at hdiv
  exact Prod.ext hmod hdiv

/-- Sorting and dropping repetitions of a list without any -/
lemma sort_unique_spec {l : List ℕ} (h : l.Nodup) :
    (l.mergeSort.destutter (· ≠ ·)).Pairwise (· < ·) ∧
      ∀ c, c ∈ l.mergeSort.destutter (· ≠ ·) ↔ c ∈ l := by
  have hperm : l.mergeSort.Perm l := List.mergeSort_perm l _
  have hnodup : l.mergeSort.Nodup := hperm.nodup_iff.2 h
  have hlt : l.mergeSort.Pairwise (· < ·) :=
    ((pairwise_mergeSort_key id l).and hnodup).imp fun hab => lt_of_le_of_ne hab.1 hab.2
  have hchain : l.mergeSort.IsChain (· ≠ ·) := List.Pairwise.isChain hnodup
  rw [List.destutter_of_isChain (· ≠ ·) _ hchain]
  exact ⟨hlt, fun c => hperm.mem_iff⟩

/-- The index is one of the region's: from its first byte's to its last byte's. -/
structure Run (p : Projection) (i h : ℕ) : Prop where
  lo_le : start p.lens i / 2 ^ domainShift p.order p.total ≤ h
  le_hi : h ≤ (start p.lens (i + 1) - 1) / 2 ^ domainShift p.order p.total

namespace Packed.Domain

lemma run_lt (h : Packed.Domain p) {j : ℕ} (hlen : 0 < (p.region i).len) (hrun : Run p i j) :
    j < 4 ^ p.order := by
  have hpos : 0 < start p.lens (i + 1) := by
    rw [start_succ, lens_getD]
    omega
  have hle : start p.lens (i + 1) ≤ p.lens.sum := start_le_sum
  exact hrun.le_hi.trans_lt (h.div_lt_plane (by omega))

lemma d2xy_lt (h : Packed.Domain p) {j : ℕ} (hj : j < 4 ^ p.order) :
    (d2xy p.order j).1 < p.side ∧ (d2xy p.order j).2 < p.side := by
  rw [d2xy_eq (h.order_bounds.2.trans (by decide)) hj, h.side_eq]
  exact Lib.Hilbert.inSquare_curve hj

/-- Different indices have cells of different numbers. -/
lemma cellNumber_d2xy_inj (h : Packed.Domain p) {j j' : ℕ} (hj : j < 4 ^ p.order)
    (hj' : j' < 4 ^ p.order)
    (heq : p.cellNumber (d2xy p.order j) = p.cellNumber (d2xy p.order j')) : j = j' := by
  have hle : p.order ≤ 32 := h.order_bounds.2.trans (by decide)
  have hcell := h.cellNumber_inj (h.d2xy_lt hj) (h.d2xy_lt hj') heq
  rw [d2xy_eq hle hj, d2xy_eq hle hj'] at hcell
  rw [← Lib.Hilbert.index_curve hj, hcell, Lib.Hilbert.index_curve hj']

lemma lt_length (hlen : 0 < (p.region i).len) : i < p.lens.length := by
  by_contra hge
  have hzero := lens_getD p i
  rw [List.getD_eq_default _ _ (Nat.le_of_not_lt hge)] at hzero
  omega

/-- On the Hilbert plane, the numbers of the run's cells in ascending order -/
lemma regionCells_spec (h : Packed.Domain p) (hlayout : p.layout = .hilbert)
    (hlen : 0 < (p.region i).len) :
    (p.regionCells i).Pairwise (· < ·) ∧
      ∀ c, c ∈ p.regionCells i ↔ ∃ j, Run p i j ∧ c = p.cellNumber (d2xy p.order j) := by
  have hi := lt_length hlen
  have hlength : p.regions.length = p.lens.length := (List.length_map _).symm
  have hoff : p.domainOff.length = p.lens.length + 1 := by
    rw [h.offsets, List.length_map, List.length_range]
  have hend : start p.lens (i + 1) = start p.lens i + (p.region i).len := by
    rw [start_succ, lens_getD]
  have hnext : p.domainOff.getD (i + 1) 0 = start p.lens (i + 1) := h.getD_domainOff hi
  rw [Projection.regionCells, if_neg (by omega), if_neg (by rw [hlayout]; decide)]
  dsimp only
  rw [h.getD_domainOff hi.le, hnext, if_neg (by omega)]
  have hle : start p.lens i / 2 ^ domainShift p.order p.total ≤
      (start p.lens (i + 1) - 1) / 2 ^ domainShift p.order p.total :=
    Nat.div_le_div_right (by omega)
  have hmem : ∀ j, j ∈ List.range' (start p.lens i / 2 ^ domainShift p.order p.total)
      ((start p.lens (i + 1) - 1) / 2 ^ domainShift p.order p.total + 1 -
        start p.lens i / 2 ^ domainShift p.order p.total) ↔ Run p i j := by
    intro j
    rw [List.mem_range'_1]
    exact ⟨fun hj => ⟨hj.1, by omega⟩, fun hj => ⟨hj.lo_le, by have := hj.le_hi; omega⟩⟩
  have hdistinct : (List.range' (start p.lens i / 2 ^ domainShift p.order p.total)
      ((start p.lens (i + 1) - 1) / 2 ^ domainShift p.order p.total + 1 -
        start p.lens i / 2 ^ domainShift p.order p.total)).Nodup := List.nodup_range'
  generalize List.range' (start p.lens i / 2 ^ domainShift p.order p.total)
      ((start p.lens (i + 1) - 1) / 2 ^ domainShift p.order p.total + 1 -
        start p.lens i / 2 ^ domainShift p.order p.total) = run at hmem hdistinct ⊢
  have hnodup : (run.map fun j => p.cellNumber (d2xy p.order j)).Nodup := by
    apply List.Nodup.map_on _ hdistinct
    intro j hj j' hj' heq
    exact h.cellNumber_d2xy_inj (h.run_lt hlen ((hmem j).1 hj)) (h.run_lt hlen ((hmem j').1 hj'))
      heq
  obtain ⟨hsorted, hcells⟩ := sort_unique_spec hnodup
  refine ⟨hsorted, fun c => ?_⟩
  rw [hcells, List.mem_map]
  constructor
  · rintro ⟨j, hj, rfl⟩
    exact ⟨j, (hmem j).1 hj, rfl⟩
  · rintro ⟨j, hj, rfl⟩
    exact ⟨j, (hmem j).2 hj, rfl⟩

end Packed.Domain

end Cells

section Image

variable {regions : List Region} {keepOrder : Bool} {p : Projection} {i : ℕ}

/-- The cells of a region are the cells of its addresses, and regions have their cells to
themselves as far as the plane allows. -/
structure CellsExact (p : Projection) : Prop where
  ascending : ∀ i < p.regions.length, (p.regionCells i).Pairwise (· < ·)
  image : ∀ i < p.regions.length, ∀ c, c ∈ p.regionCells i ↔
    ∃ addr < 2 ^ 64, (p.region i).Contains addr ∧ ∃ x < p.side, ∃ y < p.side,
      p.project addr = .ok (some (p.centre (x, y))) ∧ c = y * p.side + x
  disjoint : p.bytes ≤ p.side * p.side → ∀ i < p.regions.length, ∀ j < p.regions.length, i ≠ j →
    (p.regionCells i).Disjoint (p.regionCells j)
  shared : p.side * p.side < p.bytes → ∀ i < p.regions.length, ∀ j < p.regions.length, i ≠ j →
    ∀ c ∈ p.regionCells i, c ∈ p.regionCells j →
      ∀ c' ∈ p.regionCells i, c' ∈ p.regionCells j → c = c'

/-- The region ends within the address space, or its last byte there shares the cell of its very
last byte. -/
def Projection.Reached (p : Projection) (i : ℕ) : Prop :=
  (p.region i).base + (p.region i).len ≤ 2 ^ 64 ∨
    p.cellOf (start p.lens i + (2 ^ 64 - 1 - (p.region i).base)) =
      p.cellOf (start p.lens i + ((p.region i).len - 1))

instance (p : Projection) (i : ℕ) : Decidable (p.Reached i) :=
  inferInstanceAs (Decidable (_ ∨ _))

/-- How many bytes of a region have an address -/
def Projection.addressed (p : Projection) (i : ℕ) : ℕ :=
  min (p.region i).len (2 ^ 64 - (p.region i).base)

/-- The indices of a region's addresses are a run too. -/
lemma exists_addr_iff (hlen : 0 < (p.region i).len) (hbase : (p.region i).base < 2 ^ 64)
    {s : ℕ} (hs : 0 < s) (j : ℕ) :
    (∃ addr < 2 ^ 64, (p.region i).Contains addr ∧
        (start p.lens i + (addr - (p.region i).base)) / s = j) ↔
      start p.lens i / s ≤ j ∧ j ≤ (start p.lens i + (p.addressed i - 1)) / s := by
  have hpos : 0 < p.addressed i := by
    rw [Projection.addressed]
    omega
  constructor
  · rintro ⟨addr, haddr, ⟨hlo, hhi⟩, rfl⟩
    have hle : addr - (p.region i).base ≤ p.addressed i - 1 := by
      rw [Projection.addressed]
      omega
    exact ⟨Nat.div_le_div_right (Nat.le_add_right _ _), Nat.div_le_div_right (by omega)⟩
  · rintro ⟨hlo, hhi⟩
    rw [Nat.le_div_iff_mul_le hs] at hhi
    -- the first byte of the index, or of the region
    have hmax : max (start p.lens i) (j * s) / s = j := by
      rcases Nat.le_total (j * s) (start p.lens i) with hle | hle
      · rw [max_eq_left hle]
        exact hlo.antisymm ((Nat.le_div_iff_mul_le hs).2 hle)
      · rw [max_eq_right hle, Nat.mul_div_cancel _ hs]
    have hoff : max (start p.lens i) (j * s) - start p.lens i ≤ p.addressed i - 1 := by omega
    have hin : p.addressed i ≤ (p.region i).len ∧
        p.addressed i ≤ 2 ^ 64 - (p.region i).base := ⟨min_le_left _ _, min_le_right _ _⟩
    refine ⟨(p.region i).base + (max (start p.lens i) (j * s) - start p.lens i), by omega,
      ⟨by omega, by omega⟩, ?_⟩
    rw [Nat.add_sub_cancel_left, Nat.add_sub_cancel' (le_max_left _ _), hmax]

/-- Where an address of a region without empty neighbours goes -/
lemma Packed.project_of_contains (hp : Packed regions keepOrder p) (hdom : Packed.Domain p)
    (hlayout : p.layout = .hilbert) (hover : NonOverlapping regions)
    (hlens : ∀ j < p.regions.length, 0 < (p.region j).len) {addr : ℕ} (haddr : addr < 2 ^ 64)
    (hin : (p.region i).Contains addr) :
    p.project addr =
      .ok (some (p.centre (p.cellOf (start p.lens i + (addr - (p.region i).base))))) := by
  have hres := hp.resolve_eq hover
    (fun _ _ j hj hhide => absurd hhide.1 (Nat.ne_of_gt (hlens j hj))) hin
  rcases hp.project_cases hdom hlayout haddr with ⟨k, hk, -, heq⟩ | ⟨-, hnot⟩
  · obtain rfl := Option.some_injective _ (hk.symm.trans hres)
    exact heq
  · exact absurd hin (hnot i hres)

/-- The image of a region, by index -/
lemma Packed.image_iff (hp : Packed regions keepOrder p) (hdom : Packed.Domain p)
    (hlayout : p.layout = .hilbert) (hover : NonOverlapping regions)
    (hlens : ∀ j < p.regions.length, 0 < (p.region j).len) (hi : i < p.regions.length)
    (hbase : (p.region i).base < 2 ^ 64) (c : ℕ) :
    (∃ addr < 2 ^ 64, (p.region i).Contains addr ∧ ∃ x < p.side, ∃ y < p.side,
        p.project addr = .ok (some (p.centre (x, y))) ∧ c = y * p.side + x) ↔
      ∃ j, start p.lens i / 2 ^ domainShift p.order p.total ≤ j ∧
        j ≤ (start p.lens i + (p.addressed i - 1)) / 2 ^ domainShift p.order p.total ∧
        c = p.cellNumber (d2xy p.order j) := by
  have hside : p.side ≠ 0 := by
    rw [hdom.side_eq]
    positivity
  have hiff := @exists_addr_iff p i (hlens i hi) hbase (2 ^ domainShift p.order p.total)
    (by positivity)
  constructor
  · rintro ⟨addr, haddr, hin, x, hx, y, hy, hproj, rfl⟩
    rw [hp.project_of_contains hdom hlayout hover hlens haddr hin] at hproj
    have hcell := centre_injective hside (Option.some_injective _ (Except.ok.inj hproj))
    obtain ⟨hlo, hhi⟩ := (hiff _).1 ⟨addr, haddr, hin, rfl⟩
    refine ⟨_, hlo, hhi, ?_⟩
    rw [← hdom.cellNumber_eq hx hy, ← hcell]
    rfl
  · rintro ⟨j, hlo, hhi, rfl⟩
    obtain ⟨addr, haddr, hin, rfl⟩ := (hiff j).2 ⟨hlo, hhi⟩
    obtain ⟨hx, hy⟩ := hdom.cellOf_lt (owns_of_contains hin).lt_sum
    exact ⟨addr, haddr, hin, _, hx, _, hy,
      hp.project_of_contains hdom hlayout hover hlens haddr hin, hdom.cellNumber_eq hx hy⟩

/-- An index of two runs is the first one of the later region. -/
lemma Run.eq_of_lt {j h : ℕ} (hlt : i < j) (hi : Run p i h) (hj : Run p j h) :
    h = start p.lens j / 2 ^ domainShift p.order p.total := by
  have hmono : start p.lens (i + 1) ≤ start p.lens j := start_mono hlt
  have hdiv : (start p.lens (i + 1) - 1) / 2 ^ domainShift p.order p.total ≤
      start p.lens j / 2 ^ domainShift p.order p.total := Nat.div_le_div_right (by omega)
  exact (hi.le_hi.trans hdiv).antisymm hj.lo_le

/-- Two runs that share an index share no other, and none at all when every byte has its own. -/
lemma Run.shared {j h h' : ℕ} (hne : i ≠ j) (hi : Run p i h) (hj : Run p j h) (hi' : Run p i h')
    (hj' : Run p j h') : h = h' := by
  rcases Nat.lt_or_gt_of_ne hne with hlt | hgt
  · rw [hi.eq_of_lt hlt hj, hi'.eq_of_lt hlt hj']
  · rw [hj.eq_of_lt hgt hi, hj'.eq_of_lt hgt hi']

lemma Run.owns {h : ℕ} (hrun : Run p i h) (hlen : 0 < (p.region i).len)
    (hshift : domainShift p.order p.total = 0) : Owns p.lens h i := by
  have hlo := hrun.lo_le
  have hhi := hrun.le_hi
  rw [hshift, pow_zero, Nat.div_one] at hlo hhi
  refine ⟨hlo, ?_⟩
  rw [start_succ, lens_getD] at hhi ⊢
  omega

/-- The walk is exact for a region when the index of its last byte is that of an address. -/
lemma Packed.image_exact_iff (hp : Packed regions keepOrder p) (hdom : Packed.Domain p)
    (hlayout : p.layout = .hilbert) (hover : NonOverlapping regions)
    (hlens : ∀ j < p.regions.length, 0 < (p.region j).len) (hi : i < p.regions.length)
    (hbase : (p.region i).base < 2 ^ 64) :
    (∀ c, c ∈ p.regionCells i ↔
      ∃ addr < 2 ^ 64, (p.region i).Contains addr ∧ ∃ x < p.side, ∃ y < p.side,
        p.project addr = .ok (some (p.centre (x, y))) ∧ c = y * p.side + x) ↔ p.Reached i := by
  have hlen := hlens i hi
  have hend : start p.lens (i + 1) - 1 = start p.lens i + ((p.region i).len - 1) := by
    rw [start_succ, lens_getD]
    omega
  have hsum : start p.lens i + ((p.region i).len - 1) < p.lens.sum := by
    apply Owns.lt_sum
    apply owns_add
    rw [lens_getD]
    omega
  have hmem := (hdom.regionCells_spec hlayout hlen).2
  have himage := hp.image_iff hdom hlayout hover hlens hi hbase
  have hreached : p.Reached i ↔
      (start p.lens i + (p.addressed i - 1)) / 2 ^ domainShift p.order p.total =
        (start p.lens (i + 1) - 1) / 2 ^ domainShift p.order p.total := by
    rw [hend, Projection.Reached, Projection.addressed]
    by_cases hfits : (p.region i).base + (p.region i).len ≤ 2 ^ 64
    · rw [min_eq_left (by omega)]
      exact ⟨fun _ => rfl, fun _ => .inl hfits⟩
    · rw [min_eq_right (by omega), Nat.sub_right_comm]
      have hlt : start p.lens i + (2 ^ 64 - (p.region i).base - 1) < p.lens.sum := by omega
      constructor
      · rintro (hle | heq)
        · exact absurd hle hfits
        · exact hdom.cellNumber_d2xy_inj (hdom.div_lt_plane hlt) (hdom.div_lt_plane hsum)
            (congrArg _ heq)
      · exact fun heq => .inr (congrArg (d2xy p.order) heq)
  rw [hreached]
  constructor
  · intro hexact
    have hrun : Run p i ((start p.lens (i + 1) - 1) / 2 ^ domainShift p.order p.total) :=
      ⟨Nat.div_le_div_right (by omega), le_rfl⟩
    obtain ⟨j, -, hj, hnum⟩ := (himage _).1 ((hexact _).1 ((hmem _).2 ⟨_, hrun, rfl⟩))
    have hle : (start p.lens i + (p.addressed i - 1)) / 2 ^ domainShift p.order p.total ≤
        (start p.lens (i + 1) - 1) / 2 ^ domainShift p.order p.total := by
      have haddressed : p.addressed i ≤ (p.region i).len := min_le_left _ _
      exact Nat.div_le_div_right (by omega)
    have hjlt : j < 4 ^ p.order :=
      (hj.trans hle).trans_lt (hend ▸ hdom.div_lt_plane hsum)
    have heq := hdom.cellNumber_d2xy_inj (hdom.run_lt hlen hrun) hjlt hnum
    exact hle.antisymm (heq ▸ hj)
  · intro heq c
    rw [hmem, himage, heq]
    constructor
    · rintro ⟨j, hrun, rfl⟩
      exact ⟨j, hrun.lo_le, hrun.le_hi, rfl⟩
    · rintro ⟨j, hlo, hhi, rfl⟩
      exact ⟨j, ⟨hlo, hhi⟩, rfl⟩

/-- The cells of every region are exact when no region runs past the end of the address space, but
for bytes that share their cell with an address. -/
theorem region_cells_exact_iff (regions : List Region) (keepOrder : Bool) (p : Projection)
    (hp : Packed regions keepOrder p) (hlayout : p.layout = .hilbert)
    (hwords : ∀ r ∈ regions, r.base < 2 ^ 64) (hpos : ∀ r ∈ regions, 0 < r.len)
    (hover : NonOverlapping regions) (hsum : (regions.map Region.len).sum < 2 ^ 64) :
    CellsExact p ↔ ∀ i < p.regions.length, p.Reached i := by
  have hdom := hp.domain hsum
  have hregion : ∀ {i}, i < p.regions.length → p.region i ∈ regions := fun {i} hi => by
    rw [Projection.region, List.getD_eq_getElem _ _ hi]
    exact hp.perm.mem_iff.1 (List.getElem_mem hi)
  have hlens : ∀ j < p.regions.length, 0 < (p.region j).len := fun j hj => hpos _ (hregion hj)
  have hspec := fun i (hi : i < p.regions.length) =>
    hdom.regionCells_spec hlayout (hlens i hi)
  have hiff := fun i (hi : i < p.regions.length) =>
    hp.image_exact_iff hdom hlayout hover hlens hi (hwords _ (hregion hi))
  have hplane : p.side * p.side = 4 ^ p.order := by
    rw [hdom.side_eq]
    exact (mul_pow 2 2 p.order).symm
  constructor
  · exact fun hexact i hi => (hiff i hi).1 (hexact.image i hi)
  · intro hreached
    refine ⟨fun i hi => (hspec i hi).1, fun i hi => (hiff i hi).2 (hreached i hi),
      fun hfit i hi j hj hne c hci hcj => ?_, fun _ i hi j hj hne c hci hcj c' hci' hcj' => ?_⟩
    · obtain ⟨h, hrun, rfl⟩ := ((hspec i hi).2 c).1 hci
      obtain ⟨h', hrun', hnum⟩ := ((hspec j hj).2 _).1 hcj
      have heq := hdom.cellNumber_d2xy_inj (hdom.run_lt (hlens i hi) hrun)
        (hdom.run_lt (hlens j hj) hrun') hnum
      obtain rfl := heq
      have hshift : domainShift p.order p.total = 0 := by
        obtain ⟨hlo, hhi⟩ := hdom.order_bounds
        apply (domainShift_spec (by omega) hhi (hdom.total ▸ hdom.sum_lt)).2.2
        rw [hdom.total, ← hplane]
        exact hfit
      exact hne ((hrun.owns (hlens i hi) hshift).unique (hrun'.owns (hlens j hj) hshift))
    · obtain ⟨h, hrun, rfl⟩ := ((hspec i hi).2 c).1 hci
      obtain ⟨h₂, hrun₂, hnum⟩ := ((hspec j hj).2 _).1 hcj
      obtain ⟨h', hrun', rfl⟩ := ((hspec i hi).2 c').1 hci'
      obtain ⟨h₂', hrun₂', hnum'⟩ := ((hspec j hj).2 _).1 hcj'
      obtain rfl := hdom.cellNumber_d2xy_inj (hdom.run_lt (hlens i hi) hrun)
        (hdom.run_lt (hlens j hj) hrun₂) hnum
      obtain rfl := hdom.cellNumber_d2xy_inj (hdom.run_lt (hlens i hi) hrun')
        (hdom.run_lt (hlens j hj) hrun₂') hnum'
      rw [Run.shared hne hrun hrun₂ hrun' hrun₂']

theorem region_cells_exact_gapSample : CellsExact gapSample :=
  (region_cells_exact_iff [⟨12288, 5000⟩, ⟨4096, 100⟩] false gapSample
    ⟨by decide, by decide, by decide, by decide, by decide, by decide, by decide⟩ rfl (by decide)
    (by decide) (nonOverlapping_pair (by decide)) (by decide)).2 fun i hi => by
      have hlt : i < 2 := hi
      interval_cases i
      · exact .inl (by decide)
      · exact .inl (by decide)

/-- A region whose second byte lies past the last address -/
def topSample : Projection where
  regions := [⟨2 ^ 64 - 1, 2⟩]
  order := 6
  domainOff := [0, 2]
  byBase := [0]
  layout := .hilbert

/-- The cell of the byte that has no address is among the cells of the region. -/
theorem region_cells_past_end :
    Packed [⟨2 ^ 64 - 1, 2⟩] false topSample ∧ NonOverlapping [⟨2 ^ 64 - 1, 2⟩] ∧
      ¬CellsExact topSample := by
  have hpacked : Packed [⟨2 ^ 64 - 1, 2⟩] false topSample :=
    ⟨by decide, by decide, by decide, by decide, by decide, by decide, by decide⟩
  have hover : NonOverlapping [⟨2 ^ 64 - 1, 2⟩] := List.pairwise_singleton _ _
  have hmem : 1 ∈ topSample.regionCells 0 :=
    (((hpacked.domain (by decide)).regionCells_spec rfl (by decide)).2 1).2
      ⟨1, ⟨by decide, by decide⟩, by decide⟩
  refine ⟨hpacked, hover, fun hexact => ?_⟩
  obtain ⟨addr, haddr, ⟨hlo, -⟩, x, -, y, -, hproj, hc⟩ :=
    (hexact.image 0 (by decide) 1).1 hmem
  obtain rfl : addr = 2 ^ 64 - 1 := by
    change 2 ^ 64 - 1 ≤ addr at hlo
    omega
  have hfirst : topSample.project (2 ^ 64 - 1) = .ok (some (topSample.centre (0, 0))) := rfl
  have hcell := centre_injective (show topSample.side ≠ 0 by decide)
    (Option.some_injective _ (Except.ok.inj (hfirst.symm.trans hproj)))
  cases hcell
  exact absurd hc (by decide)

end Image

end AsmTest.Space
