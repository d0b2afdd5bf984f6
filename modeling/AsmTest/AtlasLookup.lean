import AsmTest.AtlasLayout

/-!
# Addresses and cells of the atlas

Inside a rectangle the cells are walked in a serpentine, a block of bytes for each. An address goes
to a cell of its region's rectangle, and that cell leads back to the region and to the first byte
of the block.
-/

namespace AsmTest.Space

open Lib

section Cells

variable {w row col : ℕ}

lemma serpentine_lt (hw : w ≤ maxSide) (hcol : col < w) : serpentine w row col < w := by
  rw [maxSide] at hw
  rw [serpentine]
  split_ifs
  · rw [sub32_of_le (show 1 ≤ w by omega) (by omega), sub32_of_le (show col ≤ w - 1 by omega)
      (by omega)]
    omega
  · exact hcol

/-- The mirrored rows are their own inverse. -/
lemma serpentine_serpentine (hw : w ≤ maxSide) (hcol : col < w) :
    serpentine w row (serpentine w row col) = col := by
  rw [maxSide] at hw
  rw [serpentine, serpentine]
  split_ifs
  · rw [sub32_of_le (show 1 ≤ w by omega) (by omega), sub32_of_le (show col ≤ w - 1 by omega)
      (by omega), sub32_of_le (by omega) (by omega)]
    omega
  · rfl

lemma atlasCells_eq {r : AtlasRect} (h : RectOk r) : atlasCells r = area r := by
  obtain ⟨hw, hh⟩ := h.sub_eq
  rw [atlasCells, hw, hh, h.u64_area]

/-- The cell of a block lies in the rectangle and has the block's number. -/
lemma atlasCell_spec {r : AtlasRect} (h : RectOk r) {k : ℕ} (hk : k < area r) :
    ∃ x y, atlasCell r k = .ok (x, y) ∧ r.Contains x y ∧ atlasOrdinal r x y = k := by
  obtain ⟨hw, -⟩ := h.sub_eq
  have hwmax := h.alongOf_le true
  have hpos : 0 < r.x1 - r.x0 := by
    rw [area] at hk
    exact Nat.pos_of_mul_pos_right (Nat.zero_lt_of_lt hk)
  have hwidth : alongOf r true = r.x1 - r.x0 := rfl
  have hrow : k / (r.x1 - r.x0) < r.y1 - r.y0 := by
    rw [Nat.div_lt_iff_lt_mul hpos, Nat.mul_comm]
    exact hk
  have hcol : k % (r.x1 - r.x0) < r.x1 - r.x0 := Nat.mod_lt _ hpos
  have hk' : (k / (r.x1 - r.x0)) * (r.x1 - r.x0) + k % (r.x1 - r.x0) = k := by
    rw [Nat.mul_comm]
    exact Nat.div_add_mod k (r.x1 - r.x0)
  have hkmax : k < 2 ^ 64 := by
    have hle := h.area_le
    rw [maxSide] at hle
    omega
  obtain ⟨hx, hy, hright, hbottom⟩ := h
  rw [maxSide] at hright hbottom
  rw [atlasCell, hw, hwidth]
  dsimp only
  rw [if_neg hpos.ne']
  generalize k / (r.x1 - r.x0) = row at *
  generalize k % (r.x1 - r.x0) = col at *
  have hserp := @serpentine_lt _ row _ (hwidth ▸ hwmax) hcol
  have hback := @serpentine_serpentine _ row _ (hwidth ▸ hwmax) hcol
  rw [u32_of_lt (show row < 2 ^ 32 by omega), u32_of_lt (show col < 2 ^ 32 by omega),
    u32_of_lt (by omega), u32_of_lt (by omega)]
  refine ⟨_, _, rfl, ⟨Nat.le_add_right _ _, by omega, Nat.le_add_right _ _, by omega⟩, ?_⟩
  rw [atlasOrdinal, hw, hwidth, sub32_of_le (Nat.le_add_right _ _) (by omega),
    sub32_of_le (Nat.le_add_right _ _) (by omega), Nat.add_sub_cancel_left,
    Nat.add_sub_cancel_left, hback, hk', u64_of_lt hkmax]

/-- The blocks of all cells hold the region. -/
lemma atlasBytesPerCell_spec {len cells : ℕ} (hlen : len ≤ 2 ^ 63) (hpos : 0 < cells)
    (hcells : cells ≤ maxSide * maxSide) :
    0 < atlasBytesPerCell len cells ∧ len ≤ atlasBytesPerCell len cells * cells := by
  rw [maxSide] at hcells
  rw [atlasBytesPerCell, if_neg hpos.ne']
  dsimp only
  rw [u64_of_lt (by omega)]
  have hdiv := Nat.lt_div_mul_add (a := len + cells - 1) hpos
  split_ifs with hzero
  · exact ⟨Nat.pos_of_ne_zero hzero, by omega⟩
  · rw [not_not.1 hzero, Nat.zero_mul] at hdiv
    omega

end Cells

section Lookup

variable {p : Projection} {ref : ℤ} {blank : List AtlasRect} {t : Bsp ℕ ℕ}

/-- The layout of a projection is the one that the tree describes. -/
structure Mapped (p : Projection) (t : Bsp ℕ ℕ) : Prop where
  layout : p.layout = .atlas
  regions : p.regions ≠ []
  length : p.rects.length = p.regions.length
  side : p.side ≤ maxSide
  fits : t.Fits ⟨0, 0, p.side, p.side⟩
  names : (t.pieces ⟨0, 0, p.side, p.side⟩).map Prod.fst = List.range p.regions.length
  placed : ∀ q ∈ t.pieces ⟨0, 0, p.side, p.side⟩, p.rects[q.1]? = some q.2
  regionAt : ∀ x y, p.regionAt x y = .ok (t.find x y)

lemma Laid.regionAt
    (h : Laid 0 p.regions.length ⟨0, 0, p.side, p.side⟩ blank [] ref p.rects p.nodes t)
    (x y : ℕ) : p.regionAt x y = .ok (t.find x y) := by
  have hdepth := h.depth
  rw [Projection.regionAt]
  split_ifs with htwo
  · have href : ref = 0 := h.root htwo
    have hdesc := descend_encodes x y h.encodes href.ge
      (show t.depth ≤ p.regions.length by omega)
    rwa [href] at hdesc
  · -- a single region: the tree is a leaf
    have hone : p.regions.length - 0 = 1 := by omega
    rw [hone] at hdepth
    have hnames := h.names
    rw [hone] at hnames
    cases t with
    | leaf i => exact congrArg Except.ok (List.cons.inj hnames).1.symm
    | node inX cut lo hi =>
      rw [Bsp.depth] at hdepth
      omega

lemma Laid.mapped
    (h : Laid 0 p.regions.length ⟨0, 0, p.side, p.side⟩ blank [] ref p.rects p.nodes t)
    (hblank : blank.length = p.regions.length) (hlayout : p.layout = .atlas)
    (hne : p.regions ≠ []) (hside : p.side ≤ maxSide) : Mapped p t where
  layout := hlayout
  regions := hne
  length := h.length.trans hblank
  side := hside
  fits := h.fits
  names := by rw [h.names, Nat.sub_zero, List.range_eq_range']
  placed := h.placed
  regionAt := h.regionAt

namespace Mapped

/-- Every rectangle is a piece of the tree. -/
lemma mem_pieces (h : Mapped p t) {i : ℕ} {r : AtlasRect} (hr : p.rects[i]? = some r) :
    (i, r) ∈ t.pieces ⟨0, 0, p.side, p.side⟩ := by
  have hlt : i < p.regions.length := h.length ▸ (List.getElem?_eq_some_iff.1 hr).1
  have hmem : i ∈ (t.pieces ⟨0, 0, p.side, p.side⟩).map Prod.fst := by
    rw [h.names]
    exact List.mem_range.2 hlt
  obtain ⟨⟨j, r'⟩, hq, rfl⟩ := List.mem_map.1 hmem
  have hr' := h.placed _ hq
  rw [hr] at hr'
  cases hr'
  exact hq

lemma find_eq (h : Mapped p t) {i : ℕ} {r : AtlasRect} (hr : p.rects[i]? = some r) {x y : ℕ}
    (hxy : r.Contains x y) : i = t.find x y ∧ x < p.side ∧ y < p.side := by
  obtain ⟨hname, -, hx, -, hy⟩ := Bsp.eq_find_of_contains h.fits (h.mem_pieces hr) hxy
  exact ⟨hname, hx, hy⟩

lemma exists_rect (h : Mapped p t) {x y : ℕ} (hx : x < p.side) (hy : y < p.side) :
    ∃ r, p.rects[t.find x y]? = some r ∧ r.Contains x y := by
  have hin : (⟨0, 0, p.side, p.side⟩ : AtlasRect).Contains x y :=
    ⟨Nat.zero_le x, hx, Nat.zero_le y, hy⟩
  obtain ⟨c, hc, hxy⟩ := Bsp.find_mem_pieces h.fits hin
  exact ⟨c, h.placed _ hc, hxy⟩

lemma proper (h : Mapped p t) {i : ℕ} {r : AtlasRect} (hr : p.rects[i]? = some r) : r.Proper :=
  Bsp.proper_of_mem_pieces h.fits (h.mem_pieces hr)

/-- A rectangle lies in the plane, as its corners do. -/
lemma rectOk (h : Mapped p t) {i : ℕ} {r : AtlasRect} (hr : p.rects[i]? = some r) : RectOk r := by
  obtain ⟨hx, hy⟩ := h.proper hr
  have hside := h.side
  obtain ⟨-, hright, hbottom⟩ := h.find_eq hr
    (show r.Contains (r.x1 - 1) (r.y1 - 1) from ⟨by omega, by omega, by omega, by omega⟩)
  exact ⟨hx.le, hy.le, by omega, by omega⟩

lemma area_pos (h : Mapped p t) {i : ℕ} {r : AtlasRect} (hr : p.rects[i]? = some r) :
    0 < area r := by
  obtain ⟨hx, hy⟩ := h.proper hr
  exact Nat.mul_pos (Nat.sub_pos_of_lt hx) (Nat.sub_pos_of_lt hy)

end Mapped

/-- The centre of a cell is in the cell. -/
lemma floor_centre {n x : ℕ} (hx : x < n) :
    ⌊((x : ℚ) + 1 / 2) / n * n⌋₊ = x ∧ 0 ≤ ((x : ℚ) + 1 / 2) / n ∧ ((x : ℚ) + 1 / 2) / n < 1 := by
  have hn : (0 : ℚ) < n := by exact_mod_cast Nat.zero_lt_of_lt hx
  have hx' : (x : ℚ) + 1 ≤ n := by exact_mod_cast hx
  refine ⟨?_, by positivity, ?_⟩
  · rw [div_mul_cancel₀ _ hn.ne']
    exact (Nat.floor_eq_iff (by positivity)).2 ⟨by linarith, by linarith⟩
  · rw [div_lt_one hn]
    linarith

lemma unproject_centre (hne : p.regions ≠ []) {x y : ℕ} (hx : x < p.side) (hy : y < p.side) :
    p.unproject (p.centre (x, y)).1 (p.centre (x, y)).2 = p.unprojectCell x y := by
  obtain ⟨hfx, hx0, hx1⟩ := floor_centre hx
  obtain ⟨hfy, hy0, hy1⟩ := floor_centre hy
  rw [Projection.unproject, if_neg hne, Projection.centre]
  dsimp only
  rw [if_neg (by
    rintro (h | h | h | h)
    · exact absurd hx0 (not_le.2 h)
    · exact absurd hx1 (not_lt.2 h)
    · exact absurd hy0 (not_le.2 h)
    · exact absurd hy1 (not_lt.2 h)), hfx, hfy, Nat.min_eq_left (by omega),
    Nat.min_eq_left (by omega)]

/-- An address is placed in the rectangle of its region, and the cell leads back to the first byte
of its block. -/
lemma Mapped.project_unproject (h : Mapped p t) {addr i : ℕ} {reg : Region} (haddr : addr < 2 ^ 64)
    (hlen : reg.len ≤ 2 ^ 63) (hres : p.resolve addr = some i) (hreg : p.regions[i]? = some reg)
    (hlo : reg.base ≤ addr) (hhi : addr < reg.base + reg.len) :
    ∃ r x y, p.rects[i]? = some r ∧ r.Contains x y ∧
      p.project addr = .ok (some (p.centre (x, y))) ∧
      p.unproject (p.centre (x, y)).1 (p.centre (x, y)).2 =
        .ok (some (reg.base + (addr - reg.base) / atlasBytesPerCell reg.len (atlasCells r) *
          atlasBytesPerCell reg.len (atlasCells r), i)) := by
  have hi : i < p.rects.length := h.length ▸ (List.getElem?_eq_some_iff.1 hreg).1
  obtain ⟨r, hr⟩ : ∃ r, p.rects[i]? = some r := ⟨_, List.getElem?_eq_getElem hi⟩
  have hrok := h.rectOk hr
  obtain ⟨hbpc, hblocks⟩ := atlasBytesPerCell_spec hlen (h.area_pos hr) hrok.area_le
  have hcells := atlasCells_eq hrok
  have hregD : p.regions.getD i ⟨0, 0⟩ = reg := by
    rw [List.getD_eq_getElem?_getD, hreg, Option.getD_some]
  have hrectD : p.rects.getD i ⟨0, 0, 0, 0⟩ = r := by
    rw [List.getD_eq_getElem?_getD, hr, Option.getD_some]
  have hsub : sub64 addr reg.base = addr - reg.base := sub64_of_le hlo haddr
  generalize hb : atlasBytesPerCell reg.len (area r) = bpc at *
  have hk : (addr - reg.base) / bpc < area r := by
    rw [Nat.div_lt_iff_lt_mul hbpc, Nat.mul_comm]
    omega
  have hoff : (addr - reg.base) / bpc * bpc ≤ addr - reg.base := Nat.div_mul_le_self _ _
  obtain ⟨x, y, hcell, hxy, hord⟩ := atlasCell_spec hrok hk
  obtain ⟨hfind, hx, hy⟩ := h.find_eq hr hxy
  refine ⟨r, x, y, hr, hxy, ?_, ?_⟩
  · rw [Projection.project, if_neg h.regions, hres]
    dsimp only
    rw [hregD, hrectD, hsub, if_neg (by omega), if_pos ⟨h.layout, hi⟩, hcells, hb, hcell]
    rfl
  · rw [unproject_centre h.regions hx hy, Projection.unprojectCell, if_pos h.layout,
      if_neg (List.ne_nil_of_length_pos (Nat.zero_lt_of_lt hi)), h.regionAt, ← hfind]
    dsimp only
    rw [hregD, hrectD, hcells, hb, hord, u64_of_lt (by omega), if_neg (by omega),
      u64_of_lt (by omega)]

/-- No lookup does what a program must not do. -/
lemma Mapped.faultFree (h : Mapped p t) :
    (∀ addr, ∃ o, p.project addr = .ok o) ∧ ∀ u v, ∃ o, p.unproject u v = .ok o := by
  constructor
  · intro addr
    rw [Projection.project, if_neg h.regions]
    cases hres : p.resolve addr with
    | none => exact ⟨_, rfl⟩
    | some i =>
      dsimp only
      split_ifs with hgap hatlas
      · exact ⟨_, rfl⟩
      · obtain ⟨r, hr⟩ : ∃ r, p.rects[i]? = some r := ⟨_, List.getElem?_eq_getElem hatlas.2⟩
        have hrectD : p.rects.getD i ⟨0, 0, 0, 0⟩ = r := by
          rw [List.getD_eq_getElem?_getD, hr, Option.getD_some]
        have hwidth : sub32 r.x1 r.x0 ≠ 0 := by
          rw [(h.rectOk hr).sub_eq.1]
          exact (Nat.sub_pos_of_lt (h.proper hr).1).ne'
        rw [hrectD, atlasCell]
        dsimp only
        rw [if_neg hwidth]
        exact ⟨_, rfl⟩
      · exact ⟨_, rfl⟩
  · intro u v
    rw [Projection.unproject, if_neg h.regions]
    split_ifs
    · exact ⟨_, rfl⟩
    · rw [Projection.unprojectCell, if_pos h.layout]
      split_ifs
      · exact ⟨_, rfl⟩
      · rw [h.regionAt]
        exact ⟨_, rfl⟩

/-- What the atlas promises about a projection that is laid out -/
structure AtlasOk (p : Projection) : Prop where
  layout : p.layout = .atlas
  length : p.rects.length = p.regions.length
  nonempty : ∀ r ∈ p.rects, r.Proper
  disjoint : ∀ (i j : ℕ) (r r' : AtlasRect), p.rects[i]? = some r → p.rects[j]? = some r' →
    ∀ x y, r.Contains x y → r'.Contains x y → i = j
  cover : ∀ x y, (∃ r ∈ p.rects, r.Contains x y) ↔ x < p.side ∧ y < p.side
  descent : ∀ x y, x < p.side → y < p.side →
    ∃ i r, p.regionAt x y = .ok i ∧ p.rects[i]? = some r ∧ r.Contains x y
  roundTrip : ∀ addr < 2 ^ 64, ∀ i reg, p.resolve addr = some i → p.regions[i]? = some reg →
    reg.base ≤ addr → addr < reg.base + reg.len →
    ∃ r x y, p.rects[i]? = some r ∧ r.Contains x y ∧
      p.project addr = .ok (some (p.centre (x, y))) ∧
      p.unproject (p.centre (x, y)).1 (p.centre (x, y)).2 =
        .ok (some (reg.base + (addr - reg.base) / atlasBytesPerCell reg.len (atlasCells r) *
          atlasBytesPerCell reg.len (atlasCells r), i))
  faultFree : (∀ addr, ∃ o, p.project addr = .ok o) ∧ ∀ u v, ∃ o, p.unproject u v = .ok o

lemma Mapped.atlasOk (h : Mapped p t) (hmax : ∀ reg ∈ p.regions, reg.len ≤ 2 ^ 63) :
    AtlasOk p where
  layout := h.layout
  length := h.length
  nonempty r hr := by
    obtain ⟨i, hi⟩ := List.getElem?_of_mem hr
    exact h.proper hi
  disjoint i j r r' hr hr' x y hxy hxy' :=
    (h.find_eq hr hxy).1.trans (h.find_eq hr' hxy').1.symm
  cover x y := by
    constructor
    · rintro ⟨r, hr, hxy⟩
      obtain ⟨i, hi⟩ := List.getElem?_of_mem hr
      exact (h.find_eq hi hxy).2
    · rintro ⟨hx, hy⟩
      obtain ⟨r, hr, hxy⟩ := h.exists_rect hx hy
      exact ⟨r, List.mem_of_getElem? hr, hxy⟩
  descent x y hx hy := by
    obtain ⟨r, hr, hxy⟩ := h.exists_rect hx hy
    exact ⟨_, r, h.regionAt x y, hr, hxy⟩
  roundTrip addr haddr i reg hres hreg hlo hhi :=
    h.project_unproject haddr (hmax reg (List.mem_of_getElem? hreg)) hres hreg hlo hhi
  faultFree := h.faultFree

/-- The atlas layout tiles the plane exactly and decodes every address. -/
theorem rebuildLayout_atlasOk (p : Projection) (hp : p.Built) (hlayout : p.layout = .atlas)
    (hne : p.regions ≠ []) (hpos : 0 < p.bytes) (hmax : p.bytes ≤ 2 ^ 63)
    (hfit : p.regions.length ≤ 4 ^ p.order) :
    ∃ p', rebuildLayout p = .ok p' ∧ p'.regions = p.regions ∧ p'.order = p.order ∧
      p'.byBase = p.byBase ∧ AtlasOk p' := by
  obtain ⟨ref, rects, nodes, t, heq, hlaid⟩ := hp.rebuildLayout_eq hlayout hne hpos hmax hfit
  have hmapped : Mapped { p with rects, nodes } t :=
    @Laid.mapped { p with rects, nodes } ref _ t hlaid List.length_replicate hlayout hne
      hp.side_eq.2
  refine ⟨_, heq, rfl, rfl, rfl, hmapped.atlasOk fun reg hreg => ?_⟩
  exact (List.single_le_sum (fun _ _ => Nat.zero_le _) _ (List.mem_map_of_mem hreg)).trans hmax

/-- Two short regions with an empty one between them -/
def projectionSample : Projection where
  regions := [⟨4096, 100⟩, ⟨8192, 0⟩, ⟨12288, 5000⟩]
  order := 7
  domainOff := [0, 100, 100, 5100]
  byBase := [0, 1, 2]

theorem rebuildLayout_projectionSample :
    ∃ p', rebuildLayout projectionSample = .ok p' ∧ p'.regions = projectionSample.regions ∧
      p'.order = projectionSample.order ∧ p'.byBase = projectionSample.byBase ∧ AtlasOk p' :=
  rebuildLayout_atlasOk projectionSample ⟨by decide, by decide⟩ rfl (by decide) (by decide)
    (by decide) (by decide)

lemma orderFor_le (total : ℕ) : orderFor total ≤ 12 := by
  rw [orderFor]
  cases h : (List.range' 6 6).find? fun order => total ≤ 2 ^ (2 * order) with
  | none => exact le_refl _
  | some order =>
    have hmem := List.mem_of_find?_eq_some h
    rw [List.mem_range'_1] at hmem
    rw [Option.getD_some]
    omega

lemma rebuildLayout_keeps {p p' : Projection} (h : rebuildLayout p = .ok p') :
    p'.regions = p.regions ∧ p'.order = p.order ∧ p'.domainOff = p.domainOff := by
  rw [rebuildLayout] at h
  dsimp only at h
  split_ifs at h
  · cases h
    exact ⟨rfl, rfl, rfl⟩
  · cases h
    exact ⟨rfl, rfl, rfl⟩
  · split at h
    · cases h
    · cases h
      exact ⟨rfl, rfl, rfl⟩
    · cases h
      exact ⟨rfl, rfl, rfl⟩

/-- Every projection that is built is set up so. -/
theorem buildProjection_built {regions : List Region} {keepOrder : Bool} {p : Projection}
    (h : buildProjection regions keepOrder = .ok p) : p.Built := by
  rw [buildProjection] at h
  obtain ⟨hregions, horder, hoff⟩ := rebuildLayout_keeps h
  constructor
  · rw [horder]
    exact orderFor_le _
  · rw [hoff, hregions]

end Lookup

end AsmTest.Space
