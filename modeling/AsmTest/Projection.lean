import AsmTest.Lib.Bsp
import Mathlib.Data.Rat.Floor
import Mathlib.Data.List.Sort

/-!
# The projection of the address space

Regions are packed into one domain, and the domain is laid out on a square of cells: along a
Hilbert curve, or as an atlas in which every region has a rectangle of its own. A plane coordinate
is a fraction of a power of two with few digits, so the `float` arithmetic on it is exact and the
coordinates are rational numbers here.
-/

namespace AsmTest.Space

open Lib (Box coord)

/-- What a C program must not do -/
inductive Fault where
  | divideByZero
  | outOfBounds
  | unfinished
deriving DecidableEq, Repr

section Words

def u32 (n : ℕ) : ℕ := n % 2 ^ 32

def u64 (n : ℕ) : ℕ := n % 2 ^ 64

/-- `a - b` on unsigned words -/
def sub32 (a b : ℕ) : ℕ := (a + 2 ^ 32 - b) % 2 ^ 32

def sub64 (a b : ℕ) : ℕ := (a + 2 ^ 64 - b) % 2 ^ 64

lemma u32_of_lt {n : ℕ} (h : n < 2 ^ 32) : u32 n = n :=
  Nat.mod_eq_of_lt h

lemma u64_of_lt {n : ℕ} (h : n < 2 ^ 64) : u64 n = n :=
  Nat.mod_eq_of_lt h

lemma sub32_of_le {a b : ℕ} (h : b ≤ a) (ha : a < 2 ^ 32) : sub32 a b = a - b := by
  rw [sub32]
  omega

lemma sub64_of_le {a b : ℕ} (h : b ≤ a) (ha : a < 2 ^ 64) : sub64 a b = a - b := by
  rw [sub64]
  omega

end Words

structure Region where
  base : ℕ
  len : ℕ
deriving DecidableEq, Repr

abbrev AtlasRect := Box ℕ

structure AtlasNode where
  cut : ℕ := 0
  axis : ℕ := 0
  lo : ℤ := 0
  hi : ℤ := 0
deriving DecidableEq, Repr

inductive Layout where
  | hilbert
  | atlas
deriving DecidableEq, Repr

structure Projection where
  /-- In domain order -/
  regions : List Region := []
  order : ℕ := 0
  domainOff : List ℕ := []
  /-- Indices into `regions`, by base -/
  byBase : List ℕ := []
  layout : Layout := .atlas
  rects : List AtlasRect := []
  nodes : List AtlasNode := []
deriving DecidableEq, Repr

section Hilbert

/-- One level of the curve, from the finest up -/
def d2xyStep (st : ℕ × ℕ × ℕ) (s : ℕ) : ℕ × ℕ × ℕ :=
  let (x, y, t) := st
  let rx := t / 2 % 2
  let ry := (t ^^^ rx) % 2
  let (x, y) :=
    if ry = 0 then
      if rx = 1 then (sub32 (sub32 s 1) y, sub32 (sub32 s 1) x) else (y, x)
    else (x, y)
  (u32 (x + s * rx), u32 (y + s * ry), t / 4)

def d2xy (order d : ℕ) : ℕ × ℕ :=
  let r := ((List.range order).map (2 ^ ·)).foldl d2xyStep (0, 0, d)
  (r.1, r.2.1)

def xy2dStep (st : ℕ × ℕ × ℕ) (s : ℕ) : ℕ × ℕ × ℕ :=
  let (d, x, y) := st
  let rx := if x &&& s ≠ 0 then 1 else 0
  let ry := if y &&& s ≠ 0 then 1 else 0
  let d := u64 (d + s * s * ((3 * rx) ^^^ ry))
  if ry = 0 then
    if rx = 1 then (d, sub32 (sub32 s 1) y, sub32 (sub32 s 1) x) else (d, y, x)
  else (d, x, y)

def xy2d (order x y : ℕ) : ℕ :=
  (((List.range order).map (2 ^ ·)).reverse.foldl xy2dStep (0, x, y)).1

/-- The bits to drop so that the domain fits the plane -/
def domainShift (order total : ℕ) : ℕ :=
  if total = 0 then 0
  else ((List.range 64).find? fun shift => (total - 1) / 2 ^ shift < 2 ^ (2 * order)).getD 64

end Hilbert

section Atlas

/-- Halve the denominator and the shift together until the product fits. -/
def planeBoundaryLoop (p : ℕ) : ℕ → ℕ → ℕ × ℕ
  | 0, total => (0, total)
  | s + 1, total =>
    if p ≠ 0 ∧ p / 2 ^ (64 - (s + 1)) ≠ 0 then planeBoundaryLoop p s (total / 2 + total % 2)
    else (s + 1, total)

/-- `floor(plane * p / total)` without a product of 128 bits -/
def planeBoundary (order p total : ℕ) : ℕ :=
  if total = 0 then 0
  else
    let (s, total) := planeBoundaryLoop p (2 * order) total
    if total ≠ 0 then u64 (p * 2 ^ s) / total else 0

/-- At least one: a rectangle can have more cells than its region has bytes. -/
def atlasBytesPerCell (len cells : ℕ) : ℕ :=
  if cells = 0 then 1
  else
    let bpc := u64 (len + cells - 1) / cells
    if bpc ≠ 0 then bpc else 1

/-- Odd rows run from right to left. -/
def serpentine (w row col : ℕ) : ℕ :=
  if row % 2 = 1 then sub32 (sub32 w 1) col else col

def atlasCell (r : AtlasRect) (k : ℕ) : Except Fault (ℕ × ℕ) :=
  let w := sub32 r.x1 r.x0
  if w = 0 then .error .divideByZero
  else
    let row := u32 (k / w)
    .ok (u32 (r.x0 + serpentine w row (u32 (k % w))), u32 (r.y0 + row))

def atlasOrdinal (r : AtlasRect) (x y : ℕ) : ℕ :=
  let w := sub32 r.x1 r.x0
  let row := sub32 y r.y0
  u64 (row * w + serpentine w row (sub32 x r.x0))

def atlasCells (r : AtlasRect) : ℕ :=
  u64 (sub32 r.x1 r.x0 * sub32 r.y1 r.y0)

end Atlas

section Split

variable (b : ℕ → ℕ) (lo hi : ℕ)

def u64Max : ℕ := 2 ^ 64 - 1

/-- The best split so far -/
structure Scan where
  mid : ℕ := 0
  best : ℕ := u64Max
  needL : ℕ := 0
  needR : ℕ := 0
deriving DecidableEq, Repr

/-- Columns that a run of regions needs, a cell for each -/
def columns (across n : ℕ) : ℕ :=
  u32 (u64 (n + across - 1) / across)

/-- How far a split is from the half of the budget -/
def imbalance (span left : ℕ) : ℕ :=
  if span < u64 (left * 2) then sub64 (u64 (left * 2)) span else sub64 span (u64 (left * 2))

/-- Only a split that this rectangle can realise counts. -/
def scanStep (across along : ℕ) (s : Scan) (i : ℕ) : Scan :=
  let nl := columns across (i - lo)
  let nr := columns across (hi - i)
  if along < nl + nr then s
  else
    let d := imbalance (sub64 (b hi) (b lo)) (sub64 (b i) (b lo))
    if d < s.best then ⟨i, d, nl, nr⟩ else s

def scan (across along : ℕ) : Scan :=
  (List.range' (lo + 1) (hi - (lo + 1))).foldl (scanStep b lo hi across along) {}

/-- The run of regions is cut as near the half of its budget as the rectangle allows, the longer
side first. `none` when there is no such cut at all. -/
def splitRect : ℕ → ℕ → ℕ → AtlasRect → List AtlasRect → List AtlasNode →
    Except Fault (Option (ℤ × List AtlasRect × List AtlasNode))
  | 0, _, _, _, _, _ => .error .unfinished
  | fuel + 1, lo, hi, r, rects, nodes =>
    let w := sub32 r.x1 r.x0
    let h := sub32 r.y1 r.y0
    if u64 (w * h) < hi - lo then .ok none
    else if hi - lo = 1 then .ok (some (-(lo : ℤ) - 1, rects.set lo r, nodes))
    else
      let span := sub64 (b hi) (b lo)
      let cutX : Bool := h ≤ w
      let across := if cutX then h else w
      let along := if cutX then w else h
      if across = 0 then .ok none
      else
        let s := scan b lo hi across along
        if s.best = u64Max then .ok none
        else if span = 0 then .error .divideByZero
        else
          let left := sub64 (b s.mid) (b lo)
          let cut := u32 (u64 (along * left + span / 2) / span)
          let cut := min (max cut s.needL) (sub32 along s.needR)
          let pos := u32 ((if cutX then r.x0 else r.y0) + cut)
          let parts := r.cut cutX pos
          -- the node's slot is taken before the children append theirs
          let self := nodes.length
          match splitRect fuel lo s.mid parts.1 rects (nodes ++ [{}]) with
          | .error e => .error e
          | .ok none => .ok none
          | .ok (some (ndLo, rects, nodes)) =>
            match splitRect fuel s.mid hi parts.2 rects nodes with
            | .error e => .error e
            | .ok none => .ok none
            | .ok (some (ndHi, rects, nodes)) =>
              .ok (some (self, rects,
                nodes.set self ⟨pos, if cutX then 0 else 1, ndLo, ndHi⟩))

end Split

section Build

def Projection.total (p : Projection) : ℕ :=
  p.domainOff.getLast?.getD 0

/-- Cells along a side -/
def Projection.side (p : Projection) : ℕ :=
  u32 (2 ^ p.order)

/-- The upward sweep: every boundary past the one before it -/
def raise (b : ℕ → ℕ) (i : ℕ) : ℕ → ℕ :=
  if b i < u64 (b (i - 1) + 1) then Function.update b i (u64 (b (i - 1) + 1)) else b

/-- The downward sweep: every boundary below the next -/
def lower (b : ℕ → ℕ) (i : ℕ) : ℕ → ℕ :=
  if b (i + 1) < u64 (b i + 1) then Function.update b i (sub64 (b (i + 1)) 1) else b

/-- The boundaries between the regions in cells; the last one is pinned to the plane. -/
def boundaries (p : Projection) (plane : ℕ) : ℕ → ℕ :=
  let nreg := p.regions.length
  let b := fun i =>
    if i = nreg then plane
    else if 1 ≤ i ∧ i < nreg then planeBoundary p.order (p.domainOff.getD i 0) p.total
    else 0
  let inner := List.range' 1 (nreg - 1)
  inner.reverse.foldl lower (inner.foldl raise b)

def rebuildLayout (p : Projection) : Except Fault Projection :=
  let p := { p with rects := [], nodes := [] }
  if p.layout ≠ .atlas then .ok p
  else
    let nreg := p.regions.length
    let n := p.side
    let plane := u64 (n * n)
    if nreg = 0 ∨ p.total = 0 ∨ plane < nreg then .ok { p with layout := .hilbert }
    else
      match splitRect (boundaries p plane) nreg 0 nreg ⟨0, 0, n, n⟩
          (List.replicate nreg ⟨0, 0, 0, 0⟩) [] with
      | .error e => .error e
      | .ok none => .ok { p with layout := .hilbert }
      | .ok (some (_, rects, nodes)) => .ok { p with rects, nodes }

def prefixSums (total : ℕ) : List Region → List ℕ
  | [] => [total]
  | r :: rs => total :: prefixSums (u64 (total + r.len)) rs

/-- The smallest order from 6 to 12 whose cells hold the domain -/
def orderFor (total : ℕ) : ℕ :=
  ((List.range' 6 6).find? fun order => total ≤ 2 ^ (2 * order)).getD 12

def buildProjection (regions : List Region) (keepOrder : Bool) : Except Fault Projection :=
  let regions :=
    if keepOrder then regions else regions.mergeSort fun a b => a.base ≤ b.base
  let domainOff := prefixSums 0 regions
  let byBase := (List.range regions.length).mergeSort fun i j =>
    (regions.getD i ⟨0, 0⟩).base ≤ (regions.getD j ⟨0, 0⟩).base
  rebuildLayout {
    regions
    domainOff
    byBase
    order := orderFor (domainOff.getLast?.getD 0) }

end Build

section Lookup

/-- The binary search of `project`: how many regions of `byBase` start at or below the address -/
def searchBase (p : Projection) (addr : ℕ) : ℕ → ℕ → ℕ → ℕ
  | 0, lo, _ => lo
  | fuel + 1, lo, hi =>
    if lo < hi then
      let mid := lo + (hi - lo) / 2
      if (p.regions.getD (p.byBase.getD mid 0) ⟨0, 0⟩).base ≤ addr then
        searchBase p addr fuel (mid + 1) hi
      else searchBase p addr fuel lo mid
    else lo

/-- The region that an address is looked for in -/
def Projection.resolve (p : Projection) (addr : ℕ) : Option ℕ :=
  match searchBase p addr p.byBase.length 0 p.byBase.length with
  | 0 => none
  | lo + 1 => some (p.byBase.getD lo 0)

/-- The centre of a cell -/
def Projection.centre (p : Projection) (xy : ℕ × ℕ) : ℚ × ℚ :=
  ((xy.1 + 1 / 2) / p.side, (xy.2 + 1 / 2) / p.side)

/-- Where an address lies on the plane, if a region maps it -/
def Projection.project (p : Projection) (addr : ℕ) : Except Fault (Option (ℚ × ℚ)) :=
  if p.regions = [] then .ok none
  else
    match p.resolve addr with
    | none => .ok none
    | some idx =>
      let r := p.regions.getD idx ⟨0, 0⟩
      if r.len ≤ sub64 addr r.base then .ok none
      else if p.layout = .atlas ∧ idx < p.rects.length then
        let rect := p.rects.getD idx ⟨0, 0, 0, 0⟩
        let k := sub64 addr r.base / atlasBytesPerCell r.len (atlasCells rect)
        (atlasCell rect k).map fun xy => some (p.centre xy)
      else
        let d := u64 (p.domainOff.getD idx 0 + sub64 addr r.base)
        .ok (some (p.centre (d2xy p.order (d / 2 ^ domainShift p.order p.total))))

/-- The walk down the split tree -/
def descend (nodes : List AtlasNode) (x y : ℕ) : ℕ → ℕ → Except Fault ℕ
  | 0, _ => .error .unfinished
  | fuel + 1, cur =>
    match nodes[cur]? with
    | none => .error .outOfBounds
    | some nd =>
      let nxt := if (if nd.axis = 0 then x else y) < nd.cut then nd.lo else nd.hi
      if nxt < 0 then .ok (-(nxt + 1)).toNat else descend nodes x y fuel nxt.toNat

/-- The region that a cell of the atlas belongs to -/
def Projection.regionAt (p : Projection) (x y : ℕ) : Except Fault ℕ :=
  if 1 < p.regions.length then descend p.nodes x y p.regions.length 0 else .ok 0

/-- The address that a cell holds, with the index of its region; a cell past the bytes of its
region holds none. -/
def Projection.unprojectCell (p : Projection) (x y : ℕ) : Except Fault (Option (ℕ × ℕ)) :=
  if p.layout = .atlas then
    if p.rects = [] then .ok none
    else
      match p.regionAt x y with
      | .error e => .error e
      | .ok idx =>
        let reg := p.regions.getD idx ⟨0, 0⟩
        let rect := p.rects.getD idx ⟨0, 0, 0, 0⟩
        let off := u64 (atlasOrdinal rect x y * atlasBytesPerCell reg.len (atlasCells rect))
        .ok (if reg.len ≤ off then none else some (u64 (reg.base + off), idx))
  else
    let d := u64 (xy2d p.order x y * 2 ^ domainShift p.order p.total)
    if p.total ≤ d then .ok none
    else
      -- `upper_bound`: the first offset past `d`
      let idx := (p.domainOff.takeWhile (· ≤ d)).length
      .ok (some (u64 ((p.regions.getD (idx - 1) ⟨0, 0⟩).base +
        sub64 d (p.domainOff.getD (idx - 1) 0)), idx - 1))

def Projection.unproject (p : Projection) (u v : ℚ) : Except Fault (Option (ℕ × ℕ)) :=
  if p.regions = [] then .ok none
  else if u < 0 ∨ 1 ≤ u ∨ v < 0 ∨ 1 ≤ v then .ok none
  else p.unprojectCell (min ⌊u * p.side⌋₊ (p.side - 1)) (min ⌊v * p.side⌋₊ (p.side - 1))

end Lookup

end AsmTest.Space
