import AsmTest.Projection
import AsmTest.Recording
import AsmTest.Lib.OrderedMap
import AsmTest.Lib.RunningTotals
import Mathlib.Data.BitVec

/-!
# The data rung of the terrain (desktop/src/space/terrain.cpp, datacell.cpp, sediment.cpp)

The memory accesses of a recording, per cell of the plane, with running totals; and the layers
that are drawn from them at any time without another scan. A height is the number under the
logarithm.
-/

namespace AsmTest.Space

open Lib Doc

section Flags

abbrev tfTorn : BitVec 32 := 1
abbrev tfStat : BitVec 32 := 2
abbrev tfChurn : BitVec 32 := 4
abbrev tfRead : BitVec 32 := 8
abbrev tfWrite : BitVec 32 := 16
abbrev tfUnknown : BitVec 32 := 32

abbrev ddRead : BitVec 8 := 1
abbrev ddWrite : BitVec 8 := 2

end Flags

/-- A `mem` event -/
structure MemEvent where
  step : ℕ
  ea : ℕ
  size : ℕ
  rw : Bytes

/-- A placed access, as the tuples of the scan have it -/
structure MemAccess where
  step : ℕ
  size : BitVec 64
  rwbit : BitVec 32
  dir : BitVec 8
deriving DecidableEq

structure CodeCell where
  cell : ℕ
  /-- Ascending -/
  steps : List ℕ
  churnStep : ℕ := u64Max

structure DataCell where
  cell : ℕ
  steps : List ℕ := []
  cumSize : List (BitVec 64) := []
  cumRw : List (BitVec 32) := []
  cumReadSize : List (BitVec 64) := []
  cumWriteSize : List (BitVec 64) := []
  cumDir : List (BitVec 8) := []

structure TerrainModel where
  w : ℕ
  h : ℕ
  nsteps : ℕ := 0
  /-- The recording is refused when this says why. -/
  basisError : Bytes := []
  torn : Bool := false
  /-- Has the cell a region? -/
  inDomain : ℕ → Bool := fun _ => false
  memAccesses : ℕ := 0
  memDropped : ℕ := 0
  code : List CodeCell := []
  data : List DataCell := []
  /-- Sorted by cell -/
  dataIndex : List (ℕ × ℕ) := []

section Build

variable {F : Type} (L : JsonLib F)

/-- `value(key, uint64_t{0})`; `none` when it throws -/
def valueU64 (key : String) (m : Members F) : Option ℕ :=
  match member key m with
  | none => some 0
  | some v => getU64 L v

def valueStr (key : String) (dflt : Bytes) (m : Members F) : Option Bytes :=
  match member key m with
  | none => some dflt
  | some (.str s) => some s
  | some _ => none

def decodeMem (m : Members F) : Option MemEvent := do
  let step ← valueU64 L "step" m
  let ea ← valueU64 L "ea" m
  let size ← valueU64 L "size" m
  let rw ← valueStr "rw" (ascii "r") m
  return { step, ea, size, rw }

/-- The cell that an address projects into. The coordinates are those of a centre, so that the
rounding finds the cell again. -/
def cellOf (p : Projection) (addr : ℕ) : Except Fault (Option ℕ) :=
  (p.project addr).map fun uv => uv.map fun (uv : ℚ × ℚ) =>
    let x := (uv.1 * (p.side : ℚ)).floor.toNat
    let y := (uv.2 * (p.side : ℚ)).floor.toNat
    let x := if p.side ≤ x then p.side - 1 else x
    let y := if p.side ≤ y then p.side - 1 else y
    y * p.side + x

/-- An access as the scan keeps it: a token that is neither `r` nor `w` tints as a read, but has no
direction. -/
def accessOf (e : MemEvent) : MemAccess where
  step := e.step
  size := BitVec.ofNat 64 e.size
  rwbit := if e.rw = ascii "w" then tfWrite else tfRead
  dir := if e.rw = ascii "w" then ddWrite else if e.rw = ascii "r" then ddRead else 0

/-- The access that an event records and the cell it falls in, if any; `none` when a member of
another type throws -/
def placeMem (p : Projection) (body : Json F) : Option (Option ℕ × MemAccess) := do
  let m ← body.asObj
  let e ← decodeMem L m
  let cell ← (cellOf p e.ea).toOption
  return (cell, accessOf e)

structure MemScan where
  /-- By cell -/
  acc : List (ℕ × List MemAccess) := []
  accesses : ℕ := 0
  dropped : ℕ := 0

def MemScan.add (s : MemScan) : Option ℕ × MemAccess → MemScan
  | (none, _) => { s with accesses := s.accesses + 1, dropped := s.dropped + 1 }
  | (some c, a) =>
    { s with
      accesses := s.accesses + 1
      acc := mapInsert c ((mapFind c s.acc).getD [] ++ [a]) s.acc }

def scanMem (p : Projection) : MemScan → List (Json F) → Option MemScan
  | s, [] => some s
  | s, body :: bodies => (placeMem L p body).bind fun a => scanMem p (s.add a) bodies

/-- The totals that the loop over a cell keeps -/
structure Sums where
  cum : BitVec 64 := 0
  cumR : BitVec 64 := 0
  cumW : BitVec 64 := 0
  rwm : BitVec 32 := 0
  dirm : BitVec 8 := 0

def Sums.add (s : Sums) (a : MemAccess) : Sums where
  cum := s.cum + a.size
  cumR := if a.dir = ddRead then s.cumR + a.size else s.cumR
  cumW := if a.dir = ddWrite then s.cumW + a.size else s.cumW
  rwm := s.rwm ||| a.rwbit
  dirm := s.dirm ||| a.dir

def pushAccess (st : DataCell × Sums) (a : MemAccess) : DataCell × Sums :=
  let dc := st.1
  let s := st.2.add a
  ({ dc with
    steps := dc.steps ++ [a.step]
    cumSize := dc.cumSize ++ [s.cum]
    cumRw := dc.cumRw ++ [s.rwm]
    cumReadSize := dc.cumReadSize ++ [s.cumR]
    cumWriteSize := dc.cumWriteSize ++ [s.cumW]
    cumDir := dc.cumDir ++ [s.dirm] }, s)

variable (S : SortBy MemAccess.step)

def fillCell (kv : ℕ × List MemAccess) : DataCell :=
  ((S.run kv.2).foldl pushAccess ({ cell := kv.1 }, {})).1

def TerrainModel.buildIndex (m : TerrainModel) : TerrainModel :=
  { m with
    dataIndex := (m.data.zipIdx.map fun e => (e.1.cell, e.2)).mergeSort
      fun a b => toLex a ≤ toLex b }

/-- The rich rung of `build_terrain`, on what the other rungs built -/
def buildData (p : Projection) (bodies : List (Json F)) (m : TerrainModel) :
    Option TerrainModel :=
  (scanMem L p {} bodies).map fun scan =>
    { m with
      memAccesses := scan.accesses
      memDropped := scan.dropped
      data := scan.acc.map (fillCell S) }.buildIndex

end Build

section Slice

namespace TerrainModel

/-- The lookup through the index -/
def dataAt (m : TerrainModel) (c : ℕ) : Option DataCell :=
  match m.dataIndex[lowerBound (toLex (c, 0)) (m.dataIndex.map toLex)]? with
  | some e => if e.1 = c then m.data[e.2]? else none
  | none => none

end TerrainModel

/-- A height field over the cells -/
@[ext] structure Terrain where
  height : ℕ → ℕ
  flags : ℕ → BitVec 32

def Terrain.flat : Terrain := ⟨fun _ => 0, fun _ => 0⟩

def tornBit (m : TerrainModel) : BitVec 32 := if m.torn then tfTorn else 0

def sliceCode (m : TerrainModel) (t : ℕ) (out : Terrain) (cc : CodeCell) : Terrain :=
  let hits := upperBound t cc.steps
  if hits = 0 then out
  else
    let churn := if cc.churnStep ≠ u64Max ∧ cc.churnStep ≤ t then tfChurn else 0
    { height := Function.update out.height cc.cell hits
      flags := Function.update out.flags cc.cell (out.flags cc.cell ||| churn ||| tornBit m) }

def sliceData (m : TerrainModel) (t : ℕ) (out : Terrain) (dc : DataCell) : Terrain :=
  let idx := upperBound t dc.steps
  if idx = 0 then out
  else
    { height := Function.update out.height dc.cell (dc.cumSize.getD (idx - 1) 0).toNat
      flags := Function.update out.flags dc.cell
        (out.flags dc.cell ||| dc.cumRw.getD (idx - 1) 0 ||| tornBit m) }

/-- A cell of the domain without content at this slice is marked unknown. -/
def fog (m : TerrainModel) (out : Terrain) : Terrain where
  height := out.height
  flags c :=
    if m.inDomain c ∧ out.height c = 0 ∧ out.flags c &&& tfStat = 0 then out.flags c ||| tfUnknown
    else out.flags c

/-- The terrain of the steps up to `t` -/
def TerrainModel.slice (m : TerrainModel) (t : ℕ) : Terrain :=
  if m.basisError ≠ [] then .flat
  else fog m (m.data.foldl (sliceData m t) (m.code.foldl (sliceCode m t) .flat))

end Slice

section Rescan

variable {F : Type} (L : JsonLib F)

/-- The accesses that a scan of the events finds in a cell -/
def accessesAt (p : Projection) (bodies : List (Json F)) (c : ℕ) : List MemAccess :=
  bodies.filterMap fun body =>
    match placeMem L p body with
    | some (some c', a) => if c' = c then some a else none
    | _ => none

def seenBy (t : ℕ) (l : List MemAccess) : List MemAccess := l.filter fun a => a.step ≤ t

def sizeSum (l : List MemAccess) : BitVec 64 := (l.map MemAccess.size).sum

def rwOr (l : List MemAccess) : BitVec 32 := l.foldl (fun f a => f ||| a.rwbit) 0

/-- The terrain as a scan of the accesses gives it -/
def rescan (m : TerrainModel) (accesses : ℕ → List MemAccess) (t : ℕ) : Terrain :=
  if m.basisError ≠ [] then .flat
  else
    let code := m.code.foldl (sliceCode m t) .flat
    fog m
      { height := fun c =>
          if seenBy t (accesses c) = [] then code.height c
          else (sizeSum (seenBy t (accesses c))).toNat
        flags := fun c =>
          if seenBy t (accesses c) = [] then code.flags c
          else code.flags c ||| rwOr (seenBy t (accesses c)) ||| tornBit m }

end Rescan

section Sums

instance : RightCommutative Sums.add where
  right_comm s a b := by
    simp only [Sums.add, Sums.mk.injEq]
    refine ⟨add_right_comm _ _ _, ?_, ?_, ?_, ?_⟩
    · split_ifs <;> first | rfl | exact add_right_comm _ _ _
    · split_ifs <;> first | rfl | exact add_right_comm _ _ _
    · rw [BitVec.or_assoc, BitVec.or_comm a.rwbit, ← BitVec.or_assoc]
    · rw [BitVec.or_assoc, BitVec.or_comm a.dir, ← BitVec.or_assoc]

/-- The totals of accesses -/
def sumsOf (l : List MemAccess) : Sums := l.foldl Sums.add {}

theorem foldl_add_cum (l : List MemAccess) (s : Sums) :
    (l.foldl Sums.add s).cum = s.cum + sizeSum l ∧
      (l.foldl Sums.add s).rwm = l.foldl (fun f a => f ||| a.rwbit) s.rwm := by
  induction l generalizing s with
  | nil => simp [sizeSum]
  | cons a l ih =>
    obtain ⟨h1, h2⟩ := ih (s.add a)
    refine ⟨?_, h2⟩
    rw [List.foldl_cons, h1]
    simp only [Sums.add, sizeSum, List.map_cons, List.sum_cons]
    exact add_assoc _ _ _

theorem sumsOf_cum (l : List MemAccess) : (sumsOf l).cum = sizeSum l := by
  rw [sumsOf, (foldl_add_cum l {}).1]
  exact zero_add _

theorem sumsOf_rwm (l : List MemAccess) : (sumsOf l).rwm = rwOr l := (foldl_add_cum l {}).2

/-- What the loop over a cell pushes -/
theorem foldl_pushAccess (l : List MemAccess) (dc : DataCell) (s : Sums) :
    l.foldl pushAccess (dc, s) =
      ({ cell := dc.cell
         steps := dc.steps ++ l.map MemAccess.step
         cumSize := dc.cumSize ++ (totals Sums.add s l).map Sums.cum
         cumRw := dc.cumRw ++ (totals Sums.add s l).map Sums.rwm
         cumReadSize := dc.cumReadSize ++ (totals Sums.add s l).map Sums.cumR
         cumWriteSize := dc.cumWriteSize ++ (totals Sums.add s l).map Sums.cumW
         cumDir := dc.cumDir ++ (totals Sums.add s l).map Sums.dirm }, l.foldl Sums.add s) := by
  induction l generalizing dc s with
  | nil => simp [totals]
  | cons a l ih =>
    rw [List.foldl_cons, pushAccess, ih]
    simp [totals]

variable (S : SortBy MemAccess.step) (c : ℕ) (l : List MemAccess)

theorem fillCell_steps : (fillCell S (c, l)).steps = (S.run l).map MemAccess.step := by
  simp [fillCell, foldl_pushAccess]

theorem fillCell_cell : (fillCell S (c, l)).cell = c := by
  simp [fillCell, foldl_pushAccess]

theorem fillCell_cumSize :
    (fillCell S (c, l)).cumSize = (totals Sums.add {} (S.run l)).map Sums.cum := by
  simp [fillCell, foldl_pushAccess]

theorem fillCell_cumRw :
    (fillCell S (c, l)).cumRw = (totals Sums.add {} (S.run l)).map Sums.rwm := by
  simp [fillCell, foldl_pushAccess]

theorem fillCell_cumReadSize :
    (fillCell S (c, l)).cumReadSize = (totals Sums.add {} (S.run l)).map Sums.cumR := by
  simp [fillCell, foldl_pushAccess]

theorem fillCell_cumWriteSize :
    (fillCell S (c, l)).cumWriteSize = (totals Sums.add {} (S.run l)).map Sums.cumW := by
  simp [fillCell, foldl_pushAccess]

theorem fillCell_cumDir :
    (fillCell S (c, l)).cumDir = (totals Sums.add {} (S.run l)).map Sums.dirm := by
  simp [fillCell, foldl_pushAccess]

theorem upperBound_fillCell (t : ℕ) :
    upperBound t (fillCell S (c, l)).steps = (seenBy t l).length := by
  rw [fillCell_steps]
  exact S.upperBound_eq l t

/-- The entry before a bound holds the totals of what was seen by then. -/
theorem getD_totals {β : Type} (f : Sums → β) (z : β) {t : ℕ} (h : seenBy t l ≠ []) :
    ((totals Sums.add {} (S.run l)).map f).getD ((seenBy t l).length - 1) z =
      f (sumsOf (seenBy t l)) := by
  have hrow := @SortBy.total_upperBound _ _ _ _ _ Sums.add _ S l {} t
  rw [S.upperBound_eq] at hrow
  obtain ⟨n, hn⟩ := Nat.exists_eq_succ_of_ne_zero (List.length_pos_iff.2 h).ne'
  change _[(seenBy t l).length]? = some (sumsOf (seenBy t l)) at hrow
  rw [hn, Nat.succ_eq_add_one, List.getElem?_cons_succ] at hrow
  rw [hn, Nat.succ_sub_one, List.getD_eq_getElem?_getD, List.getElem?_map, hrow]
  rfl

end Sums

section Scan

variable {F : Type} {L : JsonLib F} {p : Projection}

/-- What a scan has found, from what each cell got -/
structure Found (past : ℕ → List MemAccess) (s : MemScan) : Prop where
  sorted : KeysSorted s.acc
  find : ∀ c, mapFind c s.acc = if past c = [] then none else some (past c)

/-- The access that an event adds to a cell -/
def hitAt (c : ℕ) (a : Option ℕ × MemAccess) : List MemAccess :=
  if a.1 = some c then [a.2] else []

theorem Found.add {past : ℕ → List MemAccess} {s : MemScan} (h : Found past s)
    (a : Option ℕ × MemAccess) : Found (fun c => past c ++ hitAt c a) (s.add a) := by
  obtain ⟨cell, a⟩ := a
  cases cell with
  | none => exact ⟨h.sorted, fun c => by simpa [hitAt, MemScan.add] using h.find c⟩
  | some c' =>
    refine ⟨keysSorted_mapInsert _ _ h.sorted, fun c => ?_⟩
    rw [MemScan.add, mapFind_mapInsert]
    by_cases hc : c = c'
    · subst hc
      have hne : past c ++ hitAt c (some c, a) ≠ [] := by simp [hitAt]
      rw [if_pos rfl, h.find c, if_neg hne]
      by_cases hp : past c = [] <;> simp [hp, hitAt]
    · rw [if_neg hc, h.find c]
      simp [hitAt, Ne.symm hc]

theorem scanMem_found {s s' : MemScan} {bodies : List (Json F)} {past : ℕ → List MemAccess}
    (h : Found past s) (hs : scanMem L p s bodies = some s') :
    Found (fun c => past c ++ accessesAt L p bodies c) s' := by
  induction bodies generalizing s past with
  | nil =>
    obtain rfl := Option.some.inj hs
    simpa [accessesAt] using h
  | cons body bodies ih =>
    rw [scanMem] at hs
    cases ha : placeMem L p body with
    | none => simp [ha] at hs
    | some a =>
      rw [ha, Option.bind_some] at hs
      have hrest := ih (h.add a) hs
      have hcell : ∀ c, accessesAt L p (body :: bodies) c =
          hitAt c a ++ accessesAt L p bodies c := by
        intro c
        obtain ⟨_ | c', a⟩ := a
        · simp [accessesAt, ha, hitAt]
        · by_cases hc : c' = c <;> simp [accessesAt, ha, hitAt, hc]
      simpa only [hcell, List.append_assoc] using hrest

/-- Every event is counted, and those without a cell are counted as dropped. -/
theorem scanMem_counts {s s' : MemScan} {bodies : List (Json F)}
    (hs : scanMem L p s bodies = some s') :
    s'.accesses = s.accesses + bodies.length ∧
      s'.dropped = s.dropped +
        bodies.countP fun body => (placeMem L p body).any fun a => a.1.isNone := by
  induction bodies generalizing s with
  | nil =>
    obtain rfl := Option.some.inj hs
    exact ⟨rfl, rfl⟩
  | cons body bodies ih =>
    rw [scanMem] at hs
    cases ha : placeMem L p body with
    | none => simp [ha] at hs
    | some a =>
      rw [ha, Option.bind_some] at hs
      obtain ⟨h1, h2⟩ := ih hs
      obtain ⟨_ | c, a⟩ := a
      · simp only [MemScan.add] at h1 h2
        rw [List.length_cons, List.countP_cons, ha]
        simp only [Option.any_some, Option.isNone_none, if_true]
        omega
      · simp only [MemScan.add] at h1 h2
        rw [List.length_cons, List.countP_cons, ha]
        simp only [Option.any_some, Option.isNone_some, Bool.false_eq_true, if_false]
        omega

end Scan

section Lookup

/-- The first key from `c` on is where the lookup looks. -/
theorem mapFind_eq_getElem? {V : Type} {m : List (ℕ × V)} (h : KeysSorted m) (c : ℕ) :
    mapFind c m =
      (m[(m.takeWhile fun e => e.1 < c).length]?).bind fun e =>
        if e.1 = c then some e.2 else none := by
  induction m with
  | nil => rfl
  | cons e m ih =>
    obtain ⟨hhead, htail⟩ := List.pairwise_cons.1 h
    obtain ⟨c', v⟩ := e
    rw [mapFind, List.takeWhile_cons]
    rcases lt_trichotomy c' c with hlt | heq | hgt
    · rw [if_neg hlt.ne', ih htail]
      simp [hlt]
    · subst heq
      simp
    · have hnone : mapFind c m = none := by
        apply mapFind_eq_none_iff.2
        intro e he
        exact (hgt.trans (hhead e he)).ne'
      rw [if_neg hgt.ne, hnone]
      simp [not_lt.2 hgt.le, hgt.ne']

theorem mergeSort_lex {l : List (ℕ × ℕ)} (h : l.Pairwise fun a b => a.1 < b.1) :
    l.mergeSort (fun a b => toLex a ≤ toLex b) = l := by
  apply List.mergeSort_of_pairwise
  refine h.imp fun {a b} hab => decide_eq_true ?_
  exact (Prod.Lex.toLex_lt_toLex.2 (.inl hab)).le

/-- The cells of the model, after a scan -/
def cellsOf (S : SortBy MemAccess.step) (m : TerrainModel) (acc : List (ℕ × List MemAccess)) :
    TerrainModel :=
  { m with data := acc.map (fillCell S) }.buildIndex

variable {S : SortBy MemAccess.step} {acc : List (ℕ × List MemAccess)}

theorem length_takeWhile_zipIdx {α : Type} (q : α → Bool) (l : List α) (k : ℕ) :
    ((l.zipIdx k).takeWhile fun e => q e.1).length = (l.takeWhile q).length := by
  induction l generalizing k with
  | nil => rfl
  | cons a l ih =>
    rw [List.zipIdx_cons, List.takeWhile_cons, List.takeWhile_cons]
    split
    · rw [List.length_cons, List.length_cons, ih]
    · rfl

theorem dataIndex_cellsOf (m : TerrainModel) (h : KeysSorted acc) :
    (cellsOf S m acc).dataIndex = acc.zipIdx.map fun e => (e.1.1, e.2) := by
  have hpairs : ((acc.map (fillCell S)).zipIdx.map fun e => (e.1.cell, e.2)) =
      acc.zipIdx.map fun e => (e.1.1, e.2) := by
    rw [List.zipIdx_map, List.map_map]
    apply List.map_congr_left
    rintro ⟨⟨c, l⟩, i⟩ -
    simp [fillCell_cell]
  change List.mergeSort _ _ = _
  rw [hpairs, mergeSort_lex]
  rw [List.pairwise_map]
  have hkeys : (acc.zipIdx.map Prod.fst).Pairwise fun a b => a.1 < b.1 := by
    rw [List.zipIdx_map_fst]
    exact h
  exact (@List.pairwise_map _ _ Prod.fst _ _).1 hkeys

/-- The lookup through the index finds the cell of the scan. -/
theorem dataAt_cellsOf (m : TerrainModel) (h : KeysSorted acc) (c : ℕ) :
    (cellsOf S m acc).dataAt c = (mapFind c acc).map fun l => fillCell S (c, l) := by
  have hlow : lowerBound (toLex (c, 0)) ((cellsOf S m acc).dataIndex.map toLex) =
      (acc.takeWhile fun e => e.1 < c).length := by
    rw [dataIndex_cellsOf m h, lowerBound, List.map_map, List.takeWhile_map, List.length_map,
      ← length_takeWhile_zipIdx (fun e => decide (e.1 < c)) acc 0]
    congr 2
    funext e
    simp [Prod.Lex.toLex_lt_toLex]
  have hfind := mapFind_eq_getElem? h c
  rw [TerrainModel.dataAt, hlow, dataIndex_cellsOf m h, hfind, List.getElem?_map,
    List.getElem?_zipIdx]
  change _ = _
  cases he : acc[(acc.takeWhile fun e => e.1 < c).length]? with
  | none => simp
  | some e =>
    obtain ⟨c', l⟩ := e
    by_cases hc : c' = c
    · subst hc
      simp [cellsOf, TerrainModel.buildIndex, he]
    · simp [hc]

/-- What the loop over the cells writes -/
theorem foldl_sliceData (m : TerrainModel) (t : ℕ) (h : KeysSorted acc) (out : Terrain) :
    (acc.map (fillCell S)).foldl (sliceData m t) out =
      { height := fun c =>
          let l := seenBy t ((mapFind c acc).getD [])
          if l = [] then out.height c else (sizeSum l).toNat
        flags := fun c =>
          let l := seenBy t ((mapFind c acc).getD [])
          if l = [] then out.flags c else out.flags c ||| rwOr l ||| tornBit m } := by
  induction acc generalizing out with
  | nil => simp [mapFind, seenBy]
  | cons e acc ih =>
    obtain ⟨hhead, htail⟩ := List.pairwise_cons.1 h
    obtain ⟨c', l⟩ := e
    have hfresh : mapFind c' acc = none :=
      mapFind_eq_none_iff.2 fun e he => (hhead e he).ne'
    rw [List.map_cons, List.foldl_cons, ih htail, sliceData, upperBound_fillCell, fillCell_cell]
    have hnil : seenBy t ((mapFind c' acc).getD []) = [] := by
      rw [hfresh]
      rfl
    have hself : mapFind c' ((c', l) :: acc) = some l := if_pos rfl
    have hother : ∀ c, c ≠ c' → mapFind c ((c', l) :: acc) = mapFind c acc := fun c hc => if_neg hc
    by_cases hl : seenBy t l = []
    · -- nothing seen here yet: the loop leaves the cell alone
      rw [hl, List.length_nil, if_pos rfl]
      ext c
      · by_cases hc : c = c'
        · simp [hc, hnil, hself, hl]
        · simp [hother c hc]
      · by_cases hc : c = c'
        · simp [hc, hnil, hself, hl]
        · simp [hother c hc]
    · have hlen : (seenBy t l).length ≠ 0 := fun h => hl (List.length_eq_zero_iff.1 h)
      have hsize : (fillCell S (c', l)).cumSize.getD ((seenBy t l).length - 1) 0 =
          sizeSum (seenBy t l) := by
        rw [fillCell_cumSize, getD_totals S l _ _ hl, sumsOf_cum]
      have hrw : (fillCell S (c', l)).cumRw.getD ((seenBy t l).length - 1) 0 =
          rwOr (seenBy t l) := by
        rw [fillCell_cumRw, getD_totals S l _ _ hl, sumsOf_rwm]
      rw [if_neg hlen, hsize, hrw]
      ext c
      · by_cases hc : c = c'
        · simp [hc, hnil, hself, hl]
        · simp [hother c hc, hc]
      · by_cases hc : c = c'
        · simp [hc, hnil, hself, hl]
        · simp [hother c hc, hc]

end Lookup

section Exact

variable {F : Type} {L : JsonLib F} {S : SortBy MemAccess.step} {p : Projection}
  {bodies : List (Json F)} {m m' : TerrainModel}

/-- What is built, from what the scan found -/
theorem buildData_eq (h : buildData L S p bodies m = some m') :
    ∃ scan, Found (accessesAt L p bodies) scan ∧ scanMem L p {} bodies = some scan ∧
      m' = cellsOf S { m with memAccesses := scan.accesses, memDropped := scan.dropped }
        scan.acc := by
  obtain ⟨scan, hscan, rfl⟩ := Option.map_eq_some_iff.1 h
  have hempty : Found (fun _ => []) {} := ⟨keysSorted_nil, fun c => rfl⟩
  have hfound := scanMem_found hempty hscan
  exact ⟨scan, hfound, hscan, rfl⟩

theorem Found.getD {past : ℕ → List MemAccess} {s : MemScan} (h : Found past s) (c : ℕ) :
    (mapFind c s.acc).getD [] = past c := by
  rw [h.find c]
  by_cases hp : past c = [] <;> simp [hp]

/-- The running totals, searched, say at every time what a scan of the events says. The index finds
the cells that the events fall in and no others, each with the steps of its accesses in ascending
order. Every event is counted, as is every one that no region maps. -/
theorem slice_recount (h : buildData L S p bodies m = some m') :
    (∀ t, m'.slice t = rescan m' (accessesAt L p bodies) t) ∧
      (∀ c, (m'.dataAt c).isSome = true ↔ accessesAt L p bodies c ≠ []) ∧
      (∀ c, ∀ dc ∈ m'.dataAt c, dc.cell = c ∧ dc.steps.Pairwise (· ≤ ·) ∧
        dc.steps.Perm ((accessesAt L p bodies c).map MemAccess.step)) ∧
      m'.memAccesses = bodies.length ∧
      m'.memDropped =
        bodies.countP fun body => (placeMem L p body).any fun a => a.1.isNone := by
  obtain ⟨scan, hfound, hscan, rfl⟩ := buildData_eq h
  obtain ⟨hcount, hdropped⟩ := scanMem_counts hscan
  refine ⟨fun t => ?_, fun c => ?_, fun c dc hdc => ?_, hcount.trans (Nat.zero_add _),
    hdropped.trans (Nat.zero_add _)⟩
  · unfold TerrainModel.slice rescan
    split
    · rfl
    · congr 1
      have hloop := @foldl_sliceData S scan.acc
        (cellsOf S { m with memAccesses := scan.accesses, memDropped := scan.dropped } scan.acc) t
        hfound.sorted
      simp only [hfound.getD] at hloop
      exact hloop _
  · rw [dataAt_cellsOf _ hfound.sorted, hfound.find c]
    by_cases hp : accessesAt L p bodies c = [] <;> simp [hp]
  · rw [dataAt_cellsOf _ hfound.sorted, hfound.find c] at hdc
    by_cases hp : accessesAt L p bodies c = []
    · simp [hp] at hdc
    · rw [if_neg hp, Option.map_some, Option.mem_some_iff] at hdc
      subst hdc
      refine ⟨fillCell_cell S c _, ?_, ?_⟩
      · rw [fillCell_steps, List.pairwise_map]
        exact S.sorted _
      · rw [fillCell_steps]
        exact (S.perm _).map _

/-- A plane with one region -/
def planeSample : Projection where
  regions := [⟨4096, 100⟩]
  order := 6
  domainOff := [0, 100]
  byBase := [0]
  layout := .hilbert

def memSample : List (Json Empty) :=
  [.obj [(ascii "ea", .int 4096), (ascii "rw", .str (ascii "w")), (ascii "size", .int 8),
      (ascii "step", .int 3)],
    .obj [(ascii "ea", .int 16), (ascii "size", .int 4), (ascii "step", .int 1)],
    .obj [(ascii "ea", .int 4096), (ascii "size", .int 4), (ascii "step", .int 1)]]

theorem slice_recount_sample :
    ∃ m', buildData compactJson (SortBy.stable _) planeSample memSample ⟨64, 64, 5, [], false,
        fun _ => true, 0, 0, [], [], []⟩ = some m' ∧
      (∀ t, m'.slice t = rescan m' (accessesAt compactJson planeSample memSample) t) ∧
      m'.memAccesses = 3 := by
  have hsome : (buildData compactJson (SortBy.stable _) planeSample memSample ⟨64, 64, 5, [], false,
      fun _ => true, 0, 0, [], [], []⟩).isSome = true := by decide +kernel
  obtain ⟨m', hm⟩ := Option.isSome_iff_exists.1 hsome
  exact ⟨m', hm, (slice_recount hm).1, (slice_recount hm).2.2.2.1⟩

end Exact

end AsmTest.Space
