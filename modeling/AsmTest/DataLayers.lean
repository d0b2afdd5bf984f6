import AsmTest.DataTerrain

/-!
# Layers over the data cells (desktop/src/space/datacell.cpp, sediment.cpp)

What is drawn of a cell at a time: the bytes read and written so far, those of the last steps, and
the hits per band of time. All of it comes from the running totals by searches.
-/

namespace AsmTest.Space

open Lib Doc

section Relief

structure ReliefCell where
  cell : ℕ
  touches : ℕ
  lastStep : ℕ
  readBytes : BitVec 64
  writeBytes : BitVec 64
  /-- Bytes without a recorded direction -/
  unknownBytes : BitVec 64
  hasRead : Bool
  hasWrite : Bool
  torn : Bool

/-- What is left of a total -/
def remainder (total directed : BitVec 64) : BitVec 64 :=
  if directed < total then total - directed else 0

def reliefCell (m : TerrainModel) (t : ℕ) (dc : DataCell) : Option ReliefCell :=
  let n := upperBound t dc.steps
  if n = 0 then none
  else
    let i := n - 1
    let read := dc.cumReadSize.getD i 0
    let write := dc.cumWriteSize.getD i 0
    let dir := dc.cumDir.getD i 0
    some
      { cell := dc.cell
        touches := n
        lastStep := dc.steps.getD i 0
        readBytes := read
        writeBytes := write
        unknownBytes := remainder (dc.cumSize.getD i 0) (read + write)
        hasRead := dir &&& ddRead ≠ 0
        hasWrite := dir &&& ddWrite ≠ 0
        torn := m.torn }

def buildDataRelief (m : TerrainModel) (t : ℕ) : List ReliefCell :=
  if m.basisError ≠ [] then [] else m.data.filterMap (reliefCell m t)

end Relief

section Tide

/-- The total before an index -/
def before (sums : List (BitVec 64)) (i : ℕ) : BitVec 64 :=
  if 0 < i ∧ i - 1 < sums.length then sums.getD (i - 1) 0 else 0

/-- The accesses of the steps in `(t - w, t]`, as indices; all up to `t` when `t ≤ w` -/
def windowRange (dc : DataCell) (t w : ℕ) : ℕ × ℕ :=
  let hi := upperBound t dc.steps
  let lo := if w < t then upperBound (t - w) dc.steps else 0
  (if hi < lo then hi else lo, hi)

structure TideCell where
  cell : ℕ
  lastStep : ℕ
  liveBytes : BitVec 64
  live : Bool
  winReadBytes : BitVec 64
  winWriteBytes : BitVec 64
  winUnknownBytes : BitVec 64
  firstDirectionBit : Bool
  /-- The height that the cell had when it was last touched, for one that is not live -/
  watermark : BitVec 64
  torn : Bool

def tideCell (m : TerrainModel) (t w : ℕ) (dc : DataCell) : Option TideCell :=
  let (lo, hi) := windowRange dc t w
  if hi = 0 then none
  else
    let lastStep := dc.steps.getD (hi - 1) 0
    let liveBytes := before dc.cumSize hi - before dc.cumSize lo
    let live := lo < hi
    let read := before dc.cumReadSize hi - before dc.cumReadSize lo
    let write := before dc.cumWriteSize hi - before dc.cumWriteSize lo
    let atHi := if 0 < hi ∧ hi - 1 < dc.cumRw.length then dc.cumRw.getD (hi - 1) 0 else 0
    let atLo := if 0 < lo ∧ lo - 1 < dc.cumRw.length then dc.cumRw.getD (lo - 1) 0 else 0
    -- the window as it was when the cell was last touched
    let crest := windowRange dc lastStep w
    some
      { cell := dc.cell
        lastStep := lastStep
        liveBytes := liveBytes
        live := live
        winReadBytes := read
        winWriteBytes := write
        winUnknownBytes := remainder liveBytes (read + write)
        firstDirectionBit := atHi &&& ~~~atLo ≠ 0
        watermark := if live then 0
          else before dc.cumSize crest.2 - before dc.cumSize crest.1
        torn := m.torn }

def kTideWindowDefault : ℕ := 64

def buildWorkingSetTide (m : TerrainModel) (t window : ℕ) : List TideCell :=
  let w := if window ≠ 0 then window else kTideWindowDefault
  if m.basisError ≠ [] then [] else m.data.filterMap (tideCell m t w)

end Tide

section Recount

def bytesIn (d : BitVec 8) (l : List MemAccess) : BitVec 64 :=
  sizeSum (l.filter fun a => a.dir = d)

/-- Bytes of the accesses that are neither reads nor writes -/
def bytesUndirected (l : List MemAccess) : BitVec 64 :=
  sizeSum (l.filter fun a => a.dir ≠ ddRead ∧ a.dir ≠ ddWrite)

def latest (l : List MemAccess) : ℕ := l.foldl (fun t a => max t a.step) 0

/-- The accesses of a window -/
def within (t w : ℕ) (l : List MemAccess) : List MemAccess :=
  l.filter fun a => a.step ≤ t ∧ (w < t → t - w < a.step)

/-- The accesses before a window -/
def older (t w : ℕ) (l : List MemAccess) : List MemAccess :=
  l.filter fun a => w < t ∧ a.step ≤ t - w

/-- The relief of a cell by a scan of its accesses -/
def recountRelief (m : TerrainModel) (t c : ℕ) (l : List MemAccess) : Option ReliefCell :=
  let seen := seenBy t l
  if seen = [] then none
  else some
    { cell := c
      touches := seen.length
      lastStep := latest seen
      readBytes := bytesIn ddRead seen
      writeBytes := bytesIn ddWrite seen
      unknownBytes := bytesUndirected seen
      hasRead := seen.any fun a => a.dir &&& ddRead ≠ 0
      hasWrite := seen.any fun a => a.dir &&& ddWrite ≠ 0
      torn := m.torn }

/-- The tide of a cell by a scan of its accesses -/
def recountTide (m : TerrainModel) (t w c : ℕ) (l : List MemAccess) : Option TideCell :=
  let seen := seenBy t l
  let window := within t w l
  if seen = [] then none
  else some
    { cell := c
      lastStep := latest seen
      liveBytes := sizeSum window
      live := window ≠ []
      winReadBytes := bytesIn ddRead window
      winWriteBytes := bytesIn ddWrite window
      winUnknownBytes := bytesUndirected window
      firstDirectionBit := rwOr seen &&& ~~~rwOr (older t w l) ≠ 0
      watermark := if window ≠ [] then 0 else sizeSum (within (latest seen) w l)
      torn := m.torn }

end Recount

section Totals

variable {l : List MemAccess}

theorem sizeSum_filter (p q : MemAccess → Bool) (l : List MemAccess) :
    sizeSum (l.filter p) =
      sizeSum (l.filter fun a => p a && q a) + sizeSum (l.filter fun a => p a && !q a) := by
  unfold sizeSum
  induction l with
  | nil => simp
  | cons a l ih =>
    simp only [List.filter_cons]
    cases p a
    · simpa using ih
    · cases q a
      · simp only [Bool.and_false, Bool.not_false, Bool.and_true, Bool.false_eq_true, if_true,
          if_false, List.map_cons, List.sum_cons, ih]
        exact add_left_comm _ _ _
      · simp only [Bool.and_true, Bool.not_true, Bool.and_false, Bool.false_eq_true, if_true,
          if_false, List.map_cons, List.sum_cons, ih]
        exact (add_assoc _ _ _).symm

theorem bytesIn_cons (d : BitVec 8) (a : MemAccess) (l : List MemAccess) :
    bytesIn d (a :: l) = if a.dir = d then a.size + bytesIn d l else bytesIn d l := by
  unfold bytesIn sizeSum
  by_cases hd : a.dir = d <;> simp [hd]

theorem foldl_add_dirs (l : List MemAccess) (s : Sums) :
    (l.foldl Sums.add s).cumR = s.cumR + bytesIn ddRead l ∧
      (l.foldl Sums.add s).cumW = s.cumW + bytesIn ddWrite l ∧
      (l.foldl Sums.add s).dirm = l.foldl (fun f a => f ||| a.dir) s.dirm := by
  induction l generalizing s with
  | nil => exact ⟨(add_zero _).symm, (add_zero _).symm, rfl⟩
  | cons a l ih =>
    obtain ⟨h1, h2, h3⟩ := ih (s.add a)
    refine ⟨?_, ?_, h3⟩
    · rw [List.foldl_cons, h1, bytesIn_cons, Sums.add]
      dsimp only
      split_ifs
      · exact add_assoc _ _ _
      · rfl
    · rw [List.foldl_cons, h2, bytesIn_cons, Sums.add]
      dsimp only
      split_ifs
      · exact add_assoc _ _ _
      · rfl

theorem sumsOf_cumR (l : List MemAccess) : (sumsOf l).cumR = bytesIn ddRead l := by
  rw [sumsOf, (foldl_add_dirs l {}).1]
  exact zero_add _

theorem sumsOf_cumW (l : List MemAccess) : (sumsOf l).cumW = bytesIn ddWrite l := by
  rw [sumsOf, (foldl_add_dirs l {}).2.1]
  exact zero_add _

/-- A bit is in the union of the directions when it is in one of them. -/
theorem sumsOf_dirm_and (l : List MemAccess) (d : BitVec 8) :
    decide ((sumsOf l).dirm &&& d ≠ 0) = l.any fun a => a.dir &&& d ≠ 0 := by
  have hgen : ∀ f : BitVec 8, (l.foldl (fun f a => f ||| a.dir) f &&& d ≠ 0) ↔
      f &&& d ≠ 0 ∨ ∃ a ∈ l, a.dir &&& d ≠ 0 := by
    induction l with
    | nil => simp
    | cons a l ih =>
      intro f
      have hor : (f ||| a.dir) &&& d ≠ 0 ↔ f &&& d ≠ 0 ∨ a.dir &&& d ≠ 0 := by
        rw [BitVec.and_or_distrib_right, ← not_and_or]
        exact not_congr BitVec.or_eq_zero_iff
      rw [List.foldl_cons, ih, hor]
      simp only [List.mem_cons, exists_eq_or_imp, or_assoc]
  rw [sumsOf, (foldl_add_dirs l {}).2.2, Bool.eq_iff_iff, decide_eq_true_iff, hgen]
  simp

theorem bytesUndirected_cons (a : MemAccess) (l : List MemAccess) :
    bytesUndirected (a :: l) = if a.dir ≠ ddRead ∧ a.dir ≠ ddWrite then a.size + bytesUndirected l
      else bytesUndirected l := by
  rw [bytesUndirected, sizeSum, List.filter_cons]
  by_cases hd : a.dir ≠ ddRead ∧ a.dir ≠ ddWrite
  · rw [if_pos (decide_eq_true hd), if_pos hd]
    rfl
  · rw [if_neg (by simpa using hd), if_neg hd]
    rfl

/-- Reads, writes and the rest make up the total. -/
theorem sizeSum_split (l : List MemAccess) :
    sizeSum l = bytesIn ddRead l + bytesIn ddWrite l + bytesUndirected l := by
  induction l with
  | nil => rfl
  | cons a l ih =>
    have hcons : sizeSum (a :: l) = a.size + sizeSum l := List.sum_cons
    rw [hcons, ih, bytesIn_cons, bytesIn_cons, bytesUndirected_cons]
    by_cases hr : a.dir = ddRead
    · rw [if_pos hr, if_neg (by rw [hr]; decide), if_neg (fun h => h.1 hr)]
      ac_rfl
    · by_cases hw : a.dir = ddWrite
      · rw [if_neg hr, if_pos hw, if_neg (fun h => h.2 hw)]
        ac_rfl
      · rw [if_neg hr, if_neg hw, if_pos ⟨hr, hw⟩]
        ac_rfl

/-- Sizes as numbers, without the wrapping -/
def natSum (l : List MemAccess) : ℕ := (l.map fun a => a.size.toNat).sum

theorem natSum_sublist {l' : List MemAccess} (h : l'.Sublist l) : natSum l' ≤ natSum l :=
  (h.map _).sum_le_sum fun _ _ => Nat.zero_le _

theorem toNat_add_le (x y : BitVec 64) : (x + y).toNat ≤ x.toNat + y.toNat := by
  rw [BitVec.toNat_add]
  exact Nat.mod_le _ _

theorem toNat_split_le (l : List MemAccess) :
    (bytesIn ddRead l).toNat + (bytesIn ddWrite l).toNat + (bytesUndirected l).toNat ≤
      natSum l := by
  induction l with
  | nil => exact le_rfl
  | cons a l ih =>
    have hcons : natSum (a :: l) = a.size.toNat + natSum l := List.sum_cons
    rw [hcons, bytesIn_cons, bytesIn_cons, bytesUndirected_cons]
    by_cases hr : a.dir = ddRead
    · have hle := toNat_add_le a.size (bytesIn ddRead l)
      rw [if_pos hr, if_neg (by rw [hr]; decide), if_neg (fun h => h.1 hr)]
      omega
    · by_cases hw : a.dir = ddWrite
      · have hle := toNat_add_le a.size (bytesIn ddWrite l)
        rw [if_neg hr, if_pos hw, if_neg (fun h => h.2 hw)]
        omega
      · have hle := toNat_add_le a.size (bytesUndirected l)
        rw [if_neg hr, if_neg hw, if_pos ⟨hr, hw⟩]
        omega

/-- The remainder is what has no direction, unless the total wraps around. -/
theorem remainder_eq (h : natSum l < 2 ^ 64) :
    remainder (sizeSum l) (bytesIn ddRead l + bytesIn ddWrite l) = bytesUndirected l := by
  have hsplit := sizeSum_split l
  have hle := toNat_split_le l
  have hadd := toNat_add_le (bytesIn ddRead l) (bytesIn ddWrite l)
  generalize bytesIn ddRead l + bytesIn ddWrite l = directed at hsplit hadd ⊢
  generalize bytesUndirected l = rest at hle hsplit ⊢
  rw [hsplit, remainder, add_sub_cancel_left]
  split_ifs with hlt
  · rfl
  · have hsum : (directed + rest).toNat = directed.toNat + rest.toNat := by
      rw [BitVec.toNat_add, Nat.mod_eq_of_lt (by omega)]
    rw [BitVec.lt_def, hsum] at hlt
    exact BitVec.eq_of_toNat_eq (by simp; omega)

instance : RightCommutative fun (t : ℕ) (a : MemAccess) => max t a.step where
  right_comm t a b := max_right_comm t a.step b.step

/-- The last of a sorted list is the latest. -/
theorem latest_concat {a : MemAccess} (h : ∀ b ∈ l, b.step ≤ a.step) :
    latest (l ++ [a]) = a.step := by
  have hle : latest l ≤ a.step := by
    unfold latest
    refine List.foldlRecOn (motive := fun t => t ≤ a.step) l _ (Nat.zero_le _) ?_
    intro t ht b hb
    exact max_le ht (h b hb)
  rw [latest, List.foldl_append]
  exact max_eq_right hle

/-- The step of the last one seen -/
theorem getD_steps (S : SortBy MemAccess.step) {t c : ℕ} (h : seenBy t l ≠ []) :
    (fillCell S (c, l)).steps.getD ((seenBy t l).length - 1) 0 = latest (seenBy t l) := by
  have hperm : (seenBy t (S.run l)).Perm (seenBy t l) := (S.perm l).filter _
  have hlen := hperm.length_eq
  obtain ⟨b, a, hlast⟩ : ∃ b a, seenBy t (S.run l) = b ++ [a] := by
    rcases List.eq_nil_or_concat' (seenBy t (S.run l)) with hnil | hcons
    · rw [hnil] at hperm
      exact absurd hperm.symm.eq_nil h
    · exact hcons
  have hsorted : (b ++ [a]).Pairwise fun a b => a.step ≤ b.step := by
    rw [← hlast]
    exact (S.sorted l).filter _
  have hprefix : b ++ [a] <+: S.run l := by
    rw [← hlast, seenBy, ← take_upperBound (S.sorted l)]
    exact List.take_prefix _ _
  obtain ⟨rest, hrest⟩ := hprefix
  have hlatest : latest (seenBy t l) = a.step := by
    rw [← latest_concat fun x hx => (List.pairwise_append.1 hsorted).2.2 x hx a (by simp), ← hlast]
    exact (hperm.foldl_eq 0).symm
  rw [hlatest, fillCell_steps, ← hlen, hlast, ← hrest]
  simp

/-- A total before a bound is that of what was seen by then. -/
theorem before_fillCell (S : SortBy MemAccess.step) (f : Sums → BitVec 64) (hf : f {} = 0)
    (t : ℕ) : before ((totals Sums.add {} (S.run l)).map f) (seenBy t l).length =
      f (sumsOf (seenBy t l)) := by
  unfold before
  by_cases hl : seenBy t l = []
  · rw [hl, List.length_nil, if_neg (fun h => absurd h.1 (lt_irrefl 0))]
    exact hf.symm
  · have hpos : 0 < (seenBy t l).length := List.length_pos_iff.2 hl
    have hle : (seenBy t l).length ≤ l.length := List.length_filter_le _ _
    have hlen : ((totals Sums.add {} (S.run l)).map f).length = l.length := by
      rw [List.length_map, totals_length, (S.perm l).length_eq]
    rw [if_pos ⟨hpos, by omega⟩, getD_totals S l f 0 hl]

end Totals

section Windows

variable (S : SortBy MemAccess.step) (c : ℕ) (l : List MemAccess)

/-- A window parts what was seen by its end. -/
theorem older_eq (t w : ℕ) :
    older t w l = (seenBy t l).filter fun a => decide (w < t ∧ a.step ≤ t - w) := by
  rw [seenBy, List.filter_filter]
  apply List.filter_congr
  intro a _
  rw [← Bool.decide_and]
  exact decide_eq_decide.2 (by omega)

theorem within_eq (t w : ℕ) :
    within t w l = (seenBy t l).filter fun a => !decide (w < t ∧ a.step ≤ t - w) := by
  rw [seenBy, List.filter_filter]
  apply List.filter_congr
  intro a _
  rw [← decide_not, ← Bool.decide_and]
  exact decide_eq_decide.2 (by omega)

theorem length_seenBy (t w : ℕ) :
    (seenBy t l).length = (older t w l).length + (within t w l).length := by
  rw [older_eq, within_eq]
  exact List.length_eq_length_filter_add _

/-- What was seen before a window is what was seen by some time. -/
theorem older_cases (t w : ℕ) : older t w l = seenBy (t - w) l ∨ older t w l = [] := by
  by_cases hw : w < t
  · exact .inl (by simp [older, seenBy, hw])
  · exact .inr (by simp [older, hw])

theorem windowRange_fillCell (t w : ℕ) : windowRange (fillCell S (c, l)) t w =
    ((older t w l).length, (seenBy t l).length) := by
  have hle := length_seenBy l t w
  have hlo : (if w < t then upperBound (t - w) (fillCell S (c, l)).steps else 0) =
      (older t w l).length := by
    split_ifs with hw
    · rw [upperBound_fillCell]
      simp [older, seenBy, hw]
    · simp [older, hw]
  rw [windowRange, upperBound_fillCell, hlo, if_neg (by omega)]

/-- A difference of totals is the total of the window. -/
theorem sub_within (p : MemAccess → Bool) (t w : ℕ) :
    sizeSum ((seenBy t l).filter p) - sizeSum ((older t w l).filter p) =
      sizeSum ((within t w l).filter p) := by
  rw [sizeSum_filter p (fun a => decide (w < t ∧ a.step ≤ t - w)) (seenBy t l), older_eq, within_eq,
    List.filter_filter, List.filter_filter, add_sub_cancel_left]

theorem sizeSum_within (t w : ℕ) :
    sizeSum (seenBy t l) - sizeSum (older t w l) = sizeSum (within t w l) := by
  have h := sub_within l (fun _ => true) t w
  simpa only [List.filter_true] using h

theorem before_older (f : Sums → BitVec 64) (hf : f {} = 0) (t w : ℕ) :
    before ((totals Sums.add {} (S.run l)).map f) (older t w l).length =
      f (sumsOf (older t w l)) := by
  rcases older_cases l t w with h | h
  · rw [h, before_fillCell S f hf]
  · rw [h, List.length_nil, before, if_neg (fun h => absurd h.1 (lt_irrefl 0))]
    exact hf.symm

end Windows

section Cells

variable (S : SortBy MemAccess.step) (m : TerrainModel) (c : ℕ) (l : List MemAccess)

theorem reliefCell_fillCell (t : ℕ) (h : natSum (seenBy t l) < 2 ^ 64) :
    reliefCell m t (fillCell S (c, l)) = recountRelief m t c l := by
  unfold reliefCell recountRelief
  dsimp only
  rw [upperBound_fillCell]
  by_cases hl : seenBy t l = []
  · rw [hl, if_pos List.length_nil, if_pos rfl]
  · have hlen : (seenBy t l).length ≠ 0 := fun h => hl (List.length_eq_zero_iff.1 h)
    rw [if_neg hlen, if_neg hl, getD_steps S hl, fillCell_cell, fillCell_cumReadSize,
      fillCell_cumWriteSize, fillCell_cumSize, fillCell_cumDir, getD_totals S l _ _ hl,
      getD_totals S l _ _ hl, getD_totals S l _ _ hl, getD_totals S l _ _ hl, sumsOf_cumR,
      sumsOf_cumW, sumsOf_cum, remainder_eq h, sumsOf_dirm_and, sumsOf_dirm_and]

/-- The flags before an index -/
theorem getD_cumRw {l' : List MemAccess} {t : ℕ} (hl' : l' = seenBy t l ∨ l' = []) :
    (if 0 < l'.length ∧ l'.length - 1 < (fillCell S (c, l)).cumRw.length
      then (fillCell S (c, l)).cumRw.getD (l'.length - 1) 0 else 0) = rwOr l' := by
  rcases hl' with rfl | rfl
  · by_cases hl : seenBy t l = []
    · rw [hl, List.length_nil, if_neg (fun h => absurd h.1 (lt_irrefl 0))]
      rfl
    · have hpos : 0 < (seenBy t l).length := List.length_pos_iff.2 hl
      have hle : (seenBy t l).length ≤ l.length := List.length_filter_le _ _
      rw [fillCell_cumRw, List.length_map, totals_length, (S.perm l).length_eq,
        if_pos ⟨hpos, by omega⟩, getD_totals S l _ _ hl, sumsOf_rwm]
  · exact if_neg fun h => absurd h.1 (lt_irrefl 0)

theorem tideCell_fillCell (t w : ℕ) (h : natSum (seenBy t l) < 2 ^ 64) :
    tideCell m t w (fillCell S (c, l)) = recountTide m t w c l := by
  unfold tideCell recountTide
  rw [windowRange_fillCell]
  dsimp only
  by_cases hl : seenBy t l = []
  · rw [hl, if_pos List.length_nil, if_pos rfl]
  · have hlen : (seenBy t l).length ≠ 0 := fun h => hl (List.length_eq_zero_iff.1 h)
    have hlive : (older t w l).length < (seenBy t l).length ↔ within t w l ≠ [] := by
      rw [length_seenBy l t w, ← List.length_pos_iff]
      omega
    have hwin : natSum (within t w l) < 2 ^ 64 := by
      apply lt_of_le_of_lt (natSum_sublist _) h
      rw [within_eq]
      exact List.filter_sublist
    have hsize : ∀ t, before (fillCell S (c, l)).cumSize (seenBy t l).length -
        before (fillCell S (c, l)).cumSize (older t w l).length = sizeSum (within t w l) := by
      intro t
      rw [fillCell_cumSize, before_fillCell S _ rfl, before_older S l _ rfl, sumsOf_cum, sumsOf_cum,
        sizeSum_within]
    have hread : before (fillCell S (c, l)).cumReadSize (seenBy t l).length -
        before (fillCell S (c, l)).cumReadSize (older t w l).length =
          bytesIn ddRead (within t w l) := by
      rw [fillCell_cumReadSize, before_fillCell S _ rfl, before_older S l _ rfl, sumsOf_cumR,
        sumsOf_cumR]
      exact sub_within l _ t w
    have hwrite : before (fillCell S (c, l)).cumWriteSize (seenBy t l).length -
        before (fillCell S (c, l)).cumWriteSize (older t w l).length =
          bytesIn ddWrite (within t w l) := by
      rw [fillCell_cumWriteSize, before_fillCell S _ rfl, before_older S l _ rfl, sumsOf_cumW,
        sumsOf_cumW]
      exact sub_within l _ t w
    rw [if_neg hlen, if_neg hl, getD_steps S hl, windowRange_fillCell, hsize, hsize, hread, hwrite,
      remainder_eq hwin, getD_cumRw S c l (.inl rfl), getD_cumRw S c l (older_cases l t w),
      fillCell_cell]
    simp only [hlive]

end Cells

section Layers

variable {F : Type} {L : JsonLib F} {S : SortBy MemAccess.step} {p : Projection}
  {bodies : List (Json F)} {m m' : TerrainModel}

/-- A layer is made of what each cell got. -/
theorem Found.filterMap {past : ℕ → List MemAccess} {s : MemScan} (h : Found past s) {β : Type}
    {f : DataCell → Option β} {g : ℕ → List MemAccess → Option β}
    (hfg : ∀ c, f (fillCell S (c, past c)) = g c (past c)) :
    (s.acc.map (fillCell S)).filterMap f =
      (s.acc.map Prod.fst).filterMap fun c => g c (past c) := by
  rw [List.filterMap_map, List.filterMap_map]
  apply List.filterMap_congr
  rintro ⟨c, l⟩ he
  have hfind := h.getD c
  rw [mapFind_of_mem h.sorted he] at hfind
  obtain rfl : l = past c := hfind
  exact hfg c

/-- Relief and tide, taken from the running totals, are those of a scan of the events, cell by cell
in ascending order, and a cell has an entry exactly from its first access on. The sizes seen in a
cell must not sum up to `2 ^ 64`. -/
theorem layers_recount (h : buildData L S p bodies m = some m') :
    ∃ cells : List ℕ, cells.Pairwise (· < ·) ∧
      (∀ c, c ∈ cells ↔ accessesAt L p bodies c ≠ []) ∧
      ∀ t, (∀ c, natSum (seenBy t (accessesAt L p bodies c)) < 2 ^ 64) → m'.basisError = [] →
        buildDataRelief m' t =
          cells.filterMap (fun c => recountRelief m' t c (accessesAt L p bodies c)) ∧
        ∀ w ≠ 0, buildWorkingSetTide m' t w =
          cells.filterMap fun c => recountTide m' t w c (accessesAt L p bodies c) := by
  obtain ⟨scan, hfound, -, hm⟩ := buildData_eq h
  have hdata : m'.data = scan.acc.map (fillCell S) := by
    rw [hm]
    rfl
  refine ⟨scan.acc.map Prod.fst, ?_, fun c => ?_, fun t hsum hbasis => ⟨?_, fun w hw => ?_⟩⟩
  · exact List.pairwise_map.2 hfound.sorted
  · have hmem : c ∈ scan.acc.map Prod.fst ↔ mapFind c scan.acc ≠ none := by
      rw [Ne, mapFind_eq_none_iff]
      simp
    rw [hmem, hfound.find c]
    by_cases hp : accessesAt L p bodies c = [] <;> simp [hp]
  · rw [buildDataRelief, if_neg (not_not.2 hbasis), hdata]
    apply hfound.filterMap
    intro c
    exact reliefCell_fillCell S m' c _ t (hsum c)
  · rw [buildWorkingSetTide, if_neg (not_not.2 hbasis), if_pos hw, hdata]
    apply hfound.filterMap
    intro c
    exact tideCell_fillCell S m' c _ t w (hsum c)

/-- A write, a read and an access of neither kind in the first cell, and a read outside -/
def layerSample : List (Json Empty) :=
  memSample ++ [.obj [(ascii "ea", .int 4096), (ascii "rw", .str (ascii "x")),
    (ascii "size", .int 2), (ascii "step", .int 2)]]

def layerModel : TerrainModel :=
  { w := 64, h := 64, nsteps := 5 }

theorem accessesAt_layerSample (c : ℕ) : accessesAt compactJson planeSample layerSample c =
    if 0 = c then [⟨3, 8, tfWrite, ddWrite⟩, ⟨1, 4, tfRead, ddRead⟩, ⟨2, 2, tfRead, 0⟩]
    else [] := by
  have hplaces : layerSample.map (placeMem compactJson planeSample) =
      [some (some 0, ⟨3, 8, tfWrite, ddWrite⟩), some (none, ⟨1, 4, tfRead, ddRead⟩),
        some (some 0, ⟨1, 4, tfRead, ddRead⟩), some (some 0, ⟨2, 2, tfRead, 0⟩)] := by
    decide +kernel
  simp only [layerSample, memSample, List.cons_append, List.nil_append, List.map_cons,
    List.map_nil, List.cons.injEq] at hplaces
  obtain ⟨h₁, h₂, h₃, h₄, -⟩ := hplaces
  simp only [accessesAt, layerSample, memSample, List.cons_append, List.nil_append,
    List.filterMap_cons, h₁, h₂, h₃, h₄]
  split_ifs <;> rfl

theorem natSum_layerSample (t c : ℕ) :
    natSum (seenBy t (accessesAt compactJson planeSample layerSample c)) < 2 ^ 64 := by
  apply lt_of_le_of_lt (natSum_sublist List.filter_sublist)
  rw [accessesAt_layerSample]
  split_ifs <;> decide

theorem layers_recount_sample :
    ∃ m', buildData compactJson (SortBy.stable _) planeSample layerSample layerModel = some m' ∧
      (buildDataRelief m' 3).map (fun r =>
        (r.cell, r.touches, r.readBytes, r.writeBytes, r.unknownBytes)) = [(0, 3, 4, 8, 2)] ∧
      (buildWorkingSetTide m' 3 2).map (fun r =>
        (r.cell, r.liveBytes, r.winReadBytes, r.winWriteBytes, r.winUnknownBytes)) =
        [(0, 10, 0, 8, 2)] := by
  have hsome : (buildData compactJson (SortBy.stable _) planeSample layerSample
      layerModel).isSome = true := by decide +kernel
  obtain ⟨m', hm⟩ := Option.isSome_iff_exists.1 hsome
  have hbasis : m'.basisError = [] := by
    obtain ⟨scan, -, -, rfl⟩ := buildData_eq hm
    rfl
  obtain ⟨cells, hsorted, hmem, hlayers⟩ := layers_recount hm
  have hcells : cells = [0] := by
    apply hsorted.eq_of_mem_iff (List.pairwise_singleton _ _)
    intro c
    rw [hmem, accessesAt_layerSample, List.mem_singleton]
    split_ifs with hc
    · simp [hc]
    · simpa using Ne.symm hc
  obtain ⟨hrelief, htide⟩ := hlayers 3 (natSum_layerSample 3) hbasis
  refine ⟨m', hm, ?_, ?_⟩
  · rw [hrelief, hcells]
    simp only [accessesAt_layerSample]
    rfl
  · rw [htide 2 (by decide), hcells]
    simp only [accessesAt_layerSample]
    rfl

end Layers

section Sediment

structure SedimentBand where
  index : ℕ
  loStep : ℕ
  hiStep : ℕ
  hits : ℕ

structure SedimentColumn where
  cell : ℕ
  isData : Bool
  totalHits : ℕ
  tornCapped : Bool
  bands : List SedimentBand

/-- The top of the axis: it covers every observed step. -/
def bandTop (steps : List ℕ) (nsteps : ℕ) : ℕ := max nsteps (u64 (steps.getLast?.getD 0 + 1))

/-- An edge between bands; the last one is the top itself. -/
def bandEdge (top bands b : ℕ) : ℕ := if b = bands then top else u64 (top * b) / bands

def fillBand (steps : List ℕ) (top bands b : ℕ) : Option SedimentBand :=
  let lo := bandEdge top bands b
  let hi := bandEdge top bands (b + 1)
  if hi ≤ lo then none
  else
    let hits := lowerBound hi steps - lowerBound lo steps
    if hits = 0 then none
    else some { index := b, loStep := lo, hiStep := hi, hits := hits }

def fillBands (steps : List ℕ) (bands nsteps : ℕ) : List SedimentBand :=
  if steps = [] ∨ bands = 0 then []
  else (List.range bands).filterMap (fillBand steps (bandTop steps nsteps) bands)

/-- The bands are halved until the columns fit the budget. -/
def coarsen (touched budget bands : ℕ) : ℕ :=
  if 1 < bands ∧ budget < u64 (touched * bands) then coarsen touched budget (bands / 2) else bands
termination_by bands
decreasing_by omega

def kSedimentBandsDefault : ℕ := 16

structure SedimentColumns where
  exact : List SedimentColumn
  bands : ℕ
  bandsRequested : ℕ
  degraded : Bool

/-- Cells with their steps: those of the code first -/
def TerrainModel.stepped (m : TerrainModel) : List (ℕ × Bool × List ℕ) :=
  (m.code.map fun cc => (cc.cell, false, cc.steps)) ++
    m.data.map fun dc => (dc.cell, true, dc.steps)

def sedimentColumn (m : TerrainModel) (bands : ℕ) (e : ℕ × Bool × List ℕ) :
    Option SedimentColumn :=
  if e.2.2 = [] then none
  else
    let col : SedimentColumn :=
      { cell := e.1
        isData := e.2.1
        totalHits := e.2.2.length
        tornCapped := m.torn
        bands := fillBands e.2.2 bands m.nsteps }
    if col.bands = [] then none else some col

def requestedBands (bands : ℕ) : ℕ := if bands ≠ 0 then bands else kSedimentBandsDefault

def usedBands (touched budget requested : ℕ) : ℕ :=
  if 0 < budget ∧ 0 < touched then coarsen touched budget requested else requested

/-- The cells that place a column -/
def TerrainModel.touched (m : TerrainModel) : List (ℕ × Bool × List ℕ) :=
  m.stepped.filter fun e => e.2.2 ≠ []

def buildSedimentColumns (m : TerrainModel) (bands cellBandBudget : ℕ) : SedimentColumns :=
  let requested := requestedBands bands
  if m.basisError ≠ [] then
    { exact := [], bands := requested, bandsRequested := requested, degraded := false }
  else
    let used := usedBands m.touched.length cellBandBudget requested
    { exact := m.stepped.filterMap (sedimentColumn m used)
      bands := used
      bandsRequested := requested
      degraded := used < requested }

variable {steps : List ℕ} {nsteps bands : ℕ}

/-- In a sorted list the keys below a bound are a prefix. -/
theorem lowerBound_eq (h : steps.Pairwise (· ≤ ·)) (t : ℕ) :
    lowerBound t steps = steps.countP fun s => s < t := by
  -- behind the first key that is not below the bound there is none
  induction steps with
  | nil => rfl
  | cons s steps ih =>
    obtain ⟨hhead, htail⟩ := List.pairwise_cons.1 h
    unfold lowerBound at ih ⊢
    by_cases hs : s < t
    · rw [List.takeWhile_cons_of_pos (by simpa using hs), List.length_cons, ih htail,
        List.countP_cons_of_pos (by simpa using hs)]
    · have hrest : steps.countP (fun s => s < t) = 0 := by
        apply List.countP_eq_zero.2
        intro x hx hxt
        exact hs ((hhead x hx).trans_lt (of_decide_eq_true hxt))
      rw [List.takeWhile_cons_of_neg (by simpa using hs),
        List.countP_cons_of_neg (by simpa using hs), hrest]
      rfl

/-- The hits between two edges, emitted or not -/
theorem countP_between (steps : List ℕ) {lo hi : ℕ} (h : lo ≤ hi) :
    steps.countP (fun s => s < hi) =
      steps.countP (fun s => s < lo) + steps.countP fun s => lo ≤ s ∧ s < hi := by
  induction steps with
  | nil => rfl
  | cons s steps ih =>
    simp only [List.countP_cons, ih, decide_eq_true_eq]
    split_ifs <;> omega

theorem bandEdge_eq {top b : ℕ} (hfit : top * bands < 2 ^ 64) (hb : b < bands) :
    bandEdge top bands b = top * b / bands := by
  have hle : top * b ≤ top * bands := Nat.mul_le_mul_left top hb.le
  rw [bandEdge, if_neg hb.ne, u64_of_lt (lt_of_le_of_lt hle hfit)]

theorem bandEdge_mono {top a b : ℕ} (hfit : top * bands < 2 ^ 64) (hab : a ≤ b) (hb : b ≤ bands) :
    bandEdge top bands a ≤ bandEdge top bands b := by
  rcases hb.lt_or_eq with hb | rfl
  · rw [bandEdge_eq hfit hb, bandEdge_eq hfit (hab.trans_lt hb)]
    exact Nat.div_le_div_right (Nat.mul_le_mul_left top hab)
  · rcases hab.lt_or_eq with ha | rfl
    · rw [bandEdge_eq hfit ha, bandEdge, if_pos rfl]
      exact Nat.div_le_of_le_mul ((Nat.mul_le_mul_left top hab).trans_eq (mul_comm _ _))
    · exact le_rfl

/-- What a band counts, emitted or not -/
theorem fillBand_hits (h : steps.Pairwise (· ≤ ·)) {top b : ℕ} (hfit : top * bands < 2 ^ 64)
    (hb : b < bands) :
    ((fillBand steps top bands b).toList.map SedimentBand.hits).sum +
        steps.countP (fun s => s < bandEdge top bands b) =
      steps.countP fun s => s < bandEdge top bands (b + 1) := by
  have hmono := bandEdge_mono hfit (Nat.le_add_right b 1) hb
  have hsplit := countP_between steps hmono
  rw [fillBand]
  dsimp only
  split_ifs with hle hzero
  · rw [le_antisymm hle hmono]
    simp
  · rw [lowerBound_eq h, lowerBound_eq h] at hzero
    simp only [Option.toList_none, List.map_nil, List.sum_nil]
    omega
  · simp only [Option.toList_some, List.map_cons, List.map_nil, List.sum_cons, List.sum_nil,
      lowerBound_eq h]
    omega

theorem mem_fillBand (h : steps.Pairwise (· ≤ ·)) {top b : ℕ} (hfit : top * bands < 2 ^ 64)
    (hb : b < bands) {band : SedimentBand} (hband : band ∈ fillBand steps top bands b) :
    band.loStep = bandEdge top bands b ∧ band.hiStep = bandEdge top bands (b + 1) ∧
      0 < band.hits ∧
      band.hits = steps.countP fun s => band.loStep ≤ s ∧ s < band.hiStep := by
  have hsplit := countP_between steps (bandEdge_mono hfit (Nat.le_add_right b 1) hb)
  rw [Option.mem_def, fillBand] at hband
  dsimp only at hband
  split_ifs at hband with hle hzero
  obtain rfl := Option.some.inj hband
  refine ⟨rfl, rfl, Nat.pos_of_ne_zero hzero, ?_⟩
  simp only [lowerBound_eq h]
  omega

/-- The bands up to an edge hold what lies below it. -/
theorem sum_fillBands (h : steps.Pairwise (· ≤ ·)) {top : ℕ} (hfit : top * bands < 2 ^ 64) {n : ℕ}
    (hn : n ≤ bands) (hpos : 0 < bands) :
    (((List.range n).filterMap (fillBand steps top bands)).map SedimentBand.hits).sum =
      steps.countP fun s => s < bandEdge top bands n := by
  -- a band without hits is not emitted, and adds nothing
  induction n with
  | zero =>
    rw [bandEdge_eq hfit hpos]
    simp
  | succ n ih =>
    rw [List.range_succ, List.filterMap_append, List.map_append, List.sum_append,
      ih (Nat.le_of_succ_le hn), ← fillBand_hits h hfit hn, add_comm]
    congr 2

theorem bandTop_spec (h : steps.Pairwise (· ≤ ·)) (hne : steps ≠ [])
    (hfit : ∀ s ∈ steps, s + 1 < 2 ^ 64) :
    (∀ s ∈ steps, s < bandTop steps nsteps) ∧
      ∃ s ∈ steps, bandTop steps nsteps = max nsteps (s + 1) := by
  obtain ⟨l, x, rfl⟩ := (List.eq_nil_or_concat' steps).resolve_left hne
  have hx : x + 1 < 2 ^ 64 := hfit x (by simp)
  have htop : bandTop (l ++ [x]) nsteps = max nsteps (x + 1) := by
    rw [bandTop, List.getLast?_concat, Option.getD_some, u64_of_lt hx]
  refine ⟨fun s hs => ?_, x, by simp, htop⟩
  rw [htop]
  rcases List.mem_append.1 hs with hs | hs
  · have hsx := (List.pairwise_append.1 h).2.2 s hs x (by simp)
    omega
  · rw [List.mem_singleton.1 hs]
    omega

/-- The bands of a column part its steps. -/
theorem fillBands_spec (h : steps.Pairwise (· ≤ ·)) (hpos : 0 < bands)
    (hfit : ∀ s ∈ steps, max nsteps (s + 1) * bands < 2 ^ 64) :
    ((fillBands steps bands nsteps).map SedimentBand.hits).sum = steps.length ∧
      (∀ b ∈ fillBands steps bands nsteps, 0 < b.hits ∧
        b.hits = steps.countP fun s => b.loStep ≤ s ∧ s < b.hiStep) ∧
      (fillBands steps bands nsteps).Pairwise fun a b => a.hiStep ≤ b.loStep := by
  rw [fillBands]
  by_cases hne : steps = []
  · simp [hne]
  · have hstep : ∀ s ∈ steps, s + 1 < 2 ^ 64 := by
      intro s hs
      apply lt_of_le_of_lt _ (hfit s hs)
      exact (le_max_right nsteps (s + 1)).trans (Nat.le_mul_of_pos_right _ hpos)
    obtain ⟨hall, s, hs, htop⟩ := @bandTop_spec steps nsteps h hne hstep
    have hfit' := hfit s hs
    rw [← htop] at hfit'
    rw [if_neg (by simp [hne, hpos.ne'])]
    refine ⟨?_, fun b hb => ?_, ?_⟩
    · rw [sum_fillBands h hfit' le_rfl hpos, bandEdge, if_pos rfl]
      exact List.countP_eq_length.2 fun s hs => decide_eq_true (hall s hs)
    · obtain ⟨i, hi, hb⟩ := List.mem_filterMap.1 hb
      exact (mem_fillBand h hfit' (List.mem_range.1 hi) hb).2.2
    · apply List.Pairwise.filterMap
        (R := fun i j => i < j ∧ j < bands)
      · rintro i j ⟨hij, hj⟩ a ha b hb
        obtain ⟨-, ha, -⟩ := mem_fillBand h hfit' (hij.trans hj) ha
        obtain ⟨hb, -⟩ := mem_fillBand h hfit' hj hb
        rw [ha, hb]
        exact bandEdge_mono hfit' hij hj.le
      · apply List.pairwise_lt_range.imp_of_mem
        intro i j _ hj hij
        exact ⟨hij, List.mem_range.1 hj⟩

theorem coarsen_spec (touched budget : ℕ) : ∀ bands, 0 < bands →
    0 < coarsen touched budget bands ∧ coarsen touched budget bands ≤ bands ∧
      (1 < coarsen touched budget bands →
        u64 (touched * coarsen touched budget bands) ≤ budget) := by
  intro bands hpos
  induction bands using Nat.strong_induction_on with
  | _ bands ih =>
    rw [coarsen]
    split_ifs with h
    · obtain ⟨h1, h2, h3⟩ := ih (bands / 2) (by omega) (by omega)
      exact ⟨h1, by omega, h3⟩
    · exact ⟨hpos, le_rfl, fun h1 => not_lt.1 fun h2 => h ⟨h1, h2⟩⟩

theorem requestedBands_pos (bands : ℕ) : 0 < requestedBands bands := by
  unfold requestedBands
  split_ifs with hb
  · exact Nat.pos_of_ne_zero hb
  · decide

/-- The bands fit the budget, unless one is too many. -/
theorem usedBands_spec (touched budget : ℕ) {requested : ℕ} (hpos : 0 < requested) :
    0 < usedBands touched budget requested ∧ usedBands touched budget requested ≤ requested ∧
      (0 < budget → 1 < usedBands touched budget requested →
        u64 (touched * usedBands touched budget requested) ≤ budget) := by
  obtain ⟨h1, h2, h3⟩ := coarsen_spec touched budget requested hpos
  unfold usedBands
  split_ifs with h
  · exact ⟨h1, h2, fun _ => h3⟩
  · refine ⟨hpos, le_rfl, fun hb _ => ?_⟩
    obtain rfl : touched = 0 := Nat.eq_zero_of_not_pos fun ht => h ⟨hb, ht⟩
    rw [Nat.zero_mul]
    exact Nat.zero_le _

theorem fillBands_ne_nil (h : steps.Pairwise (· ≤ ·)) (hpos : 0 < bands) (hne : steps ≠ [])
    (hfit : ∀ s ∈ steps, max nsteps (s + 1) * bands < 2 ^ 64) :
    fillBands steps bands nsteps ≠ [] := by
  intro hnil
  have hsum := (fillBands_spec h hpos hfit).1
  rw [hnil] at hsum
  exact hne (List.length_eq_zero_iff.1 hsum.symm)

/-- The column of a touched cell -/
def columnOf (m : TerrainModel) (bands : ℕ) (e : ℕ × Bool × List ℕ) : SedimentColumn where
  cell := e.1
  isData := e.2.1
  totalHits := e.2.2.length
  tornCapped := m.torn
  bands := fillBands e.2.2 bands m.nsteps

theorem filterMap_sedimentColumn {m : TerrainModel} (hpos : 0 < bands)
    (hsorted : ∀ e ∈ m.stepped, e.2.2.Pairwise (· ≤ ·))
    (hfit : ∀ e ∈ m.stepped, ∀ s ∈ e.2.2, max m.nsteps (s + 1) * bands < 2 ^ 64) :
    m.stepped.filterMap (sedimentColumn m bands) =
      m.touched.map (columnOf m bands) := by
  rw [TerrainModel.touched, ← List.filterMap_eq_map, List.filterMap_filter]
  apply List.filterMap_congr
  intro e he
  rw [sedimentColumn]
  by_cases hne : e.2.2 = []
  · simp [hne]
  · have hbands := fillBands_ne_nil (hsorted e he) hpos hne (hfit e he)
    simp [hne, hbands, columnOf]

/-- No touched cell loses its column, whatever the budget, and the bands of a column count its
steps, each in the one band whose window holds it. The products of the axis and the bands must fit
a word. -/
theorem sediment_conserved (m : TerrainModel) (bands budget : ℕ) (hbasis : m.basisError = [])
    (hsorted : ∀ e ∈ m.stepped, e.2.2.Pairwise (· ≤ ·))
    (hfit : ∀ e ∈ m.stepped, ∀ s ∈ e.2.2,
      max m.nsteps (s + 1) * requestedBands bands < 2 ^ 64) :
    let out := buildSedimentColumns m bands budget
    out.exact.map (fun col => (col.cell, col.isData)) = m.touched.map (fun e => (e.1, e.2.1)) ∧
      (∀ col ∈ out.exact, ∃ e ∈ m.touched, col.cell = e.1 ∧ col.isData = e.2.1 ∧
        (col.bands.map SedimentBand.hits).sum = e.2.2.length ∧
        (∀ b ∈ col.bands, 0 < b.hits ∧
          b.hits = e.2.2.countP fun s => b.loStep ≤ s ∧ s < b.hiStep) ∧
        col.bands.Pairwise fun a b => a.hiStep ≤ b.loStep) ∧
      (0 < budget → 1 < out.bands → u64 (m.touched.length * out.bands) ≤ budget) := by
  obtain ⟨hpos, hle, hbudget⟩ :=
    usedBands_spec m.touched.length budget (requestedBands_pos bands)
  rw [buildSedimentColumns, if_neg (not_not.2 hbasis)]
  dsimp only
  generalize usedBands m.touched.length budget (requestedBands bands) = used at hpos hle hbudget ⊢
  have hfit' : ∀ e ∈ m.stepped, ∀ s ∈ e.2.2, max m.nsteps (s + 1) * used < 2 ^ 64 :=
    fun e he s hs => lt_of_le_of_lt (Nat.mul_le_mul_left _ hle) (hfit e he s hs)
  rw [filterMap_sedimentColumn hpos hsorted hfit']
  refine ⟨?_, fun col hcol => ?_, hbudget⟩
  · rw [List.map_map]
    rfl
  · obtain ⟨e, he, rfl⟩ := List.mem_map.1 hcol
    have hmem := (List.mem_filter.1 he).1
    obtain ⟨hsum, hbands, hpair⟩ := fillBands_spec (hsorted e hmem) hpos (hfit' e hmem)
    exact ⟨e, he, rfl, rfl, hsum, hbands, hpair⟩

/-- Two code cells -/
def sedimentSample : TerrainModel :=
  { w := 8, h := 8, nsteps := 40,
    code := [⟨3, [0, 5, 5, 39], u64Max⟩, ⟨9, [10, 11, 30], u64Max⟩] }

/-- Four bands for each of two cells do not fit a budget of four: they are halved, and no step is
lost. -/
theorem sediment_conserved_sample :
    let out := buildSedimentColumns sedimentSample 4 4
    out.bands = 2 ∧ out.degraded = true ∧
      out.exact.map (fun col => (col.cell, col.bands.map fun b => (b.loStep, b.hiStep, b.hits))) =
        [(3, [(0, 20, 3), (20, 40, 1)]), (9, [(0, 20, 2), (20, 40, 1)])] ∧
      ∀ col ∈ out.exact, ∃ e ∈ sedimentSample.touched, col.cell = e.1 ∧
        (col.bands.map SedimentBand.hits).sum = e.2.2.length := by
  obtain ⟨-, hcols, -⟩ := sediment_conserved sedimentSample 4 4 rfl (by decide) (by decide)
  refine ⟨by decide +kernel, by decide +kernel, by decide +kernel, fun col hcol => ?_⟩
  obtain ⟨e, he, hcell, -, hsum, -⟩ := hcols col hcol
  exact ⟨e, he, hcell, hsum⟩

end Sediment

end AsmTest.Space
