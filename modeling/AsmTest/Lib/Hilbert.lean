import Mathlib.Data.Nat.Dist
import Mathlib.Tactic

/-!
# The Hilbert curve

The curve through the cells of a square whose side is a power of two, by the recursion on its four
quadrants: the first is transposed, the next two are shifted, the last is transposed along the other
diagonal. The index of a cell is computed by the inverse recursion. Consecutive indices are
neighbouring cells.
-/

namespace AsmTest.Lib.Hilbert

/-- A quadrant of side `s`: how its own curve lies in the square of side `2 * s` -/
def place (s : ℕ) : ℕ → ℕ × ℕ → ℕ × ℕ
  | 0, p => (p.2, p.1)
  | 1, p => (p.1, p.2 + s)
  | 2, p => (p.1 + s, p.2 + s)
  | _, p => (s - 1 - p.2 + s, s - 1 - p.1)

/-- The cell of an index -/
def curve : ℕ → ℕ → ℕ × ℕ
  | 0, _ => (0, 0)
  | k + 1, d => place (2 ^ k) (d / 4 ^ k) (curve k (d % 4 ^ k))

/-- The quadrant of a cell, and the cell in it -/
def split (s : ℕ) (p : ℕ × ℕ) : ℕ × ℕ × ℕ :=
  if p.1 < s then
    if p.2 < s then (0, p.2, p.1) else (1, p.1, p.2 - s)
  else
    if p.2 < s then (3, s - 1 - p.2, s - 1 - (p.1 - s)) else (2, p.1 - s, p.2 - s)

/-- The index of a cell -/
def index : ℕ → ℕ × ℕ → ℕ
  | 0, _ => 0
  | k + 1, p => (split (2 ^ k) p).1 * 4 ^ k + index k (split (2 ^ k) p).2

/-- A cell of the square of side `s` -/
def InSquare (s : ℕ) (p : ℕ × ℕ) : Prop :=
  p.1 < s ∧ p.2 < s

section Quadrants

variable {s q : ℕ} {p : ℕ × ℕ}

@[simp] lemma place_zero : place s 0 p = (p.2, p.1) := rfl

@[simp] lemma place_one : place s 1 p = (p.1, p.2 + s) := rfl

@[simp] lemma place_two : place s 2 p = (p.1 + s, p.2 + s) := rfl

@[simp] lemma place_three : place s 3 p = (s - 1 - p.2 + s, s - 1 - p.1) := rfl

lemma inSquare_place (hp : InSquare s p) (hq : q < 4) : InSquare (2 * s) (place s q p) := by
  obtain ⟨hx, hy⟩ := hp
  unfold InSquare
  interval_cases q
  · rw [place_zero]
    exact ⟨by omega, by omega⟩
  · rw [place_one]
    exact ⟨by omega, by omega⟩
  · rw [place_two]
    exact ⟨by omega, by omega⟩
  · rw [place_three]
    exact ⟨by omega, by omega⟩

lemma split_place (hp : InSquare s p) (hq : q < 4) : split s (place s q p) = (q, p) := by
  obtain ⟨hx, hy⟩ := hp
  unfold split
  interval_cases q
  · rw [place_zero, if_pos hy, if_pos hx]
  · rw [place_one, if_pos hx, if_neg (by omega), Nat.add_sub_cancel]
  · rw [place_two, if_neg (by omega), if_neg (by omega), Nat.add_sub_cancel, Nat.add_sub_cancel]
  · have hx' : s - 1 - (s - 1 - p.1) = p.1 := by omega
    have hy' : s - 1 - (s - 1 - p.2) = p.2 := by omega
    rw [place_three, if_neg (by omega), if_pos (by omega), Nat.add_sub_cancel, hx', hy']

/-- The quadrant of a cell is one of four, and the cell is placed back where it was. -/
lemma place_split (hp : InSquare (2 * s) p) :
    (split s p).1 < 4 ∧ InSquare s (split s p).2 ∧
      place s (split s p).1 (split s p).2 = p := by
  obtain ⟨hx, hy⟩ := hp
  unfold split InSquare
  by_cases hx' : p.1 < s <;> by_cases hy' : p.2 < s
  · rw [if_pos hx', if_pos hy']
    exact ⟨Nat.succ_pos 3, ⟨hy', hx'⟩, rfl⟩
  · rw [if_pos hx', if_neg hy']
    refine ⟨Nat.one_lt_succ_succ 2, ⟨hx', ?_⟩, Prod.ext rfl ?_⟩
    · exact Nat.sub_lt_left_of_lt_add (Nat.le_of_not_lt hy') (by omega)
    · exact Nat.sub_add_cancel (Nat.le_of_not_lt hy')
  · rw [if_neg hx', if_pos hy']
    refine ⟨Nat.lt_succ_self 3, ⟨?_, ?_⟩, Prod.ext ?_ ?_⟩
    · change s - 1 - p.2 < s
      omega
    · change s - 1 - (p.1 - s) < s
      omega
    · change s - 1 - (s - 1 - (p.1 - s)) + s = p.1
      omega
    · change s - 1 - (s - 1 - p.2) = p.2
      omega
  · rw [if_neg hx', if_neg hy']
    refine ⟨Nat.lt_of_sub_pos Nat.two_pos, ⟨?_, ?_⟩, Prod.ext ?_ ?_⟩
    · exact Nat.sub_lt_left_of_lt_add (Nat.le_of_not_lt hx') (by omega)
    · exact Nat.sub_lt_left_of_lt_add (Nat.le_of_not_lt hy') (by omega)
    · exact Nat.sub_add_cancel (Nat.le_of_not_lt hx')
    · exact Nat.sub_add_cancel (Nat.le_of_not_lt hy')

end Quadrants

section Inverse

variable {k d : ℕ} {p : ℕ × ℕ}

lemma div_lt_four (hd : d < 4 ^ (k + 1)) : d / 4 ^ k < 4 := by
  rw [Nat.div_lt_iff_lt_mul (by positivity)]
  rw [pow_succ] at hd
  omega

lemma inSquare_curve (hd : d < 4 ^ k) : InSquare (2 ^ k) (curve k d) := by
  induction k generalizing d with
  | zero => exact ⟨Nat.one_pos, Nat.one_pos⟩
  | succ k ih =>
    rw [pow_succ, Nat.mul_comm]
    exact inSquare_place (ih (Nat.mod_lt _ (by positivity))) (div_lt_four hd)

theorem index_curve (hd : d < 4 ^ k) : index k (curve k d) = d := by
  induction k generalizing d with
  | zero => exact (Nat.lt_one_iff.1 hd).symm
  | succ k ih =>
    have hmod : d % 4 ^ k < 4 ^ k := Nat.mod_lt _ (by positivity)
    rw [index, curve, split_place (inSquare_curve hmod) (div_lt_four hd), ih hmod]
    exact Nat.div_add_mod' d (4 ^ k)

lemma index_lt (hp : InSquare (2 ^ k) p) : index k p < 4 ^ k := by
  induction k generalizing p with
  | zero => exact Nat.one_pos
  | succ k ih =>
    rw [pow_succ, Nat.mul_comm] at hp
    obtain ⟨hq, hin, -⟩ := place_split hp
    have hlt := ih hin
    have hmul : (split (2 ^ k) p).1 * 4 ^ k ≤ 3 * 4 ^ k :=
      Nat.mul_le_mul_right _ (Nat.lt_succ_iff.1 hq)
    rw [index, pow_succ]
    omega

theorem curve_index (hp : InSquare (2 ^ k) p) : curve k (index k p) = p := by
  induction k generalizing p with
  | zero => exact Prod.ext (Nat.lt_one_iff.1 hp.1).symm (Nat.lt_one_iff.1 hp.2).symm
  | succ k ih =>
    rw [pow_succ, Nat.mul_comm] at hp
    obtain ⟨-, hin, hback⟩ := place_split hp
    have hlt := index_lt hin
    rw [curve, index, Nat.mul_add_mod_self_right, Nat.mod_eq_of_lt hlt,
      Nat.add_div_of_dvd_right (Dvd.intro_left _ rfl), Nat.mul_div_cancel _ (by positivity),
      Nat.div_eq_of_lt hlt, Nat.add_zero, ih hin, hback]

end Inverse

section Neighbours

variable {s k d : ℕ} {p p' : ℕ × ℕ}

/-- The Manhattan distance of two cells -/
def dist (p p' : ℕ × ℕ) : ℕ :=
  Nat.dist p.1 p'.1 + Nat.dist p.2 p'.2

/-- Reflection keeps distances. -/
lemma dist_reflect {a b : ℕ} (ha : a < s) (hb : b < s) :
    Nat.dist (s - 1 - a) (s - 1 - b) = Nat.dist a b := by
  unfold Nat.dist
  omega

lemma dist_place (hp : InSquare s p) (hp' : InSquare s p') (q : ℕ) :
    dist (place s q p) (place s q p') = dist p p' := by
  match q with
  | 0 => exact Nat.add_comm _ _
  | 1 => rw [place_one, place_one, dist, Nat.dist_add_add_right, dist]
  | 2 => rw [place_two, place_two, dist, Nat.dist_add_add_right, Nat.dist_add_add_right, dist]
  | _ + 3 =>
    change Nat.dist (s - 1 - p.2 + s) (s - 1 - p'.2 + s) +
      Nat.dist (s - 1 - p.1) (s - 1 - p'.1) = Nat.dist p.1 p'.1 + Nat.dist p.2 p'.2
    rw [Nat.dist_add_add_right, dist_reflect hp.2 hp'.2, dist_reflect hp.1 hp'.1, Nat.add_comm]

lemma curve_zero (k : ℕ) : curve k 0 = (0, 0) := by
  induction k with
  | zero => rfl
  | succ k ih => rw [curve, Nat.zero_div, Nat.zero_mod, ih, place]

/-- The curve ends at the corner that it shares a side with. -/
lemma curve_last (k : ℕ) : curve k (4 ^ k - 1) = (2 ^ k - 1, 0) := by
  induction k with
  | zero => rfl
  | succ k ih =>
    have hpos : 0 < 4 ^ k := by positivity
    have hpos' : 0 < 2 ^ k := by positivity
    have hsum : 4 ^ (k + 1) - 1 = 3 * 4 ^ k + (4 ^ k - 1) := by
      rw [pow_succ]
      omega
    have hlt : 4 ^ k - 1 < 4 ^ k := by omega
    rw [curve, hsum, Nat.mul_add_mod_self_right, Nat.mod_eq_of_lt hlt,
      Nat.add_div_of_dvd_right (Dvd.intro_left _ rfl), Nat.mul_div_cancel _ hpos,
      Nat.div_eq_of_lt hlt, ih, pow_succ]
    apply Prod.ext
    · change 2 ^ k - 1 - 0 + 2 ^ k = 2 ^ k * 2 - 1
      omega
    · change 2 ^ k - 1 - (2 ^ k - 1) = 0
      omega

/-- From the end of a quadrant to the start of the next it is one step. -/
lemma dist_quadrants {q : ℕ} (hs : 0 < s) (hq : q < 3) :
    dist (place s q (s - 1, 0)) (place s (q + 1) (0, 0)) = 1 := by
  unfold dist Nat.dist
  interval_cases q
  · rw [place_zero, place_one]
    omega
  · rw [place_one, place_two]
    omega
  · rw [place_two, place_three]
    omega

theorem dist_curve (hd : d + 1 < 4 ^ k) : dist (curve k d) (curve k (d + 1)) = 1 := by
  induction k generalizing d with
  | zero => exact absurd hd (by omega)
  | succ k ih =>
    have hpos : 0 < 4 ^ k := by positivity
    have hmod := Nat.div_add_mod d (4 ^ k)
    by_cases hend : d % 4 ^ k + 1 < 4 ^ k
    · -- both in one quadrant, whose curve is laid out without stretching it
      have hdiv : (d + 1) / 4 ^ k = d / 4 ^ k := by
        rw [Nat.div_eq_iff hpos]
        rw [Nat.mul_comm] at hmod
        omega
      have hnext : (d + 1) % 4 ^ k = d % 4 ^ k + 1 := by
        have hmod' := Nat.div_add_mod (d + 1) (4 ^ k)
        rw [hdiv] at hmod'
        omega
      rw [curve, curve, hdiv, hnext,
        dist_place (inSquare_curve (Nat.mod_lt _ hpos)) (inSquare_curve hend), ih hend]
    · have hlast : d % 4 ^ k = 4 ^ k - 1 := by
        have hlt := Nat.mod_lt d hpos
        omega
      have hsucc : d + 1 = (d / 4 ^ k + 1) * 4 ^ k := by
        rw [Nat.add_mul, Nat.mul_comm]
        omega
      have hdiv : (d + 1) / 4 ^ k = d / 4 ^ k + 1 := by
        rw [hsucc, Nat.mul_div_cancel _ hpos]
      have hnext : (d + 1) % 4 ^ k = 0 := by
        rw [hsucc, Nat.mul_mod_left]
      have hq : d / 4 ^ k < 3 := by
        have hlt := div_lt_four hd
        omega
      rw [curve, curve, hdiv, hnext, hlast, curve_last, curve_zero]
      exact dist_quadrants (by positivity) hq

end Neighbours

end AsmTest.Lib.Hilbert
