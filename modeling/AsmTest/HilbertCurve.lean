import AsmTest.Lib.Hilbert
import AsmTest.Projection
import Mathlib.Data.Nat.Bitwise

/-!
# The Hilbert mapping

`d2xy` goes up the levels of the curve and takes the digits of the index from the lowest, `xy2d` goes
down and reads the bits of the coordinates from the highest. In words of 32 bits, both follow the
recursion of the curve: `xy2d` reflects coordinates that it has not masked, and only their low bits
are read again.
-/

namespace AsmTest.Space

open Lib.Hilbert

section Up

lemma d2xyStep_eq {k t : ℕ} {p : ℕ × ℕ} (hk : k ≤ 31) (hp : InSquare (2 ^ k) p) :
    d2xyStep (p.1, p.2, t) (2 ^ k) =
      ((place (2 ^ k) (t % 4) p).1, (place (2 ^ k) (t % 4) p).2, t / 4) := by
  have hs : 2 ^ k ≤ 2 ^ 31 := Nat.pow_le_pow_right Nat.two_pos hk
  have hq : t % 4 < 4 := Nat.mod_lt t (by decide)
  obtain ⟨hx, hy⟩ := hp
  have hrx : t / 2 % 2 = t % 4 / 2 := by omega
  unfold d2xyStep
  dsimp only
  rw [hrx, Nat.xor_mod_two_eq]
  generalize hdigit : t % 4 = q at *
  generalize 2 ^ k = s at *
  interval_cases q
  · have hry : (t + 0 / 2) % 2 = 0 := by omega
    rw [hry, if_pos rfl, if_neg (by decide), place_zero, u32_of_lt (by omega),
      u32_of_lt (by omega)]
    rfl
  · have hry : (t + 1 / 2) % 2 = 1 := by omega
    rw [hry, if_neg (by decide), place_one, u32_of_lt (by omega), u32_of_lt (by omega), Nat.mul_one]
    rfl
  · have hry : (t + 2 / 2) % 2 = 1 := by omega
    rw [hry, if_neg (by decide), place_two, u32_of_lt (by omega), u32_of_lt (by omega), Nat.mul_one]
  · have hry : (t + 3 / 2) % 2 = 0 := by omega
    have hs1 : sub32 s 1 = s - 1 := sub32_of_le (by omega) (by omega)
    have hone : 3 / 2 = 1 := rfl
    rw [hry, hone, if_pos rfl, if_pos rfl, place_three, hs1, sub32_of_le (by omega) (by omega),
      sub32_of_le (by omega) (by omega), u32_of_lt (by omega), u32_of_lt (by omega), Nat.mul_zero,
      Nat.mul_one, Nat.add_zero]

/-- After `k` levels, the cell of the low digits and the digits that are left -/
lemma foldl_d2xyStep (d : ℕ) {k : ℕ} (hk : k ≤ 32) :
    ((List.range k).map (2 ^ ·)).foldl d2xyStep (0, 0, d) =
      ((curve k (d % 4 ^ k)).1, (curve k (d % 4 ^ k)).2, d / 4 ^ k) := by
  induction k with
  | zero => rw [pow_zero, Nat.div_one]; rfl
  | succ k ih =>
    have hdigit : d % 4 ^ (k + 1) / 4 ^ k = d / 4 ^ k % 4 := by
      rw [pow_succ, Nat.mod_mul_right_div_self]
    have hlow : d % 4 ^ (k + 1) % 4 ^ k = d % 4 ^ k := by
      rw [pow_succ, Nat.mod_mul_right_mod]
    rw [List.range_succ, List.map_append, List.foldl_append, ih (by omega), List.map_singleton,
      List.foldl_cons, List.foldl_nil,
      d2xyStep_eq (by omega) (inSquare_curve (Nat.mod_lt d (by positivity))), curve, hdigit, hlow,
      pow_succ, Nat.div_div_eq_div_mul]

lemma d2xy_eq {k d : ℕ} (hk : k ≤ 32) (hd : d < 4 ^ k) : d2xy k d = curve k d := by
  rw [d2xy, foldl_d2xyStep d hk, Nat.mod_eq_of_lt hd]

end Up

section Down

variable {k x y d : ℕ}

/-- The bit of a level, on a coordinate that holds more than the levels left -/
lemma and_two_pow_ne_zero (x k : ℕ) : x &&& 2 ^ k ≠ 0 ↔ ¬x % 2 ^ (k + 1) < 2 ^ k := by
  have hpos : 0 < 2 ^ k := by positivity
  have hdiv : x % 2 ^ (k + 1) / 2 ^ k = x / 2 ^ k % 2 := by
    rw [pow_succ, Nat.mod_mul_right_div_self]
  have hlt : x % 2 ^ (k + 1) < 2 ^ k ↔ x / 2 ^ k % 2 = 0 := by
    rw [← hdiv, Nat.div_eq_zero_iff_lt hpos]
  rw [Nat.and_two_pow, hlt, Nat.testBit_eq_decide_div_mod_eq]
  rcases Nat.mod_two_eq_zero_or_one (x / 2 ^ k) with h | h
  · rw [h]
    exact ⟨fun hne => absurd (Nat.zero_mul _) hne, fun hne => absurd rfl hne⟩
  · rw [h]
    exact ⟨fun _ => by decide, fun _ => by rw [decide_eq_true rfl, Bool.toNat_true]; omega⟩

/-- A reflected coordinate may wrap below zero; its low bits are reflected all the same. -/
lemma reflect_mod (hk : k ≤ 31) (hx : x < 2 ^ 32) :
    sub32 (sub32 (2 ^ k) 1) x % 2 ^ k = 2 ^ k - 1 - x % 2 ^ k := by
  have hs : 2 ^ k ≤ 2 ^ 31 := Nat.pow_le_pow_right Nat.two_pos hk
  have hpos : 0 < 2 ^ k := by positivity
  have hdvd : 2 ^ k ∣ 2 ^ 32 := pow_dvd_pow 2 (by omega)
  have hlt := Nat.mod_lt x hpos
  have hmod := Nat.div_add_mod x (2 ^ k)
  obtain ⟨c, hc⟩ := hdvd
  have hle : x / 2 ^ k ≤ c := by
    rw [hc] at hx
    exact (Nat.div_le_iff_le_mul_add_pred hpos).2 (by omega)
  have hsplit : 2 ^ k - 1 + 2 ^ 32 - x = 2 ^ k - 1 - x % 2 ^ k + 2 ^ k * (c - x / 2 ^ k) := by
    have hmul := Nat.mul_le_mul_left (2 ^ k) hle
    rw [Nat.mul_sub]
    omega
  rw [sub32_of_le (by omega : 1 ≤ 2 ^ k) (by omega), sub32, Nat.mod_mod_of_dvd _ ⟨c, hc⟩, hsplit,
    Nat.add_mul_mod_self_left, Nat.mod_eq_of_lt (by omega)]

lemma sub32_lt (a b : ℕ) : sub32 a b < 2 ^ 32 :=
  Nat.mod_lt _ (by positivity)

/-- One level down: the quadrant is counted, and what is left of the coordinates is the cell in
it. -/
lemma xy2dStep_spec (hk : k ≤ 31) (hx : x < 2 ^ 32) (hy : y < 2 ^ 32) :
    ∃ x' y', xy2dStep (d, x, y) (2 ^ k) =
        (u64 (d + (split (2 ^ k) (x % 2 ^ (k + 1), y % 2 ^ (k + 1))).1 * 4 ^ k), x', y') ∧
      x' < 2 ^ 32 ∧ y' < 2 ^ 32 ∧
      (x' % 2 ^ k, y' % 2 ^ k) = (split (2 ^ k) (x % 2 ^ (k + 1), y % 2 ^ (k + 1))).2 := by
  have hpos : 0 < 2 ^ k := by positivity
  have hsq : 2 ^ k * 2 ^ k = 4 ^ k := (mul_pow 2 2 k).symm
  have hlow : ∀ z, z % 2 ^ (k + 1) % 2 ^ k = z % 2 ^ k := fun z => by
    rw [pow_succ, Nat.mod_mul_right_mod]
  have htop : ∀ z, ¬z % 2 ^ (k + 1) < 2 ^ k → z % 2 ^ (k + 1) - 2 ^ k = z % 2 ^ k := fun z hz => by
    have hlt := Nat.mod_lt z (show 0 < 2 ^ (k + 1) by positivity)
    rw [← hlow z, Nat.mod_eq_sub_mod (Nat.le_of_not_lt hz),
      Nat.mod_eq_of_lt (show z % 2 ^ (k + 1) - 2 ^ k < 2 ^ k by rw [pow_succ] at hlt ⊢; omega)]
  have hbot : ∀ z, z % 2 ^ (k + 1) < 2 ^ k → z % 2 ^ (k + 1) = z % 2 ^ k := fun z hz => by
    rw [← hlow z, Nat.mod_eq_of_lt hz]
  unfold xy2dStep
  simp only [and_two_pow_ne_zero, hsq]
  unfold split
  by_cases hx' : x % 2 ^ (k + 1) < 2 ^ k <;> by_cases hy' : y % 2 ^ (k + 1) < 2 ^ k
  · simp only [hx', hy', not_true_eq_false, if_true, if_false]
    exact ⟨y, x, by norm_num, hy, hx, by rw [hbot x hx', hbot y hy']⟩
  · simp only [hx', hy', not_true_eq_false, not_false_eq_true, if_true, if_false]
    exact ⟨x, y, by norm_num, hx, hy, by rw [hbot x hx', htop y hy']⟩
  · simp only [hx', hy', not_true_eq_false, not_false_eq_true, if_true, if_false]
    refine ⟨sub32 (sub32 (2 ^ k) 1) y, sub32 (sub32 (2 ^ k) 1) x, by norm_num [Nat.mul_comm],
      sub32_lt _ _, sub32_lt _ _, ?_⟩
    rw [reflect_mod hk hy, reflect_mod hk hx, htop x hx', hbot y hy']
  · simp only [hx', hy', not_false_eq_true, if_true, if_false]
    exact ⟨x, y, by norm_num [Nat.mul_comm], hx, hy, by rw [htop x hx', htop y hy']⟩

/-- From any level down, only the low bits of the coordinates count. -/
lemma foldl_xy2dStep (hk : k ≤ 32) (hx : x < 2 ^ 32) (hy : y < 2 ^ 32)
    (hd : d + 4 ^ k ≤ 2 ^ 64) :
    (((List.range k).map (2 ^ ·)).reverse.foldl xy2dStep (d, x, y)).1 =
      d + index k (x % 2 ^ k, y % 2 ^ k) := by
  induction k generalizing d x y with
  | zero => rfl
  | succ k ih =>
    obtain ⟨x', y', hstep, hx', hy', hrest⟩ := @xy2dStep_spec k x y d (by omega) hx hy
    have hin : InSquare (2 * 2 ^ k) (x % 2 ^ (k + 1), y % 2 ^ (k + 1)) := by
      rw [← pow_succ']
      exact ⟨Nat.mod_lt _ (by positivity), Nat.mod_lt _ (by positivity)⟩
    have hq := Nat.mul_le_mul_right (4 ^ k) (Nat.lt_succ_iff.1 (place_split hin).1)
    have hpos : 0 < 4 ^ k := by positivity
    rw [pow_succ] at hd
    rw [List.range_succ, List.map_append, List.reverse_append, List.map_singleton,
      List.reverse_singleton, List.singleton_append, List.foldl_cons, hstep,
      u64_of_lt (by omega), ih (by omega) hx' hy' (by omega), index, hrest, Nat.add_assoc]

lemma xy2d_eq (hk : k ≤ 32) (hx : x < 2 ^ k) (hy : y < 2 ^ k) : xy2d k x y = index k (x, y) := by
  have hs : 2 ^ k ≤ 2 ^ 32 := Nat.pow_le_pow_right Nat.two_pos hk
  have hplane : 4 ^ k ≤ 2 ^ 64 := by
    rw [show (2 : ℕ) ^ 64 = 4 ^ 32 by norm_num]
    exact Nat.pow_le_pow_right (by decide) hk
  rw [xy2d, foldl_xy2dStep hk (by omega) (by omega) (by omega), Nat.zero_add,
    Nat.mod_eq_of_lt hx, Nat.mod_eq_of_lt hy]

end Down

/-- The two directions are inverse to each other between the indices and the cells, and the curve
goes from cell to neighbouring cell. -/
theorem hilbert_bijection (k : ℕ) (hk : k ≤ 31) :
    (∀ d < 2 ^ k * 2 ^ k, (d2xy k d).1 < 2 ^ k ∧ (d2xy k d).2 < 2 ^ k ∧
        xy2d k (d2xy k d).1 (d2xy k d).2 = d) ∧
      (∀ x < 2 ^ k, ∀ y < 2 ^ k, xy2d k x y < 2 ^ k * 2 ^ k ∧ d2xy k (xy2d k x y) = (x, y)) ∧
      ∀ d, d + 1 < 2 ^ k * 2 ^ k →
        Nat.dist (d2xy k d).1 (d2xy k (d + 1)).1 + Nat.dist (d2xy k d).2 (d2xy k (d + 1)).2 = 1 := by
  have hk' : k ≤ 32 := Nat.le_succ_of_le hk
  have hplane : 2 ^ k * 2 ^ k = 4 ^ k := (mul_pow 2 2 k).symm
  rw [hplane]
  refine ⟨fun d hd => ?_, fun x hx y hy => ?_, fun d hd => ?_⟩
  · obtain ⟨hx, hy⟩ := inSquare_curve hd
    rw [d2xy_eq hk' hd, xy2d_eq hk' hx hy]
    exact ⟨hx, hy, index_curve hd⟩
  · have hlt := index_lt (k := k) (p := (x, y)) ⟨hx, hy⟩
    rw [xy2d_eq hk' hx hy, d2xy_eq hk' hlt]
    exact ⟨hlt, curve_index ⟨hx, hy⟩⟩
  · rw [d2xy_eq hk' hd, d2xy_eq hk' (Nat.lt_of_succ_lt hd)]
    exact dist_curve hd

/-- The plane of an order 31 curve: the first two cells -/
theorem hilbert_bijection_plane : d2xy 31 0 = (0, 0) ∧ xy2d 31 0 0 = 0 ∧
    Nat.dist (d2xy 31 0).1 (d2xy 31 1).1 + Nat.dist (d2xy 31 0).2 (d2xy 31 1).2 = 1 := by
  obtain ⟨hup, hdown, hnear⟩ := hilbert_bijection 31 le_rfl
  have hzero : d2xy 31 0 = (0, 0) := by decide +kernel
  have hback := (hup 0 (by decide)).2.2
  rw [hzero] at hback
  exact ⟨hzero, hback, hnear 0 (by decide)⟩

end AsmTest.Space
