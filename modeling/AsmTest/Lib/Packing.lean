import Mathlib.Data.List.Basic
import Mathlib.Tactic

/-!
# Pieces packed end to end

Pieces of given lengths lie one behind the other on a line. A position below their total length is
owned by one piece, and a search through the starts finds it; pieces of length zero own nothing. The
halving search for the end of a run is here too.
-/

namespace AsmTest.Lib.Packing

section Starts

variable {ls : List ℕ} {i j d : ℕ}

/-- Where a piece starts -/
def start (ls : List ℕ) (i : ℕ) : ℕ :=
  (ls.take i).sum

@[simp] lemma start_zero : start ls 0 = 0 := rfl

lemma start_succ : start ls (i + 1) = start ls i + ls.getD i 0 := by
  rw [start, start, List.take_add_one, List.sum_append, List.getD_eq_getElem?_getD]
  cases ls[i]? with
  | none => rfl
  | some l => exact congrArg _ (Nat.add_zero l)

lemma start_mono : Monotone (start ls) := by
  apply monotone_nat_of_le_succ
  intro i
  rw [start_succ]
  exact Nat.le_add_right _ _

lemma start_of_length_le (h : ls.length ≤ i) : start ls i = ls.sum := by
  rw [start, List.take_of_length_le h]

lemma start_le_sum : start ls i ≤ ls.sum := by
  rw [← start_of_length_le (le_max_right i ls.length)]
  exact start_mono (le_max_left _ _)

/-- The position belongs to the piece. -/
structure Owns (ls : List ℕ) (d i : ℕ) : Prop where
  start_le : start ls i ≤ d
  lt_start : d < start ls (i + 1)

lemma Owns.lt_length (h : Owns ls d i) : i < ls.length := by
  by_contra hge
  have hle := Nat.le_of_not_lt hge
  have hlo := h.start_le
  have hhi := h.lt_start
  rw [start_of_length_le hle] at hlo
  rw [start_of_length_le (Nat.le_succ_of_le hle)] at hhi
  omega

lemma Owns.lt_sum (h : Owns ls d i) : d < ls.sum :=
  h.lt_start.trans_le start_le_sum

lemma owns_add {o : ℕ} (ho : o < ls.getD i 0) : Owns ls (start ls i + o) i := by
  refine ⟨Nat.le_add_right _ _, ?_⟩
  rw [start_succ]
  omega

lemma Owns.le (hi : Owns ls d i) (hj : d < start ls (j + 1)) : i ≤ j := by
  by_contra hlt
  have hmono : start ls (j + 1) ≤ start ls i := start_mono (by omega)
  have hlo := hi.start_le
  omega

lemma Owns.unique (hi : Owns ls d i) (hj : Owns ls d j) : i = j :=
  (hi.le hj.lt_start).antisymm (hj.le hi.lt_start)

lemma exists_owns (hd : d < ls.sum) : ∃ i, Owns ls d i := by
  have hex : ∃ i, d < start ls (i + 1) := ⟨ls.length, by
    rw [start_of_length_le (Nat.le_succ _)]
    exact hd⟩
  refine ⟨Nat.find hex, ?_, Nat.find_spec hex⟩
  cases hi : Nat.find hex with
  | zero => exact Nat.zero_le d
  | succ i => exact Nat.le_of_not_lt (Nat.find_min hex (by omega))

/-- The starts up to a position: those of the owner and of the pieces before it -/
lemma length_takeWhile_start (h : Owns ls d i) :
    (((List.range (ls.length + 1)).map (start ls)).takeWhile (· ≤ d)).length = i + 1 := by
  have hlt := h.lt_length
  have hsplit : List.range (ls.length + 1) =
      List.range (i + 1) ++ ((i + 1) :: List.range' (i + 2) (ls.length - (i + 1))) := by
    have hrest : List.range' (i + 1) (ls.length - (i + 1) + 1) =
        (i + 1) :: List.range' (i + 2) (ls.length - (i + 1)) := List.range'_succ
    rw [List.range_eq_range', List.range_eq_range',
      show ls.length + 1 = (i + 1) + (ls.length - (i + 1) + 1) by omega, ← List.range'_append_1,
      Nat.zero_add, hrest]
  have hpos : ∀ x ∈ (List.range (i + 1)).map (start ls), decide (x ≤ d) = true := by
    intro x hx
    obtain ⟨j, hj, rfl⟩ := List.mem_map.1 hx
    have hmono : start ls j ≤ start ls i := start_mono (by
      rw [List.mem_range] at hj
      omega)
    exact decide_eq_true (hmono.trans h.start_le)
  rw [hsplit, List.map_append, List.takeWhile_append_of_pos hpos, List.map_cons,
    List.takeWhile_cons_of_neg (by
      rw [decide_eq_true_eq]
      exact Nat.not_le_of_lt h.lt_start), List.append_nil, List.length_map, List.length_range]

end Starts

section Bisect

variable {P : ℕ → Prop} [DecidablePred P] {fuel lo hi top j : ℕ}

/-- Halving search for the first index from `lo` to `hi` where a property ends -/
def bisect (P : ℕ → Prop) [DecidablePred P] : ℕ → ℕ → ℕ → ℕ
  | 0, lo, _ => lo
  | fuel + 1, lo, hi =>
    if lo < hi then
      let mid := lo + (hi - lo) / 2
      if P mid then bisect P fuel (mid + 1) hi else bisect P fuel lo mid
    else lo

/-- The property holds below the result and nowhere from it on. -/
structure EndsAt (P : ℕ → Prop) (top r : ℕ) : Prop where
  le : r ≤ top
  holds : ∀ j < r, P j
  ends : ∀ j, r ≤ j → j < top → ¬P j

lemma bisect_spec (hdown : ∀ i j, i ≤ j → j < top → P j → P i) (hfuel : hi - lo ≤ fuel)
    (hle : lo ≤ hi) (htop : hi ≤ top) (hlo : ∀ j < lo, P j)
    (hhi : ∀ j, hi ≤ j → j < top → ¬P j) : EndsAt P top (bisect P fuel lo hi) := by
  induction fuel generalizing lo hi with
  | zero =>
    obtain rfl : lo = hi := by omega
    exact ⟨htop, hlo, hhi⟩
  | succ fuel ih =>
    rw [bisect]
    by_cases hlt : lo < hi
    · rw [if_pos hlt]
      dsimp only
      by_cases hmid : P (lo + (hi - lo) / 2)
      · rw [if_pos hmid]
        refine ih (by omega) (by omega) htop (fun j hj => ?_) hhi
        exact hdown j _ (by omega) (by omega) hmid
      · rw [if_neg hmid]
        refine ih (by omega) (by omega) (by omega) hlo fun j hj hjtop hP => hmid ?_
        exact hdown _ j hj hjtop hP
    · rw [if_neg hlt]
      obtain rfl : lo = hi := by omega
      exact ⟨htop, hlo, hhi⟩

end Bisect

end AsmTest.Lib.Packing
