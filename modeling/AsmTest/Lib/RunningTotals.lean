import Mathlib.Data.List.Sort
import Mathlib.Data.List.TakeWhile
import Mathlib.Data.List.Perm.Basic

/-!
# Running totals of sorted lists

The totals after each element of a list sorted by a key, looked up by binary search, against the
totals of the elements themselves in any order.
-/

namespace AsmTest.Lib

section Bounds

variable {κ : Type*} [LinearOrder κ]

/-- The end of the keys up to `t` in an ascending list, as `std::upper_bound` finds it -/
def upperBound (t : κ) (l : List κ) : ℕ := (l.takeWhile (· ≤ t)).length

/-- The end of the keys below `t` in an ascending list, as `std::lower_bound` finds it -/
def lowerBound (t : κ) (l : List κ) : ℕ := (l.takeWhile (· < t)).length

end Bounds

/-- A sorting routine that promises nothing about elements with the same key, as `std::sort` -/
structure SortBy {α κ : Type*} [LinearOrder κ] (key : α → κ) where
  run : List α → List α
  perm : ∀ l, (run l).Perm l
  sorted : ∀ l, (run l).Pairwise fun a b => key a ≤ key b

/-- The stable one -/
def SortBy.stable {α κ : Type*} [LinearOrder κ] (key : α → κ) : SortBy key where
  run l := l.mergeSort fun a b => key a ≤ key b
  perm l := List.mergeSort_perm l _
  sorted l := by
    have h := @List.pairwise_mergeSort α (fun a b => decide (key a ≤ key b))
      (fun a b c hab hbc => decide_eq_true ((of_decide_eq_true hab).trans (of_decide_eq_true hbc)))
      (fun a b => by simpa using le_total (key a) (key b)) l
    exact h.imp of_decide_eq_true

section Totals

variable {α κ σ : Type*} [LinearOrder κ] (key : α → κ) (step : σ → α → σ)

/-- The total after each element -/
def totals : σ → List α → List σ
  | _, [] => []
  | s, a :: l => step s a :: totals (step s a) l

variable {key step}

theorem totals_length (s : σ) (l : List α) : (totals step s l).length = l.length := by
  induction l generalizing s with
  | nil => rfl
  | cons a l ih => rw [totals, List.length_cons, ih, List.length_cons]

/-- The total before the element at an index -/
theorem getElem?_totals {i : ℕ} {l : List α} (s : σ) (h : i ≤ l.length) :
    (s :: totals step s l)[i]? = some ((l.take i).foldl step s) := by
  induction i generalizing s l with
  | zero => simp
  | succ i ih =>
    cases l with
    | nil => simp at h
    | cons a l =>
      rw [List.getElem?_cons_succ, totals, List.take_succ_cons, List.foldl_cons]
      exact ih (step s a) (Nat.le_of_succ_le_succ h)

/-- In a sorted list what passes a bound is a prefix. -/
theorem take_upperBound {l : List α} (h : l.Pairwise fun a b => key a ≤ key b) (t : κ) :
    l.take (upperBound t (l.map key)) = l.filter fun a => key a ≤ t := by
  induction l with
  | nil => rfl
  | cons a l ih =>
    obtain ⟨hhead, htail⟩ := List.pairwise_cons.1 h
    unfold upperBound at ih ⊢
    rw [List.map_cons, List.takeWhile_cons]
    by_cases ha : key a ≤ t
    · rw [if_pos (by simpa using ha), List.length_cons, List.take_succ_cons, ih htail,
        List.filter_cons_of_pos (by simpa using ha)]
    · have hrest : l.filter (fun b => key b ≤ t) = [] := by
        apply List.filter_eq_nil_iff.2
        intro b hb hbt
        exact ha ((hhead b hb).trans (of_decide_eq_true hbt))
      rw [if_neg (by simpa using ha), List.filter_cons_of_neg (by simpa using ha), hrest]
      rfl

theorem upperBound_le (t : κ) (l : List κ) : upperBound t l ≤ l.length :=
  (List.takeWhile_prefix _).length_le

theorem upperBound_eq {l : List α} (h : l.Pairwise fun a b => key a ≤ key b) (t : κ) :
    upperBound t (l.map key) = (l.filter fun a => key a ≤ t).length := by
  have hle := upperBound_le t (l.map key)
  rw [List.length_map] at hle
  rw [← take_upperBound h, List.length_take, Nat.min_eq_left hle]

/-- What the totals hold at a bound is the total of the elements up to it. -/
theorem total_upperBound {l : List α} (h : l.Pairwise fun a b => key a ≤ key b) (s : σ) (t : κ) :
    (s :: totals step s l)[upperBound t (l.map key)]? =
      some ((l.filter fun a => key a ≤ t).foldl step s) := by
  have hle := upperBound_le t (l.map key)
  rw [List.length_map] at hle
  rw [getElem?_totals s hle, take_upperBound h]

/-- So it is whatever the order was before the list was sorted. -/
theorem SortBy.total_upperBound [RightCommutative step] (S : SortBy key) (l : List α) (s : σ)
    (t : κ) : (s :: totals step s (S.run l))[upperBound t ((S.run l).map key)]? =
      some ((l.filter fun a => key a ≤ t).foldl step s) := by
  rw [Lib.total_upperBound (S.sorted l)]
  exact congrArg some (((S.perm l).filter _).foldl_eq s)

theorem SortBy.upperBound_eq (S : SortBy key) (l : List α) (t : κ) :
    upperBound t ((S.run l).map key) = (l.filter fun a => key a ≤ t).length := by
  rw [Lib.upperBound_eq (S.sorted l)]
  exact ((S.perm l).filter _).length_eq

end Totals

end AsmTest.Lib
