import AsmTest.Lib.InPlace
import Mathlib.Order.Lattice

/-!
# Sweeping over ranges

Half-open ranges in ascending order of their starts are passed once. A range is dropped if an
earlier one reaches over its start, which the maximum of the ends so far tells, or if it reaches
over the start of the next. What remains are the ranges that meet no other.
-/

namespace Sweep

variable {α β : Type*} [LinearOrder β]

/-- The maximum of the ends so far. -/
def raise (top : Option β) (e : β) : Option β :=
  match top with
  | none => some e
  | some t => if t < e then some e else some t

/-- The ranges that remain, after ranges of which the last ends at `top`. -/
def isolated (lo hi : α → β) (top : Option β) : List α → List α
  | [] => []
  | x :: rest =>
    if top.any (fun t => lo x < t) || rest.head?.any fun y => lo y < hi x then
      isolated lo hi (raise top (hi x)) rest
    else x :: isolated lo hi (raise top (hi x)) rest

/-- A point lies in both ranges. -/
def Meets (lo hi : α → β) (x y : α) : Prop :=
  ∃ z, (lo x ≤ z ∧ z < hi x) ∧ lo y ≤ z ∧ z < hi y

variable {lo hi : α → β} {x y : α}

lemma Meets.symm (h : Meets lo hi x y) : Meets lo hi y x := by
  obtain ⟨z, hx, hy⟩ := h
  exact ⟨z, hy, hx⟩

/-- Of two ranges in order, the first must reach over the start of the second. -/
lemma meets_iff (hle : lo x ≤ lo y) (hy : lo y < hi y) : Meets lo hi x y ↔ lo y < hi x := by
  constructor
  · rintro ⟨z, ⟨-, hzx⟩, hyz, -⟩
    exact hyz.trans_lt hzx
  · intro h
    exact ⟨lo y, ⟨hle, h⟩, le_rfl, hy⟩

lemma any_raise (top : Option β) (e z : β) :
    (raise top e).any (fun t => z < t) = true ↔ top.any (fun t => z < t) = true ∨ z < e := by
  cases top with
  | none => simp [raise]
  | some t =>
    rw [raise]
    split
    next hlt =>
      rw [Option.any_some, Option.any_some, decide_eq_true_eq, decide_eq_true_eq]
      exact ⟨.inr, fun h => h.elim (fun h => h.trans hlt) id⟩
    next hle =>
      rw [Option.any_some, decide_eq_true_eq]
      exact ⟨.inl, fun h => h.elim id fun h => h.trans_le (not_lt.mp hle)⟩

/-- In ascending order, a range reaches over the start of a later one if it reaches over the start
of the next. -/
lemma head_any_iff {l : List α} (hsorted : l.Pairwise fun a b => lo a ≤ lo b) (e : β) :
    (l.head?.any fun y => lo y < e) = true ↔ ∃ y ∈ l, lo y < e := by
  cases l with
  | nil => simp
  | cons y l =>
    rw [List.head?_cons, Option.any_some, decide_eq_true_eq]
    constructor
    · exact fun h => ⟨y, List.mem_cons_self, h⟩
    · rintro ⟨b, hb, hlt⟩
      rcases List.mem_cons.mp hb with rfl | hb
      · exact hlt
      · exact ((List.pairwise_cons.mp hsorted).1 b hb).trans_lt hlt

/-- `seen` are the ranges passed; `top` is the maximum of their ends. -/
lemma isolated_eq_pick_of_seen (seen : List α) (top : Option β) {keep : ℕ → Bool} {i : ℕ}
    {l : List α} (hsorted : (seen ++ l).Pairwise fun a b => lo a ≤ lo b)
    (hpos : ∀ x ∈ l, lo x < hi x)
    (htop : ∀ z, top.any (fun t => z < t) = true ↔ ∃ a ∈ seen, z < hi a)
    (hkeep : ∀ before x after, seen ++ l = before ++ x :: after → (keep (i + before.length) = true ↔
      (∀ a ∈ before, ¬Meets lo hi a x) ∧ ∀ b ∈ after, ¬Meets lo hi x b)) :
    isolated lo hi top l = InPlace.pick keep (i + seen.length) l := by
  induction l generalizing seen top with
  | nil => rfl
  | cons x rest ih =>
    have hx := hpos x List.mem_cons_self
    obtain ⟨-, hrest, hbefore⟩ := List.pairwise_append.mp hsorted
    obtain ⟨hafter, hrest⟩ := List.pairwise_cons.mp hrest
    have hbad : (top.any (fun t => lo x < t) || rest.head?.any fun y => lo y < hi x) = true ↔
        ¬keep (i + seen.length) = true := by
      rw [hkeep seen x rest rfl, Bool.or_eq_true, htop, head_any_iff hrest, not_and_or]
      push Not
      refine or_congr (exists_congr fun a => and_congr_right fun ha => ?_)
        (exists_congr fun b => and_congr_right fun hb => ?_)
      · exact (meets_iff (hbefore a ha x List.mem_cons_self) hx).symm
      · exact (meets_iff (hafter b hb) (hpos b (List.mem_cons_of_mem x hb))).symm
    have hnext : isolated lo hi (raise top (hi x)) rest =
        InPlace.pick keep (i + seen.length + 1) rest := by
      have := ih (seen ++ [x]) (raise top (hi x)) (by simpa using hsorted)
        (fun y hy => hpos y (List.mem_cons_of_mem x hy)) ?_ (by simpa using hkeep)
      · simpa [Nat.add_assoc] using this
      · intro z
        rw [any_raise, htop]
        simp [or_and_right, exists_or]
    rw [isolated, InPlace.pick_cons, hnext]
    by_cases hk : keep (i + seen.length) = true
    · rw [if_neg (by rw [hbad]; exact not_not_intro hk), if_pos hk]
    · rw [if_pos (hbad.mpr hk), if_neg hk]

/-- What remains are the ranges that meet no other, in order. -/
theorem isolated_eq_pick {keep : ℕ → Bool} {i : ℕ} {l : List α}
    (hsorted : l.Pairwise fun a b => lo a ≤ lo b) (hpos : ∀ x ∈ l, lo x < hi x)
    (hkeep : ∀ before x after, l = before ++ x :: after → (keep (i + before.length) = true ↔
      (∀ a ∈ before, ¬Meets lo hi a x) ∧ ∀ b ∈ after, ¬Meets lo hi x b)) :
    isolated lo hi none l = InPlace.pick keep i l := by
  have := isolated_eq_pick_of_seen [] none hsorted hpos (by simp) hkeep
  simpa using this

end Sweep
