import Mathlib.Data.List.Basic
import Mathlib.Data.List.Forall2
import Mathlib.Tactic

/-!
# Patterns of stars and single letters

A text matches a pattern when it can be cut into pieces, one for each item: any piece for a star and
one letter that passes the test for any other item. When a star follows letters that were matched as
early as possible, the star before them never has to be tried again.
-/

namespace AsmTest.Wildcard

variable {α : Type}

inductive Item (α : Type) where
  | star
  | one (test : α → Prop)

/-- The pieces an item may stand for -/
def Item.Accepts : Item α → List α → Prop
  | .star, _ => True
  | .one test, s => ∃ c, s = [c] ∧ test c

def Matches (items : List (Item α)) (text : List α) : Prop :=
  ∃ pieces, List.Forall₂ Item.Accepts items pieces ∧ pieces.flatten = text

lemma matches_nil {text : List α} : Matches [] text ↔ text = [] := by
  constructor
  · rintro ⟨pieces, hall, rfl⟩
    rw [List.forall₂_nil_left_iff] at hall
    rw [hall]
    rfl
  · rintro rfl
    exact ⟨[], List.Forall₂.nil, rfl⟩

lemma matches_one {test : α → Prop} {items : List (Item α)} {text : List α} :
    Matches (.one test :: items) text ↔ ∃ c t, text = c :: t ∧ test c ∧ Matches items t := by
  constructor
  · rintro ⟨pieces, hall, rfl⟩
    obtain ⟨s, pieces', ⟨c, rfl, hc⟩, hrest, rfl⟩ := List.forall₂_cons_left_iff.1 hall
    exact ⟨c, pieces'.flatten, rfl, hc, pieces', hrest, rfl⟩
  · rintro ⟨c, t, rfl, hc, pieces, hall, rfl⟩
    exact ⟨[c] :: pieces, hall.cons ⟨c, rfl, hc⟩, rfl⟩

lemma matches_star {items : List (Item α)} {text : List α} :
    Matches (.star :: items) text ↔ ∃ k, Matches items (text.drop k) := by
  constructor
  · rintro ⟨pieces, hall, rfl⟩
    obtain ⟨s, pieces', -, hrest, rfl⟩ := List.forall₂_cons_left_iff.1 hall
    refine ⟨s.length, pieces', hrest, ?_⟩
    rw [List.flatten_cons, List.drop_left]
  · rintro ⟨k, pieces, hall, hflat⟩
    refine ⟨text.take k :: pieces, hall.cons trivial, ?_⟩
    rw [List.flatten_cons, hflat, List.take_append_drop]

/-- Every match of `items` uses `n` letters first and then goes on with `rest`. -/
def Consumes (items rest : List (Item α)) (n : ℕ) : Prop :=
  ∀ u, Matches items u → Matches rest (u.drop n)

lemma consumes_refl (items : List (Item α)) : Consumes items items 0 :=
  fun _ h => h

lemma Consumes.step {items rest : List (Item α)} {test : α → Prop} {n : ℕ}
    (h : Consumes items (.one test :: rest) n) : Consumes items rest (n + 1) := by
  intro u hu
  obtain ⟨c, t, hdrop, -, ht⟩ := matches_one.1 (h u hu)
  have ht' := congrArg (List.drop 1) hdrop
  rw [List.drop_drop, List.drop_succ_cons, List.drop_zero] at ht'
  rwa [ht']

/-- A star that comes later takes over: what an earlier start could match, this one matches too. -/
lemma matches_star_of_consumes {items rest : List (Item α)} {n : ℕ} {ss : List α}
    (h : Consumes items (.star :: rest) n) (hm : Matches (.star :: items) ss) :
    Matches (.star :: rest) (ss.drop n) := by
  obtain ⟨k, hk⟩ := matches_star.1 hm
  obtain ⟨j, hj⟩ := matches_star.1 (h _ hk)
  apply matches_star.2
  refine ⟨k + j, ?_⟩
  rw [List.drop_drop, List.drop_drop] at hj
  rw [List.drop_drop]
  convert hj using 2
  omega

/-- A failed start moves on by one letter. -/
lemma matches_star_tail {items : List (Item α)} {c : α} {ss : List α}
    (h : ¬Matches items (c :: ss)) :
    Matches (.star :: items) (c :: ss) ↔ Matches (.star :: items) ss := by
  rw [matches_star, matches_star]
  constructor
  · rintro ⟨k, hk⟩
    cases k with
    | zero => exact absurd hk h
    | succ k => exact ⟨k, hk⟩
  · rintro ⟨k, hk⟩
    exact ⟨k + 1, hk⟩

end AsmTest.Wildcard
