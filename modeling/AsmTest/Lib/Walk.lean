import Mathlib.Tactic
import Mathlib.Data.Finset.Card
import Mathlib.Data.List.Nodup

/-!
# Deterministic walks

A walk follows a partial successor function until it stands on its goal. Its path is
determined by its start, so it visits no point twice and a bound on the number of points
bounds its length: a guard of that size never stops a walk that converges.
-/

namespace AsmTest.Lib

variable {α : Type*} {next : α → Option α} {goal a b : α} {p q : List α}

/-- The points visited from a start to the goal, both included. -/
inductive Path (next : α → Option α) (goal : α) : α → List α → Prop
  | here : Path next goal goal [goal]
  | step {a b : α} {p : List α} :
      a ≠ goal → next a = some b → Path next goal b p → Path next goal a (a :: p)

namespace Path

lemma head?_eq (h : Path next goal a p) : p.head? = some a := by
  cases h <;> rfl

lemma getLast?_eq (h : Path next goal a p) : p.getLast? = some goal := by
  induction h with
  | here => rfl
  | step hne hnext hp ih => rw [List.getLast?_cons, ih, Option.getD_some]

theorem unique (h : Path next goal a p) (h' : Path next goal a q) : p = q := by
  induction h generalizing q with
  | here =>
    cases h' with
    | here => rfl
    | step hne => exact absurd rfl hne
  | step hne hnext hp ih =>
    cases h' with
    | here => exact absurd rfl hne
    | step hne' hnext' hp' =>
      obtain rfl := Option.some.inj (hnext.symm.trans hnext')
      rw [ih hp']

/-- The walk from a visited point is a suffix of the walk. -/
lemma exists_suffix (h : Path next goal a p) (hb : b ∈ p) :
    ∃ q, Path next goal b q ∧ q <:+ p := by
  induction h with
  | here =>
    obtain rfl := List.mem_singleton.mp hb
    exact ⟨_, .here, List.suffix_refl _⟩
  | @step c d p hne hnext hp ih =>
    obtain rfl | hb := List.mem_cons.mp hb
    · exact ⟨_, .step hne hnext hp, List.suffix_refl _⟩
    · obtain ⟨q, hq, hsuf⟩ := ih hb
      exact ⟨q, hq, hsuf.trans (List.suffix_cons c p)⟩

theorem nodup (h : Path next goal a p) : p.Nodup := by
  induction h with
  | here => exact List.nodup_singleton _
  | @step c d p hne hnext hp ih =>
    refine List.nodup_cons.mpr ⟨fun hmem => ?_, ih⟩
    -- a second visit would make the walk a proper suffix of itself
    obtain ⟨q, hq, hsuf⟩ := hp.exists_suffix hmem
    have heq : c :: p = q := (Path.step hne hnext hp).unique hq
    have hlen := hsuf.length_le
    rw [← heq, List.length_cons] at hlen
    omega

theorem length_le [DecidableEq α] (h : Path next goal a p) {s : Finset α} (hs : ∀ b ∈ p, b ∈ s) :
    p.length ≤ s.card := by
  rw [← List.toFinset_card_of_nodup h.nodup]
  exact Finset.card_le_card fun b hb => hs b (List.mem_toFinset.mp hb)

/-- Only the goal need not have a successor. -/
lemma exists_next (h : Path next goal a p) (hb : b ∈ p) (hne : b ≠ goal) :
    ∃ c, next b = some c := by
  obtain ⟨q, hq, -⟩ := h.exists_suffix hb
  cases hq with
  | here => exact absurd rfl hne
  | step _ hnext _ => exact ⟨_, hnext⟩

end Path

end AsmTest.Lib
