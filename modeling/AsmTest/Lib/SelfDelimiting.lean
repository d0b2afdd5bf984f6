import Mathlib.Tactic
import Mathlib.Data.List.Basic

/-!
# Self-delimiting encodings

An encoding is self-delimiting when what follows it cannot change how it is read. Such encodings
compose, and a list is read back from its concatenated elements.
-/

namespace AsmTest.Lib

variable {α β γ : Type*}

/-- Whatever follows, the value and the rest are determined. -/
def SelfDelimiting (enc : α → List γ) : Prop :=
  ∀ ⦃a b : α⦄ ⦃x y : List γ⦄, enc a ++ x = enc b ++ y → a = b ∧ x = y

namespace SelfDelimiting

theorem of_length {enc : α → List γ} {n : ℕ} (hlen : ∀ a, (enc a).length = n)
    (hinj : Function.Injective enc) : SelfDelimiting enc := by
  intro a b x y h
  obtain ⟨hab, hxy⟩ := List.append_inj h ((hlen a).trans (hlen b).symm)
  exact ⟨hinj hab, hxy⟩

theorem comp {f : α → List γ} (hf : SelfDelimiting f) {g : β → α} (hg : Function.Injective g) :
    SelfDelimiting fun b => f (g b) := by
  intro a b x y h
  obtain ⟨hab, hxy⟩ := hf h
  exact ⟨hg hab, hxy⟩

/-- One after the other -/
theorem pair {f : α → List γ} {g : β → List γ} (hf : SelfDelimiting f) (hg : SelfDelimiting g) :
    SelfDelimiting fun p : α × β => f p.1 ++ g p.2 := by
  intro a b x y h
  rw [List.append_assoc, List.append_assoc] at h
  obtain ⟨hfst, hrest⟩ := hf h
  obtain ⟨hsnd, hxy⟩ := hg hrest
  exact ⟨Prod.ext hfst hsnd, hxy⟩

/-- Strings that end with a mark that does not occur in them -/
theorem terminated (z : γ) : SelfDelimiting fun s : { l : List γ // z ∉ l } => s.1 ++ [z] := by
  rintro ⟨a, ha⟩ ⟨b, hb⟩ x y h
  induction a generalizing b with
  | nil =>
    cases b with
    | nil =>
      cases h
      exact ⟨rfl, rfl⟩
    | cons c b =>
      cases h
      exact (hb List.mem_cons_self).elim
  | cons c a ih =>
    cases b with
    | nil =>
      cases h
      exact (ha List.mem_cons_self).elim
    | cons d b =>
      obtain ⟨rfl, htail⟩ := List.cons_eq_cons.1 h
      obtain ⟨hab, hxy⟩ := ih (fun hz => ha (List.mem_cons_of_mem _ hz)) b
        (fun hz => hb (List.mem_cons_of_mem _ hz)) htail
      have hab' : a = b := congrArg Subtype.val hab
      exact ⟨Subtype.ext (congrArg (c :: ·) hab'), hxy⟩

/-- A list to the end of the input is read back element by element. -/
theorem flatMap_injective {f : α → List γ} (hf : SelfDelimiting f) (hne : ∀ a, f a ≠ []) :
    Function.Injective fun l : List α => l.flatMap f := by
  intro l
  induction l with
  | nil =>
    intro m h
    cases m with
    | nil => rfl
    | cons b m => exact (hne b (List.append_eq_nil_iff.1 h.symm).1).elim
  | cons a l ih =>
    intro m h
    cases m with
    | nil => exact (hne a (List.append_eq_nil_iff.1 h).1).elim
    | cons b m =>
      obtain ⟨rfl, hrest⟩ := hf h
      rw [ih hrest]

end SelfDelimiting

end AsmTest.Lib
