import Mathlib.Data.List.Basic
import Mathlib.Tactic

/-!
# Texts printed line by line

The lines of an output that is made of texts, each followed by a separator. A text that contains the
separator itself makes further lines.
-/

namespace Lines

variable {α β γ : Type*} {sep : α}

/-- The output of the texts -/
def unlines (sep : α) (ts : List (List α)) : List α := ts.flatMap (· ++ [sep])

lemma unlines_append (ts us : List (List α)) :
    unlines sep (ts ++ us) = unlines sep ts ++ unlines sep us := List.flatMap_append

lemma unlines_flatMap (f : β → List (List α)) (l : List β) :
    unlines sep (l.flatMap f) = l.flatMap fun x => unlines sep (f x) := List.flatMap_assoc

variable [DecidableEq α]

/-- The lines of an output, each ended by the separator -/
def lines (sep : α) (s : List α) : List (List α) := (s.splitOn sep).dropLast

/-- What the separators inside a text make of it: the lines after its first -/
def further (sep : α) (t : List α) : List (List α) := (t.splitOn sep).tail

/-- The texts' own lines, one text after the other -/
lemma lines_unlines (ts : List (List α)) :
    lines sep (unlines sep ts) = ts.flatMap (List.splitOn sep) := by
  induction ts with
  | nil => rfl
  | cons t ts ih =>
    have hcat : unlines sep (t :: ts) = t ++ sep :: unlines sep ts := by
      rw [unlines, List.flatMap_cons, List.append_assoc]
      rfl
    rw [hcat, lines, List.splitOn_append_cons_self,
      List.dropLast_append_of_ne_nil (List.splitOn_ne_nil sep _), List.flatMap_cons]
    exact congrArg _ ih

/-- A text that begins without a separator: its first line begins so, the others are those of the
rest. -/
lemma splitOn_append {pre : List α} (h : sep ∉ pre) (t : List α) :
    ∃ first, (pre ++ t).splitOn sep = (pre ++ first) :: further sep t := by
  obtain ⟨first, rest, ht⟩ := List.exists_cons_of_ne_nil (List.splitOn_ne_nil sep t)
  refine ⟨first, ?_⟩
  rw [further, ht, List.tail_cons]
  induction pre with
  | nil => exact ht
  | cons c pre ih =>
    obtain ⟨hc, hpre⟩ := not_or.mp (mt List.mem_cons.mpr h)
    have hne : ¬(c == sep) = true := by
      rw [beq_iff_eq]
      exact fun heq => hc heq.symm
    rw [List.cons_append, List.splitOn_cons_eq_if_modifyHead, if_neg hne, ih hpre]
    rfl

/-- Nothing is added to the images of a list exactly if nothing is added to one of them. -/
lemma flatMap_cons_eq_map_iff (f : β → γ) (g : β → List γ) (l : List β) :
    (l.flatMap fun x => f x :: g x) = l.map f ↔ ∀ x ∈ l, g x = [] := by
  induction l with
  | nil => exact ⟨fun _ => nofun, fun _ => rfl⟩
  | cons x l ih =>
    rw [List.flatMap_cons, List.map_cons, List.cons_append, List.cons_inj_right,
      List.forall_mem_cons, ← ih]
    constructor
    · intro h
      have hlen := congrArg List.length h
      have hge : l.length ≤ (l.flatMap fun x => f x :: g x).length := by
        rw [List.length_flatMap]
        refine (List.length_le_sum_of_one_le _ ?_).trans' (List.length_map _).ge
        intro n hn
        obtain ⟨y, -, rfl⟩ := List.mem_map.mp hn
        exact Nat.succ_le_succ (Nat.zero_le _)
      rw [List.length_append, List.length_map] at hlen
      have hnil : g x = [] := List.eq_nil_of_length_eq_zero (by omega)
      rw [hnil] at h ⊢
      exact ⟨rfl, h⟩
    · rintro ⟨hnil, h⟩
      rw [hnil, h]
      rfl

end Lines
