import Mathlib.Data.List.Perm.Basic
import Mathlib.Tactic

/-!
# Rearranging an array in place

Moving the elements that are kept to the front, exchanging two elements, and what the slices of a
round robin add up to. What such an operation does to the array of an array's images is what it does
to the images.
-/

namespace InPlace

variable {α β κ : Type*}

section Assign

/-- `l[m] = l[i]` -/
def assign (l : List α) (m i : ℕ) : List α :=
  match l[i]? with
  | some x => l.set m x
  | none => l

lemma map_assign (f : α → β) (l : List α) (m i : ℕ) :
    (assign l m i).map f = assign (l.map f) m i := by
  rw [assign, assign, List.getElem?_map]
  cases l[i]? with
  | none => rfl
  | some x => exact List.map_set

lemma map_swap (f : α → β) (l : List α) (i j : ℕ) : (l.swap i j).map f = (l.map f).swap i j := by
  by_cases h : i < l.length ∧ j < l.length
  · rw [List.swap_eq_of_lt h.1 h.2,
      List.swap_eq_of_lt (by rw [List.length_map]; exact h.1) (by rw [List.length_map]; exact h.2),
      List.map_set, List.map_set, List.getElem_map, List.getElem_map]
  · rw [List.swap_eq, dif_neg h, List.swap_eq, dif_neg (by rwa [List.length_map])]

end Assign

section Compact

variable {keep : ℕ → Bool}

/-- The elements at the positions that are kept, in order; `i` is the position of the first. -/
def pick (keep : ℕ → Bool) (i : ℕ) (l : List α) : List α :=
  ((l.zipIdx i).filter fun p => keep p.2).map Prod.fst

@[simp] lemma pick_nil (i : ℕ) : pick keep i ([] : List α) = [] := rfl

lemma pick_cons (i : ℕ) (x : α) (l : List α) :
    pick keep i (x :: l) = if keep i then x :: pick keep (i + 1) l else pick keep (i + 1) l := by
  rw [pick, List.zipIdx_cons]
  cases hk : keep i
  · rw [List.filter_cons_of_neg (by rw [hk]; exact Bool.false_ne_true)]
    rfl
  · rw [List.filter_cons_of_pos (by exact hk)]
    rfl

lemma pick_append (i : ℕ) (l l' : List α) :
    pick keep i (l ++ l') = pick keep i l ++ pick keep (i + l.length) l' := by
  rw [pick, pick, pick, List.zipIdx_append, List.filter_append, List.map_append]

lemma pick_sublist (i : ℕ) (l : List α) : (pick keep i l).Sublist l := by
  induction l generalizing i with
  | nil => exact List.Sublist.slnil
  | cons x l ih =>
    rw [pick_cons]
    split
    · exact (ih (i + 1)).cons_cons x
    · exact (ih (i + 1)).cons x

/-- The loop that moves the kept elements to the front: `left` are still to be looked at, from `i`
on, and `m` have been kept. -/
def compact (keep : ℕ → Bool) : ℕ → ℕ → ℕ → List α → List α
  | 0, _, m, l => l.take m
  | left + 1, i, m, l =>
    if keep i then compact keep left (i + 1) (m + 1) (assign l m i)
    else compact keep left (i + 1) m l

/-- Moving the first element still to be looked at behind those kept: the old elements between them
stay as many. -/
lemma assign_append (done junk rest : List α) (x : α) :
    ∃ junk', junk'.length = junk.length ∧
      assign (done ++ junk ++ x :: rest) done.length (done.length + junk.length) =
        done ++ [x] ++ junk' ++ rest := by
  have hget : (done ++ junk ++ x :: rest)[done.length + junk.length]? = some x := by
    rw [List.getElem?_append_right (by rw [List.length_append]), List.length_append, Nat.sub_self]
    rfl
  rw [assign, hget]
  cases junk with
  | nil => exact ⟨[], rfl, by simp⟩
  | cons y junk => exact ⟨junk ++ [x], by simp, by simp⟩

/-- Between those kept and those still to be looked at lie old elements, one for each that was not
kept. -/
lemma compact_append (done junk rest : List α) :
    compact keep rest.length (done.length + junk.length) done.length (done ++ junk ++ rest) =
      done ++ pick keep (done.length + junk.length) rest := by
  induction rest generalizing done junk with
  | nil =>
    rw [List.append_nil, pick_nil, List.append_nil]
    exact List.take_left
  | cons x rest ih =>
    rw [List.length_cons, compact, pick_cons]
    split
    · obtain ⟨junk', hlen, hassign⟩ := assign_append done junk rest x
      rw [hassign]
      have := ih (done ++ [x]) junk'
      simpa [hlen, Nat.add_assoc, Nat.add_comm, Nat.add_left_comm] using this
    · have := ih done (junk ++ [x])
      simpa [Nat.add_assoc] using this

lemma compact_eq (l : List α) : compact keep l.length 0 0 l = pick keep 0 l :=
  compact_append [] [] l

end Compact

section Slices

variable {keys : List κ}

/-- The classes of a list under a key, one after the other, are a permutation of it. -/
lemma perm_flatMap_filter [DecidableEq κ] (f : α → κ) (hnodup : keys.Nodup) (l : List α)
    (hl : ∀ x ∈ l, f x ∈ keys) : (keys.flatMap fun k => l.filter (f · = k)).Perm l := by
  induction l with
  | nil => simp
  | cons x l ih =>
    obtain ⟨before, after, rfl⟩ := List.append_of_mem (hl x List.mem_cons_self)
    obtain ⟨-, hafter, hdisj⟩ := List.nodup_append.mp hnodup
    have hother : ∀ k, f x ≠ k → (x :: l).filter (f · = k) = l.filter (f · = k) :=
      fun k hk => List.filter_cons_of_neg (by simpa using hk)
    have hown : (x :: l).filter (f · = f x) = x :: l.filter (f · = f x) :=
      List.filter_cons_of_pos (by simp)
    have hbefore : before.flatMap (fun k => (x :: l).filter (f · = k)) =
        before.flatMap fun k => l.filter (f · = k) :=
      List.flatMap_congr fun k hk => hother k (hdisj k hk (f x) List.mem_cons_self).symm
    have hrest : after.flatMap (fun k => (x :: l).filter (f · = k)) =
        after.flatMap fun k => l.filter (f · = k) :=
      List.flatMap_congr fun k hk => hother k fun heq => (List.nodup_cons.mp hafter).1 (heq ▸ hk)
    rw [List.flatMap_append, List.flatMap_cons, hbefore, hown, hrest, List.cons_append]
    refine List.perm_middle.trans (List.Perm.cons x ?_)
    have := ih fun y hy => hl y (List.mem_cons_of_mem x hy)
    rwa [List.flatMap_append, List.flatMap_cons] at this

/-- The slices of a round robin are a permutation of the list. -/
lemma perm_slices {n : ℕ} (hn : 0 < n) (l : List α) :
    ((List.range' 1 n).flatMap fun k => pick (fun i => i % n = k - 1) 0 l).Perm l := by
  have hnodup : (List.range' 1 n).Nodup := List.nodup_range'
  have hkey : ∀ p ∈ l.zipIdx, p.2 % n + 1 ∈ List.range' 1 n := fun p _ =>
    List.mem_range'_1.mpr ⟨by omega, by have := Nat.mod_lt p.2 hn; omega⟩
  have hclasses := (perm_flatMap_filter (fun p : α × ℕ => p.2 % n + 1) hnodup l.zipIdx hkey).map
    Prod.fst
  rw [List.zipIdx_map_fst, List.map_flatMap] at hclasses
  refine (List.Perm.of_eq (List.flatMap_congr fun k hk => ?_)).trans hclasses
  have hk' : 1 ≤ k := (List.mem_range'_1.mp hk).1
  rw [pick]
  refine congrArg (List.map Prod.fst) (List.filter_congr fun p _ => ?_)
  exact decide_eq_decide.mpr (by omega)

end Slices

end InPlace
