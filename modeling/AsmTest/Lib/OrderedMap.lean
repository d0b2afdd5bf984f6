import Mathlib.Tactic
import Mathlib.Data.List.Pairwise
import Mathlib.Data.List.Nodup

/-!
# Ordered maps

Association lists in ascending order of their keys, as an ordered map of a standard library keeps
its entries.
-/

namespace AsmTest.Lib

variable {K V : Type} [LinearOrder K]

/-- `m[k] = v` for an ordered map. -/
def mapInsert (k : K) (v : V) : List (K × V) → List (K × V)
  | [] => [(k, v)]
  | (k', v') :: m =>
    if k = k' then (k, v) :: m
    else if k < k' then (k, v) :: (k', v') :: m
    else (k', v') :: mapInsert k v m

/-- The keys ascend strictly. -/
def KeysSorted (m : List (K × V)) : Prop :=
  m.Pairwise fun a b => a.1 < b.1

def mapFind (k : K) : List (K × V) → Option V
  | [] => none
  | (k', v) :: m => if k = k' then some v else mapFind k m

@[simp] lemma mapFind_mapInsert (j k : K) (v : V) (m : List (K × V)) :
    mapFind j (mapInsert k v m) = if j = k then some v else mapFind j m := by
  induction m with
  | nil => rfl
  | cons e m ih =>
    obtain ⟨k', v'⟩ := e
    by_cases hk : k = k'
    · subst hk
      rw [mapInsert, if_pos rfl, mapFind, mapFind]
      by_cases hj : j = k
      · rw [if_pos hj, if_pos hj]
      · rw [if_neg hj, if_neg hj, if_neg hj]
    · rw [mapInsert, if_neg hk]
      by_cases hlt : k < k'
      · rw [if_pos hlt, mapFind]
      · rw [if_neg hlt, mapFind, mapFind, ih]
        by_cases hj : j = k
        · rw [if_pos hj, if_pos hj, if_neg (hj ▸ hk)]
        · rw [if_neg hj, if_neg hj]

lemma mem_mapInsert {k : K} {v : V} {m : List (K × V)} {e : K × V} (h : e ∈ mapInsert k v m) :
    e = (k, v) ∨ e ∈ m := by
  induction m with
  | nil => exact .inl (by simpa [mapInsert] using h)
  | cons e' m ih =>
    rw [mapInsert] at h
    split_ifs at h with hk hlt
    · rcases List.mem_cons.1 h with rfl | h
      · exact .inl rfl
      · exact .inr (List.mem_cons_of_mem _ h)
    · rcases List.mem_cons.1 h with rfl | h
      · exact .inl rfl
      · exact .inr h
    · rcases List.mem_cons.1 h with rfl | h
      · exact .inr List.mem_cons_self
      · exact (ih h).imp id (List.mem_cons_of_mem _)

lemma keysSorted_mapInsert (k : K) (v : V) {m : List (K × V)} (h : KeysSorted m) :
    KeysSorted (mapInsert k v m) := by
  induction m with
  | nil => exact List.pairwise_singleton _ _
  | cons e m ih =>
    obtain ⟨k', v'⟩ := e
    obtain ⟨hhead, htail⟩ := List.pairwise_cons.1 h
    rw [mapInsert]
    split_ifs with hk hlt
    · subst hk
      exact List.pairwise_cons.2 ⟨hhead, htail⟩
    · refine List.pairwise_cons.2 ⟨fun e he => ?_, h⟩
      rcases List.mem_cons.1 he with rfl | he
      · exact hlt
      · exact hlt.trans (hhead e he)
    · refine List.pairwise_cons.2 ⟨fun e he => ?_, ih htail⟩
      rcases mem_mapInsert he with rfl | he
      · exact lt_of_le_of_ne (not_lt.1 hlt) (Ne.symm hk)
      · exact hhead e he

lemma keysSorted_nil : KeysSorted ([] : List (K × V)) :=
  List.Pairwise.nil

lemma length_mapInsert_le (k : K) (v : V) (m : List (K × V)) :
    (mapInsert k v m).length ≤ m.length + 1 := by
  induction m with
  | nil => exact le_rfl
  | cons e m ih =>
    rw [mapInsert]
    split_ifs
    · exact Nat.le_succ _
    · exact le_rfl
    · exact Nat.succ_le_succ ih

/-- A key above all the others goes to the end. -/
lemma mapInsert_of_forall_lt (k : K) (v : V) {m : List (K × V)} (h : ∀ e ∈ m, e.1 < k) :
    mapInsert k v m = m ++ [(k, v)] := by
  induction m with
  | nil => rfl
  | cons e m ih =>
    have hlt : e.1 < k := h e List.mem_cons_self
    rw [mapInsert, if_neg hlt.ne', if_neg hlt.not_gt,
      ih fun e' he' => h e' (List.mem_cons_of_mem _ he')]
    rfl

lemma mem_of_mapFind {k : K} {v : V} {m : List (K × V)} (h : mapFind k m = some v) :
    (k, v) ∈ m := by
  induction m with
  | nil => cases h
  | cons e m ih =>
    rw [mapFind] at h
    split_ifs at h with hk
    · obtain rfl := Option.some.inj h
      exact hk ▸ List.mem_cons_self
    · exact List.mem_cons_of_mem _ (ih h)

lemma mapFind_eq_none_iff {k : K} {m : List (K × V)} :
    mapFind k m = none ↔ ∀ e ∈ m, e.1 ≠ k := by
  induction m with
  | nil => simp [mapFind]
  | cons e m ih =>
    obtain ⟨k', v⟩ := e
    rw [mapFind, List.forall_mem_cons, ← ih]
    by_cases hk : k = k'
    · simp [hk]
    · simp [hk, Ne.symm hk]

lemma mapFind_of_mem {k : K} {v : V} {m : List (K × V)} (hm : KeysSorted m) (h : (k, v) ∈ m) :
    mapFind k m = some v := by
  induction m with
  | nil => exact absurd h List.not_mem_nil
  | cons e m ih =>
    obtain ⟨hhead, htail⟩ := List.pairwise_cons.1 hm
    rw [mapFind]
    rcases List.mem_cons.1 h with rfl | h
    · exact if_pos rfl
    · rw [if_neg (hhead _ h).ne', ih htail h]

lemma nodup_of_keysSorted {m : List (K × V)} (h : KeysSorted m) : (m.map Prod.fst).Nodup :=
  (List.pairwise_map.2 h).imp fun hlt => hlt.ne

section Fold

variable {A : Type} (f : A → K) (g : A → V)

lemma keysSorted_foldl_mapInsert (l : List A) {acc : List (K × V)} (h : KeysSorted acc) :
    KeysSorted (l.foldl (fun m a => mapInsert (f a) (g a) m) acc) := by
  induction l generalizing acc with
  | nil => exact h
  | cons a l ih => exact ih (keysSorted_mapInsert _ _ h)

/-- Keys that come once are found with their own values. -/
lemma mapFind_foldl_mapInsert {l : List A} (hl : (l.map f).Nodup) (acc : List (K × V)) (k : K) :
    mapFind k (l.foldl (fun m a => mapInsert (f a) (g a) m) acc) =
      (mapFind k (l.map fun a => (f a, g a))).or (mapFind k acc) := by
  induction l generalizing acc with
  | nil => rfl
  | cons a l ih =>
    rw [List.map_cons, List.nodup_cons] at hl
    rw [List.foldl_cons, ih hl.2, mapFind_mapInsert, List.map_cons, mapFind]
    by_cases hk : k = f a
    · have hnone : mapFind k (l.map fun a => (f a, g a)) = none := by
        refine mapFind_eq_none_iff.2 fun e he h => hl.1 ?_
        obtain ⟨b, hb, rfl⟩ := List.mem_map.1 he
        exact List.mem_map.2 ⟨b, hb, h.trans hk⟩
      rw [hnone, if_pos hk, if_pos hk]
      rfl
    · rw [if_neg hk, if_neg hk]

lemma isSome_mapFind_foldl_mapInsert (l : List A) (acc : List (K × V)) (k : K) :
    (mapFind k (l.foldl (fun m a => mapInsert (f a) (g a) m) acc)).isSome ↔
      (∃ a ∈ l, f a = k) ∨ (mapFind k acc).isSome := by
  induction l generalizing acc with
  | nil => simp
  | cons a l ih =>
    rw [List.foldl_cons, ih, mapFind_mapInsert]
    by_cases hk : k = f a
    · simp [hk]
    · simp [hk, Ne.symm hk]

end Fold

section Last

variable {A : Type} (f : A → Option K)

/-- Entries with a key, one after the other -/
def mapCollect (l : List A) (acc : List (K × A)) : List (K × A) :=
  l.foldl (fun m a => (f a).elim m fun k => mapInsert k a m) acc

lemma keysSorted_mapCollect (l : List A) {acc : List (K × A)} (h : KeysSorted acc) :
    KeysSorted (mapCollect f l acc) := by
  induction l generalizing acc with
  | nil => exact h
  | cons a l ih =>
    change KeysSorted (mapCollect f l ((f a).elim acc fun k => mapInsert k a acc))
    apply ih
    cases f a with
    | none => exact h
    | some k => exact keysSorted_mapInsert k a h

/-- The last entry under a key stays. -/
lemma mapFind_mapCollect (l : List A) (acc : List (K × A)) (k : K) :
    mapFind k (mapCollect f l acc) =
      ((l.filter fun a => f a = some k).getLast?).or (mapFind k acc) := by
  induction l generalizing acc with
  | nil => rfl
  | cons a l ih =>
    change mapFind k (mapCollect f l ((f a).elim acc fun k => mapInsert k a acc)) = _
    rw [ih]
    by_cases hk : f a = some k
    · rw [List.filter_cons_of_pos (by simpa using hk), List.getLast?_cons, hk, Option.elim_some,
        mapFind_mapInsert, if_pos rfl]
      cases (l.filter fun a => f a = some k).getLast? <;> rfl
    · rw [List.filter_cons_of_neg (by simpa using hk)]
      congr 1
      cases hf : f a with
      | none => rfl
      | some j =>
        rw [Option.elim_some, mapFind_mapInsert, if_neg]
        rintro rfl
        exact hk hf

end Last

end AsmTest.Lib
