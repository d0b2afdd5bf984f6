import Mathlib.Data.Set.Basic
import Mathlib.Tactic

/-!
# Memory that is mapped in regions

A memory in which an address is either not mapped or holds a byte under some permissions, the
calls that map, unmap and write a range of it, and the listing of it as regions: unmapping every
region leaves nothing, and mapping every region and writing its bytes gives the memory back.
-/

namespace Mapped

variable {P β : Type*}

abbrev Memory (P β : Type*) := ℕ → Option (P × β)

def Covered (m : Memory P β) (a n : ℕ) : Prop := ∀ b, a ≤ b → b < a + n → (m b).isSome

def Free (m : Memory P β) (a n : ℕ) : Prop := ∀ b, a ≤ b → b < a + n → m b = none

def unmap (m : Memory P β) (a n : ℕ) : Memory P β :=
  fun b => if a ≤ b ∧ b < a + n then none else m b

def map (m : Memory P β) (a n : ℕ) (perms : P) (fill : β) : Memory P β :=
  fun b => if a ≤ b ∧ b < a + n then some (perms, fill) else m b

def store (m : Memory P β) (a : ℕ) (data : List β) : Memory P β :=
  fun b => if a ≤ b then
    match data[b - a]? with
    | some x => (m b).map fun p => (p.1, x)
    | none => m b
  else m b

/-- The bytes of a range, up to the first address that is not mapped -/
def bytes (m : Memory P β) : ℕ → ℕ → List β
  | _, 0 => []
  | a, n + 1 =>
    match m a with
    | none => []
    | some p => p.2 :: bytes m (a + 1) n

structure Region (P : Type*) where
  start : ℕ
  size : ℕ
  perms : P

def Region.Has (r : Region P) (b : ℕ) : Prop := r.start ≤ b ∧ b < r.start + r.size

instance (r : Region P) (b : ℕ) : Decidable (r.Has b) := inferInstanceAs (Decidable (_ ∧ _))

/-- The regions are the mapped addresses, each with one set of permissions, and lie apart. -/
structure Listing (m : Memory P β) (rs : List (Region P)) : Prop where
  mapped : ∀ b, (m b).isSome ↔ ∃ r ∈ rs, r.Has b
  perms : ∀ r ∈ rs, ∀ b, r.Has b → (m b).map Prod.fst = some r.perms
  apart : rs.Pairwise fun r r' => ∀ b, ¬(r.Has b ∧ r'.Has b)

section Store

variable {m : Memory P β} {a n b : ℕ} {data : List β}

lemma store_of_lt (h : b < a) : store m a data b = m b := if_neg (by omega)

lemma store_of_le (h : a + data.length ≤ b) : store m a data b = m b := by
  rw [store, if_pos (by omega), List.getElem?_eq_none (by omega)]

lemma store_of_mem (h : a ≤ b) (hb : b - a < data.length) :
    store m a data b = (m b).map fun p => (p.1, data[b - a]) := by
  rw [store, if_pos h, List.getElem?_eq_getElem hb]

/-- Writing changes no permissions and maps nothing. -/
lemma map_fst_store (m : Memory P β) (a : ℕ) (data : List β) (b : ℕ) :
    (store m a data b).map Prod.fst = (m b).map Prod.fst := by
  obtain h | h := Nat.lt_or_ge b a
  · rw [store_of_lt h]
  · obtain hb | hb := Nat.lt_or_ge (b - a) data.length
    · rw [store_of_mem h hb, Option.map_map]
      rfl
    · rw [store_of_le (by omega)]

lemma store_nil (m : Memory P β) (a : ℕ) : store m a [] = m := by
  funext b
  exact ite_self (m b)

/-- A write that begins where another ended makes one write with it. -/
lemma store_append (m : Memory P β) (a : ℕ) (xs ys : List β) :
    store (store m a xs) (a + xs.length) ys = store m a (xs ++ ys) := by
  have hlen : (xs ++ ys).length = xs.length + ys.length := List.length_append
  funext b
  obtain hlt | hle := Nat.lt_or_ge b (a + xs.length)
  · rw [store_of_lt hlt]
    obtain hb | hb := Nat.lt_or_ge b a
    · rw [store_of_lt hb, store_of_lt hb]
    · have hx : b - a < xs.length := by omega
      rw [store_of_mem hb hx, store_of_mem hb (by omega), List.getElem_append_left hx]
  · have hkeep : store m a xs b = m b := store_of_le hle
    obtain hy | hy := Nat.lt_or_ge b (a + xs.length + ys.length)
    · have hindex : b - (a + xs.length) = b - a - xs.length := by omega
      have hb : a ≤ b := by omega
      have hin : b - a < (xs ++ ys).length := by omega
      rw [store_of_mem hle (by omega), store_of_mem hb hin, hkeep,
        List.getElem_append_right (by omega)]
      simp only [hindex]
    · rw [store_of_le hy, hkeep, store_of_le (by omega)]

lemma Covered.store {m : Memory P β} {a n : ℕ} (h : Covered m a n) (c : ℕ) (data : List β) :
    Covered (store m c data) a n := by
  intro b ha hb
  rw [← Option.isSome_map, map_fst_store, Option.isSome_map]
  exact h b ha hb

lemma Covered.map {m : Memory P β} {a n : ℕ} (h : Covered m a n) (c k : ℕ) (perms : P) (fill : β) :
    Covered (map m c k perms fill) a n := by
  intro b ha hb
  rw [Mapped.map]
  split_ifs
  · rfl
  · exact h b ha hb

lemma covered_map (m : Memory P β) (a n : ℕ) (perms : P) (fill : β) :
    Covered (map m a n perms fill) a n := by
  intro b ha hb
  rw [map, if_pos ⟨ha, hb⟩]
  rfl

lemma Covered.tail (h : Covered m a (n + 1)) : Covered m (a + 1) n :=
  fun b hb hlt => h b (by omega) (by omega)

lemma length_bytes (h : Covered m a n) : (bytes m a n).length = n := by
  induction n generalizing a with
  | zero => rfl
  | succ n ih =>
    obtain ⟨p, hp⟩ := Option.isSome_iff_exists.mp (h a le_rfl (by omega))
    rw [bytes, hp, List.length_cons, ih h.tail]

lemma getElem?_bytes (h : Covered m a n) (ha : a ≤ b) (hb : b < a + n) :
    (bytes m a n)[b - a]? = (m b).map Prod.snd := by
  induction n generalizing a with
  | zero => omega
  | succ n ih =>
    obtain ⟨p, hp⟩ := Option.isSome_iff_exists.mp (h a le_rfl (by omega))
    rw [bytes, hp]
    obtain rfl | hlt := Nat.eq_or_lt_of_le ha
    · rw [Nat.sub_self, hp]
      rfl
    · rw [show b - a = b - (a + 1) + 1 by omega, List.getElem?_cons_succ]
      exact ih h.tail hlt (by omega)

/-- What was written is read. -/
lemma bytes_store {data : List β} (h : Covered m a data.length) :
    bytes (store m a data) a data.length = data := by
  have hcovered := h.store a data
  apply List.ext_getElem? fun i => ?_
  obtain hi | hi := Nat.lt_or_ge i data.length
  · obtain ⟨p, hp⟩ := Option.isSome_iff_exists.mp (h (a + i) (by omega) (by omega))
    have hbyte := getElem?_bytes hcovered (b := a + i) (by omega) (by omega)
    rw [store_of_mem (by omega) (by omega), hp] at hbyte
    simpa [hi] using hbyte
  · rw [List.getElem?_eq_none hi, List.getElem?_eq_none (by rw [length_bytes hcovered]; exact hi)]

end Store

section Listing

variable {m : Memory P β} {r : Region P} {rs : List (Region P)} {b : ℕ}

lemma unmap_of_has (h : r.Has b) : unmap m r.start r.size b = none := if_pos h

lemma unmap_of_not_has (h : ¬r.Has b) : unmap m r.start r.size b = m b := if_neg h

lemma Listing.covered (h : Listing m rs) (hr : r ∈ rs) : Covered m r.start r.size :=
  fun b ha hb => (h.mapped b).mpr ⟨r, hr, ha, hb⟩

/-- Once its first region is unmapped, the others list the memory. -/
lemma Listing.unmap (h : Listing m (r :: rs)) : Listing (unmap m r.start r.size) rs where
  mapped b := by
    by_cases hb : r.Has b
    · rw [unmap_of_has hb]
      apply iff_of_false (by simp)
      rintro ⟨r', hr', hb'⟩
      exact (List.pairwise_cons.mp h.apart).1 r' hr' b ⟨hb, hb'⟩
    · rw [unmap_of_not_has hb, h.mapped]
      simp [hb]
  perms r' hr' b hb' := by
    have hb : ¬r.Has b := fun hb => (List.pairwise_cons.mp h.apart).1 r' hr' b ⟨hb, hb'⟩
    rw [unmap_of_not_has hb]
    exact h.perms r' (List.mem_cons_of_mem r hr') b hb'
  apart := (List.pairwise_cons.mp h.apart).2

lemma Listing.eq_none (h : Listing m []) : m = fun _ => none := by
  funext b
  apply Option.not_isSome_iff_eq_none.mp
  rw [h.mapped]
  simp

/-- The part of a memory that lies in regions -/
def within (m : Memory P β) (rs : List (Region P)) : Memory P β :=
  fun b => if ∃ r ∈ rs, r.Has b then m b else none

lemma Listing.within (h : Listing m rs) : within m rs = m := by
  funext b
  apply ite_eq_left_iff.mpr
  intro hb
  rw [← h.mapped, Option.not_isSome_iff_eq_none] at hb
  exact hb.symm

/-- Mapping a region with its permissions and writing its bytes adds it to the part. -/
lemma Listing.store_map {done : List (Region P)} (h : Listing m (done ++ r :: rs)) (fill : β) :
    store (map (Mapped.within m done) r.start r.size r.perms fill) r.start
        (bytes m r.start r.size) =
      Mapped.within m (done ++ [r]) := by
  have hr : r ∈ done ++ r :: rs := by simp
  have hcovered := h.covered hr
  funext b
  by_cases hb : r.Has b
  · have hlt : b - r.start < (bytes m r.start r.size).length := by
      rw [length_bytes hcovered]
      exact Nat.sub_lt_left_of_lt_add hb.1 hb.2
    have hin : Mapped.within m (done ++ [r]) b = m b := if_pos ⟨r, by simp, hb⟩
    obtain ⟨⟨perms, x⟩, hm⟩ := Option.isSome_iff_exists.mp (hcovered b hb.1 hb.2)
    have hperms := h.perms r hr b hb
    have hbyte := getElem?_bytes hcovered hb.1 hb.2
    rw [hm] at hperms hbyte
    rw [List.getElem?_eq_getElem hlt] at hbyte
    have hmap : map (Mapped.within m done) r.start r.size r.perms fill b = some (r.perms, fill) :=
      if_pos hb
    rw [store_of_mem hb.1 hlt, hmap, hin, hm, Option.map_some, Option.some.inj hbyte]
    exact congrArg some (Prod.ext (Option.some.inj hperms).symm rfl)
  · have hout : Mapped.within m (done ++ [r]) b = Mapped.within m done b := by
      apply if_congr _ rfl rfl
      simp [hb]
    have hstore : store (map (Mapped.within m done) r.start r.size r.perms fill) r.start
        (bytes m r.start r.size) b = map (Mapped.within m done) r.start r.size r.perms fill b := by
      obtain hlt | hle := Nat.lt_or_ge b r.start
      · exact store_of_lt hlt
      · apply store_of_le
        rw [length_bytes hcovered]
        by_contra hlt
        exact hb ⟨hle, by omega⟩
    rw [hstore, hout]
    exact if_neg hb

lemma Listing.free {done : List (Region P)} (h : Listing m (done ++ r :: rs)) :
    Free (Mapped.within m done) r.start r.size := by
  intro b ha hb
  apply if_neg
  rintro ⟨r', hr', hb'⟩
  exact (List.pairwise_append.mp h.apart).2.2 r' hr' r (List.mem_cons_self ..) b ⟨hb', ha, hb⟩

end Listing

end Mapped
