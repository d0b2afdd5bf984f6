import Mathlib.Tactic
import Mathlib.Data.List.GetD

/-!
# Open addressing with linear probing

Slot arrays whose length is a power of two, searched from the hash of a key by
`j = (j + 1) & (cap - 1)` until a free slot or a wanted entry is met.  The loop
is given the number of slots it may read, so that a search which would run
forever is visible as `none`.
-/

namespace AsmTest.ProbeTable

variable {K V : Type*}

/-- A slot array; `none` is an unused slot. -/
abbrev Slots (K V : Type*) := List (Option (K × V))

def slot (s : Slots K V) (j : ℕ) : Option (K × V) := s.getD j none

def mask (s : Slots K V) (j : ℕ) : ℕ := j &&& (s.length - 1)

def used (s : Slots K V) : ℕ := s.countP Option.isSome

/-- The index at which `while (e[j].used && !stop(e[j])) j = (j + 1) & (cap - 1)`
leaves, if it does so within `n` reads. -/
def probe (s : Slots K V) (stop : K × V → Bool) : ℕ → ℕ → Option ℕ
  | 0, _ => none
  | n + 1, j =>
    match slot s j with
    | none => some j
    | some e => if stop e then some j else probe s stop n (mask s (j + 1))

/-! ## Where a probe stops -/

/-- The probe leaves at `j`: the slot is free, or its entry is a wanted one. -/
def Stops (s : Slots K V) (stop : K × V → Bool) (j : ℕ) : Prop :=
  ∀ e, slot s j = some e → stop e = true

lemma mask_eq_mod {s : Slots K V} (hp : ∃ e, s.length = 2 ^ e) (j : ℕ) :
    mask s j = j % s.length := by
  obtain ⟨e, he⟩ := hp
  rw [mask, he, Nat.and_two_pow_sub_one_eq_mod]

lemma probe_eq_of_first {s : Slots K V} (hp : ∃ e, s.length = 2 ^ e)
    {stop : K × V → Bool} {n a d : ℕ} (hd : d < n)
    (hs : Stops s stop ((a + d) % s.length))
    (hb : ∀ i < d, ¬ Stops s stop ((a + i) % s.length)) :
    probe s stop n (a % s.length) = some ((a + d) % s.length) := by
  induction d generalizing n a with
  | zero =>
    obtain ⟨m, rfl⟩ : ∃ m, n = m + 1 := ⟨n - 1, by omega⟩
    rw [Nat.add_zero] at hs ⊢
    cases he : slot s (a % s.length) with
    | none => simp [probe, he]
    | some e => simp [probe, he, hs e he]
  | succ d ih =>
    obtain ⟨m, rfl⟩ : ∃ m, n = m + 1 := ⟨n - 1, by omega⟩
    have h0 : ¬ Stops s stop (a % s.length) := hb 0 (by omega)
    simp only [Stops, not_forall] at h0
    obtain ⟨e, he, hf⟩ := h0
    have hnext : mask s (a % s.length + 1) = (a + 1) % s.length := by
      rw [mask_eq_mod hp, Nat.mod_add_mod]
    have hshift : ∀ i, a + 1 + i = a + (i + 1) := by omega
    have := ih (n := m) (a := a + 1) (by omega) (by rwa [hshift])
      (fun i hi => by rw [hshift]; exact hb (i + 1) (by omega))
    simp only [probe, he, hf, Bool.false_eq_true, ↓reduceIte, hnext, this, hshift]

/-- From any start the cyclic walk meets a given index within `s.length` steps. -/
lemma exists_offset {n : ℕ} (a : ℕ) {j : ℕ} (hj : j < n) : ∃ d < n, (a + d) % n = j := by
  have ha : a % n < n := Nat.mod_lt _ (by omega)
  refine ⟨(j + n - a % n) % n, Nat.mod_lt _ (by omega), ?_⟩
  have hsum : a % n + (j + n - a % n) = j + n := by omega
  rw [Nat.add_mod_mod, ← Nat.mod_add_mod, hsum, Nat.add_mod_right, Nat.mod_eq_of_lt hj]

lemma exists_free {s : Slots K V} (h : used s < s.length) :
    ∃ j < s.length, slot s j = none := by
  by_contra! hc
  have hall : ∀ x ∈ s, Option.isSome x = true := by
    intro x hx
    obtain ⟨j, hj, rfl⟩ := List.mem_iff_getElem.mp hx
    have := hc j hj
    rw [slot, List.getD_eq_getElem _ _ hj] at this
    exact Option.isSome_iff_ne_none.mpr this
  have hlen : used s = s.length := List.countP_eq_length.mpr hall
  omega

/-- With a free slot the probe ends, at the first index where it may. -/
lemma exists_first_stop {s : Slots K V} (h : used s < s.length) (stop : K × V → Bool) (a : ℕ) :
    ∃ d < s.length, Stops s stop ((a + d) % s.length) ∧
      ∀ i < d, ¬ Stops s stop ((a + i) % s.length) := by
  classical
  obtain ⟨j, hj, hf⟩ := exists_free h
  obtain ⟨d, hd, rfl⟩ := exists_offset a hj
  have hex : ∃ d, Stops s stop ((a + d) % s.length) := ⟨d, by intro e he; simp [hf] at he⟩
  refine ⟨Nat.find hex, ?_, Nat.find_spec hex, fun i hi => Nat.find_min hex hi⟩
  exact lt_of_le_of_lt (Nat.find_le (by intro e he; simp [hf] at he)) hd

lemma slot_set {s : Slots K V} {i : ℕ} (hi : i < s.length) (x : Option (K × V)) (j : ℕ) :
    slot (s.set i x) j = if i = j then x else slot s j := by
  simp only [slot, List.getD_eq_getElem?_getD, List.getElem?_set]
  split_ifs <;> simp_all

lemma slot_lt {s : Slots K V} {j : ℕ} {e : K × V} (h : slot s j = some e) : j < s.length := by
  by_contra hc
  simp [slot, List.getD_eq_getElem?_getD, List.getElem?_eq_none (not_lt.mp hc)] at h

lemma used_set {s : Slots K V} {i : ℕ} (hi : i < s.length) (e : K × V) :
    used (s.set i (some e)) = used s + if slot s i = none then 1 else 0 := by
  have hpos : slot s i ≠ none → 0 < used s := by
    intro h
    rw [slot, List.getD_eq_getElem _ _ hi] at h
    exact List.countP_pos_iff.mpr ⟨s[i], List.getElem_mem hi, Option.isSome_iff_ne_none.mpr h⟩
  rw [used, List.countP_set hi]
  rw [slot, List.getD_eq_getElem _ _ hi] at hpos ⊢
  cases hs : s[i] with
  | none => simp [used]
  | some e' =>
    have hu : 0 < used s := hpos (by simp [hs])
    simp only [used] at hu ⊢
    simp
    omega

/-! ## The table operations -/

/-- The linear scan of the slots: the finite map the table stands for. -/
def lookup [DecidableEq K] (s : Slots K V) (k : K) : Option V :=
  s.findSome? fun o => o.bind fun e => if e.1 = k then some e.2 else none

variable [DecidableEq K] (hash : K → ℕ)

def find (s : Slots K V) (k : K) : Option (Option V) :=
  (probe s (fun e => e.1 == k) s.length (mask s (hash k))).map fun j => (slot s j).map Prod.snd

/-- Overwrite the entry of `k` or claim the first free slot; the flag says that a
slot was claimed. -/
def put (s : Slots K V) (k : K) (v : V) : Option (Slots K V × Bool) :=
  (probe s (fun e => e.1 == k) s.length (mask s (hash k))).map fun j =>
    (s.set j (some (k, v)), (slot s j).isNone)

/-- As `put`, with a value made of the one found. -/
def upsert (f : Option V → V) (s : Slots K V) (k : K) : Option (Slots K V × Bool) :=
  (probe s (fun e => e.1 == k) s.length (mask s (hash k))).map fun j =>
    (s.set j (some (k, f ((slot s j).map Prod.snd))), (slot s j).isNone)

/-- Place one entry of the old array; the loop only looks for a free slot. -/
def rehashEntry (t : Slots K V) : Option (K × V) → Option (Slots K V)
  | none => some t
  | some e =>
    (probe t (fun _ => false) t.length (mask t (hash e.1))).map fun j => t.set j (some e)

def rehash (s : Slots K V) (n : ℕ) : Option (Slots K V) :=
  s.foldlM (rehashEntry hash) (List.replicate n none)

/-- The probe-table invariant: a power-of-two array with a free slot, no key twice,
and no free slot between the home of a key and its entry. -/
structure Inv (s : Slots K V) : Prop where
  pow2 : ∃ e, s.length = 2 ^ e
  room : used s < s.length
  uniq : ∀ i j e e', slot s i = some e → slot s j = some e' → e.1 = e'.1 → i = j
  reach : ∀ j e, slot s j = some e → ∃ d < s.length, (hash e.1 + d) % s.length = j ∧
    ∀ i < d, slot s ((hash e.1 + i) % s.length) ≠ none

variable {hash}

lemma lookup_eq_some_iff {s : Slots K V} (hs : Inv hash s) {k : K} {v : V} :
    lookup s k = some v ↔ ∃ j, slot s j = some (k, v) := by
  constructor
  · intro h
    obtain ⟨o, ho, hv⟩ := List.exists_of_findSome?_eq_some h
    obtain ⟨j, hj, rfl⟩ := List.mem_iff_getElem.mp ho
    refine ⟨j, ?_⟩
    rw [slot, List.getD_eq_getElem _ _ hj]
    cases hsj : s[j] with
    | none => simp [hsj] at hv
    | some e =>
      simp only [hsj, Option.bind_some, Option.ite_none_right_eq_some, Option.some.injEq] at hv
      rw [← hv.1, ← hv.2]
  · rintro ⟨j, hj⟩
    have hlt := slot_lt hj
    have hmem : some (k, v) ∈ s := by
      rw [slot, List.getD_eq_getElem _ _ hlt] at hj
      exact hj ▸ List.getElem_mem hlt
    cases hl : lookup s k with
    | none =>
      have := List.findSome?_eq_none_iff.mp hl _ hmem
      simp at this
    | some w =>
      obtain ⟨o, ho, hv⟩ := List.exists_of_findSome?_eq_some hl
      obtain ⟨i, hi, rfl⟩ := List.mem_iff_getElem.mp ho
      cases hsi : s[i] with
      | none => simp [hsi] at hv
      | some e =>
        have hslot : slot s i = some e := by rw [slot, List.getD_eq_getElem _ _ hi, hsi]
        simp only [hsi, Option.bind_some, Option.ite_none_right_eq_some, Option.some.injEq] at hv
        -- one key is in one slot only
        have hij := hs.uniq i j e (k, v) hslot hj hv.1
        rw [hij, hj] at hslot
        rw [← hv.2, ← Option.some.inj hslot]

/-- Where the probe for `k` ends: the slot holding `k`, or a free slot when no slot
does, in either case with the whole path from the home of `k` occupied. -/
lemma probe_key {s : Slots K V} (hs : Inv hash s) (k : K) :
    ∃ d < s.length, probe s (fun e => e.1 == k) s.length (mask s (hash k)) =
        some ((hash k + d) % s.length) ∧
      (∀ i < d, slot s ((hash k + i) % s.length) ≠ none) ∧
      ((∃ v, slot s ((hash k + d) % s.length) = some (k, v)) ∨
        slot s ((hash k + d) % s.length) = none ∧ ∀ j v, slot s j ≠ some (k, v)) := by
  obtain ⟨d, hd, hstop, hfirst⟩ := exists_first_stop hs.room (fun e => e.1 == k) (hash k)
  have hbusy : ∀ i < d, slot s ((hash k + i) % s.length) ≠ none := by
    intro i hi hnone
    exact hfirst i hi (by intro e he; simp [hnone] at he)
  refine ⟨d, hd, ?_, hbusy, ?_⟩
  · rw [mask_eq_mod hs.pow2]
    exact probe_eq_of_first hs.pow2 hd hstop hfirst
  · cases he : slot s ((hash k + d) % s.length) with
    | some e =>
      have hk : e.1 = k := by simpa using hstop e he
      exact Or.inl ⟨e.2, by rw [← hk]⟩
    | none =>
      refine Or.inr ⟨rfl, ?_⟩
      intro j v hj
      -- the entry would lie behind the free slot, against `reach`, or before it, where the probe stops
      obtain ⟨d', hd', rfl, hpath⟩ := hs.reach j (k, v) hj
      rcases lt_trichotomy d' d with hlt | rfl | hgt
      · exact hfirst d' hlt (by intro e he'; rw [hj] at he'; simp [← Option.some.inj he'])
      · simp [hj] at he
      · exact hpath d hgt he

theorem find_eq_lookup {s : Slots K V} (hs : Inv hash s) (k : K) :
    find hash s k = some (lookup s k) := by
  obtain ⟨d, hd, hp, -, ⟨v, hv⟩ | ⟨hnone, habs⟩⟩ := probe_key hs k
  · rw [find, hp, Option.map_some, hv, (lookup_eq_some_iff hs).mpr ⟨_, hv⟩]
    rfl
  · have hl : lookup s k = none := by
      cases h : lookup s k with
      | none => rfl
      | some v =>
        obtain ⟨j, hj⟩ := (lookup_eq_some_iff hs).mp h
        exact absurd hj (habs j v)
    rw [find, hp, Option.map_some, hnone, hl]
    rfl

/-! ## Writing one slot -/

section Write

variable {s : Slots K V} {k : K} {d : ℕ}

/-- Slot `d` steps after the home of `k` may receive `k`: the path to it is occupied,
and it either holds `k` or is free while no slot holds `k`. -/
def Receives (hash : K → ℕ) (s : Slots K V) (k : K) (d : ℕ) : Prop :=
  d < s.length ∧ (∀ i < d, slot s ((hash k + i) % s.length) ≠ none) ∧
    ((∃ v, slot s ((hash k + d) % s.length) = some (k, v)) ∨
      slot s ((hash k + d) % s.length) = none ∧ ∀ j v, slot s j ≠ some (k, v))

omit [DecidableEq K] in
lemma Receives.index_lt (h : Receives hash s k d) : (hash k + d) % s.length < s.length :=
  Nat.mod_lt _ (by have := h.1; omega)

omit [DecidableEq K] in
/-- Apart from the written slot, no slot holds the written key. -/
lemma Receives.key_ne (hs : Inv hash s) (h : Receives hash s k d) {j : ℕ} {e : K × V}
    (hj : slot s j = some e) (hne : (hash k + d) % s.length ≠ j) : e.1 ≠ k := by
  rintro rfl
  obtain ⟨-, -, ⟨v, hv⟩ | ⟨-, habs⟩⟩ := h
  · exact hne (hs.uniq _ j (e.1, v) e hv hj rfl)
  · exact habs j e.2 hj

omit [DecidableEq K] in
lemma Receives.inv_set (hs : Inv hash s) (h : Receives hash s k d) (v : V)
    (hroom : used (s.set ((hash k + d) % s.length) (some (k, v))) < s.length) :
    Inv hash (s.set ((hash k + d) % s.length) (some (k, v))) := by
  have hget := fun j => slot_set h.index_lt (some (k, v)) j
  -- slots are filled and never freed, so every probe path stays occupied
  have hstay : ∀ j, slot s j ≠ none →
      slot (s.set ((hash k + d) % s.length) (some (k, v))) j ≠ none := by
    intro j hj
    rw [hget]
    split_ifs
    · simp
    · exact hj
  refine ⟨by simpa using hs.pow2, by simpa using hroom, ?_, ?_⟩
  · intro i j e e' hi hj hee
    rw [hget] at hi hj
    split_ifs at hi hj with h1 h2 h2
    · exact h1.symm.trans h2
    · exact absurd (hee.symm.trans (by rw [← Option.some.inj hi])) (h.key_ne hs hj h2)
    · exact absurd (hee.trans (by rw [← Option.some.inj hj])) (h.key_ne hs hi h1)
    · exact hs.uniq i j e e' hi hj hee
  · intro j e hj
    rw [hget] at hj
    simp only [List.length_set]
    split_ifs at hj with h1
    · obtain rfl := Option.some.inj hj
      exact ⟨d, h.1, h1, fun i hi => hstay _ (h.2.1 i hi)⟩
    · obtain ⟨d', hd', hj', hpath⟩ := hs.reach j e hj
      exact ⟨d', hd', hj', fun i hi => hstay _ (hpath i hi)⟩

lemma Receives.lookup_set (hs : Inv hash s) (h : Receives hash s k d) (v : V)
    (hroom : used (s.set ((hash k + d) % s.length) (some (k, v))) < s.length) :
    lookup (s.set ((hash k + d) % s.length) (some (k, v))) =
      Function.update (lookup s) k (some v) := by
  have hs' := h.inv_set hs v hroom
  have hget := fun j => slot_set h.index_lt (some (k, v)) j
  funext k'
  apply Option.ext
  intro w
  rw [lookup_eq_some_iff hs']
  by_cases hk : k' = k
  · subst hk
    rw [Function.update_self]
    constructor
    · rintro ⟨j, hj⟩
      rw [hget] at hj
      split_ifs at hj with h1
      · rw [← (Prod.mk.inj (Option.some.inj hj)).2]
      · exact absurd rfl (h.key_ne hs hj h1)
    · intro hv
      obtain rfl := Option.some.inj hv
      exact ⟨_, by rw [hget, if_pos rfl]⟩
  · rw [Function.update_of_ne hk, lookup_eq_some_iff hs]
    constructor
    · rintro ⟨j, hj⟩
      rw [hget] at hj
      split_ifs at hj with h1
      · exact absurd (Prod.mk.inj (Option.some.inj hj)).1.symm hk
      · exact ⟨j, hj⟩
    · rintro ⟨j, hj⟩
      -- the written slot was free or held `k`, so the entry of `k'` is not there
      refine ⟨j, ?_⟩
      rw [hget, if_neg]
      · exact hj
      · rintro rfl
        obtain ⟨-, -, ⟨v', hv'⟩ | ⟨hnone, -⟩⟩ := h
        · rw [hv'] at hj
          exact hk (Prod.mk.inj (Option.some.inj hj)).1.symm
        · simp [hnone] at hj

end Write

/-- A put ends, keeps the invariant while one more slot stays free, and updates the map. -/
theorem put_spec {s : Slots K V} (hs : Inv hash s) (k : K) (v : V)
    (hroom : used s + 1 < s.length) :
    ∃ s' fresh, put hash s k v = some (s', fresh) ∧ Inv hash s' ∧ s'.length = s.length ∧
      used s' = used s + (if fresh then 1 else 0) ∧
      lookup s' = Function.update (lookup s) k (some v) := by
  obtain ⟨d, hd, hp, hpath, hend⟩ := probe_key hs k
  have hrec : Receives hash s k d := ⟨hd, hpath, hend⟩
  have hu := used_set hrec.index_lt (k, v)
  have hlt : used (s.set ((hash k + d) % s.length) (some (k, v))) < s.length := by
    rw [hu]
    split_ifs <;> omega
  refine ⟨s.set ((hash k + d) % s.length) (some (k, v)),
    (slot s ((hash k + d) % s.length)).isNone, ?_, hrec.inv_set hs v hlt, by simp, ?_,
    hrec.lookup_set hs v hlt⟩
  · rw [put, hp, Option.map_some]
  · rw [hu]
    cases slot s ((hash k + d) % s.length) <;> simp

lemma upsert_eq_put {s : Slots K V} (hs : Inv hash s) (f : Option V → V) (k : K) :
    upsert hash f s k = put hash s k (f (lookup s k)) := by
  obtain ⟨d, -, hp, -, ⟨v, hv⟩ | ⟨hnone, habs⟩⟩ := probe_key hs k
  · have hl : lookup s k = some v := (lookup_eq_some_iff hs).mpr ⟨_, hv⟩
    rw [upsert, put, hp, Option.map_some, Option.map_some, hv, hl]
    rfl
  · have hl : lookup s k = none := by
      cases h : lookup s k with
      | none => rfl
      | some v =>
        obtain ⟨j, hj⟩ := (lookup_eq_some_iff hs).mp h
        exact absurd hj (habs j v)
    rw [upsert, put, hp, Option.map_some, Option.map_some, hnone, hl]
    rfl

/-! ## The entries in slot order -/

def entries (s : Slots K V) : List (K × V) := s.filterMap id

omit [DecidableEq K] in
lemma length_entries (s : Slots K V) : (entries s).length = used s := by
  induction s with
  | nil => rfl
  | cons o s ih =>
    cases o with
    | none => simpa [entries, used] using ih
    | some e => simpa [entries, used] using ih

omit [DecidableEq K] in
lemma mem_entries_iff {s : Slots K V} {e : K × V} : e ∈ entries s ↔ ∃ j, slot s j = some e := by
  rw [entries, List.mem_filterMap]
  constructor
  · rintro ⟨o, ho, rfl⟩
    obtain ⟨j, hj, hget⟩ := List.mem_iff_getElem.mp ho
    exact ⟨j, by rw [slot, List.getD_eq_getElem _ _ hj, hget]⟩
  · rintro ⟨j, hj⟩
    have hlt := slot_lt hj
    rw [slot, List.getD_eq_getElem _ _ hlt] at hj
    exact ⟨some e, hj ▸ List.getElem_mem hlt, rfl⟩

lemma mem_entries_iff_lookup {s : Slots K V} (hs : Inv hash s) {k : K} {v : V} :
    (k, v) ∈ entries s ↔ lookup s k = some v := by
  rw [mem_entries_iff, lookup_eq_some_iff hs]

omit [DecidableEq K] in
/-- No two slots hold the same key. -/
lemma Inv.pairwise_ne {s : Slots K V} (hs : Inv hash s) :
    s.Pairwise fun a b => ∀ e ∈ a, ∀ e' ∈ b, e.1 ≠ e'.1 := by
  rw [List.pairwise_iff_getElem]
  intro i j hi hj hij e he e' he' hee
  have h1 : slot s i = some e := by rw [slot, List.getD_eq_getElem _ _ hi]; exact he
  have h2 : slot s j = some e' := by rw [slot, List.getD_eq_getElem _ _ hj]; exact he'
  have := hs.uniq i j e e' h1 h2 hee
  omega

omit [DecidableEq K] in
lemma nodup_keys_entries {s : Slots K V} (hs : Inv hash s) :
    ((entries s).map Prod.fst).Nodup := by
  rw [entries, List.Nodup, List.pairwise_map, List.pairwise_filterMap]
  exact hs.pairwise_ne

/-! ## Rehashing -/

omit [DecidableEq K] in
lemma inv_replicate {n : ℕ} (hn : ∃ e, n = 2 ^ e) :
    Inv hash (List.replicate n (none : Option (K × V))) := by
  have hpos : 0 < n := by obtain ⟨e, rfl⟩ := hn; positivity
  have hslot : ∀ j, slot (List.replicate n (none : Option (K × V))) j = none := by
    intro j
    simp only [slot, List.getD_eq_getElem?_getD, List.getElem?_replicate]
    split_ifs <;> rfl
  refine ⟨by simpa using hn, ?_, ?_, ?_⟩
  · simpa [used, List.countP_replicate] using hpos
  · intro i j e e' hi
    simp [hslot] at hi
  · intro j e hj
    simp [hslot] at hj

lemma rehashEntry_spec {t : Slots K V} (ht : Inv hash t) (e : K × V)
    (habs : lookup t e.1 = none) (hroom : used t + 1 < t.length) :
    ∃ t', rehashEntry hash t (some e) = some t' ∧ Inv hash t' ∧ t'.length = t.length ∧
      used t' = used t + 1 ∧ lookup t' = Function.update (lookup t) e.1 (some e.2) := by
  have hno : ∀ j v, slot t j ≠ some (e.1, v) := by
    intro j v hj
    simp [(lookup_eq_some_iff ht).mpr ⟨j, hj⟩] at habs
  obtain ⟨d, hd, hstop, hfirst⟩ := exists_first_stop ht.room (fun _ => false) (hash e.1)
  have hfree : slot t ((hash e.1 + d) % t.length) = none := by
    cases h : slot t ((hash e.1 + d) % t.length) with
    | none => rfl
    | some e' => exact absurd (hstop e' h) (by simp)
  have hpath : ∀ i < d, slot t ((hash e.1 + i) % t.length) ≠ none := by
    intro i hi hn
    exact hfirst i hi (by intro e' he; simp [hn] at he)
  have hrec : Receives hash t e.1 d := ⟨hd, hpath, Or.inr ⟨hfree, hno⟩⟩
  have hu := used_set hrec.index_lt e
  rw [if_pos hfree] at hu
  have hlt : used (t.set ((hash e.1 + d) % t.length) (some (e.1, e.2))) < t.length := by
    rw [Prod.mk.eta, hu]
    exact hroom
  refine ⟨t.set ((hash e.1 + d) % t.length) (some e), ?_, hrec.inv_set ht e.2 hlt, by simp, hu,
    hrec.lookup_set ht e.2 hlt⟩
  rw [rehashEntry, mask_eq_mod ht.pow2, probe_eq_of_first ht.pow2 hd hstop hfirst, Option.map_some]

/-- The keys of the entries not yet placed are new to the array being filled. -/
lemma foldlM_rehashEntry {l : Slots K V} {t : Slots K V} (ht : Inv hash t)
    (hnd : l.Pairwise fun a b => ∀ e ∈ a, ∀ e' ∈ b, e.1 ≠ e'.1)
    (hnew : ∀ e, some e ∈ l → lookup t e.1 = none)
    (hroom : used t + used l < t.length) :
    ∃ t', l.foldlM (rehashEntry hash) t = some t' ∧ Inv hash t' ∧ t'.length = t.length ∧
      used t' = used t + used l ∧ ∀ k, lookup t' k = (lookup l k).or (lookup t k) := by
  induction l generalizing t with
  | nil => exact ⟨t, by simp, ht, rfl, by simp [used], fun k => by simp [lookup]⟩
  | cons o l ih =>
    rw [List.pairwise_cons] at hnd
    cases o with
    | none =>
      have hul : used (none :: l) = used l := by simp [used]
      obtain ⟨t', h1, h2, h3, h4, h5⟩ := ih ht hnd.2 (fun e he => hnew e (by simp [he]))
        (by rwa [hul] at hroom)
      exact ⟨t', by simpa [rehashEntry] using h1, h2, h3, by rw [h4, hul], by simpa [lookup] using h5⟩
    | some e =>
      have hul : used (some e :: l) = used l + 1 := by simp [used]
      obtain ⟨t₁, g1, g2, g3, g4, g5⟩ := rehashEntry_spec ht e (hnew e (by simp)) (by omega)
      -- placing `e` made only its own key known
      have hnew₁ : ∀ e', some e' ∈ l → lookup t₁ e'.1 = none := by
        intro e' he'
        have hne : e'.1 ≠ e.1 := (hnd.1 (some e') he' e rfl e' rfl).symm
        rw [g5, Function.update_of_ne hne]
        exact hnew e' (by simp [he'])
      obtain ⟨t', h1, h2, h3, h4, h5⟩ := ih g2 hnd.2 hnew₁ (by omega)
      refine ⟨t', by simp [g1, h1], h2, h3.trans g3, by omega, ?_⟩
      intro k
      rw [h5, g5]
      by_cases hk : e.1 = k
      · subst hk
        have hl : lookup l e.1 = none := by
          refine List.findSome?_eq_none_iff.mpr ?_
          intro o ho
          cases o with
          | none => rfl
          | some e' => simp [(hnd.1 (some e') ho e rfl e' rfl).symm]
        rw [hl]
        simp [lookup]
      · rw [Function.update_of_ne (Ne.symm hk)]
        simp [lookup, hk]

/-- Rehashing into a large enough array ends and keeps the map. -/
theorem rehash_spec {s : Slots K V} (hs : Inv hash s ∨ s = []) {n : ℕ} (hn : ∃ e, n = 2 ^ e)
    (hroom : used s < n) :
    ∃ t, rehash hash s n = some t ∧ Inv hash t ∧ t.length = n ∧ used t = used s ∧
      lookup t = lookup s := by
  have hinv : Inv hash (List.replicate n (none : Option (K × V))) := inv_replicate hn
  have hu0 : used (List.replicate n (none : Option (K × V))) = 0 := by
    simp [used, List.countP_replicate]
  have hl0 : ∀ k, lookup (List.replicate n (none : Option (K × V))) k = none := by
    intro k
    refine List.findSome?_eq_none_iff.mpr ?_
    intro o ho
    rw [List.eq_of_mem_replicate ho]
    rfl
  have hnd : s.Pairwise fun a b => ∀ e ∈ a, ∀ e' ∈ b, e.1 ≠ e'.1 := by
    rcases hs with hs | rfl
    · exact hs.pairwise_ne
    · exact List.Pairwise.nil
  obtain ⟨t, h1, h2, h3, h4, h5⟩ := foldlM_rehashEntry hinv hnd (fun e _ => hl0 e.1)
    (by simpa [hu0] using hroom)
  refine ⟨t, h1, h2, by simpa using h3, by rw [h4, hu0, Nat.zero_add], ?_⟩
  funext k
  rw [h5, hl0, Option.or_none]

/-! ## Tables that grow at three quarters load -/

/-- A slot array with its entry counter; the capacity is the array's length. -/
structure Table (K V : Type*) where
  e : Slots K V
  cnt : ℕ

namespace Table

def empty : Table K V := ⟨[], 0⟩

variable (hash)

def get (m : Table K V) (k : K) : Option (Option V) :=
  if m.e.length = 0 then some none else find hash m.e k

def grow (m : Table K V) (ncap : ℕ) : Option (Table K V) :=
  (rehash hash m.e ncap).map fun e => { m with e := e }

/-- `ncap cap want` is the capacity to grow to for `want` entries. -/
def reserve (ncap : ℕ → ℕ → ℕ) (m : Table K V) : Option (Table K V) :=
  if m.e.length = 0 ∨ (m.cnt + 1) * 4 ≥ m.e.length * 3 then
    m.grow hash (ncap m.e.length (m.cnt + 1))
  else some m

def put (ncap : ℕ → ℕ → ℕ) (m : Table K V) (k : K) (v : V) : Option (Table K V) := do
  let m ← m.reserve hash ncap
  let (e, fresh) ← ProbeTable.put hash m.e k v
  return ⟨e, if fresh then m.cnt + 1 else m.cnt⟩

/-- Either nothing was ever put, or the slots are in order and less than three
quarters of them are used. -/
def Ok (m : Table K V) : Prop :=
  m.e = [] ∧ m.cnt = 0 ∨ Inv hash m.e ∧ m.cnt = used m.e ∧ m.cnt * 4 < m.e.length * 3

/-- A growth policy leaves room for the wanted entries below three quarters. -/
def Policy (ncap : ℕ → ℕ → ℕ) : Prop :=
  ∀ cap cnt, (cap = 0 ∧ cnt = 0 ∨ (∃ e, cap = 2 ^ e) ∧ cnt * 4 < cap * 3) →
    (∃ e, ncap cap (cnt + 1) = 2 ^ e) ∧ (cnt + 1) * 4 < ncap cap (cnt + 1) * 3

variable {hash}

omit [DecidableEq K] in
lemma ok_empty : Ok hash (empty : Table K V) := Or.inl ⟨rfl, rfl⟩

/-- Every lookup ends, with the answer of the linear scan. -/
theorem get_eq_lookup {m : Table K V} (hm : Ok hash m) (k : K) :
    m.get hash k = some (lookup m.e k) := by
  rcases hm with ⟨he, -⟩ | ⟨hinv, -, -⟩
  · simp [get, he, lookup]
  · have hpos : m.e.length ≠ 0 := by have := hinv.room; omega
    rw [get, if_neg hpos, find_eq_lookup hinv]

lemma grow_spec {ncap : ℕ → ℕ → ℕ} (hpol : Policy ncap) {m : Table K V} (hm : Ok hash m) :
    ∃ m', m.grow hash (ncap m.e.length (m.cnt + 1)) = some m' ∧ Inv hash m'.e ∧
      m'.cnt = m.cnt ∧ m'.cnt = used m'.e ∧ (m'.cnt + 1) * 4 < m'.e.length * 3 ∧
      lookup m'.e = lookup m.e := by
  have hu : m.cnt = used m.e := by
    rcases hm with ⟨he, hc⟩ | ⟨-, hc, -⟩
    · simp [he, hc, used]
    · exact hc
  have hcap : m.e.length = 0 ∧ m.cnt = 0 ∨ (∃ e, m.e.length = 2 ^ e) ∧ m.cnt * 4 < m.e.length * 3 := by
    rcases hm with ⟨he, hc⟩ | ⟨hinv, -, hload⟩
    · exact Or.inl ⟨by simp [he], hc⟩
    · exact Or.inr ⟨hinv.pow2, hload⟩
  obtain ⟨hpow, hroom⟩ := hpol _ _ hcap
  have hs : Inv hash m.e ∨ m.e = [] := hm.elim (fun h => Or.inr h.1) (fun h => Or.inl h.1)
  obtain ⟨t, h1, h2, h3, h4, h5⟩ := rehash_spec hs hpow (by omega)
  exact ⟨{ m with e := t }, by rw [grow, h1]; rfl, h2, rfl, by rw [h4]; exact hu,
    by rw [h3]; exact hroom, h5⟩

/-- Whether or not it grows, the array then has a quarter of its slots to spare. -/
lemma reserve_spec {ncap : ℕ → ℕ → ℕ} (hpol : Policy ncap) {m : Table K V} (hm : Ok hash m) :
    ∃ m', m.reserve hash ncap = some m' ∧ Inv hash m'.e ∧ m'.cnt = used m'.e ∧
      (m'.cnt + 1) * 4 < m'.e.length * 3 ∧ lookup m'.e = lookup m.e := by
  unfold reserve
  split_ifs with hc
  · obtain ⟨m', g1, g2, -, g3, g4, g5⟩ := grow_spec hpol hm
    exact ⟨m', g1, g2, g3, g4, g5⟩
  · rw [not_or, not_le] at hc
    rcases hm with ⟨he, -⟩ | ⟨hinv, hcnt, -⟩
    · simp [he] at hc
    · exact ⟨m, rfl, hinv, hcnt, hc.2, rfl⟩

/-- A put ends, updates the map at one key and keeps the load below three quarters. -/
theorem put_spec {ncap : ℕ → ℕ → ℕ} (hpol : Policy ncap) {m : Table K V} (hm : Ok hash m)
    (k : K) (v : V) :
    ∃ m', m.put hash ncap k v = some m' ∧ Ok hash m' ∧
      lookup m'.e = Function.update (lookup m.e) k (some v) := by
  obtain ⟨m₁, h1, hinv, hcnt, hload, hlook⟩ := reserve_spec hpol hm
  obtain ⟨s', fresh, g1, g2, g3, g4, g5⟩ := ProbeTable.put_spec hinv k v (by omega)
  refine ⟨⟨s', if fresh then m₁.cnt + 1 else m₁.cnt⟩, ?_, Or.inr ⟨g2, ?_, ?_⟩, ?_⟩
  · simp [put, h1, g1]
  · rw [g4, ← hcnt]
    cases fresh <;> rfl
  · rw [g3]
    cases fresh <;> simp <;> omega
  · rw [g5, hlook]

/-- The value of the last put of `k`. -/
def lastPut (puts : List (K × V)) (k : K) : Option V :=
  (puts.reverse.find? fun p => p.1 = k).map Prod.snd

lemma lastPut_append (puts : List (K × V)) (p : K × V) :
    lastPut (puts ++ [p]) = Function.update (lastPut puts) p.1 (some p.2) := by
  funext k
  rw [lastPut, List.reverse_append, List.reverse_singleton, List.singleton_append, List.find?_cons]
  by_cases h : p.1 = k
  · subst h
    simp
  · rw [decide_eq_false h, Function.update_of_ne (Ne.symm h)]
    rfl

/-- A run of puts ends, and the table holds the last value of every key. -/
theorem puts_spec {ncap : ℕ → ℕ → ℕ} (hpol : Policy ncap) (puts : List (K × V)) :
    ∃ m : Table K V, puts.foldlM (fun m p => m.put hash ncap p.1 p.2) empty = some m ∧
      Ok hash m ∧ lookup m.e = lastPut puts := by
  induction puts using List.reverseRecOn with
  | nil => exact ⟨empty, rfl, ok_empty, rfl⟩
  | append_singleton puts p ih =>
    obtain ⟨m, hrun, hm, hlook⟩ := ih
    obtain ⟨m', hput, hm', hlook'⟩ := put_spec hpol hm p.1 p.2
    refine ⟨m', ?_, hm', ?_⟩
    · rw [List.foldlM_append, hrun]
      simpa using hput
    · rw [hlook', hlook, lastPut_append]

end Table

end AsmTest.ProbeTable
