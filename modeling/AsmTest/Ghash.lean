import AsmTest.Lib.ProbeTable

/-!
# The index over the node and edge tables of the call graph

A slot of `asmspy_ghash_t` holds the index of an entry plus one, and the key is compared in the
entry. The tables only grow, by inserts of keys that a lookup did not find; where the index could
not be allocated the lookup is a linear scan.
-/

namespace AsmTest.Ghash

open ProbeTable

section Source

/-- `asmspy_ghash_t`; the capacity is the number of slots, none while it is unallocated. -/
structure Index where
  slot : List (BitVec 32) := []
deriving DecidableEq, Repr

/-- `asmspy_gh_mix`, the hash of a node's address -/
def ghMix (x : BitVec 64) : BitVec 64 :=
  let x := x + 0x9E3779B97F4A7C15#64
  let x := (x ^^^ (x >>> 30)) * 0xBF58476D1CE4E5B9#64
  let x := (x ^^^ (x >>> 27)) * 0x94D049BB133111EB#64
  x ^^^ (x >>> 31)

/-- `while (h->slot[i]) { if (stop) break; i = (i + 1) & m; }`, for at most `n` reads -/
def ghProbe (slot : List (BitVec 32)) (stop : ℕ → Bool) : ℕ → ℕ → Option ℕ
  | 0, _ => none
  | n + 1, i =>
    if slot.getD i 0 = 0 then some i
    else if stop ((slot.getD i 0).toNat - 1) then some i
    else ghProbe slot stop n ((i + 1) &&& (slot.length - 1))

/-- `asmspy_gh_find`; the outer `none` is a probe that does not end, the inner one is -1. -/
def ghFind (h : Index) (h64 : BitVec 64) (eq : ℕ → Bool) : Option (Option ℕ) :=
  if h.slot.length = 0 then some none
  else (ghProbe h.slot eq h.slot.length (h64.toNat &&& (h.slot.length - 1))).map fun i =>
    if h.slot.getD i 0 = 0 then none else some ((h.slot.getD i 0).toNat - 1)

/-- The entry `idx` in the first free slot from its home; the number is kept in 32 bits. -/
def place (slot : List (BitVec 32)) (h64 : BitVec 64) (idx : ℕ) : Option (List (BitVec 32)) :=
  (ghProbe slot (fun _ => false) slot.length (h64.toNat &&& (slot.length - 1))).map fun i =>
    slot.set i (BitVec.ofNat 32 (idx + 1))

/-- `asmspy_gh_put` -/
def ghPut (h : Index) (h64 : BitVec 64) (idx : ℕ) : Option Index :=
  if h.slot.length = 0 then some h else (place h.slot h64 idx).map Index.mk

/-- `while ((n + 1) * 10 >= nc * 7) nc *= 2`, for at most `fuel` rounds -/
def capLoop : ℕ → ℕ → ℕ → ℕ
  | 0, nc, _ => nc
  | fuel + 1, nc, n => if (n + 1) * 10 ≥ nc * 7 then capLoop fuel (nc * 2) n else nc

/-- The capacity that `asmspy_gh_grow` allocates -/
def newCap (cap n : ℕ) : ℕ := capLoop (2 * (n + 1)) (if cap ≠ 0 then cap * 2 else 128) n

/-- `asmspy_gh_grow`; the flag is a return of zero. -/
def ghGrow (h : Index) (n : ℕ) (hashof : ℕ → BitVec 64) (calloc : Bool) : Option (Index × Bool) :=
  if h.slot.length ≠ 0 ∧ (n + 1) * 10 < h.slot.length * 7 then some (h, true)
  else if calloc = false then some ({}, false)
  else ((List.range n).foldlM (fun slot k => place slot (hashof k) k)
    (List.replicate (newCap h.slot.length n) 0)).map fun slot => (⟨slot⟩, true)

variable {K : Type*}

/-- The keys of a table, the number of entries it has room for, and its index -/
structure Table (K : Type*) where
  entries : List K := []
  room : ℕ := 0
  index : Index := {}
deriving DecidableEq

/-- The key to find or insert, and whether the table and its index can be allocated if need be -/
structure Insert (K : Type*) where
  key : K
  realloc : Bool
  calloc : Bool

variable [DecidableEq K] (hash : K → BitVec 64)

/-- The hash of entry `k` -/
def hashof (entries : List K) (k : ℕ) : BitVec 64 := entries[k]?.elim 0 hash

/-- The linear scan -/
def scan (entries : List K) (key : K) : Option ℕ := entries.findIdx? fun k => k = key

/-- `asmspy_gh_find` with the comparison of the key that is sought -/
def find (t : Table K) (key : K) : Option (Option ℕ) :=
  ghFind t.index (hash key) fun k => t.entries[k]? = some key

/-- The first part of `gnode_get`: the index, or the scan where there is none -/
def lookup (t : Table K) (key : K) : Option (Option ℕ) :=
  if t.index.slot.length ≠ 0 then find hash t key else some (scan t.entries key)

/-- The second part of `gnode_get`: the entry is appended and, unless the growth fails, indexed;
`seed` entries are allocated first. -/
def append (seed : ℕ) (t : Table K) (op : Insert K) : Option (Table K) :=
  let room := if t.entries.length ≠ t.room then t.room
    else if t.room ≠ 0 then t.room * 2 else seed
  (ghGrow t.index t.entries.length (hashof hash t.entries) op.calloc).bind fun grown =>
    (if grown.2 then ghPut grown.1 (hash op.key) t.entries.length else some grown.1).map
      fun index => ⟨t.entries ++ [op.key], room, index⟩

/-- `gnode_get`, and the same for the edges in `grecord`; the number is that of the entry, `none`
for -1. -/
def gnodeGet (seed : ℕ) (t : Table K) (op : Insert K) : Option (Table K × Option ℕ) :=
  (lookup hash t op.key).bind fun hit =>
    match hit with
    | some k => some (t, some k)
    | none =>
      if t.entries.length = t.room ∧ op.realloc = false then some (t, none)
      else (append hash seed t op).map fun t' => (t', some t.entries.length)

/-- A run from the empty table -/
def run (seed : ℕ) (ops : List (Insert K)) : Option (Table K) :=
  ops.foldlM (fun t op => (gnodeGet hash seed t op).map Prod.fst) {}

end Source

section Spec

variable {K : Type*} [DecidableEq K] (hash : K → BitVec 64)

/-- The index answers as the scan does; without it the callers scan. -/
structure Agrees (t : Table K) : Prop where
  indexed : t.index.slot ≠ [] → ∀ key, find hash t key = some (scan t.entries key)
  dropped : t.index.slot = [] → ∀ key, find hash t key = some none
  lookup : ∀ key, lookup hash t key = some (scan t.entries key)
  nodup : t.entries.Nodup

end Spec

section View

variable {κ : Type*} {home : κ → ℕ} {key key' : ℕ → κ} {slot slot' : List (BitVec 32)} {n : ℕ}

/-- The slots with the keys of the entries they name -/
def view (key : ℕ → κ) (slot : List (BitVec 32)) : Slots κ ℕ :=
  slot.map fun v => if v = 0 then none else some (key (v.toNat - 1), v.toNat - 1)

def busy (slot : List (BitVec 32)) : ℕ := slot.countP fun v => v ≠ 0

lemma length_view : (view key slot).length = slot.length := List.length_map _

lemma slot_view (j : ℕ) : ProbeTable.slot (view key slot) j =
    if slot.getD j 0 = 0 then none
    else some (key ((slot.getD j 0).toNat - 1), (slot.getD j 0).toNat - 1) := by
  unfold ProbeTable.slot view
  rw [List.getD_eq_getElem?_getD, List.getD_eq_getElem?_getD, List.getElem?_map]
  cases slot[j]? <;> simp

lemma used_view : used (view key slot) = busy slot := by
  rw [used, view, List.countP_map, busy]
  congr 1
  funext v
  rw [Function.comp]
  split_ifs with hv
  · exact (decide_eq_false (not_not.mpr hv)).symm
  · exact (decide_eq_true hv).symm

lemma ghProbe_eq (key : ℕ → κ) {stop : ℕ → Bool} (stop' : κ × ℕ → Bool)
    (h : ∀ k, stop' (key k, k) = stop k) (n i : ℕ) :
    ghProbe slot stop n i = probe (view key slot) stop' n i := by
  induction n generalizing i with
  | zero => rfl
  | succ n ih =>
    rw [ghProbe, probe, slot_view]
    by_cases hzero : slot.getD i 0 = 0
    · rw [if_pos hzero, if_pos hzero]
    · rw [if_neg hzero, if_neg hzero, ih]
      dsimp only
      rw [h, mask, length_view]

/-- With a free slot a probe ends. -/
lemma exists_ghProbe (hpow : ∃ e, slot.length = 2 ^ e) (hfree : busy slot < slot.length)
    (stop : ℕ → Bool) (a : ℕ) :
    ∃ i < slot.length, ghProbe slot stop slot.length (a &&& (slot.length - 1)) = some i := by
  have hlen : (view (fun _ => ()) slot).length = slot.length := length_view
  have hroom : used (view (fun _ => ()) slot) < (view (fun _ => ()) slot).length := by
    rw [used_view, hlen]
    exact hfree
  obtain ⟨d, hd, hstop, hfirst⟩ := exists_first_stop hroom (fun e => stop e.2) a
  refine ⟨(a + d) % slot.length, Nat.mod_lt _ (by omega), ?_⟩
  have hprobe := probe_eq_of_first (hlen ▸ hpow) hd hstop hfirst
  rw [← mask_eq_mod (hlen ▸ hpow), mask, hlen] at hprobe
  rw [ghProbe_eq (fun _ => ()) (fun e => stop e.2) fun _ => rfl]
  exact hprobe

lemma exists_place (hpow : ∃ e, slot.length = 2 ^ e) (hfree : busy slot < slot.length)
    (h64 : BitVec 64) (idx : ℕ) : ∃ slot', place slot h64 idx = some slot' ∧
      slot'.length = slot.length ∧ busy slot' ≤ busy slot + 1 := by
  obtain ⟨i, hi, hprobe⟩ := exists_ghProbe hpow hfree (fun _ => false) h64.toNat
  refine ⟨slot.set i (BitVec.ofNat 32 (idx + 1)), by rw [place, hprobe]; rfl, by simp, ?_⟩
  rw [busy, busy, List.countP_set hi]
  split_ifs <;> omega

/-- A number that fits in 32 bits is placed as a rehash places its entry. -/
lemma view_place {h64 : BitVec 64} {idx : ℕ} (hidx : idx + 1 < 2 ^ 32)
    (hhome : h64.toNat = home (key idx)) :
    (place slot h64 idx).map (view key) =
      rehashEntry home (view key slot) (some (key idx, idx)) := by
  have hnum : (BitVec.ofNat 32 (idx + 1)).toNat = idx + 1 := by
    rw [BitVec.toNat_ofNat, Nat.mod_eq_of_lt hidx]
  have hne : BitVec.ofNat 32 (idx + 1) ≠ 0 := by
    intro hzero
    rw [hzero] at hnum
    cases hnum
  rw [place, ghProbe_eq key (fun _ => false) fun _ => rfl, rehashEntry, mask, length_view,
    hhome, Option.map_map]
  congr 1
  funext i
  rw [Function.comp, view, List.map_set, if_neg hne, hnum]
  rfl

variable [DecidableEq κ]

/-- The index holds the first `n` entries. -/
structure Holds (home : κ → ℕ) (key : ℕ → κ) (n : ℕ) (slot : List (BitVec 32)) : Prop where
  inv : Inv home (view key slot)
  exact : ∀ k v, ProbeTable.lookup (view key slot) k = some v ↔ v < n ∧ key v = k

lemma Holds.congr (h : Holds home key n slot) (hkey : ∀ i < n, key' i = key i) :
    Holds home key' n slot := by
  have hview : view key' slot = view key slot := by
    apply List.map_congr_left
    intro v hv
    by_cases hzero : v = 0
    · rw [if_pos hzero, if_pos hzero]
    · rw [if_neg hzero, if_neg hzero, hkey]
      -- what a slot names is one of the entries
      obtain ⟨j, hj, rfl⟩ := List.mem_iff_getElem.mp hv
      have hslot : ProbeTable.slot (view key slot) j =
          some (key (slot[j].toNat - 1), slot[j].toNat - 1) := by
        rw [slot_view, List.getD_eq_getElem _ _ hj, if_neg hzero]
      exact ((h.exact _ _).mp ((lookup_eq_some_iff h.inv).mpr ⟨j, hslot⟩)).1
  refine ⟨hview ▸ h.inv, fun k v => ?_⟩
  rw [hview, h.exact]
  exact and_congr_right fun hv => by rw [hkey v hv]

/-- Placing the next entry, whose key is new -/
lemma Holds.place (h : Holds home key n slot) {h64 : BitVec 64} (hn : n + 1 < 2 ^ 32)
    (hhome : h64.toNat = home (key n)) (hnew : ∀ i < n, key i ≠ key n)
    (hroom : busy slot + 1 < slot.length) (hplace : Ghash.place slot h64 n = some slot') :
    Holds home key (n + 1) slot' := by
  have habs : ProbeTable.lookup (view key slot) (key n) = none := by
    rw [Option.eq_none_iff_forall_not_mem]
    intro v hv
    obtain ⟨hlt, hkey⟩ := (h.exact _ _).mp hv
    exact hnew v hlt hkey
  obtain ⟨t, ht, hinv, -, -, hlook⟩ := rehashEntry_spec h.inv (key n, n) habs
    (by rw [used_view, length_view]; exact hroom)
  have hview : view key slot' = t := by
    have := @view_place _ home key slot h64 n hn hhome
    rw [hplace, ht] at this
    exact Option.some.inj this
  refine ⟨hview ▸ hinv, fun k v => ?_⟩
  rw [hview, hlook]
  by_cases hk : k = key n
  · subst hk
    rw [Function.update_self]
    constructor
    · intro hv
      obtain rfl := Option.some.inj hv
      exact ⟨Nat.lt_succ_self n, rfl⟩
    · rintro ⟨hlt, hkey⟩
      rcases Nat.lt_succ_iff_lt_or_eq.mp hlt with hlt | rfl
      · exact absurd hkey (hnew v hlt)
      · rfl
  · rw [Function.update_of_ne hk, h.exact]
    constructor
    · rintro ⟨hlt, hkey⟩
      exact ⟨hlt.trans (Nat.lt_succ_self n), hkey⟩
    · rintro ⟨hlt, hkey⟩
      rcases Nat.lt_succ_iff_lt_or_eq.mp hlt with hlt | rfl
      · exact ⟨hlt, hkey⟩
      · exact absurd hkey.symm hk

/-- The refill of an empty array with the first entries -/
lemma exists_fill {nc : ℕ} (hpow : ∃ e, nc = 2 ^ e) {hashof : ℕ → BitVec 64} {m : ℕ}
    (hm : m < nc) : ∃ slot,
    (List.range m).foldlM (fun slot k => place slot (hashof k) k) (List.replicate nc 0) =
        some slot ∧ slot.length = nc ∧ busy slot ≤ m ∧
      (m < 2 ^ 32 → (∀ k < m, (hashof k).toNat = home (key k)) →
        (∀ i < m, ∀ j < m, key i = key j → i = j) → Holds home key m slot) := by
  induction m with
  | zero =>
    refine ⟨List.replicate nc 0, rfl, List.length_replicate, by simp [busy], fun _ _ _ => ?_⟩
    have hview : view key (List.replicate nc 0) = List.replicate nc none := by
      rw [view, List.map_replicate, if_pos rfl]
    refine ⟨hview ▸ inv_replicate hpow, fun k v => ?_⟩
    have hnone : ProbeTable.lookup (List.replicate nc (none : Option (κ × ℕ))) k = none :=
      List.findSome?_eq_none_iff.mpr fun o ho => by
        rw [List.eq_of_mem_replicate ho]
        rfl
    rw [hview, hnone]
    simp
  | succ m ih =>
    obtain ⟨slot, hfill, hlen, hbusy, hholds⟩ := ih (by omega)
    obtain ⟨slot', hplace, hlen', hbusy'⟩ :=
      exists_place (hlen.symm ▸ hpow) (by omega) (hashof m) m
    refine ⟨slot', ?_, hlen'.trans hlen, by omega, fun hnum hhome hinj => ?_⟩
    · rw [List.range_succ, List.foldlM_append, hfill]
      simpa using hplace
    · have hm := hholds (by omega) (fun k hk => hhome k (by omega))
        fun i hi j hj => hinj i (by omega) j (by omega)
      refine hm.place hnum (hhome m (by omega)) (fun i hi heq => ?_) (by omega) hplace
      have := hinj i (by omega) m (by omega) heq
      omega

end View

section Capacity

lemma pow2_capLoop (fuel : ℕ) {nc : ℕ} (h : ∃ e, nc = 2 ^ e) (n : ℕ) :
    ∃ e, capLoop fuel nc n = 2 ^ e := by
  induction fuel generalizing nc with
  | zero => exact h
  | succ fuel ih =>
    rw [capLoop]
    split_ifs
    · obtain ⟨e, rfl⟩ := h
      exact ih ⟨e + 1, pow_succ 2 e⟩
    · exact h

lemma capLoop_load {fuel nc n : ℕ} (hpos : 0 < nc) (h : 2 * (n + 1) ≤ nc + fuel) :
    (n + 1) * 10 < capLoop fuel nc n * 7 := by
  induction fuel generalizing nc with
  | zero =>
    rw [capLoop]
    omega
  | succ fuel ih =>
    rw [capLoop]
    split_ifs with hfull
    · exact ih (by omega) (by omega)
    · omega

/-- A power of two that keeps the load of one more entry below seven tenths -/
lemma newCap_spec {cap : ℕ} (h : cap = 0 ∨ ∃ e, cap = 2 ^ e) (n : ℕ) :
    (∃ e, newCap cap n = 2 ^ e) ∧ (n + 1) * 10 < newCap cap n * 7 := by
  have hfirst : ∃ e, (if cap ≠ 0 then cap * 2 else 128) = 2 ^ e := by
    split_ifs with hcap
    · obtain ⟨e, rfl⟩ := h.resolve_left hcap
      exact ⟨e + 1, (pow_succ 2 e).symm⟩
    · exact ⟨7, rfl⟩
  refine ⟨pow2_capLoop _ hfirst n, capLoop_load ?_ (by omega)⟩
  obtain ⟨e, he⟩ := hfirst
  rw [he]
  positivity

end Capacity

section Run

variable {K : Type} [DecidableEq K] {hash : K → BitVec 64} {t t' : Table K} {seed : ℕ}

def keyAt (entries : List K) (k : ℕ) : Option K := entries[k]?

def homeOf (hash : K → BitVec 64) (k : Option K) : ℕ := (k.elim 0 hash).toNat

/-- The index is dropped, or a power of two of slots with a load below seven tenths. -/
def Safe (slot : List (BitVec 32)) (n : ℕ) : Prop :=
  slot = [] ∨ (∃ e, slot.length = 2 ^ e) ∧ busy slot ≤ n ∧ n * 10 < slot.length * 7

/-- While the entries can be numbered in 32 bits, they differ and the index has them all. -/
structure Sound (hash : K → BitVec 64) (t : Table K) : Prop where
  nodup : t.entries.Nodup
  index : t.index.slot = [] ∨
    Holds (homeOf hash) (keyAt t.entries) t.entries.length t.index.slot

structure Inv (hash : K → BitVec 64) (t : Table K) : Prop where
  safe : Safe t.index.slot t.entries.length
  sound : t.entries.length < 2 ^ 32 → Sound hash t

omit [DecidableEq K] in
lemma keyAt_inj {entries : List K} (h : entries.Nodup) :
    ∀ i < entries.length, ∀ j < entries.length, keyAt entries i = keyAt entries j → i = j := by
  intro i hi j hj heq
  rw [keyAt, keyAt, List.getElem?_eq_getElem hi, List.getElem?_eq_getElem hj,
    Option.some_inj] at heq
  exact (h.getElem_inj_iff).mp heq

lemma scan_eq_some_iff {entries : List K} (h : entries.Nodup) {key : K} {v : ℕ} :
    scan entries key = some v ↔ v < entries.length ∧ keyAt entries v = some key := by
  rw [scan, List.findIdx?_eq_some_iff_getElem]
  constructor
  · rintro ⟨hv, heq, -⟩
    exact ⟨hv, by rw [keyAt, List.getElem?_eq_getElem hv, of_decide_eq_true heq]⟩
  · rintro ⟨hv, heq⟩
    rw [keyAt, List.getElem?_eq_getElem hv, Option.some_inj] at heq
    refine ⟨hv, decide_eq_true heq, fun j hj hjeq => ?_⟩
    have := (@List.Nodup.getElem_inj_iff _ _ h j (hj.trans hv) v hv).mp
      ((of_decide_eq_true hjeq).trans heq.symm)
    omega

/-- Every probe of a find ends. -/
lemma exists_find (h : Safe t.index.slot t.entries.length) (key : K) :
    ∃ o, find hash t key = some o := by
  rcases h with hnil | ⟨hpow, hbusy, hload⟩
  · exact ⟨none, by rw [find, ghFind, if_pos (by rw [hnil]; rfl)]⟩
  · obtain ⟨i, -, hprobe⟩ := exists_ghProbe hpow (by omega)
      (fun k => t.entries[k]? = some key) (hash key).toNat
    rw [find, ghFind, if_neg (by omega), hprobe]
    exact ⟨_, rfl⟩

lemma find_eq_scan (hnd : t.entries.Nodup)
    (h : Holds (homeOf hash) (keyAt t.entries) t.entries.length t.index.slot) (key : K) :
    find hash t key = some (scan t.entries key) := by
  have hpos : t.index.slot.length ≠ 0 := by
    have := h.inv.room
    rw [length_view] at this
    omega
  have hfind := find_eq_lookup h.inv (some key)
  have hscan : ProbeTable.lookup (view (keyAt t.entries) t.index.slot) (some key) =
      scan t.entries key := by
    apply Option.ext
    intro v
    rw [h.exact, scan_eq_some_iff hnd]
  rw [hscan, ProbeTable.find, mask, length_view] at hfind
  have hprobe : ∀ i, ghProbe t.index.slot (fun k => t.entries[k]? = some key)
      t.index.slot.length i = probe (view (keyAt t.entries) t.index.slot)
        (fun e => decide (e.1 = some key)) t.index.slot.length i :=
    ghProbe_eq (keyAt t.entries) _ (by intro k; rfl) _
  rw [← hfind, find, ghFind, if_neg hpos, hprobe]
  refine congrArg₂ Option.map (funext fun i => ?_) rfl
  rw [slot_view]
  split_ifs
  · rfl
  · rfl

/-- A growth that returns zero leaves room for one more entry; otherwise the index is dropped. -/
lemma ghGrow_spec (h : Inv hash t) (calloc : Bool) : ∃ g ok,
    ghGrow t.index t.entries.length (hashof hash t.entries) calloc = some (g, ok) ∧
      (ok = false → g.slot = []) ∧
      (ok = true → (∃ e, g.slot.length = 2 ^ e) ∧ busy g.slot ≤ t.entries.length ∧
        (t.entries.length + 1) * 10 < g.slot.length * 7 ∧
        (t.entries.length < 2 ^ 32 →
          Holds (homeOf hash) (keyAt t.entries) t.entries.length g.slot)) := by
  unfold ghGrow
  split_ifs with hroom hcalloc
  · refine ⟨t.index, true, rfl, nofun, fun _ => ?_⟩
    rcases h.safe with hnil | ⟨hpow, hbusy, -⟩
    · rw [hnil] at hroom
      exact absurd rfl hroom.1
    · refine ⟨hpow, hbusy, hroom.2, fun hnum => (h.sound hnum).index.resolve_left ?_⟩
      rintro hnil
      rw [hnil] at hroom
      exact hroom.1 rfl
  · exact ⟨{}, false, rfl, fun _ => rfl, nofun⟩
  · have hcap : t.index.slot.length = 0 ∨ ∃ e, t.index.slot.length = 2 ^ e :=
      h.safe.imp (fun hnil => by rw [hnil]; rfl) And.left
    obtain ⟨hpow, hload⟩ := newCap_spec hcap t.entries.length
    obtain ⟨slot, hfill, hlen, hbusy, hholds⟩ := @exists_fill _ (homeOf hash) (keyAt t.entries) _
      _ hpow (hashof hash t.entries) t.entries.length (by omega)
    refine ⟨⟨slot⟩, true, by rw [hfill]; rfl, nofun, fun _ => ?_⟩
    refine ⟨hlen ▸ hpow, hbusy, by rw [hlen]; exact hload, fun hnum => ?_⟩
    exact hholds hnum (fun _ _ => rfl) (keyAt_inj (h.sound hnum).nodup)

lemma append_spec (h : Inv hash t) (op : Insert K)
    (hnew : t.entries.length < 2 ^ 32 → op.key ∉ t.entries) :
    ∃ t', append hash seed t op = some t' ∧ Inv hash t' ∧ t'.entries = t.entries ++ [op.key] := by
  obtain ⟨g, ok, hgrow, hdrop, hroom⟩ := ghGrow_spec h op.calloc
  have hlen : (t.entries ++ [op.key]).length = t.entries.length + 1 := by
    rw [List.length_append, List.length_singleton]
  have hnd : (t.entries ++ [op.key]).length < 2 ^ 32 → (t.entries ++ [op.key]).Nodup := by
    intro hnum
    rw [hlen] at hnum
    rw [← List.concat_eq_append]
    exact (h.sound (by omega)).nodup.concat (hnew (by omega))
  unfold append
  rw [hgrow, Option.bind_some]
  cases ok with
  | false =>
    refine ⟨_, rfl, ⟨.inl (hdrop rfl), fun hnum => ⟨hnd hnum, .inl (hdrop rfl)⟩⟩, rfl⟩
  | true =>
    obtain ⟨hpow, hbusy, hload, hholds⟩ := hroom rfl
    obtain ⟨slot', hplace, hlen', hbusy'⟩ :=
      exists_place hpow (by omega) (hash op.key) t.entries.length
    have hput : ghPut g (hash op.key) t.entries.length = some ⟨slot'⟩ := by
      rw [ghPut, if_neg (by omega), hplace]
      rfl
    dsimp only
    rw [if_pos rfl, hput]
    refine ⟨_, rfl, ⟨.inr ⟨hlen' ▸ hpow, ?_, ?_⟩, fun hnum => ⟨hnd hnum, .inr ?_⟩⟩, rfl⟩
    · dsimp only
      omega
    · dsimp only
      rw [hlen, hlen']
      exact hload
    · have hlast : keyAt (t.entries ++ [op.key]) t.entries.length = some op.key := by
        rw [keyAt, List.getElem?_append_right le_rfl, Nat.sub_self]
        rfl
      dsimp only at hnum ⊢
      have hinj := keyAt_inj (hnd hnum)
      rw [hlen] at hnum hinj ⊢
      have hold : Holds (homeOf hash) (keyAt (t.entries ++ [op.key])) t.entries.length g.slot :=
        (hholds (by omega)).congr fun i hi => List.getElem?_append_left hi
      refine hold.place hnum (by rw [hlast]; rfl) (fun i hi heq => ?_) (by omega) hplace
      have := hinj i (by omega) t.entries.length (by omega) heq
      omega

/-- Every lookup ends, with the answer of the scan while the entries can be numbered. -/
lemma exists_lookup (h : Inv hash t) (key : K) : ∃ o, lookup hash t key = some o ∧
    (t.entries.length < 2 ^ 32 → o = scan t.entries key) := by
  unfold lookup
  split_ifs with hslot
  · obtain ⟨o, ho⟩ := exists_find h.safe key
    refine ⟨o, ho, fun hnum => ?_⟩
    have hs := h.sound hnum
    rcases hs.index with hnil | hholds
    · rw [hnil] at hslot
      exact absurd rfl hslot
    · exact Option.some.inj (ho.symm.trans (find_eq_scan hs.nodup hholds key))
  · exact ⟨_, rfl, fun _ => rfl⟩

lemma gnodeGet_spec (h : Inv hash t) (op : Insert K) : ∃ t' o,
    gnodeGet hash seed t op = some (t', o) ∧ Inv hash t' ∧
      t.entries.length ≤ t'.entries.length := by
  obtain ⟨hit, hlook, hscan⟩ := exists_lookup h op.key
  unfold gnodeGet
  rw [hlook, Option.bind_some]
  cases hit with
  | some k => exact ⟨t, some k, rfl, h, le_rfl⟩
  | none =>
    dsimp only
    split_ifs
    · exact ⟨t, none, rfl, h, le_rfl⟩
    · have hnew : t.entries.length < 2 ^ 32 → op.key ∉ t.entries := by
        intro hnum hmem
        have hnone := (hscan hnum).symm
        rw [scan, List.findIdx?_eq_none_iff] at hnone
        exact of_decide_eq_false (hnone _ hmem) rfl
      obtain ⟨t', happ, hinv, hentries⟩ := @append_spec _ _ _ _ seed h op hnew
      refine ⟨t', some t.entries.length, by rw [happ]; rfl, hinv, ?_⟩
      rw [hentries, List.length_append]
      exact Nat.le_add_right _ _

lemma run_spec (ops : List (Insert K)) : ∃ t, run hash seed ops = some t ∧ Inv hash t := by
  induction ops using List.reverseRecOn with
  | nil => exact ⟨{}, rfl, .inl rfl, fun _ => ⟨List.nodup_nil, .inl rfl⟩⟩
  | append_singleton ops op ih =>
    obtain ⟨t, hrun, hinv⟩ := ih
    obtain ⟨t', o, hget, hinv', -⟩ := @gnodeGet_spec _ _ _ _ seed hinv op
    refine ⟨t', ?_, hinv'⟩
    rw [run, List.foldlM_append, ← run, hrun]
    simp [hget]

/-- No slot names an entry from `2 ^ 32 - 1` on. -/
lemma ghFind_lt {idx : Index} {h64 : BitVec 64} {eq : ℕ → Bool} {k : ℕ}
    (h : ghFind idx h64 eq = some (some k)) : k < 2 ^ 32 - 1 := by
  unfold ghFind at h
  split_ifs at h
  · cases Option.some.inj h
  · obtain ⟨i, -, hi⟩ := Option.map_eq_some_iff.mp h
    split_ifs at hi with hzero
    have hlt := (idx.slot.getD i 0).isLt
    have := Option.some.inj hi
    have hpos : (idx.slot.getD i 0).toNat ≠ 0 := fun hc => hzero (BitVec.eq_of_toNat_eq hc)
    omega

/-- Every operation of a run ends, and while the entries can be numbered in 32 bits the index
answers as the scan does. -/
theorem ghash_eq_scan (hash : K → BitVec 64) (seed : ℕ) (ops : List (Insert K)) :
    ∃ t, run hash seed ops = some t ∧ (t.entries.length < 2 ^ 32 → Agrees hash t) := by
  obtain ⟨t, hrun, hinv⟩ := @run_spec _ _ hash seed ops
  refine ⟨t, hrun, fun hnum => ?_⟩
  have hs := hinv.sound hnum
  refine ⟨fun hslot key => ?_, fun hslot key => ?_, fun key => ?_, hs.nodup⟩
  · exact find_eq_scan hs.nodup (hs.index.resolve_left hslot) key
  · rw [find, ghFind, hslot]
    rfl
  · obtain ⟨o, ho, hscan⟩ := exists_lookup hinv key
    rw [ho, hscan hnum]

/-- After an insert whose index could not be allocated a find does not see the entry. -/
theorem ghash_dropped_index : ∃ t : Table (BitVec 64),
    run ghMix 64 [⟨0x1000, true, false⟩] = some t ∧ scan t.entries 0x1000 = some 0 ∧
      find ghMix t 0x1000 = some none :=
  ⟨⟨[0x1000], 64, {}⟩, by decide, by decide, by decide⟩

end Run

end AsmTest.Ghash
