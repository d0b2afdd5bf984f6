import AsmTest.LwMap
import Mathlib.Data.List.Sort

/-!
# The edge hash of the IBS survey

`eh_add` counts a sampled edge in an open-addressing table that doubles at seven tenths load, and
`eh_export` copies the used slots out and sorts them. Allocations succeed unless a flag says
otherwise.
-/

namespace AsmTest.EdgeHash

open ProbeTable Dataflow

section Source

structure Edge where
  fromAddr : BitVec 64
  toAddr : BitVec 64
deriving DecidableEq, Repr

/-- What an `eh_slot` holds for its edge -/
structure Tally where
  count : BitVec 64
  mispred : BitVec 32
  isReturn : BitVec 32
deriving DecidableEq, Repr

/-- The arguments of a call of `eh_add` -/
structure Sample where
  edge : Edge
  mispred : BitVec 32
  isReturn : BitVec 32
deriving DecidableEq, Repr

/-- `eh_hash` before it is masked -/
def ehHash (e : Edge) : BitVec 64 :=
  let k := e.fromAddr * 0x9E3779B97F4A7C15#64
  let k := k ^^^ (e.toAddr + 0x9E3779B97F4A7C15#64 + (k <<< 6) + (k >>> 2))
  k ^^^ (k >>> 29)

def home (e : Edge) : ℕ := (ehHash e).toNat

/-- `edge_hash`; the capacity is the number of slots. -/
structure Table where
  slots : Slots Edge Tally
  n : ℕ

def ehInit (cap : ℕ) : Table := ⟨List.replicate cap none, 0⟩

/-- `eh_grow`; the entries placed are counted anew. -/
def ehGrow (h : Table) : Option Table :=
  (rehash home h.slots (growPow2 h.slots.length (h.slots.length + 1))).map fun s => ⟨s, used s⟩

/-- What `eh_add` leaves in the slot of the edge -/
def tally (a : Sample) : Option Tally → Tally
  | none => ⟨1, a.mispred, a.isReturn⟩
  | some t => ⟨t.count + 1, t.mispred + a.mispred, t.isReturn + a.isReturn⟩

/-- The growth of `eh_add` past a load of seven tenths -/
def ehReserve (h : Table) : Option Table :=
  if (h.n + 1) * 10 ≥ h.slots.length * 7 then ehGrow h else some h

/-- `eh_add`; `none` if one of its loops does not end. -/
def ehAdd (h : Table) (a : Sample) : Option Table := do
  let h ← ehReserve h
  let (s, fresh) ← upsert home (tally a) h.slots a.edge
  return ⟨s, if fresh then h.n + 1 else h.n⟩

/-- `asmtest_ibs_edge_t` -/
structure Row where
  edge : Edge
  count : BitVec 64
  taken : BitVec 32
  mispred : BitVec 32
  isReturn : BitVec 32
deriving DecidableEq, Repr

def row (p : Edge × Tally) : Row := ⟨p.1, p.2.count, 1, p.2.mispred, p.2.isReturn⟩

def ehCmpDesc (x y : Row) : ℤ :=
  if x.count ≠ y.count then (if x.count < y.count then 1 else -1)
  else if x.edge.fromAddr ≠ y.edge.fromAddr then
    (if x.edge.fromAddr < y.edge.fromAddr then -1 else 1)
  else if x.edge.toAddr ≠ y.edge.toAddr then
    (if x.edge.toAddr < y.edge.toAddr then -1 else 1)
  else 0

/-- The library's `qsort` with `eh_cmp_desc` -/
structure Qsort where
  sort : List Row → List Row
  perm : ∀ l, (sort l).Perm l
  sorted : ∀ l, (sort l).Pairwise fun a b => ehCmpDesc a b ≤ 0

/-- `eh_export`, `none` for -1; `armed` is the injected failure. -/
def ehExport (qsort : Qsort) (armed calloc : Bool) (h : Table) : Option (List Row) :=
  if h.n = 0 then some []
  else if armed then none
  else if calloc = false then none
  else some (qsort.sort (((entries h.slots).take h.n).map row))

/-- The samples of a survey added to a table of `cap` slots, and the table exported -/
def survey (qsort : Qsort) (cap : ℕ) (samples : List Sample) : Option (List Row) :=
  (samples.foldlM ehAdd (ehInit cap)).bind (ehExport qsort false true)

end Source

section Spec

/-- How often an edge is added -/
def adds (samples : List Sample) (e : Edge) : ℕ := samples.countP fun a => a.edge = e

/-- By count descending, then by the ends ascending -/
def Precedes (a b : Row) : Prop :=
  b.count < a.count ∨ a.count = b.count ∧ (a.edge.fromAddr < b.edge.fromAddr ∨
    a.edge.fromAddr = b.edge.fromAddr ∧ a.edge.toAddr < b.edge.toAddr)

/-- Each edge once, in order, with its number of additions as `number` has it -/
structure Counted (number : ℕ → ℕ) (samples : List Sample) (rows : List Row) : Prop where
  once : (rows.map Row.edge).Nodup
  edges : ∀ e, e ∈ rows.map Row.edge ↔ ∃ a ∈ samples, a.edge = e
  counts : ∀ r ∈ rows, r.count.toNat = number (adds samples r.edge)
  sorted : rows.Pairwise Precedes

end Spec

section Table

variable {h : Table} {samples : List Sample}

/-- The slots are in order and less than seven tenths of them are used. -/
structure Ok (h : Table) : Prop where
  inv : Inv home h.slots
  count : h.n = used h.slots
  load : h.n * 10 < h.slots.length * 7

lemma growPow2_succ {cap : ℕ} (hcap : 0 < cap) : growPow2 cap (cap + 1) = 2 * cap := by
  rw [growPow2, if_neg hcap.ne', doubleUntil, if_neg (by omega)]

lemma ok_init (k : ℕ) : Ok (ehInit (2 ^ k)) := by
  have hpos : 0 < 2 ^ k := by positivity
  refine ⟨inv_replicate ⟨k, rfl⟩, ?_, ?_⟩
  · simp [ehInit, used, List.countP_replicate]
  · simp [ehInit]

lemma Ok.grow (hh : Ok h) : ∃ h', ehGrow h = some h' ∧ Inv home h'.slots ∧
    h'.n = used h'.slots ∧ h'.n = h.n ∧ h'.slots.length = 2 * h.slots.length ∧
    lookup h'.slots = lookup h.slots := by
  have hload := hh.load
  have hcount := hh.count
  have hpos : 0 < h.slots.length := by omega
  obtain ⟨k, hk⟩ := hh.inv.pow2
  have hpow : ∃ e, 2 * h.slots.length = 2 ^ e := ⟨k + 1, by rw [hk, pow_succ, Nat.mul_comm]⟩
  obtain ⟨s, hs, hinv, hlen, hused, hlook⟩ := rehash_spec (.inl hh.inv) hpow (by omega)
  refine ⟨⟨s, used s⟩, ?_, hinv, rfl, hused.trans hcount.symm, hlen, hlook⟩
  rw [ehGrow, growPow2_succ hpos, hs]
  rfl

/-- Whether or not it grows, the table then has room for one more. -/
lemma Ok.reserve (hh : Ok h) : ∃ h', ehReserve h = some h' ∧ Inv home h'.slots ∧
    h'.n = used h'.slots ∧ (h'.n + 1) * 10 < h'.slots.length * 7 ∧
    lookup h'.slots = lookup h.slots := by
  have hload := hh.load
  unfold ehReserve
  split_ifs with hfull
  · obtain ⟨h', hs, hinv, hcount, hn, hlen, hlook⟩ := hh.grow
    refine ⟨h', hs, hinv, hcount, ?_, hlook⟩
    rw [hn, hlen]
    rcases Nat.eq_zero_or_pos h.n with hzero | hpos
    · omega
    · omega
  · exact ⟨h, rfl, hh.inv, hh.count, by omega, rfl⟩

/-- A call of `eh_add` ends and merges its sample into one edge. -/
lemma Ok.add (hh : Ok h) (a : Sample) : ∃ h', ehAdd h a = some h' ∧ Ok h' ∧
    lookup h'.slots =
      Function.update (lookup h.slots) a.edge (some (tally a (lookup h.slots a.edge))) := by
  obtain ⟨h₁, hgrow, hinv, hcount, hload, hlook⟩ := hh.reserve
  obtain ⟨s, fresh, hput, hs, hlen, hused, hput'⟩ :=
    put_spec hinv a.edge (tally a (lookup h₁.slots a.edge)) (by omega)
  refine ⟨⟨s, if fresh then h₁.n + 1 else h₁.n⟩, ?_, ⟨hs, ?_, ?_⟩, ?_⟩
  · rw [ehAdd, hgrow]
    simp only [Option.bind_eq_bind, Option.bind_some, upsert_eq_put hinv, hput]
    rfl
  · dsimp only
    rw [hused, ← hcount]
    cases fresh <;> rfl
  · dsimp only
    rw [hlen]
    cases fresh <;> simp <;> omega
  · rw [hput', hlook]

/-- The samples of an edge merged in order -/
def tallyOf (samples : List Sample) (e : Edge) : Option Tally :=
  (samples.filter fun a => a.edge = e).foldl (fun o a => some (tally a o)) none

lemma tallyOf_append (samples : List Sample) (a : Sample) : tallyOf (samples ++ [a]) =
    Function.update (tallyOf samples) a.edge (some (tally a (tallyOf samples a.edge))) := by
  funext e
  rw [tallyOf, List.filter_append, List.foldl_append]
  by_cases he : a.edge = e
  · subst he
    simp [tallyOf]
  · rw [Function.update_of_ne (Ne.symm he)]
    simp [tallyOf, he]

/-- A run of additions ends, with every edge tallied. -/
lemma run_adds (k : ℕ) (samples : List Sample) :
    ∃ h, samples.foldlM ehAdd (ehInit (2 ^ k)) = some h ∧ Ok h ∧
      lookup h.slots = tallyOf samples := by
  induction samples using List.reverseRecOn with
  | nil =>
    refine ⟨_, rfl, ok_init k, ?_⟩
    funext e
    refine List.findSome?_eq_none_iff.mpr fun o ho => ?_
    rw [List.eq_of_mem_replicate ho]
    rfl
  | append_singleton samples a ih =>
    obtain ⟨h, hrun, hh, hlook⟩ := ih
    obtain ⟨h', hadd, hh', hlook'⟩ := hh.add a
    refine ⟨h', ?_, hh', ?_⟩
    · rw [List.foldlM_append, hrun]
      simpa using hadd
    · rw [hlook', hlook, tallyOf_append]

end Table

section Export

variable {samples : List Sample} {rows : List Row}

lemma adds_append (samples : List Sample) (a : Sample) (e : Edge) :
    adds (samples ++ [a]) e = adds samples e + if a.edge = e then 1 else 0 := by
  rw [adds, List.countP_append, List.countP_singleton]
  simp [adds]

/-- An edge is tallied when it is added, and its count is the number of additions in 64 bits. -/
lemma tallyOf_count (samples : List Sample) (e : Edge) :
    tallyOf samples e = none ∧ adds samples e = 0 ∨
      ∃ t, tallyOf samples e = some t ∧ 0 < adds samples e ∧
        t.count = BitVec.ofNat 64 (adds samples e) := by
  induction samples using List.reverseRecOn with
  | nil => exact .inl ⟨rfl, rfl⟩
  | append_singleton samples a ih =>
    rw [tallyOf_append, adds_append]
    by_cases he : a.edge = e
    · subst he
      rw [Function.update_self, if_pos rfl]
      refine .inr ⟨_, rfl, Nat.succ_pos _, ?_⟩
      rcases ih with ⟨hnone, hzero⟩ | ⟨t, hsome, -, hcount⟩
      · rw [hnone, hzero]
        rfl
      · rw [hsome, BitVec.ofNat_add, ← hcount]
        rfl
    · rw [Function.update_of_ne (Ne.symm he), if_neg he, Nat.add_zero]
      exact ih

lemma adds_pos_iff {e : Edge} : 0 < adds samples e ↔ ∃ a ∈ samples, a.edge = e := by
  simp [adds, List.countP_pos_iff]

lemma ehCmpDesc_nonpos {x y : Row} (hne : x.edge ≠ y.edge) (h : ehCmpDesc x y ≤ 0) :
    Precedes x y := by
  unfold ehCmpDesc at h
  split_ifs at h with h1 h2 h3 h4 h5 h6
  · omega
  · left
    have hle := BitVec.not_lt.mp h2
    exact BitVec.lt_of_le_ne hle (Ne.symm h1)
  · exact .inr ⟨not_not.mp h1, .inl h4⟩
  · omega
  · exact .inr ⟨not_not.mp h1, .inr ⟨not_not.mp h3, h6⟩⟩
  · omega
  · exfalso
    apply hne
    cases hx : x.edge
    cases hy : y.edge
    simp_all

/-- The export of a table is in order and holds its entries. -/
lemma exported_rows {h : Table} (hh : Ok h) (qsort : Qsort) : ∃ rows,
    ehExport qsort false true h = some rows ∧ rows.Perm ((entries h.slots).map row) ∧
      (rows.map Row.edge).Nodup ∧ rows.Pairwise Precedes := by
  have hall : (entries h.slots).take h.n = entries h.slots := by
    rw [List.take_of_length_le]
    rw [length_entries, hh.count]
  have hkeys : (((entries h.slots).map row).map Row.edge).Nodup := by
    rw [List.map_map]
    exact nodup_keys_entries hh.inv
  by_cases hn : h.n = 0
  · have hnil : entries h.slots = [] := by
      rw [← List.length_eq_zero_iff, length_entries, ← hh.count, hn]
    exact ⟨[], by rw [ehExport, if_pos hn], by rw [hnil]; rfl, List.nodup_nil, List.Pairwise.nil⟩
  · have hperm := qsort.perm ((entries h.slots).map row)
    have hnd := (hperm.map Row.edge).nodup_iff.mpr hkeys
    refine ⟨_, ?_, hperm, hnd, ?_⟩
    · rw [ehExport, if_neg hn, hall]
      rfl
    · rw [List.Nodup, List.pairwise_map] at hnd
      exact (qsort.sorted _).imp₂ (fun a b hle hne => ehCmpDesc_nonpos hne hle) hnd

/-- Every survey ends, and exports the edges added with their tallies, in order. -/
theorem survey_spec (qsort : Qsort) (k : ℕ) (samples : List Sample) :
    ∃ rows, survey qsort (2 ^ k) samples = some rows ∧ (rows.map Row.edge).Nodup ∧
      rows.Pairwise Precedes ∧
      ∀ r, r ∈ rows ↔ ∃ t, tallyOf samples r.edge = some t ∧ row (r.edge, t) = r := by
  obtain ⟨h, hrun, hh, hlook⟩ := run_adds k samples
  obtain ⟨rows, hrows, hperm, hnd, hsorted⟩ := exported_rows hh qsort
  refine ⟨rows, by rw [survey, hrun]; exact hrows, hnd, hsorted, fun r => ?_⟩
  rw [hperm.mem_iff, List.mem_map]
  constructor
  · rintro ⟨⟨e, t⟩, ht, rfl⟩
    rw [mem_entries_iff_lookup hh.inv, hlook] at ht
    exact ⟨t, ht, rfl⟩
  · rintro ⟨t, ht, hr⟩
    refine ⟨(r.edge, t), ?_, hr⟩
    rw [mem_entries_iff_lookup hh.inv, hlook]
    exact ht

lemma mem_edges_iff {e : Edge}
    (h : ∀ r, r ∈ rows ↔ ∃ t, tallyOf samples r.edge = some t ∧ row (r.edge, t) = r) :
    e ∈ rows.map Row.edge ↔ ∃ a ∈ samples, a.edge = e := by
  rw [← adds_pos_iff, List.mem_map]
  rcases tallyOf_count samples e with ⟨hnone, hzero⟩ | ⟨t, hsome, hpos, -⟩
  · rw [hzero]
    refine ⟨?_, fun hlt => absurd hlt (lt_irrefl 0)⟩
    rintro ⟨r, hr, rfl⟩
    obtain ⟨t, ht, -⟩ := (h r).mp hr
    cases hnone.symm.trans ht
  · exact ⟨fun _ => hpos, fun _ => ⟨row (e, t), (h _).mpr ⟨t, hsome, rfl⟩, rfl⟩⟩

lemma count_of_mem {r : Row}
    (h : ∀ r, r ∈ rows ↔ ∃ t, tallyOf samples r.edge = some t ∧ row (r.edge, t) = r)
    (hr : r ∈ rows) : r.count.toNat = adds samples r.edge % 2 ^ 64 := by
  obtain ⟨t, ht, hrow⟩ := (h r).mp hr
  rcases tallyOf_count samples r.edge with ⟨hnone, -⟩ | ⟨t', ht', -, hcount⟩
  · cases hnone.symm.trans ht
  · obtain rfl := Option.some.inj (ht'.symm.trans ht)
    rw [← hrow]
    change t'.count.toNat = _
    rw [hcount, BitVec.toNat_ofNat]
    rfl

/-- Every survey exports each edge once, in order, with its additions counted modulo `2 ^ 64`. -/
theorem edge_hash_exact (qsort : Qsort) (k : ℕ) (samples : List Sample) :
    ∃ rows, survey qsort (2 ^ k) samples = some rows ∧
      Counted (fun n => n % 2 ^ 64) samples rows := by
  obtain ⟨rows, hrows, hnd, hsorted, hmem⟩ := survey_spec qsort k samples
  exact ⟨rows, hrows, hnd, fun _ => mem_edges_iff hmem, fun _ => count_of_mem hmem, hsorted⟩

/-- The order of `eh_cmp_desc` as an order of numbers -/
def rank (r : Row) : ℕ ×ₗ ℕ ×ₗ ℕ :=
  toLex (2 ^ 64 - r.count.toNat, toLex (r.edge.fromAddr.toNat, r.edge.toAddr.toNat))

lemma ehCmpDesc_nonpos_iff (x y : Row) : ehCmpDesc x y ≤ 0 ↔ rank x ≤ rank y := by
  have hx := x.count.isLt
  have hy := y.count.isLt
  simp only [ehCmpDesc, rank, Prod.Lex.toLex_le_toLex, BitVec.lt_def, ne_eq, ← BitVec.toNat_inj]
  split_ifs <;> omega

/-- An insertion sort is one such `qsort`. -/
def insertionQsort : Qsort where
  sort := List.insertionSort fun a b => rank a ≤ rank b
  perm := List.perm_insertionSort _
  sorted l := by
    have htotal : Std.Total fun a b : Row => rank a ≤ rank b := ⟨fun a b => le_total _ _⟩
    have htrans : IsTrans Row fun a b => rank a ≤ rank b := ⟨fun a b c => le_trans⟩
    exact (List.pairwise_insertionSort _ l).imp fun {a b} h => (ehCmpDesc_nonpos_iff a b).mpr h

/-- After `2 ^ 64` additions of one edge its count is zero. -/
theorem edge_count_wraps : ∃ rows,
    survey insertionQsort 1024 (List.replicate (2 ^ 64) ⟨⟨0x1000, 0x2000⟩, 0, 0⟩) = some rows ∧
      ¬ Counted id (List.replicate (2 ^ 64) ⟨⟨0x1000, 0x2000⟩, 0, 0⟩) rows := by
  obtain ⟨rows, hrows, -, -, hmem⟩ :=
    survey_spec insertionQsort 10 (List.replicate (2 ^ 64) ⟨⟨0x1000, 0x2000⟩, 0, 0⟩)
  refine ⟨rows, hrows, fun hc => ?_⟩
  have hin : (⟨0x1000, 0x2000⟩ : Edge) ∈ rows.map Row.edge :=
    (hc.edges _).mpr ⟨_, List.mem_replicate.mpr ⟨by norm_num, rfl⟩, rfl⟩
  obtain ⟨r, hr, hedge⟩ := List.mem_map.mp hin
  have hadds : adds (List.replicate (2 ^ 64) ⟨⟨0x1000, 0x2000⟩, 0, 0⟩) r.edge = 2 ^ 64 := by
    rw [hedge, adds, List.countP_replicate]
    rfl
  have hlt := r.count.isLt
  rw [hc.counts r hr, hadds] at hlt
  exact lt_irrefl _ hlt

end Export

end AsmTest.EdgeHash
