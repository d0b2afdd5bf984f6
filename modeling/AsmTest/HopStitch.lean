import AsmTest.Trace
import AsmTest.Lib.ExchangeSort

/-!
# Stitching the slices of an operation

`asmtest_hwtrace_stitch` orders the slices of an operation by their sequence numbers and appends
them one after the other to a trace, noting where each begins.
-/

namespace AsmTest.Hwtrace.Stitch

open ExchangeSort

section Source

/-- `asmtest_hwtrace_slice_t` -/
structure Slice where
  scopeId : ℕ
  seq : ℕ
  tid : ℤ
  version : ℕ
  trace : Trace
deriving DecidableEq, Repr

/-- `asmtest_hwtrace_slice_bound_t` -/
structure SliceBound where
  insnOff : ℕ
  scopeId : ℕ
  seq : ℕ
  tid : ℤ
  version : ℕ
deriving DecidableEq, Repr

inductive Rc
  | ok
  | einval
  | eunavail
deriving DecidableEq, Repr

/-- `STITCH_MAX_SLICES` -/
def stitchMaxSlices : ℕ :=
  4096

def Slice.insns (s : Slice) : List ℕ :=
  s.trace.insns.getD []

def Slice.blocks (s : Slice) : List ℕ :=
  s.trace.blocks.getD []

/-- What a slice appends -/
def Slice.events (s : Slice) : List Event :=
  s.insns.map .insn ++ s.blocks.map .block

/-- `slices[i].seq` -/
def seqAt (slices : List Slice) (i : ℕ) : ℕ :=
  (slices[i]?.map Slice.seq).getD 0

/-- `order` after the sort, which has no round for the last place -/
def stitchOrder (slices : List Slice) : List ℕ :=
  (List.range slices.length).map (after (seqAt slices) slices.length (slices.length - 1))

/-- A round of the concatenation -/
def appendSlice (acc : Trace × List SliceBound) (s : Slice) : Trace × List SliceBound :=
  let bound := ⟨(acc.1.insns.getD []).length, s.scopeId, s.seq, s.tid, s.version⟩
  let out := emitAll acc.1 s.events
  (if s.trace.truncated then out.markTruncated else out, acc.2 ++ [bound])

/-- `asmtest_hwtrace_stitch`, with what it writes to `bounds` -/
def hwtraceStitch (malloc : Bool) (slices : Option (List Slice)) (out : Option Trace) :
    Rc × Option Trace × List SliceBound :=
  match slices, out with
  | some slices, some t =>
    if stitchMaxSlices < slices.length then (.einval, t, [])
    else if slices = [] then (.ok, t, [])
    else if malloc = false then (.eunavail, t, [])
    else
      let acc := ((stitchOrder slices).filterMap (slices[·]?)).foldl appendSlice (t, [])
      (.ok, acc.1, acc.2)
  | _, out => (.einval, out, [])

end Source

section Spec

/-- An output trace without entries that has room for all slices -/
structure Ready (slices : List Slice) (out : Trace) : Prop where
  insns : out.insns = some []
  blocks : out.blocks = some []
  truncated : out.truncated = false
  insnsRoom : (slices.flatMap Slice.insns).length ≤ out.insnsCap
  blocksRoom : (slices.flatMap Slice.blocks).toFinset.card ≤ out.blocksCap

/-- A bound of the slice that comes behind those of `before` -/
def boundAfter (before : List Slice) (s : Slice) : SliceBound :=
  ⟨(before.flatMap Slice.insns).length, s.scopeId, s.seq, s.tid, s.version⟩

/-- The output is the slices `placed`, one behind the other. -/
structure Concat (placed : List Slice) (out : Trace) (bounds : List SliceBound) : Prop where
  insns : out.insns = some (placed.flatMap Slice.insns)
  bounds : ∀ k, bounds[k]? = placed[k]?.map (boundAfter (placed.take k))
  blocks : ∃ l, out.blocks = some l ∧ ∀ x, x ∈ l ↔ ∃ s ∈ placed, x ∈ s.blocks
  truncated : out.truncated = true ↔ ∃ s ∈ placed, s.trace.truncated = true

/-- The slices are placed in order of their sequence numbers, ties in the order of the input, and
the output is what they are in this order. -/
structure StableConcat (slices : List Slice) (order : List ℕ) (out : Trace)
    (bounds : List SliceBound) : Prop where
  perm : order.Perm (List.range slices.length)
  sorted : order.Pairwise fun a b =>
    seqAt slices a < seqAt slices b ∨ seqAt slices a = seqAt slices b ∧ a < b
  placed : (order.filterMap (slices[·]?)).Perm slices
  concat : Concat (order.filterMap (slices[·]?)) out bounds

end Spec

section Append

variable {t : Trace} {evs : List Event}

/-- The flag decides nothing about the rest. -/
lemma emit_markTruncated (t : Trace) (e : Event) :
    emit t.markTruncated e = (emit t e).markTruncated := by
  cases e with
  | insn off =>
    cases hl : t.insns with
    | none =>
      have hl' : t.markTruncated.insns = none := hl
      rw [emit, emit, traceAppendInsn_none hl, traceAppendInsn_none hl']
      rfl
    | some l =>
      have hl' : t.markTruncated.insns = some l := hl
      have hcap : t.markTruncated.insnsCap = t.insnsCap := rfl
      rw [emit, emit, traceAppendInsn_some hl, traceAppendInsn_some hl', hcap]
      split_ifs
      · rfl
      · rfl
  | block off =>
    cases hl : t.blocks with
    | none =>
      have hl' : t.markTruncated.blocks = none := hl
      rw [emit, emit, traceAppendBlock_none hl, traceAppendBlock_none hl']
      rfl
    | some l =>
      have hl' : t.markTruncated.blocks = some l := hl
      have hcap : t.markTruncated.blocksCap = t.blocksCap := rfl
      rw [emit, emit, traceAppendBlock_some hl, traceAppendBlock_some hl', hcap]
      split_ifs
      · rfl
      · rfl
      · rfl

lemma emitAll_markTruncated (t : Trace) (evs : List Event) :
    emitAll t.markTruncated evs = (emitAll t evs).markTruncated := by
  induction evs generalizing t with
  | nil => rfl
  | cons e evs ih => rw [emitAll_cons, emit_markTruncated, ih, emitAll_cons]

lemma insnsOf_events (s : Slice) : insnsOf s.events = s.insns := by
  have hinsns : ∀ l : List ℕ, insnsOf (l.map Event.insn) = l := fun l => by
    induction l with
    | nil => rfl
    | cons x l ih => rw [List.map_cons, insnsOf, ih]
  have hblocks : ∀ l : List ℕ, insnsOf (l.map Event.block) = [] := fun l => by
    induction l with
    | nil => rfl
    | cons x l ih => rw [List.map_cons, insnsOf, ih]
  rw [Slice.events, insnsOf_append, hinsns, hblocks, List.append_nil]

lemma blocksOf_events (s : Slice) : blocksOf s.events = s.blocks := by
  have hinsns : ∀ l : List ℕ, blocksOf (l.map Event.insn) = [] := fun l => by
    induction l with
    | nil => rfl
    | cons x l ih => rw [List.map_cons, blocksOf, ih]
  have hblocks : ∀ l : List ℕ, blocksOf (l.map Event.block) = l := fun l => by
    induction l with
    | nil => rfl
    | cons x l ih => rw [List.map_cons, blocksOf, ih]
  rw [Slice.events, blocksOf_append, hinsns, hblocks, List.nil_append]

lemma insnsOf_flatMap (l : List Slice) :
    insnsOf (l.flatMap Slice.events) = l.flatMap Slice.insns := by
  induction l with
  | nil => rfl
  | cons s l ih =>
    rw [List.flatMap_cons, insnsOf_append, insnsOf_events, ih, List.flatMap_cons]

lemma blocksOf_flatMap (l : List Slice) :
    blocksOf (l.flatMap Slice.events) = l.flatMap Slice.blocks := by
  induction l with
  | nil => rfl
  | cons s l ih =>
    rw [List.flatMap_cons, blocksOf_append, blocksOf_events, ih, List.flatMap_cons]

/-- The rounds append what all slices do, and mark the output when one of them is marked. -/
lemma foldl_appendSlice_fst (placed : List Slice) (t : Trace) (bounds : List SliceBound) :
    (placed.foldl appendSlice (t, bounds)).1 =
      if ∃ s ∈ placed, s.trace.truncated = true then
        (emitAll t (placed.flatMap Slice.events)).markTruncated
      else emitAll t (placed.flatMap Slice.events) := by
  induction placed generalizing t bounds with
  | nil =>
    rw [if_neg fun ⟨s, hs, _⟩ => nomatch hs]
    rfl
  | cons s placed ih =>
    rw [List.foldl_cons, appendSlice, ih, List.flatMap_cons, emitAll_append]
    by_cases hs : s.trace.truncated = true
    · have hany : ∃ s' ∈ s :: placed, s'.trace.truncated = true := ⟨s, List.mem_cons_self, hs⟩
      rw [if_pos hs, if_pos hany, emitAll_markTruncated]
      split_ifs
      · rfl
      · rfl
    · have hany : (∃ s' ∈ s :: placed, s'.trace.truncated = true) ↔
          ∃ s' ∈ placed, s'.trace.truncated = true := by
        rw [List.exists_mem_cons_iff, or_iff_right hs]
      rw [if_neg hs]
      simp only [hany]

/-- What is left of the room after some events -/
lemma room_emitAll {a b : List Event} (h : Room t (a ++ b)) : Room (emitAll t a) b := by
  induction a generalizing t with
  | nil => exact h
  | cons e a ih => exact ih h.emit.2

lemma insns_of_room {l : List ℕ} (hl : t.insns = some l) (h : Room t evs) :
    (emitAll t evs).insns = some (l ++ insnsOf evs) := by
  have hroom := h.insns l hl
  rw [insns_emitAll evs hl, List.take_of_length_le (by omega)]

/-- The bounds of slices that come behind those of `before` -/
def boundsFrom : List Slice → List Slice → List SliceBound
  | _, [] => []
  | before, s :: placed => boundAfter before s :: boundsFrom (before ++ [s]) placed

lemma getElem?_boundsFrom (before placed : List Slice) (k : ℕ) :
    (boundsFrom before placed)[k]? = placed[k]?.map (boundAfter (before ++ placed.take k)) := by
  induction placed generalizing before k with
  | nil => rfl
  | cons s placed ih =>
    cases k with
    | zero => rw [boundsFrom, List.take_zero, List.append_nil]; rfl
    | succ k =>
      rw [boundsFrom, List.getElem?_cons_succ, List.getElem?_cons_succ, ih, List.take_succ_cons,
        List.append_assoc, List.singleton_append]

/-- Each bound has the length of what was placed before its slice. -/
lemma foldl_appendSlice_snd (placed before : List Slice) {t : Trace} (bounds : List SliceBound)
    (hl : t.insns = some (before.flatMap Slice.insns))
    (h : Room t (placed.flatMap Slice.events)) :
    (placed.foldl appendSlice (t, bounds)).2 = bounds ++ boundsFrom before placed := by
  induction placed generalizing t before bounds with
  | nil => rw [boundsFrom, List.append_nil]; rfl
  | cons s placed ih =>
    rw [List.flatMap_cons] at h
    have hbound : (appendSlice (t, bounds) s).2 = bounds ++ [boundAfter before s] := by
      rw [appendSlice, hl]
      rfl
    have hroom := room_emitAll h
    have hins : (emitAll t s.events).insns = some ((before ++ [s]).flatMap Slice.insns) := by
      rw [insns_emitAll s.events hl, insnsOf_events, List.take_of_length_le, List.flatMap_append,
        List.flatMap_singleton]
      have hle := h.insns _ hl
      rw [insnsOf_append, List.length_append, insnsOf_events] at hle
      omega
    have hnext : ∀ t', (t' = emitAll t s.events ∨ t' = (emitAll t s.events).markTruncated) →
        t'.insns = some ((before ++ [s]).flatMap Slice.insns) ∧
          Room t' (placed.flatMap Slice.events) := by
      rintro t' (rfl | rfl)
      · exact ⟨hins, hroom⟩
      · exact ⟨hins, hroom.insns, hroom.blocks⟩
    have hcase : (appendSlice (t, bounds) s).1 = emitAll t s.events ∨
        (appendSlice (t, bounds) s).1 = (emitAll t s.events).markTruncated := by
      rw [appendSlice]
      split_ifs
      · exact Or.inr rfl
      · exact Or.inl rfl
    obtain ⟨hl', hroom'⟩ := hnext _ hcase
    have hpair : appendSlice (t, bounds) s = ((appendSlice (t, bounds) s).1,
        bounds ++ [boundAfter before s]) := Prod.ext rfl hbound
    rw [List.foldl_cons, hpair, ih (before ++ [s]) _ hl' hroom', boundsFrom, List.append_assoc,
      List.singleton_append]

end Append

section Concat

variable {slices placed : List Slice} {out : Trace}

/-- The room does not depend on the order of the slices. -/
lemma Ready.room (h : Ready slices out) (hperm : placed.Perm slices) :
    Room out (placed.flatMap Slice.events) := by
  constructor
  · intro l hl
    obtain rfl := Option.some.inj (h.insns.symm.trans hl)
    rw [insnsOf_flatMap, (hperm.flatMap_right Slice.insns).length_eq, List.length_nil, Nat.zero_add]
    exact h.insnsRoom
  · intro l hl
    obtain rfl := Option.some.inj (h.blocks.symm.trans hl)
    rw [blocksOf_flatMap, List.toFinset_eq_of_perm _ _ (hperm.flatMap_right Slice.blocks),
      List.length_nil, Nat.zero_add, List.toFinset_nil, Finset.sdiff_empty]
    exact h.blocksRoom

/-- In any order, the slices come out one behind the other. -/
lemma Ready.concat (h : Ready slices out) (hperm : placed.Perm slices) :
    Concat placed (placed.foldl appendSlice (out, [])).1
      (placed.foldl appendSlice (out, [])).2 := by
  have hroom := h.room hperm
  have hflag : (emitAll out (placed.flatMap Slice.events)).truncated = false := by
    rw [truncated_emitAll_of_room hroom, h.truncated]
  obtain ⟨-, hext⟩ := emitAll_extends _ hflag
  have hinsns : (emitAll out (placed.flatMap Slice.events)).insns =
      some (placed.flatMap Slice.insns) := by
    rw [insns_of_room h.insns hroom, insnsOf_flatMap, List.nil_append]
  obtain ⟨l, hl, hmem⟩ := hext.blocks_some [] h.blocks
  have hblocks : ∀ x, x ∈ l ↔ ∃ s ∈ placed, x ∈ s.blocks := fun x => by
    rw [hmem x, or_iff_right List.not_mem_nil, blocksOf_flatMap, List.mem_flatMap]
  refine ⟨?_, fun k => ?_, ?_, ?_⟩
  · rw [foldl_appendSlice_fst]
    split_ifs
    · exact hinsns
    · exact hinsns
  · rw [foldl_appendSlice_snd placed [] [] h.insns hroom, List.nil_append, getElem?_boundsFrom,
      List.nil_append]
  · rw [foldl_appendSlice_fst]
    split_ifs
    · exact ⟨l, hl, hblocks⟩
    · exact ⟨l, hl, hblocks⟩
  · rw [foldl_appendSlice_fst]
    split_ifs with hany
    · exact iff_of_true rfl hany
    · exact iff_of_false (by rw [hflag]; exact Bool.false_ne_true) hany

end Concat

section Stable

variable (slices : List Slice)

lemma filterMap_range_getElem? : (List.range slices.length).filterMap (slices[·]?) = slices := by
  have hmap : (List.range slices.length).map (slices[·]?) = slices.map some := by
    refine List.ext_getElem (by simp) fun i hi hi' => ?_
    simp at hi ⊢
  have hid : (List.range slices.length).filterMap (slices[·]?) =
      ((List.range slices.length).map (slices[·]?)).filterMap id := by
    rw [List.filterMap_map]
    rfl
  rw [hid, hmap, List.filterMap_map]
  exact List.filterMap_some

/-- The sort only moves indices. -/
lemma stitchOrder_perm : (stitchOrder slices).Perm (List.range slices.length) := by
  have hn : slices.length - 1 ≤ slices.length := Nat.sub_le _ _
  have hnodup : (stitchOrder slices).Nodup :=
    List.nodup_range.map (after_injective (seqAt slices) hn)
  refine (List.perm_ext_iff_of_nodup hnodup List.nodup_range).2 fun x => ?_
  rw [stitchOrder, List.mem_map, List.mem_range]
  constructor
  · rintro ⟨p, hp, rfl⟩
    exact after_lt (seqAt slices) hn (List.mem_range.1 hp)
  · intro hx
    obtain ⟨p, hp, hpx⟩ := exists_after_eq (seqAt slices) hn hx
    exact ⟨p, List.mem_range.2 hp, hpx⟩

lemma stitchOrder_sorted_iff :
    ((stitchOrder slices).Pairwise fun a b =>
      seqAt slices a < seqAt slices b ∨ seqAt slices a = seqAt slices b ∧ a < b) ↔
    IsStable (seqAt slices) slices.length
      (after (seqAt slices) slices.length (slices.length - 1)) := by
  rw [stitchOrder, List.pairwise_map, List.pairwise_iff_getElem]
  constructor
  · intro h
    refine ⟨fun i hi => after_lt _ (Nat.sub_le _ _) hi, fun i j hij hj => ?_⟩
    have hget := h i j (by rw [List.length_range]; omega) (by rw [List.length_range]; exact hj) hij
    rwa [List.getElem_range, List.getElem_range] at hget
  · intro h i j hi hj hij
    rw [List.getElem_range, List.getElem_range]
    rw [List.length_range] at hj
    exact h.sorted i j hij hj

variable {slices} {out : Trace}

lemma hwtraceStitch_eq (hn : slices.length ≤ stitchMaxSlices) :
    hwtraceStitch true (some slices) (some out) =
      (.ok, some (((stitchOrder slices).filterMap (slices[·]?)).foldl appendSlice (out, [])).1,
        (((stitchOrder slices).filterMap (slices[·]?)).foldl appendSlice (out, [])).2) := by
  rw [hwtraceStitch, if_neg (not_lt.2 hn)]
  by_cases hnil : slices = []
  · rw [if_pos hnil, hnil]
    rfl
  · rw [if_neg hnil]
    rfl

/-- Stitching is a stable concatenation exactly when following the sorted order of the slices keeps
those of one sequence number in order. -/
theorem stitch_stable_iff (hn : slices.length ≤ stitchMaxSlices) (hout : Ready slices out) :
    (∃ t bounds, hwtraceStitch true (some slices) (some out) = (.ok, some t, bounds) ∧
      StableConcat slices (stitchOrder slices) t bounds) ↔
    KeepsTies (seqAt slices) slices.length (stableOrder (seqAt slices) slices.length) := by
  rw [← isStable_after_iff (isStable_stableOrder (seqAt slices) slices.length),
    ← stitchOrder_sorted_iff]
  constructor
  · rintro ⟨t, bounds, -, h⟩
    exact h.sorted
  · intro hsorted
    have hperm : ((stitchOrder slices).filterMap (slices[·]?)).Perm slices := by
      have h := (stitchOrder_perm slices).filterMap (slices[·]?)
      rwa [filterMap_range_getElem?] at h
    exact ⟨_, _, hwtraceStitch_eq hn, stitchOrder_perm slices, hsorted, hperm, hout.concat hperm⟩

/-- A slice of one instruction, which is a block -/
def hop (seq off : ℕ) : Slice :=
  ⟨1, seq, 7, 0, ⟨some [off], 1, 1, some [off], 1, 1, false⟩⟩

/-- An output trace for a few slices -/
def stitchOut : Trace :=
  ⟨some [], 8, 0, some [], 8, 0, false⟩

/-- Two slices of one sequence number that come first stay in order. -/
theorem stitch_stable_pair :
    ∃ t bounds, hwtraceStitch true (some [hop 1 0, hop 1 4]) (some stitchOut) =
        (.ok, some t, bounds) ∧
      StableConcat [hop 1 0, hop 1 4] (stitchOrder [hop 1 0, hop 1 4]) t bounds := by
  refine (stitch_stable_iff (by decide) ⟨rfl, rfl, rfl, by decide, by decide⟩).2 ?_
  intro x y hxy hy hkey p q hp hq
  have hy2 : y < 2 := hy
  obtain ⟨rfl, rfl⟩ : x = 0 ∧ y = 1 := by omega
  have hbelow : below (seqAt [hop 1 0, hop 1 4]) 2 (seqAt [hop 1 0, hop 1 4] 0) = 0 := by decide
  have hp' : p = 0 := hp.unique (.stop hbelow.le)
  have hq' : q = 1 := hq.unique (.stop (hbelow.le.trans (Nat.zero_le 1)))
  omega

/-- Two slices of one sequence number before a third with a smaller one change places. -/
theorem stitch_swaps_ties :
    Ready [hop 2 0, hop 2 4, hop 1 8] stitchOut ∧
    (hwtraceStitch true (some [hop 2 0, hop 2 4, hop 1 8]) (some stitchOut)).2.1.map Trace.insns =
      some (some [8, 4, 0]) ∧
    ¬∃ t bounds, hwtraceStitch true (some [hop 2 0, hop 2 4, hop 1 8]) (some stitchOut) =
        (.ok, some t, bounds) ∧
      StableConcat [hop 2 0, hop 2 4, hop 1 8] (stitchOrder [hop 2 0, hop 2 4, hop 1 8])
        t bounds := by
  refine ⟨⟨rfl, rfl, rfl, by decide, by decide⟩, by decide, ?_⟩
  rintro ⟨t, bounds, -, h⟩
  exact absurd h.sorted (by decide)

end Stable

end AsmTest.Hwtrace.Stitch
