import Mathlib.Data.BitVec
import Mathlib.Data.List.Sort
import Mathlib.Tactic

/-!
# Block starts from sampled edges

`asmtest_ibs_normalize_blocks` keeps the targets of the sampled edges that lie in a region, sorts
them and merges equal ones, adding up their counts in 64 bits.
-/

namespace AsmTest.Ibs

section Source

/-- What is read of `asmtest_ibs_edge_t` -/
structure Edge where
  toAddr : BitVec 64
  count : BitVec 64
deriving DecidableEq, Repr

/-- `asmtest_ibs_block_t` -/
structure Block where
  start : BitVec 64
  entries : BitVec 64
deriving DecidableEq, Repr

inductive Rc
  | ok
  | einval
  | eunavail
deriving DecidableEq, Repr

/-- The library's `qsort` with `ibs_blk_cmp_asc`: equal starts may come in any order. -/
structure Qsort where
  sort : List Block → List Block
  perm : ∀ l, (sort l).Perm l
  sorted : ∀ l, (sort l).Pairwise fun a b => a.start ≤ b.start

/-- An edge of the first loop; without a length every target is kept as it is. -/
def lands (base len : BitVec 64) (e : Edge) : Option Block :=
  if len ≠ 0 ∧ (e.toAddr < base ∨ len ≤ e.toAddr - base) then none
  else some ⟨if len ≠ 0 then e.toAddr - base else e.toAddr, e.count⟩

/-- A round of the merge; `arr[w - 1]` comes first. -/
def mergeStep : List Block → Block → List Block
  | [], b => [b]
  | p :: done, b =>
    if p.start = b.start then { p with entries := p.entries + b.entries } :: done
    else b :: p :: done

/-- `asmtest_ibs_normalize_blocks`; a survey without edges has none for a null pointer too. -/
def ibsNormalizeBlocks (qsort : Qsort) (calloc : Bool) (survey : Option (List Edge))
    (base len : BitVec 64) : Rc × List Block :=
  match survey with
  | none => (.einval, [])
  | some edges =>
    if edges = [] then (.ok, [])
    else if calloc = false then (.eunavail, [])
    else
      let arr := edges.filterMap (lands base len)
      if arr = [] then (.ok, [])
      else (.ok, ((qsort.sort arr).foldl mergeStep []).reverse)

end Source

section Spec

/-- The target is in the region, which is everything without a length. -/
def InRegion (base len : BitVec 64) (e : Edge) : Prop :=
  len = 0 ∨ base.toNat ≤ e.toAddr.toNat ∧ e.toAddr.toNat < base.toNat + len.toNat

instance (base len : BitVec 64) (e : Edge) : Decidable (InRegion base len e) :=
  inferInstanceAs (Decidable (_ ∨ _ ∧ _))

/-- Where the target lies in the region -/
def offset (base len : BitVec 64) (e : Edge) : ℕ :=
  if len = 0 then e.toAddr.toNat else e.toAddr.toNat - base.toNat

/-- The counts of the edges that land on an offset of the region -/
def landed (edges : List Edge) (base len : BitVec 64) (off : ℕ) : ℕ :=
  ((edges.filter fun e => InRegion base len e ∧ offset base len e = off).map
    fun e => e.count.toNat).sum

/-- The blocks are the distinct targets in the region in ascending order, each with the sum of the
counts that land on it, and nothing is lost of the whole sum. -/
structure Faithful (edges : List Edge) (base len : BitVec 64) (blocks : List Block) : Prop where
  ascending : blocks.Pairwise fun a b => a.start < b.start
  starts : ∀ off, off ∈ blocks.map (fun b => b.start.toNat) ↔
    ∃ e ∈ edges, InRegion base len e ∧ offset base len e = off
  entries : ∀ b ∈ blocks, b.entries.toNat = landed edges base len b.start.toNat
  total : (blocks.map fun b => b.entries.toNat).sum =
    ((edges.filter fun e => InRegion base len e).map fun e => e.count.toNat).sum

end Spec

section Merge

/-- The counts that a list of blocks has at a start -/
def hits (l : List Block) (off : BitVec 64) : ℕ :=
  ((l.filter fun b => b.start = off).map fun b => b.entries.toNat).sum

lemma hits_cons (b : Block) (l : List Block) (off : BitVec 64) :
    hits (b :: l) off = (if b.start = off then b.entries.toNat else 0) + hits l off := by
  rw [hits, List.filter_cons]
  split_ifs with h h' h'
  · rfl
  · exact absurd (of_decide_eq_true h) h'
  · exact absurd (decide_eq_true h') h
  · exact (Nat.zero_add _).symm

lemma hits_append_singleton (l : List Block) (b : Block) (off : BitVec 64) :
    hits (l ++ [b]) off = hits l off + if b.start = off then b.entries.toNat else 0 := by
  have hone : hits [b] off = if b.start = off then b.entries.toNat else 0 :=
    (hits_cons b [] off).trans (Nat.add_zero _)
  rw [← hone, hits, List.filter_append, List.map_append, List.sum_append]
  rfl

/-- What is merged so far, newest first -/
structure Merged (seen done : List Block) : Prop where
  sorted : done.Pairwise fun a b => b.start < a.start
  starts : ∀ off, off ∈ done.map Block.start ↔ off ∈ seen.map Block.start
  entries : ∀ b ∈ done, b.entries.toNat = hits seen b.start % 2 ^ 64

lemma hits_eq_zero {l : List Block} {off : BitVec 64} (h : off ∉ l.map Block.start) :
    hits l off = 0 := by
  have hnone : l.filter (fun b => b.start = off) = [] := by
    rw [List.filter_eq_nil_iff]
    intro b hb heq
    exact h (List.mem_map.2 ⟨b, hb, of_decide_eq_true heq⟩)
  rw [hits, hnone]
  rfl

/-- A start behind all others opens a block. -/
lemma Merged.push {seen done : List Block} (h : Merged seen done) {b : Block}
    (hb : ∀ x ∈ done, x.start < b.start) : Merged (seen ++ [b]) (b :: done) := by
  have hnew : b.start ∉ seen.map Block.start := by
    intro hmem
    obtain ⟨x, hx, hxb⟩ := List.mem_map.1 ((h.starts b.start).2 hmem)
    exact BitVec.ne_of_lt (hb x hx) hxb
  refine ⟨List.pairwise_cons.2 ⟨hb, h.sorted⟩, ?_, ?_⟩
  · intro off
    rw [List.map_cons, List.mem_cons, h.starts off, List.map_append, List.mem_append,
      List.map_singleton, List.mem_singleton, or_comm]
  · refine List.forall_mem_cons.2 ⟨?_, fun x hx => ?_⟩
    · rw [hits_append_singleton, hits_eq_zero hnew, if_pos rfl, Nat.zero_add,
        Nat.mod_eq_of_lt b.entries.isLt]
    · rw [hits_append_singleton, if_neg (BitVec.ne_of_lt (hb x hx)).symm, Nat.add_zero]
      exact h.entries x hx

/-- The start of the newest block adds to its count. -/
lemma Merged.add {seen done : List Block} {p b : Block} (h : Merged seen (p :: done))
    (heq : p.start = b.start) :
    Merged (seen ++ [b]) ({ p with entries := p.entries + b.entries } :: done) := by
  obtain ⟨hlt, hsorted⟩ := List.pairwise_cons.1 h.sorted
  refine ⟨List.pairwise_cons.2 ⟨hlt, hsorted⟩, ?_, ?_⟩
  · intro off
    have hoff := h.starts off
    rw [List.map_cons, List.mem_cons] at hoff ⊢
    rw [List.map_append, List.mem_append, List.map_singleton, List.mem_singleton, ← hoff, ← heq]
    tauto
  · refine List.forall_mem_cons.2 ⟨?_, fun x hx => ?_⟩
    · have hp := h.entries p List.mem_cons_self
      dsimp only
      rw [hits_append_singleton, if_pos heq.symm, BitVec.toNat_add, hp, Nat.mod_add_mod]
    · have hne : b.start ≠ x.start := by
        rw [← heq]
        exact (BitVec.ne_of_lt (hlt x hx)).symm
      rw [hits_append_singleton, if_neg hne, Nat.add_zero]
      exact h.entries x (List.mem_cons_of_mem _ hx)

lemma Merged.step {seen done : List Block} (h : Merged seen done) {b : Block}
    (hb : ∀ x ∈ seen, x.start ≤ b.start) : Merged (seen ++ [b]) (mergeStep done b) := by
  cases done with
  | nil => exact h.push fun x hx => nomatch hx
  | cons p done =>
    rw [mergeStep]
    by_cases heq : p.start = b.start
    · rw [if_pos heq]
      exact h.add heq
    · rw [if_neg heq]
      obtain ⟨y, hy, hyp⟩ := List.mem_map.1 ((h.starts p.start).1 List.mem_cons_self)
      have hp : p.start < b.start := BitVec.lt_of_le_ne (hyp ▸ hb y hy) heq
      refine h.push (List.forall_mem_cons.2 ⟨hp, fun x hx => ?_⟩)
      exact BitVec.lt_trans ((List.pairwise_cons.1 h.sorted).1 x hx) hp

lemma merged_foldl {l : List Block} (h : l.Pairwise fun a b => a.start ≤ b.start) :
    Merged l (l.foldl mergeStep []) := by
  induction l using List.reverseRecOn with
  | nil => exact ⟨List.Pairwise.nil, fun _ => Iff.rfl, fun b hb => nomatch hb⟩
  | append_singleton l b ih =>
    obtain ⟨hl, -, hb⟩ := List.pairwise_append.1 h
    rw [List.foldl_append]
    exact (ih hl).step fun x hx => hb x hx b (List.mem_singleton_self b)

lemma hits_perm {l l' : List Block} (h : l.Perm l') (off : BitVec 64) : hits l off = hits l' off :=
  ((h.filter _).map _).sum_eq

/-- Summed over all starts, the counts are those of the list. -/
lemma sum_hits {starts : List (BitVec 64)} (hnodup : starts.Nodup) {l : List Block}
    (hl : ∀ b ∈ l, b.start ∈ starts) :
    (starts.map (hits l)).sum = (l.map fun b => b.entries.toNat).sum := by
  induction l with
  | nil =>
    have hzero : starts.map (hits []) = starts.map fun _ => 0 := List.map_congr_left fun _ _ => rfl
    rw [hzero]
    simp
  | cons b l ih =>
    obtain ⟨hb, hl⟩ := List.forall_mem_cons.1 hl
    have hsplit : starts.map (hits (b :: l)) =
        starts.map fun s => (if s = b.start then b.entries.toNat else 0) + hits l s :=
      List.map_congr_left fun s _ => by rw [hits_cons]; simp only [eq_comm]
    rw [hsplit, List.sum_map_add, ih hl, List.map_cons, List.sum_cons]
    congr 1
    rw [List.sum_map_eq_nsmul_single b.start _ fun s hs _ => if_neg hs, if_pos rfl,
      List.count_eq_one_of_mem hnodup hb, one_nsmul]

end Merge

section Regions

variable {base len : BitVec 64} {e : Edge} {edges : List Edge}

lemma offset_lt : offset base len e < 2 ^ 64 := by
  have hto := e.toAddr.isLt
  rw [offset]
  split_ifs <;> omega

lemma lands_eq (base len : BitVec 64) (e : Edge) : lands base len e =
    if InRegion base len e then some ⟨BitVec.ofNat 64 (offset base len e), e.count⟩ else none := by
  by_cases hlen : len = 0
  · subst hlen
    have hin : InRegion base 0 e := Or.inl rfl
    rw [lands, if_neg fun h => h.1 rfl, if_pos hin, if_neg fun h => h rfl, offset, if_pos rfl,
      BitVec.ofNat_toNat, BitVec.setWidth_eq]
  · have hto := e.toAddr.isLt
    have hbase := base.isLt
    have hin : InRegion base len e ↔ ¬(e.toAddr < base ∨ len ≤ e.toAddr - base) := by
      rw [InRegion, or_iff_right hlen, BitVec.lt_def, BitVec.le_def, BitVec.toNat_sub]
      omega
    rw [lands, if_pos hlen, offset, if_neg hlen]
    by_cases h : InRegion base len e
    · rw [if_neg fun hout => hin.1 h hout.2, if_pos h, Option.some_inj, Block.mk.injEq]
      refine ⟨BitVec.eq_of_toNat_eq ?_, rfl⟩
      have hle := (or_iff_right hlen).1 h
      rw [BitVec.toNat_sub, BitVec.toNat_ofNat]
      omega
    · rw [if_pos ⟨hlen, not_not.1 (mt hin.2 h)⟩, if_neg h]

lemma landed_cons (off : ℕ) : landed (e :: edges) base len off =
    (if InRegion base len e ∧ offset base len e = off then e.count.toNat else 0) +
      landed edges base len off := by
  rw [landed, List.filter_cons]
  split_ifs with h h' h'
  · rfl
  · exact absurd (of_decide_eq_true h) h'
  · exact absurd (decide_eq_true h') h
  · exact (Nat.zero_add _).symm

/-- The counts that land on an offset are those of the first loop's array. -/
lemma hits_lands (edges : List Edge) (base len : BitVec 64) (s : BitVec 64) :
    hits (edges.filterMap (lands base len)) s = landed edges base len s.toNat := by
  induction edges with
  | nil => rfl
  | cons e edges ih =>
    rw [List.filterMap_cons, lands_eq, landed_cons, ← ih]
    have hs : BitVec.ofNat 64 (offset base len e) = s ↔ offset base len e = s.toNat := by
      rw [← BitVec.toNat_inj, BitVec.toNat_ofNat, Nat.mod_eq_of_lt offset_lt]
    by_cases h : InRegion base len e
    · simp only [h, if_true, hits_cons, hs, true_and]
    · simp only [h, false_and, if_false, Nat.zero_add]

/-- The starts of the array are the offsets of the targets in the region. -/
lemma mem_starts_lands (s : BitVec 64) :
    s ∈ (edges.filterMap (lands base len)).map Block.start ↔
      ∃ e ∈ edges, InRegion base len e ∧ offset base len e = s.toNat := by
  simp only [List.mem_map, List.mem_filterMap, lands_eq]
  constructor
  · rintro ⟨b, ⟨e, he, hb⟩, rfl⟩
    obtain ⟨hin, hb⟩ := Option.ite_none_right_eq_some.1 hb
    refine ⟨e, he, hin, ?_⟩
    rw [← Option.some_inj.1 hb, BitVec.toNat_ofNat, Nat.mod_eq_of_lt offset_lt]
  · rintro ⟨e, he, hin, hs⟩
    refine ⟨_, ⟨e, he, if_pos hin⟩, ?_⟩
    rw [hs, BitVec.ofNat_toNat, BitVec.setWidth_eq]

lemma sum_lands (edges : List Edge) (base len : BitVec 64) :
    ((edges.filterMap (lands base len)).map fun b => b.entries.toNat).sum =
      ((edges.filter fun e => InRegion base len e).map fun e => e.count.toNat).sum := by
  induction edges with
  | nil => rfl
  | cons e edges ih =>
    rw [List.filterMap_cons, List.filter_cons, lands_eq]
    by_cases h : InRegion base len e
    · rw [if_pos h, if_pos (decide_eq_true h), List.map_cons, List.map_cons, List.sum_cons,
        List.sum_cons, ih]
    · rw [if_neg h, if_neg fun hd => h (of_decide_eq_true hd), ih]

lemma landed_eq_zero {off : ℕ} (h : ¬∃ e ∈ edges, InRegion base len e ∧ offset base len e = off) :
    landed edges base len off = 0 := by
  have hnone : edges.filter (fun e => InRegion base len e ∧ offset base len e = off) = [] := by
    rw [List.filter_eq_nil_iff]
    intro e he heq
    exact h ⟨e, he, of_decide_eq_true heq⟩
  rw [landed, hnone]
  rfl

end Regions

section Normalize

variable (qsort : Qsort) (edges : List Edge) (base len : BitVec 64)

/-- With memory for the array, the early returns change nothing. -/
lemma ibsNormalizeBlocks_eq : ibsNormalizeBlocks qsort true (some edges) base len =
    (.ok, ((qsort.sort (edges.filterMap (lands base len))).foldl mergeStep []).reverse) := by
  have hnil : qsort.sort [] = [] := List.perm_nil.1 (qsort.perm [])
  rw [ibsNormalizeBlocks]
  by_cases hedges : edges = []
  · rw [if_pos hedges, hedges, List.filterMap_nil, hnil]
    rfl
  · rw [if_neg hedges, if_neg (by decide)]
    by_cases harr : edges.filterMap (lands base len) = []
    · rw [harr, hnil]
      rfl
    · exact if_neg harr

/-- What the merge leaves: the targets in order, with the counts modulo the width of the field -/
lemma merged_normalize :
    Merged (qsort.sort (edges.filterMap (lands base len)))
      (ibsNormalizeBlocks qsort true (some edges) base len).2.reverse := by
  rw [ibsNormalizeBlocks_eq, List.reverse_reverse]
  exact merged_foldl (qsort.sorted _)

/-- A block has what lands on its start, modulo the width of the field. -/
lemma entries_normalize {b : Block}
    (hb : b ∈ (ibsNormalizeBlocks qsort true (some edges) base len).2) :
    b.entries.toNat = landed edges base len b.start.toNat % 2 ^ 64 := by
  rw [← hits_lands, ← hits_perm (qsort.perm _)]
  exact (merged_normalize qsort edges base len).entries b (List.mem_reverse.2 hb)

lemma starts_normalize (s : BitVec 64) :
    s ∈ (ibsNormalizeBlocks qsort true (some edges) base len).2.map Block.start ↔
      ∃ e ∈ edges, InRegion base len e ∧ offset base len e = s.toNat := by
  have hmem := (merged_normalize qsort edges base len).starts s
  rw [List.map_reverse, List.mem_reverse] at hmem
  rw [hmem, ((qsort.perm _).map Block.start).mem_iff]
  exact mem_starts_lands s

lemma starts_normalize_toNat (off : ℕ) :
    off ∈ (ibsNormalizeBlocks qsort true (some edges) base len).2.map (fun b => b.start.toNat) ↔
      ∃ e ∈ edges, InRegion base len e ∧ offset base len e = off := by
  have hcomp : (fun b : Block => b.start.toNat) = BitVec.toNat ∘ Block.start := rfl
  rw [hcomp, ← List.map_map, List.mem_map]
  constructor
  · rintro ⟨s, hs, rfl⟩
    exact (starts_normalize qsort edges base len s).1 hs
  · rintro ⟨e, he, hin, rfl⟩
    have htoNat : (BitVec.ofNat 64 (offset base len e)).toNat = offset base len e := by
      rw [BitVec.toNat_ofNat, Nat.mod_eq_of_lt offset_lt]
    exact ⟨_, (starts_normalize qsort edges base len _).2 ⟨e, he, hin, htoNat.symm⟩, htoNat⟩

lemma ascending_normalize :
    (ibsNormalizeBlocks qsort true (some edges) base len).2.Pairwise
      fun a b => a.start < b.start := by
  have h := (merged_normalize qsort edges base len).sorted
  rwa [List.pairwise_reverse] at h

/-- Without a wrap, the counts of the blocks add up to those of the edges in the region. -/
lemma total_normalize (h : ∀ off, landed edges base len off < 2 ^ 64) :
    ((ibsNormalizeBlocks qsort true (some edges) base len).2.map fun b => b.entries.toNat).sum =
      ((edges.filter fun e => InRegion base len e).map fun e => e.count.toNat).sum := by
  have hentries : (ibsNormalizeBlocks qsort true (some edges) base len).2.map
        (fun b => b.entries.toNat) =
      ((ibsNormalizeBlocks qsort true (some edges) base len).2.map Block.start).map
        (hits (edges.filterMap (lands base len))) := by
    rw [List.map_map]
    refine List.map_congr_left fun b hb => ?_
    rw [entries_normalize qsort edges base len hb, Nat.mod_eq_of_lt (h _)]
    exact (hits_lands edges base len b.start).symm
  have hnodup : ((ibsNormalizeBlocks qsort true (some edges) base len).2.map
      Block.start).Nodup := by
    rw [List.nodup_iff_pairwise_ne, List.pairwise_map]
    exact (ascending_normalize qsort edges base len).imp BitVec.ne_of_lt
  rw [hentries, sum_hits hnodup, sum_lands]
  intro b hb
  rw [starts_normalize, ← mem_starts_lands]
  exact List.mem_map_of_mem hb

/-- The blocks are the aggregation of the edges exactly when no target's counts pass 64 bits. -/
theorem ibs_normalize_faithful_iff :
    Faithful edges base len (ibsNormalizeBlocks qsort true (some edges) base len).2 ↔
      ∀ off, landed edges base len off < 2 ^ 64 := by
  constructor
  · intro h off
    by_cases hoff : ∃ e ∈ edges, InRegion base len e ∧ offset base len e = off
    · obtain ⟨b, hb, rfl⟩ := List.mem_map.1 ((h.starts off).2 hoff)
      rw [← h.entries b hb]
      exact b.entries.isLt
    · rw [landed_eq_zero hoff]
      exact Nat.two_pow_pos 64
  · intro h
    refine ⟨ascending_normalize qsort edges base len, starts_normalize_toNat qsort edges base len,
      fun b hb => ?_, total_normalize qsort edges base len h⟩
    rw [entries_normalize qsort edges base len hb, Nat.mod_eq_of_lt (h _)]

end Normalize

instance : IsTrans Block fun a b => a.start ≤ b.start :=
  ⟨fun _ _ _ => BitVec.le_trans⟩

instance : Std.Total fun a b : Block => a.start ≤ b.start :=
  ⟨fun a b => Nat.le_total a.start.toNat b.start.toNat⟩

/-- A `qsort` that keeps equal starts in order -/
def stableQsort : Qsort where
  sort := List.insertionSort fun a b => a.start ≤ b.start
  perm := List.perm_insertionSort _
  sorted := List.pairwise_insertionSort _

/-- An edge to `0x10` that is sampled `2 ^ 63` times -/
def hotEdge : Edge :=
  ⟨0x10, 0x8000000000000000⟩

/-- Two such edges leave a block with no entry. -/
theorem ibs_normalize_wraps :
    ¬Faithful [hotEdge, hotEdge] 0 64
      (ibsNormalizeBlocks stableQsort true (some [hotEdge, hotEdge]) 0 64).2 := by
  intro h
  have hblock : ⟨0x10, 0⟩ ∈
      (ibsNormalizeBlocks stableQsort true (some [hotEdge, hotEdge]) 0 64).2 := by
    decide
  have hentries := h.entries _ hblock
  exact absurd hentries (by decide)

end AsmTest.Ibs
