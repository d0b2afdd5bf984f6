import AsmTest.ObjId

/-!
# The nodes of a snapshot through the moves

A node of the snapshot was somewhere else before a batch that carried it, and where it is before a
batch that did not. The inverse walk finds these places, so the owner of an address at a step is the
node that was there.
-/

namespace AsmTest.Dataflow

/-- `x` is one of the `len` addresses from `base` on. -/
def InSpan (base len x : ℕ) : Prop :=
  base ≤ x ∧ x < base + len

def SpansMeet (base len base' len' : ℕ) : Prop :=
  ∃ x, InSpan base len x ∧ InSpan base' len' x

namespace GcMove

/-- The ranges are not empty and do not wrap. -/
structure Proper (m : GcMove) : Prop where
  pos : 0 < m.len.toNat
  old : m.oldBase.toNat + m.len.toNat ≤ 2 ^ 64
  new : m.newBase.toNat + m.len.toNat ≤ 2 ^ 64

end GcMove

/-- A span of `size` bytes is at `q` before the batch and at `p` after it: a range carried the whole
of it, or the batch has nothing to do with it. -/
def Carried (batch : List GcMove) (size q p : ℕ) : Prop :=
  (∃ m ∈ batch, m.newBase.toNat ≤ p ∧ p + size ≤ m.newBase.toNat + m.len.toNat ∧
    q = m.oldBase.toNat + (p - m.newBase.toNat)) ∨
  (q = p ∧ ∀ m ∈ batch, ¬SpansMeet p size m.newBase.toNat m.len.toNat ∧
    ¬SpansMeet p size m.oldBase.toNat m.len.toNat)

/-- Where a node was at each step: at its address in the end, and carried by every batch -/
structure History (moves : List GcMove) (n : GcNode) (pos : ℕ → ℕ) : Prop where
  last : ∀ s, (∀ m ∈ moves, m.step ≤ s) → pos s = n.addr.toNat
  step : ∀ s, Carried (batchAt moves (s + 1)) n.size.toNat (pos s) (pos (s + 1))

/-- The heap: moves with disjoint ranges, disjoint nodes and where they were -/
structure Heap (moves : List GcMove) (nodes : List GcNode) (pos : ℕ → ℕ → ℕ) : Prop where
  proper : ∀ m ∈ moves, m.Proper
  old : DisjointOld moves
  new : DisjointNew moves
  fits : ∀ n ∈ nodes, n.addr.toNat + n.size.toNat ≤ 2 ^ 64
  apart : ∀ (i j : ℕ) (n n' : GcNode), nodes[i]? = some n → nodes[j]? = some n' → i ≠ j →
    ¬SpansMeet n.addr.toNat n.size.toNat n'.addr.toNat n'.size.toNat
  history : ∀ (i : ℕ) (n : GcNode), nodes[i]? = some n → History moves n (pos i)

/-- Byte `off` of node `i` is at address `x` at step `s`. -/
def Holds (nodes : List GcNode) (pos : ℕ → ℕ → ℕ) (s x i off : ℕ) : Prop :=
  ∃ n, nodes[i]? = some n ∧ off < n.size.toNat ∧ x = pos i s + off

section Ranges

variable {m : GcMove}

lemma covers_iff (h : m.Proper) {x : BitVec 64} :
    m.covers x = true ↔ InSpan m.oldBase.toNat m.len.toNat x.toNat := by
  have hx := x.isLt
  have hold := h.old
  rw [GcMove.covers, decide_eq_true_eq, BitVec.le_def, BitVec.lt_def, BitVec.toNat_sub, InSpan]
  omega

lemma newCovers_iff (h : m.Proper) {y : BitVec 64} :
    m.newCovers y = true ↔ InSpan m.newBase.toNat m.len.toNat y.toNat := by
  have hy := y.isLt
  have hb := m.newBase.isLt
  have hnew := h.new
  rw [GcMove.newCovers, decide_eq_true_eq, BitVec.lt_def, BitVec.toNat_sub, InSpan]
  omega

lemma covered_iff (h : m.Proper) {y : BitVec 64} :
    m.covered y = true ↔ InSpan m.newBase.toNat m.len.toNat y.toNat := by
  have hy := y.isLt
  have hnew := h.new
  rw [GcMove.covered, decide_eq_true_eq, BitVec.le_def, BitVec.lt_def, BitVec.toNat_sub, InSpan]
  omega

lemma toNat_backward (h : m.Proper) {y : BitVec 64} (hy : m.covered y = true) :
    (m.backward y).toNat = m.oldBase.toNat + (y.toNat - m.newBase.toNat) := by
  obtain ⟨hle, hlt⟩ := (covered_iff h).1 hy
  have hy := y.isLt
  have hold := h.old
  rw [GcMove.backward, BitVec.toNat_add, BitVec.toNat_sub]
  omega

end Ranges

section Walk

/-- In a list that is sorted by step the last batch is a suffix. -/
lemma rtakeWhile_eq_batchAt {l : List GcMove} (hs : l.Pairwise fun a b => a.step ≤ b.step) {b : ℕ}
    (hle : ∀ m ∈ l, m.step ≤ b) :
    l.rtakeWhile (fun k => k.step = b) = batchAt l b ∧
      ∀ m ∈ l.rdropWhile (fun k => k.step = b), m.step < b := by
  induction l using List.reverseRecOn with
  | nil => exact ⟨rfl, fun m hm => absurd hm List.not_mem_nil⟩
  | append_singleton l x ih =>
    rw [List.pairwise_append] at hs
    obtain ⟨hl, -, hlast⟩ := hs
    obtain ⟨htake, hdrop⟩ := ih hl fun m hm => hle m (List.mem_append_left _ hm)
    by_cases hx : x.step = b
    · rw [List.rtakeWhile_concat, List.rdropWhile_concat, if_pos (decide_eq_true hx),
        if_pos (decide_eq_true hx), htake, batchAt, batchAt, List.filter_append,
        List.filter_singleton, decide_eq_true hx]
      exact ⟨rfl, hdrop⟩
    · have hlt : x.step < b := by
        have := hle x (List.mem_append_right _ List.mem_cons_self)
        omega
      rw [List.rtakeWhile_concat, List.rdropWhile_concat, if_neg (by simpa using hx),
        if_neg (by simpa using hx)]
      constructor
      · rw [batchAt, eq_comm, List.filter_eq_nil_iff]
        intro m hm hmb
        have hmb' : m.step = b := of_decide_eq_true hmb
        rcases List.mem_append.1 hm with hm | hm
        · have := hlast m hm x List.mem_cons_self
          omega
        · rw [List.mem_singleton.1 hm] at hmb'
          exact hx hmb'
      · intro m hm
        rcases List.mem_append.1 hm with hm | hm
        · have := hlast m hm x List.mem_cons_self
          omega
        · rw [List.mem_singleton.1 hm]
          exact hlt

lemma locateLoop_past {step : ℕ} (fuel : ℕ) {l : List GcMove} (h : ∀ m ∈ l, m.step ≤ step)
    (x : BitVec 64) : locateLoop step fuel l x = x := by
  induction fuel generalizing l with
  | zero => rfl
  | succ fuel ih =>
    rw [locateLoop]
    cases hm : l.getLast? with
    | none => rfl
    | some m =>
      dsimp only
      rw [if_neg (not_lt.2 (h m (List.mem_of_getLast? hm)))]
      exact ih fun a ha => h a ((List.rdropWhile_prefix _ _).subset ha)

lemma batchAt_rdropWhile {l : List GcMove} {b c : ℕ} (hne : b ≠ c) :
    batchAt (l.rdropWhile fun k => k.step = b) c = batchAt l c := by
  have hnil : batchAt (l.rtakeWhile fun k => k.step = b) c = [] := by
    rw [batchAt, List.filter_eq_nil_iff]
    intro m hm hmc
    have hmb : m.step = b := by simpa using List.mem_rtakeWhile_imp hm
    exact hne (hmb.symm.trans (of_decide_eq_true hmc))
  have hall : (l.rdropWhile fun k => k.step = b) ++ (l.rtakeWhile fun k => k.step = b) = l :=
    List.rdropWhile_append_rtakeWhile
  nth_rewrite 2 [← hall]
  rw [batchAt, batchAt, List.filter_append]
  rw [batchAt] at hnil
  rw [hnil, List.append_nil]

/-- From step `s + 1` to step `s` the walk inverts the batch of step `s + 1`. -/
lemma locateLoop_step (s fuel : ℕ) {l : List GcMove} (hs : l.Pairwise fun a b => a.step ≤ b.step)
    (hfuel : l.length ≤ fuel) (x : BitVec 64) :
    locateLoop s fuel l x = unrelocate (batchAt l (s + 1)) (locateLoop (s + 1) fuel l x) := by
  induction fuel generalizing l x with
  | zero =>
    rw [List.eq_nil_of_length_eq_zero (Nat.le_zero.1 hfuel)]
    rfl
  | succ fuel ih =>
    rw [locateLoop, locateLoop]
    cases hm : l.getLast? with
    | none =>
      rw [List.getLast?_eq_none_iff.1 hm]
      rfl
    | some m =>
      have hmem : m ∈ l := List.mem_of_getLast? hm
      have hle : ∀ k ∈ l, k.step ≤ m.step := by
        obtain ⟨l', rfl⟩ := List.getLast?_eq_some_iff.1 hm
        rw [List.pairwise_append] at hs
        intro k hk
        rcases List.mem_append.1 hk with hk | hk
        · exact hs.2.2 k hk m List.mem_cons_self
        · rw [List.mem_singleton.1 hk]
      obtain ⟨htake, hdrop⟩ := rtakeWhile_eq_batchAt hs hle
      have hshort : (l.rdropWhile fun k => k.step = m.step).length ≤ fuel := by
        have hall : (l.rdropWhile fun k => k.step = m.step) ++
            (l.rtakeWhile fun k => k.step = m.step) = l := List.rdropWhile_append_rtakeWhile
        have hsplit := congrArg List.length hall
        have hpos : 0 < (l.rtakeWhile fun k => k.step = m.step).length := by
          rw [htake]
          exact List.length_pos_of_mem (List.mem_filter.2 ⟨hmem, decide_eq_true rfl⟩)
        rw [List.length_append] at hsplit
        omega
      have hsorted := hs.sublist (List.rdropWhile_prefix _ _ :
        (l.rdropWhile fun k => k.step = m.step) <+: l).sublist
      dsimp only
      rcases Nat.lt_trichotomy m.step (s + 1) with hlt | heq | hgt
      · -- nothing is later than step `s`
        have hpast : ∀ k ∈ l.rdropWhile (fun k => k.step = m.step), k.step ≤ s := by
          intro k hk
          have := hdrop k hk
          omega
        have hnil : batchAt l (s + 1) = [] := by
          rw [batchAt, List.filter_eq_nil_iff]
          intro k hk hks
          have := hle k hk
          have : k.step = s + 1 := of_decide_eq_true hks
          omega
        rw [if_neg (by omega), if_neg (by omega), locateLoop_past _ hpast,
          locateLoop_past _ fun k hk => (hpast k hk).trans (Nat.le_succ s), hnil]
        rfl
      · have hpast : ∀ k ∈ l.rdropWhile (fun k => k.step = m.step), k.step ≤ s := by
          intro k hk
          have := hdrop k hk
          omega
        rw [if_pos (by omega), if_neg (by omega), locateLoop_past _ hpast,
          locateLoop_past _ fun k hk => (hpast k hk).trans (Nat.le_succ s), htake, heq]
      · rw [if_pos (by omega), if_pos hgt, ih hsorted hshort, batchAt_rdropWhile (by omega)]

lemma objidLocate_step {l : List GcMove} (hs : l.Pairwise fun a b => a.step ≤ b.step) (s : ℕ)
    (x : BitVec 64) :
    objidLocate l s x = unrelocate (batchAt l (s + 1)) (objidLocate l (s + 1) x) :=
  locateLoop_step s l.length hs le_rfl x

end Walk

section Disjointify

/-- The ranges of a batch in order: each ends before the next begins. -/
def NewInOrder (l : List GcMove) : Prop :=
  l.Pairwise fun m k => m.newBase.toNat + m.len.toNat ≤ k.newBase.toNat

lemma newInOrder_of_sorted {l : List GcMove} (hp : ∀ m ∈ l, m.Proper) (hd : DisjointNew l)
    (hs : l.Pairwise fun a b => a.step < b.step ∨ a.step = b.step ∧ a.newBase ≤ b.newBase)
    (hb : ∀ m ∈ l, ∀ k ∈ l, m.step = k.step) : NewInOrder l := by
  induction l with
  | nil => exact List.Pairwise.nil
  | cons m l ih =>
    rw [DisjointNew, List.pairwise_cons] at hd
    rw [List.pairwise_cons] at hs
    rw [List.forall_mem_cons] at hp
    refine List.pairwise_cons.2 ⟨fun k hk => ?_, ih hp.2 hd.2 hs.2 fun a ha b hb' =>
      hb a (List.mem_cons_of_mem _ ha) b (List.mem_cons_of_mem _ hb')⟩
    have hstep : m.step = k.step := hb m List.mem_cons_self k (List.mem_cons_of_mem _ hk)
    have hle : m.newBase.toNat ≤ k.newBase.toNat := by
      rcases hs.1 k hk with hlt | ⟨-, hle⟩
      · omega
      · exact BitVec.le_def.1 hle
    have hkp := hp.2 k hk
    by_contra hlt
    -- the start of the later range would be in both
    apply hd.1 k hk hstep k.newBase
    rw [newCovers_iff hp.1, newCovers_iff hkp, InSpan, InSpan]
    have := hkp.pos
    omega

lemma disjointifyBatch_eq {l : List GcMove} (hord : NewInOrder l) {maxend : Option (BitVec 64)}
    (hmax : ∀ e ∈ maxend, ∀ m ∈ l, e.toNat ≤ m.newBase.toNat) :
    disjointifyBatch maxend l = l := by
  induction l generalizing maxend with
  | nil => rfl
  | cons m l ih =>
    rw [NewInOrder, List.pairwise_cons] at hord
    have hfin : (m.newBase + m.len).toNat ≤ m.newBase.toNat + m.len.toNat := by
      rw [BitVec.toNat_add]
      exact Nat.mod_le _ _
    have hraise : ∀ e ∈ raiseMax maxend (m.newBase + m.len), ∀ k ∈ l,
        e.toNat ≤ k.newBase.toNat := by
      intro e he k hk
      have hend := hfin.trans (hord.1 k hk)
      cases maxend with
      | none =>
        cases he
        exact hend
      | some e' =>
        rw [raiseMax] at he
        split_ifs at he
        · cases he
          exact hend
        · cases he
          exact hmax e rfl k (List.mem_cons_of_mem _ hk)
    have hgood : ¬(maxend.any (fun e => m.newBase < e) ||
        l.head?.any fun k => k.newBase < m.newBase + m.len) = true := by
      rw [Bool.or_eq_true, not_or]
      constructor
      · cases maxend with
        | none => exact Bool.false_ne_true
        | some e =>
          have := hmax e rfl m List.mem_cons_self
          rw [Option.any_some, decide_eq_true_eq, BitVec.lt_def]
          omega
      · cases l with
        | nil => exact Bool.false_ne_true
        | cons k l =>
          have := hord.1 k List.mem_cons_self
          rw [List.head?_cons, Option.any_some, decide_eq_true_eq, BitVec.lt_def]
          omega
    rw [disjointifyBatch]
    rw [if_neg hgood, ih hord.2 hraise]

/-- Nothing is dropped from disjoint ranges. -/
lemma disjointifyNew_eq {l : List GcMove} (hp : ∀ m ∈ l, m.Proper) (hd : DisjointNew l)
    (hs : l.Pairwise fun a b => a.step < b.step ∨ a.step = b.step ∧ a.newBase ≤ b.newBase) :
    disjointifyNew l = l := by
  have hloop : ∀ fuel (l : List GcMove), l.length ≤ fuel → (∀ m ∈ l, m.Proper) → DisjointNew l →
      (l.Pairwise fun a b => a.step < b.step ∨ a.step = b.step ∧ a.newBase ≤ b.newBase) →
      disjointifyLoop fuel l = l := by
    intro fuel
    induction fuel with
    | zero =>
      intro l hlen _ _ _
      rw [List.eq_nil_of_length_eq_zero (Nat.le_zero.1 hlen)]
      rfl
    | succ fuel ih =>
      intro l hlen hp hd hs
      cases l with
      | nil => rfl
      | cons m l =>
        have hsub := List.takeWhile_sublist (l := m :: l) fun k => decide (k.step = m.step)
        have hsub' := List.dropWhile_sublist (l := m :: l) fun k => decide (k.step = m.step)
        have hsame : ∀ k ∈ (m :: l).takeWhile (fun k => k.step = m.step), k.step = m.step :=
          fun k hk => by simpa using List.mem_takeWhile_imp hk
        have hbatch := newInOrder_of_sorted (fun k hk => hp k (hsub.subset hk)) (hd.sublist hsub)
          (hs.sublist hsub) fun a ha b hb => (hsame a ha).trans (hsame b hb).symm
        have hshort := (length_dropWhile_step_le m l).trans (Nat.le_of_succ_le_succ hlen)
        rw [disjointifyLoop, disjointifyBatch_eq hbatch (fun e he => by cases he),
          ih _ hshort (fun k hk => hp k (hsub'.subset hk)) (hd.sublist hsub') (hs.sublist hsub'),
          List.takeWhile_append_dropWhile]
  exact hloop _ l le_rfl hp hd hs

end Disjointify

section Histories

variable {moves : List GcMove} {nodes : List GcNode} {pos : ℕ → ℕ → ℕ} {S : StepNewSort}

lemma mem_batchAt {l : List GcMove} {m : GcMove} {b : ℕ} :
    m ∈ batchAt l b ↔ m ∈ l ∧ m.step = b := by
  rw [batchAt, List.mem_filter, decide_eq_true_eq]

/-- Inverting a batch takes a carried span back. -/
lemma unrelocate_carried (hp : ∀ m ∈ moves, m.Proper) (hd : DisjointNew moves)
    {l : List GcMove} (hperm : l.Perm moves) {b size q p : ℕ} (hsize : 0 < size)
    (hc : Carried (batchAt moves b) size q p) {y : BitVec 64} (hy : y.toNat = p) :
    (unrelocate (batchAt l b) y).toNat = q := by
  have hmem : ∀ m, m ∈ batchAt l b ↔ m ∈ batchAt moves b := by
    intro m
    rw [mem_batchAt, mem_batchAt, hperm.mem_iff]
  have hproper : ∀ m ∈ batchAt moves b, m.Proper := fun m hm => hp m (mem_batchAt.1 hm).1
  rw [unrelocate]
  rcases hc with ⟨m, hm, hlo, hhi, rfl⟩ | ⟨rfl, hout⟩
  · have hcov : InSpan m.newBase.toNat m.len.toNat y.toNat := by
      rw [hy, InSpan]
      omega
    cases hf : (batchAt l b).find? fun m => m.covered y with
    | none =>
      have hnone := List.find?_eq_none.1 hf m ((hmem m).2 hm)
      exact absurd ((covered_iff (hproper m hm)).2 hcov) hnone
    | some m' =>
      have hm' := (hmem m').1 (List.mem_of_find?_eq_some hf)
      have hcov' : m'.covered y = true := by simpa using List.find?_some hf
      have heq : m' = m := by
        by_contra hne
        apply hd.not_both (mem_batchAt.1 hm').1 (mem_batchAt.1 hm).1 hne
          ((mem_batchAt.1 hm').2.trans (mem_batchAt.1 hm).2.symm) y
        rw [newCovers_iff (hproper m' hm'), newCovers_iff (hproper m hm)]
        exact ⟨(covered_iff (hproper m' hm')).1 hcov', hcov⟩
      dsimp only
      rw [toNat_backward (hproper m' hm') hcov', heq, hy]
  · cases hf : (batchAt l b).find? fun m => m.covered y with
    | none => exact hy
    | some m' =>
      have hm' := (hmem m').1 (List.mem_of_find?_eq_some hf)
      have hcov' : m'.covered y = true := by simpa using List.find?_some hf
      have hspan := (covered_iff (hproper m' hm')).1 hcov'
      rw [hy] at hspan
      exact absurd ⟨q, ⟨le_rfl, by omega⟩, hspan⟩ (hout m' hm').1

/-- Down from a step after every move -/
lemma down_induction (moves : List GcMove) (P : ℕ → Prop)
    (hlast : ∀ s, (∀ m ∈ moves, m.step ≤ s) → P s) (hstep : ∀ s, P (s + 1) → P s) (s : ℕ) :
    P s := by
  obtain ⟨T, hsT, hT⟩ := exists_last_step moves s
  obtain ⟨k, rfl⟩ := Nat.exists_eq_add_of_le hsT
  clear hsT
  induction k generalizing s with
  | zero => exact hlast s hT
  | succ k ih =>
    refine hstep s (ih (s + 1) ?_)
    rwa [Nat.add_right_comm]

/-- The inverse walk finds where a node was. -/
lemma Heap.locate (h : Heap moves nodes pos) {i : ℕ} {n : GcNode} (hi : nodes[i]? = some n)
    (hsize : 0 < n.size.toNat) (s : ℕ) :
    (objidLocate (disjointifyNew (S.sort moves)) s n.addr).toNat = pos i s := by
  have hhist := h.history i n hi
  have hperm := S.perm moves
  have hproper : ∀ m ∈ S.sort moves, m.Proper := fun m hm => h.proper m (hperm.subset hm)
  have hnew : DisjointNew (S.sort moves) :=
    (hperm.symm.pairwise_iff fun hab hs x hx => hab hs.symm x hx.symm).1 h.new
  rw [disjointifyNew_eq hproper hnew (S.sorted moves)]
  refine down_induction moves (fun s => (objidLocate (S.sort moves) s n.addr).toNat = pos i s)
    (fun s hs => ?_) (fun s ih => ?_) s
  · rw [objidLocate_past fun m hm => hs m (hperm.subset hm), hhist.last s hs]
  · rw [objidLocate_step (S.sorted_step moves)]
    exact unrelocate_carried h.proper h.new hperm hsize (hhist.step s) ih

/-- Nodes that are apart after a batch were apart before it. -/
lemma apart_carried (hp : ∀ m ∈ moves, m.Proper) (hd : DisjointOld moves) {b a a' q q' p p' : ℕ}
    (hc : Carried (batchAt moves b) a q p) (hc' : Carried (batchAt moves b) a' q' p')
    (h : ¬SpansMeet p a p' a') : ¬SpansMeet q a q' a' := by
  rintro ⟨x, hx, hx'⟩
  rw [InSpan] at hx hx'
  rcases hc with ⟨m, hm, hlo, hhi, rfl⟩ | ⟨rfl, hout⟩
  · have hxm : InSpan m.oldBase.toNat m.len.toNat x := by
      rw [InSpan]
      omega
    rcases hc' with ⟨m', hm', hlo', hhi', rfl⟩ | ⟨rfl, hout'⟩
    · by_cases heq : m = m'
      · -- one range carried both
        rw [← heq] at hx' hlo' hhi'
        refine h ⟨x - m.oldBase.toNat + m.newBase.toNat, ?_, ?_⟩
        · rw [InSpan]
          omega
        · rw [InSpan]
          omega
      · obtain ⟨hmem, hstep⟩ := mem_batchAt.1 hm
        obtain ⟨hmem', hstep'⟩ := mem_batchAt.1 hm'
        have hxm' : InSpan m'.oldBase.toNat m'.len.toNat x := by
          rw [InSpan]
          omega
        have hold := (hp m hmem).old
        have hx64 : (BitVec.ofNat 64 x).toNat = x := by
          rw [BitVec.toNat_ofNat, Nat.mod_eq_of_lt]
          rw [InSpan] at hxm
          omega
        have hsymm : Std.Symm fun m m' : GcMove =>
            m.step = m'.step → ∀ x, ¬(m.covers x ∧ m'.covers x) :=
          ⟨fun _ _ hab hs y hy => hab hs.symm y hy.symm⟩
        apply List.Pairwise.forall hd hmem hmem' heq (hstep.trans hstep'.symm) (BitVec.ofNat 64 x)
        rw [covers_iff (hp m hmem), covers_iff (hp m' hmem'), hx64]
        exact ⟨hxm, hxm'⟩
    · exact (hout' m hm).2 ⟨x, hx', hxm⟩
  · rcases hc' with ⟨m', hm', hlo', hhi', rfl⟩ | ⟨rfl, hout'⟩
    · refine (hout m' hm').2 ⟨x, hx, ?_⟩
      rw [InSpan]
      omega
    · exact h ⟨x, hx, hx'⟩

lemma Heap.apart_at (h : Heap moves nodes pos) {i j : ℕ} {n n' : GcNode}
    (hi : nodes[i]? = some n) (hj : nodes[j]? = some n') (hne : i ≠ j) (s : ℕ) :
    ¬SpansMeet (pos i s) n.size.toNat (pos j s) n'.size.toNat := by
  refine down_induction moves
    (fun s => ¬SpansMeet (pos i s) n.size.toNat (pos j s) n'.size.toNat)
    (fun s hs => ?_) (fun s ih => ?_) s
  · rw [(h.history i n hi).last s hs, (h.history j n' hj).last s hs]
    exact h.apart i j n n' hi hj hne
  · exact apart_carried h.proper h.old ((h.history i n hi).step s) ((h.history j n' hj).step s) ih

/-- At every step an address belongs to one node. -/
lemma Heap.holds_unique (h : Heap moves nodes pos) {s x i j off off' : ℕ}
    (hi : Holds nodes pos s x i off) (hj : Holds nodes pos s x j off') : i = j ∧ off = off' := by
  obtain ⟨n, hn, hoff, hx⟩ := hi
  obtain ⟨n', hn', hoff', hx'⟩ := hj
  have hij : i = j := by
    by_contra hne
    refine h.apart_at hn hn' hne s ⟨x, ⟨?_, ?_⟩, ?_, ?_⟩ <;> omega
  rw [← hij] at hx'
  exact ⟨hij, by omega⟩

/-- A node never wraps, wherever it was. -/
lemma Heap.fits_at (h : Heap moves nodes pos) {i : ℕ} {n : GcNode} (hi : nodes[i]? = some n)
    (s : ℕ) : pos i s + n.size.toNat ≤ 2 ^ 64 := by
  refine down_induction moves (fun s => pos i s + n.size.toNat ≤ 2 ^ 64)
    (fun s hs => ?_) (fun s ih => ?_) s
  · rw [(h.history i n hi).last s hs]
    exact h.fits n (List.mem_of_getElem? hi)
  · rcases (h.history i n hi).step s with ⟨m, hm, hlo, hhi, hq⟩ | ⟨hq, -⟩
    · have hold := (h.proper m (mem_batchAt.1 hm).1).old
      rw [hq]
      omega
    · rw [hq]
      exact ih

end Histories

section Owners

variable {moves : List GcMove} {nodes : List GcNode} {pos : ℕ → ℕ → ℕ} {S : StepNewSort}

/-- The span test of the owner scan, at the place where the node was -/
lemma Heap.span_iff (h : Heap moves nodes pos) {i : ℕ} {n : GcNode} (hi : nodes[i]? = some n)
    (hsize : 0 < n.size.toNat) (s : ℕ) (x : BitVec 64) :
    (objidLocate (disjointifyNew (S.sort moves)) s n.addr ≤ x ∧
        x - objidLocate (disjointifyNew (S.sort moves)) s n.addr < n.size) ↔
      InSpan (pos i s) n.size.toNat x.toNat := by
  have hloc := h.locate (S := S) hi hsize s
  have hfits := h.fits_at hi s
  have hx := x.isLt
  rw [BitVec.le_def, BitVec.lt_def, BitVec.toNat_sub, hloc, InSpan]
  omega

/-- The scan finds the node that holds the byte, and only that node. -/
lemma Heap.owner_iff (h : Heap moves nodes pos) (s : ℕ) (x : BitVec 64) (i : ℕ) (off : BitVec 64) :
    objidOwner S nodes moves s x = some (i, off) ↔ Holds nodes pos s x.toNat i off.toNat := by
  have hfound : ∀ {i : ℕ} {off : BitVec 64}, objidOwner S nodes moves s x = some (i, off) →
      Holds nodes pos s x.toNat i off.toNat := by
    intro i off ho
    obtain ⟨⟨n, j⟩, hmem, hif⟩ := List.exists_of_findSome?_eq_some ho
    dsimp only at hif
    split_ifs at hif with h0 h1
    obtain ⟨rfl, rfl⟩ := Prod.mk.inj (Option.some.inj hif)
    have hi := List.mem_zipIdx_iff_getElem?.1 hmem
    have hsize : 0 < n.size.toNat := by
      have := BitVec.lt_def.1 h1.2
      omega
    have hspan : InSpan (pos j s) n.size.toNat x.toNat := (h.span_iff hi hsize s x).1 h1
    have hloc : (objidLocate (disjointifyNew (S.sort moves)) s n.addr).toNat = pos j s :=
      h.locate hi hsize s
    rw [InSpan] at hspan
    refine ⟨n, hi, BitVec.lt_def.1 h1.2, ?_⟩
    rw [BitVec.toNat_sub_of_le h1.1, hloc]
    omega
  constructor
  · exact hfound
  · intro hh
    cases ho : objidOwner S nodes moves s x with
    | none =>
      obtain ⟨n, hi, hoff, hx⟩ := hh
      have hsize : 0 < n.size.toNat := Nat.lt_of_le_of_lt (Nat.zero_le _) hoff
      have hnone := List.findSome?_eq_none_iff.1 ho (n, i) (List.mem_zipIdx_iff_getElem?.2 hi)
      have hspan : InSpan (pos i s) n.size.toNat x.toNat := by
        rw [InSpan]
        omega
      have hne : n.size ≠ 0 := by
        intro h0
        rw [h0] at hsize
        exact absurd hsize (by decide)
      dsimp only at hnone
      rw [if_neg hne, if_pos ((h.span_iff hi hsize s x).2 hspan)] at hnone
      cases hnone
    | some p =>
      -- the scan found a node, and no other holds the byte
      obtain ⟨hidx, hoff⟩ := h.holds_unique (hfound ho) hh
      rw [← hidx, ← BitVec.eq_of_toNat_eq hoff]

lemma Heap.owner_none_iff (h : Heap moves nodes pos) (s : ℕ) (x : BitVec 64) :
    objidOwner S nodes moves s x = none ↔ ∀ i off, ¬Holds nodes pos s x.toNat i off := by
  constructor
  · intro ho i off hh
    obtain ⟨n, hi, hoff, hx⟩ := hh
    have hoff64 : (BitVec.ofNat 64 off).toNat = off := by
      rw [BitVec.toNat_ofNat, Nat.mod_eq_of_lt (hoff.trans n.size.isLt)]
    have hsome := (h.owner_iff (S := S) s x i (BitVec.ofNat 64 off)).2
      ⟨n, hi, by rwa [hoff64], by rwa [hoff64]⟩
    rw [ho] at hsome
    cases hsome
  · intro hno
    cases ho : objidOwner S nodes moves s x with
    | none => rfl
    | some p => exact absurd ((h.owner_iff s x p.1 p.2).1 ho) (hno _ _)

/-- The key of an owned byte is the byte's place in the snapshot. -/
lemma Heap.key_owned (h : Heap moves nodes pos) {s i off : ℕ} {x : BitVec 64} {n : GcNode}
    (hi : nodes[i]? = some n) (hh : Holds nodes pos s x.toNat i off) :
    (keyOf S nodes moves s x).toNat = n.addr.toNat + off := by
  obtain ⟨n', hi', hoff, hx⟩ := hh
  have hn : n' = n := Option.some.inj (hi'.symm.trans hi)
  rw [hn] at hoff
  have hoff64 : (BitVec.ofNat 64 off).toNat = off := by
    rw [BitVec.toNat_ofNat, Nat.mod_eq_of_lt (hoff.trans n.size.isLt)]
  have ho := (h.owner_iff (S := S) s x i (BitVec.ofNat 64 off)).2
    ⟨n, hi, by rwa [hoff64], by rwa [hoff64]⟩
  have hfits := h.fits n (List.mem_of_getElem? hi)
  rw [objidOwner] at ho
  rw [keyOf, objidKey, ho]
  dsimp only
  rw [List.getD_eq_getElem?_getD, hi, Option.getD_some, BitVec.toNat_add, hoff64,
    Nat.mod_eq_of_lt (by omega)]

lemma Heap.key_eq_iff (h : Heap moves nodes pos) {s s' i j off off' : ℕ} {x y : BitVec 64}
    (hx : Holds nodes pos s x.toNat i off) (hy : Holds nodes pos s' y.toNat j off') :
    keyOf S nodes moves s x = keyOf S nodes moves s' y ↔ i = j ∧ off = off' := by
  have hx' := hx
  have hy' := hy
  obtain ⟨n, hi, hoff, -⟩ := hx'
  obtain ⟨n', hj, hoff', -⟩ := hy'
  rw [← BitVec.toNat_inj, h.key_owned hi hx, h.key_owned hj hy]
  constructor
  · intro heq
    have hij : i = j := by
      by_contra hne
      refine h.apart i j n n' hi hj hne ⟨n.addr.toNat + off, ⟨?_, ?_⟩, ?_, ?_⟩ <;> omega
    rw [← hij] at hj
    have hn : n = n' := Option.some.inj (hi.symm.trans hj)
    rw [← hn] at heq
    exact ⟨hij, by omega⟩
  · rintro ⟨rfl, rfl⟩
    have hn : n = n' := Option.some.inj (hi.symm.trans hj)
    rw [hn]

lemma inNode_iff {c : BitVec 64} (hfits : ∀ n ∈ nodes, n.addr.toNat + n.size.toNat ≤ 2 ^ 64) :
    inNode nodes c = true ↔ ∃ n ∈ nodes, InSpan n.addr.toNat n.size.toNat c.toNat := by
  rw [inNode, List.any_eq_true]
  apply exists_congr
  intro n
  apply and_congr_right
  intro hn
  have hc := c.isLt
  have := hfits n hn
  rw [decide_eq_true_eq, BitVec.le_def, BitVec.lt_def, BitVec.toNat_sub, InSpan, ne_eq,
    ← BitVec.toNat_inj]
  have h0 : (0 : BitVec 64).toNat = 0 := rfl
  rw [h0]
  omega

/-- A byte that no node holds is keyed outside the nodes when these are below bit 63. -/
lemma Heap.key_unowned (h : Heap moves nodes pos)
    (hlow : ∀ n ∈ nodes, n.addr.toNat + n.size.toNat ≤ 2 ^ 63) {s : ℕ} {x : BitVec 64}
    (hno : ∀ i off, ¬Holds nodes pos s x.toNat i off) :
    ∀ n ∈ nodes, ¬InSpan n.addr.toNat n.size.toNat (keyOf S nodes moves s x).toNat := by
  intro n hn hin
  have ho := (h.owner_none_iff (S := S) s x).2 hno
  rw [objidOwner] at ho
  rw [keyOf, objidKey, ho] at hin
  dsimp only at hin
  split_ifs at hin with hc
  · -- the tagged key has bit 63, which no byte of a node has
    refine or_noObj_not_user (gcmoveCanon (S.sort moves) s x) ?_
    have := hlow n hn
    rw [InSpan] at hin
    rw [IsUser]
    omega
  · exact hc ((inNode_iff h.fits).2 ⟨n, hn, hin⟩)

end Owners

section Records

variable {moves : List GcMove} {nodes : List GcNode} {pos : ℕ → ℕ → ℕ}

/-- At every step an address has at most one owner, which the scan finds. In the pass, a record
that a node holds is keyed by its byte of the snapshot, two such keys agree exactly on one byte of
one node, and where the nodes are below bit 63 no other record gets such a key. -/
theorem objid_owner_exact (Q : StepSort) (S : StepNewSort) (v : ValTrace) (moves : List GcMove)
    (nodes : List GcNode) (pos : ℕ → ℕ → ℕ) (h : Heap moves nodes pos)
    (hlow : ∀ n ∈ nodes, n.addr.toNat + n.size.toNat ≤ 2 ^ 63) :
    (∀ s x i off, objidOwner S nodes moves s x = some (i, off) ↔
      Holds nodes pos s x.toNat i off.toNat) ∧
    (∀ s x i j off off', Holds nodes pos s x i off → Holds nodes pos s x j off' →
      i = j ∧ off = off') ∧
    ∀ a r, v.recs[a]? = some r → r.kind = .memAbs → ∀ i off,
      Holds nodes pos r.step r.addr.toNat i off →
      (∃ n key, nodes[i]? = some n ∧ addrAt (objidCanonicalize Q S v nodes moves).1 a = some key ∧
        key.toNat = n.addr.toNat + off) ∧
      ∀ b r', v.recs[b]? = some r' → r'.kind = .memAbs →
        (∀ j off', Holds nodes pos r'.step r'.addr.toNat j off' →
          (addrAt (objidCanonicalize Q S v nodes moves).1 a =
            addrAt (objidCanonicalize Q S v nodes moves).1 b ↔ i = j ∧ off = off')) ∧
        ((∀ j off', ¬Holds nodes pos r'.step r'.addr.toNat j off') →
          addrAt (objidCanonicalize Q S v nodes moves).1 a ≠
            addrAt (objidCanonicalize Q S v nodes moves).1 b) := by
  refine ⟨h.owner_iff, fun s x i j off off' hi hj => h.holds_unique hi hj, ?_⟩
  intro a r ha hk i off hown
  have hown' := hown
  obtain ⟨n, hi, hoff, -⟩ := hown'
  have hne : nodes ≠ [] := List.ne_nil_of_mem (List.mem_of_getElem? hi)
  have hkey : addrAt (objidCanonicalize Q S v nodes moves).1 a =
      some (keyOf S nodes moves r.step r.addr) := addrAt_objid hne ha hk
  constructor
  · exact ⟨n, _, hi, hkey, h.key_owned hi hown⟩
  · intro b r' hb hk'
    have hkey' : addrAt (objidCanonicalize Q S v nodes moves).1 b =
        some (keyOf S nodes moves r'.step r'.addr) := addrAt_objid hne hb hk'
    rw [hkey, hkey']
    constructor
    · intro j off' hown''
      rw [Option.some_inj]
      exact h.key_eq_iff hown hown''
    · intro hno heq
      rw [Option.some_inj] at heq
      -- the owned key is a byte of the node, the other is outside all nodes
      apply h.key_unowned (S := S) hlow hno n (List.mem_of_getElem? hi)
      rw [← heq, h.key_owned hi hown, InSpan]
      omega

/-- A node of eight bytes that step 5 moved from 100 to `b`. -/
def movedAt (b : BitVec 64) (_ s : ℕ) : ℕ := if s < 5 then 100 else b.toNat

lemma heap_movedAt {b : BitVec 64} (hb : b.toNat + 8 ≤ 2 ^ 64) :
    Heap [⟨100, b, 8, 5⟩] [⟨b, 8, 1⟩] (movedAt b) := by
  constructor
  · intro m hm
    rw [List.mem_singleton.1 hm]
    exact ⟨show 0 < 8 by decide, show 100 + 8 ≤ 2 ^ 64 by decide, hb⟩
  · exact List.pairwise_singleton _ _
  · exact List.pairwise_singleton _ _
  · intro n hn
    rw [List.mem_singleton.1 hn]
    exact hb
  · intro i j n n' hi hj hne
    have hi' := (List.getElem?_eq_some_iff.1 hi).1
    have hj' := (List.getElem?_eq_some_iff.1 hj).1
    rw [List.length_singleton] at hi' hj'
    omega
  · intro i n hi
    obtain ⟨hlt, rfl⟩ := List.getElem?_eq_some_iff.1 hi
    have hi0 : i = 0 := by simpa using hlt
    subst hi0
    constructor
    · intro s hs
      have := hs _ List.mem_cons_self
      dsimp only at this
      rw [movedAt, if_neg (by omega)]
      rfl
    · intro s
      by_cases hs : s + 1 = 5
      · -- the batch that carried it
        left
        refine ⟨⟨100, b, 8, 5⟩, mem_batchAt.2 ⟨List.mem_cons_self, hs.symm⟩, ?_⟩
        have hq : movedAt b 0 s = 100 := if_pos (by omega)
        have hp : movedAt b 0 (s + 1) = b.toNat := if_neg (by omega)
        rw [hq, hp]
        refine ⟨le_rfl, le_rfl, ?_⟩
        rw [Nat.sub_self]
        rfl
      · right
        constructor
        · rw [movedAt, movedAt]
          congr 1
          rw [eq_iff_iff]
          omega
        · intro m hm
          obtain ⟨hmem, hstep⟩ := mem_batchAt.1 hm
          rw [List.mem_singleton.1 hmem] at hstep
          exact absurd hstep.symm hs

/-- Two accesses before the move, one to the node and one to the address it will have. -/
def acrossMove (x y : BitVec 64) : ValTrace :=
  appendAll (valtraceNew 8 8) [(0, [{ kind := .memAbs, addr := x, size := 1 },
    { kind := .memAbs, addr := y, size := 1 }])]

theorem objid_owner_exact_moved :
    addrAt (objidCanonicalize insertionStepSort insertionStepNewSort (acrossMove 104 300)
        [⟨300, 8, 1⟩] [⟨100, 300, 8, 5⟩]).1 0 ≠
      addrAt (objidCanonicalize insertionStepSort insertionStepNewSort (acrossMove 104 300)
        [⟨300, 8, 1⟩] [⟨100, 300, 8, 5⟩]).1 1 := by
  have hex := (objid_owner_exact insertionStepSort insertionStepNewSort (acrossMove 104 300)
    [⟨100, 300, 8, 5⟩] [⟨300, 8, 1⟩] (movedAt 300) (heap_movedAt (by decide))
    (fun n hn => by rw [List.mem_singleton.1 hn]; decide)).2.2
  refine (((hex 0 _ rfl rfl 0 4 ⟨_, rfl, by decide, by decide⟩).2 1 _ rfl rfl).2 ?_)
  rintro j off ⟨n, hj, hoff, hx⟩
  change 300 = 100 + off at hx
  obtain ⟨hlt, rfl⟩ := List.getElem?_eq_some_iff.1 hj
  have hj0 : j = 0 := by simpa using hlt
  subst hj0
  change off < 8 at hoff
  omega

/-- Where bit 63 is an address bit, the tag does not set an address apart; and where an old range
holds a part of a node that stayed, a byte has two owners and the scan takes the first. -/
theorem objid_tag_collides :
    (Heap [⟨100, noObj, 8, 5⟩] [⟨noObj, 8, 1⟩] (movedAt noObj) ∧
      objidOwner insertionStepNewSort [⟨noObj, 8, 1⟩] [⟨100, noObj, 8, 5⟩] 0 100 = some (0, 0) ∧
      objidOwner insertionStepNewSort [⟨noObj, 8, 1⟩] [⟨100, noObj, 8, 5⟩] 0 noObj = none ∧
      addrAt (objidCanonicalize insertionStepSort insertionStepNewSort (acrossMove 100 noObj)
          [⟨noObj, 8, 1⟩] [⟨100, noObj, 8, 5⟩]).1 0 =
        addrAt (objidCanonicalize insertionStepSort insertionStepNewSort (acrossMove 100 noObj)
          [⟨noObj, 8, 1⟩] [⟨100, noObj, 8, 5⟩]).1 1) ∧
    (¬SpansMeet 100 10 205 10 ∧ ¬(105 ≤ 100 ∧ 100 + 10 ≤ 105 + 10)) ∧
    objidOwner insertionStepNewSort [⟨100, 10, 1⟩, ⟨205, 4, 2⟩] [⟨105, 205, 10, 1⟩] 0 106 =
      some (0, 6) ∧
    objidOwner insertionStepNewSort [⟨205, 4, 2⟩, ⟨100, 10, 1⟩] [⟨105, 205, 10, 1⟩] 0 106 =
      some (0, 1) := by
  refine ⟨⟨heap_movedAt (by decide), ?_, ?_, ?_⟩, ⟨?_, by decide⟩, ?_, ?_⟩
  · decide +kernel
  · decide +kernel
  · decide +kernel
  · rintro ⟨x, hx, hx'⟩
    rw [InSpan] at hx hx'
    omega
  · decide +kernel
  · decide +kernel

end Records

end AsmTest.Dataflow
