import AsmTest.SsFrames
import AsmTest.PtraceStep

/-!
# The two single-step materialisers

`ss_normalize` of the in-process stepper and `normalize` of the ptrace backend replay the same list
of offsets into a trace. They put different block boundaries, one of them drops repetitions, and one
of them looks at how the stream ends.
-/

namespace AsmTest.Ss

open Hwtrace (Trace Code Event emitAll insnsOf blocksOf)

variable (c : Code)

section Events

/-- The offset behind the instruction at `a` -/
def nextOff (a : ℕ) : ℕ :=
  a + (c.disasProbe a).len

/-- Every offset up to one that does not decode, with a block where `starts` says so -/
def cutEvents (starts : ℕ → ℕ → Bool) : Option ℕ → List ℕ → List Event
  | _, [] => []
  | prev, off :: stream =>
    (if prev.all (fun a => starts a off) then [.block off] else []) ++
      .insn off :: if (c.disasProbe off).len = 0 then [] else cutEvents starts (some off) stream

/-- The ptrace backend cuts where control does not fall through. -/
def ptStarts (a off : ℕ) : Bool :=
  off ≠ nextOff c a

/-- The in-process stepper cuts behind every branch as well. -/
def ssStarts (a off : ℕ) : Bool :=
  off ≠ nextOff c a ∨ c.disasIsBranch a = true

/-- What `ss_normalize` sends to the trace; `prev` is the last offset. -/
def ssEvents : Option ℕ → List ℕ → List Event
  | _, [] => []
  | prev, off :: stream =>
    if prev = some off then ssEvents prev stream
    else
      (if prev.all (fun a => ssStarts c a off) then [.block off] else []) ++
        .insn off :: if (c.disasProbe off).len = 0 then [] else ssEvents (some off) stream

/-- Does `ss_normalize` mark the trace? -/
def ssMarks (overflow : Bool) : Option ℕ → List ℕ → Bool
  | prev, [] => overflow || prev.any fun a => c.disasIsBranch a = false ∧ nextOff c a < c.len
  | prev, off :: stream =>
    if prev = some off then ssMarks overflow prev stream
    else if (c.disasProbe off).len = 0 then true
    else ssMarks overflow (some off) stream

def ptMarks (overflow : Bool) : List ℕ → Bool
  | [] => overflow
  | off :: stream => if (c.disasProbe off).len = 0 then true else ptMarks overflow stream

def markIf (b : Bool) (t : Trace) : Trace :=
  if b then t.markTruncated else t

variable {c}

theorem ssNormalizeLoop_eq (t : Trace) (overflow : Bool) (prev : Option ℕ) (stream : List ℕ) :
    ssNormalizeLoop c t overflow (prev.map fun a => (a, nextOff c a, c.disasIsBranch a)) stream =
      markIf (ssMarks c overflow prev stream) (emitAll t (ssEvents c prev stream)) := by
  induction stream generalizing t prev with
  | nil =>
    cases prev with
    | none => cases overflow <;> rfl
    | some a =>
      by_cases h : c.disasIsBranch a = false ∧ nextOff c a < c.len
      · cases overflow <;> simp [ssNormalizeLoop, ssMarks, ssEvents, h, markIf, Trace.markTruncated]
      · cases overflow <;> simp [ssNormalizeLoop, ssMarks, ssEvents, h, markIf, Trace.markTruncated]
  | cons off stream ih =>
    rw [ssNormalizeLoop, ssMarks, ssEvents]
    have hany : (prev.map fun a => (a, nextOff c a, c.disasIsBranch a)).any (fun q => off = q.1) =
        decide (prev = some off) := by
      cases prev with
      | none => rfl
      | some a => simp [eq_comm]
    rw [hany]
    by_cases hrep : prev = some off
    · simp only [hrep, decide_true, if_true]
      rw [← hrep]
      exact ih t prev
    simp only [hrep, decide_false, if_false, Bool.false_eq_true]
    have hall : (prev.map fun a => (a, nextOff c a, c.disasIsBranch a)).all
        (fun q => off ≠ q.2.1 ∨ q.2.2 = true) =
        prev.all (fun a => ssStarts c a off) := by
      cases prev <;> rfl
    rw [hall, Hwtrace.emitAll_append]
    have hblock : (if prev.all (fun a => ssStarts c a off) = true then
          Hwtrace.traceAppendBlock t off else t) =
        emitAll t (if prev.all (fun a => ssStarts c a off) = true then
          [.block off] else []) := by
      split_ifs <;> rfl
    rw [hblock, Hwtrace.emitAll_cons]
    by_cases hl : (c.disasProbe off).len = 0
    · simp only [if_pos hl]
      rfl
    · simp only [if_neg hl]
      exact ih _ (some off)

/-- The boundary tracker after `prev` -/
def seqAfter (c : Code) (prev : Option ℕ) : Descent.BlockSeq :=
  match prev with
  | none => ⟨false, 0⟩
  | some a => ⟨true, nextOff c a⟩

theorem normalizeLoop_eq (t : Trace) (overflow : Bool) (prev : Option ℕ) (stream : List ℕ) :
    Hwtrace.normalizeLoop c t (seqAfter c prev) overflow stream =
      markIf (ptMarks c overflow stream) (emitAll t (cutEvents c (ptStarts c) prev stream)) := by
  induction stream generalizing t prev with
  | nil => rfl
  | cons off stream ih =>
    rw [Hwtrace.normalizeLoop, ptMarks, cutEvents, Hwtrace.emitAll_append, Hwtrace.emitAll_cons]
    have hb : (Descent.blockseqBoundary (seqAfter c prev) off (c.disasProbe off).len).1 =
        prev.all (fun a => ptStarts c a off) := by
      cases prev with
      | none => rfl
      | some a =>
        by_cases h : off = nextOff c a
        · simp [Descent.blockseqBoundary, seqAfter, ptStarts, h]
        · simp [Descent.blockseqBoundary, seqAfter, ptStarts, h]
    have hblock : (if prev.all (fun a => ptStarts c a off) = true then
          Hwtrace.traceAppendBlock t off else t) =
        emitAll t (if prev.all (fun a => ptStarts c a off) = true then [.block off] else []) := by
      split_ifs <;> rfl
    simp only [hb, hblock]
    by_cases hl : (c.disasProbe off).len = 0
    · simp only [if_pos hl]
      rfl
    · simp only [if_neg hl]
      have hseq : (Descent.blockseqBoundary (seqAfter c prev) off (c.disasProbe off).len).2 =
          seqAfter c (some off) := if_neg hl
      rw [hseq]
      exact ih _ (some off)

end Events

section Stream

variable {c}

/-- The offsets up to the first one that does not decode, that one included -/
def decoded (c : Code) : List ℕ → List ℕ
  | [] => []
  | off :: stream => off :: if (c.disasProbe off).len = 0 then [] else decoded c stream

theorem pair_infix_cons {a b x y : ℕ} {l : List ℕ} :
    [a, b] <:+: x :: y :: l ↔ a = x ∧ b = y ∨ [a, b] <:+: y :: l := by
  rw [List.infix_cons_iff, List.cons_prefix_cons, List.cons_prefix_cons]
  simp

theorem insnsOf_ite {p : Bool} {off : ℕ} {evs : List Event} :
    insnsOf ((if p then [.block off] else []) ++ .insn off :: evs) = off :: insnsOf evs := by
  cases p <;> rfl

theorem mem_blocksOf_ite {p : Bool} {off x : ℕ} {evs : List Event} :
    x ∈ blocksOf ((if p then [.block off] else []) ++ .insn off :: evs) ↔
      p = true ∧ x = off ∨ x ∈ blocksOf evs := by
  cases p <;> simp [blocksOf]

theorem insnsOf_cutEvents (starts : ℕ → ℕ → Bool) (prev : Option ℕ) (stream : List ℕ) :
    insnsOf (cutEvents c starts prev stream) = decoded c stream := by
  induction stream generalizing prev with
  | nil => rfl
  | cons off stream ih =>
    rw [cutEvents, decoded, insnsOf_ite]
    by_cases hl : (c.disasProbe off).len = 0
    · rw [if_pos hl, if_pos hl]
      rfl
    · rw [if_neg hl, if_neg hl, ih]

theorem not_pair_infix_toList {a b : ℕ} (prev : Option ℕ) : ¬[a, b] <:+: prev.toList := by
  intro h
  have hlen := h.length_le
  cases prev <;> simp at hlen

/-- Blocks start at the first offset and behind the cuts. -/
theorem mem_blocksOf_cutEvents (starts : ℕ → ℕ → Bool) (prev : Option ℕ) (stream : List ℕ) (x : ℕ) :
    x ∈ blocksOf (cutEvents c starts prev stream) ↔
      (prev = none ∧ (decoded c stream).head? = some x) ∨
        ∃ a, [a, x] <:+: prev.toList ++ decoded c stream ∧ starts a x = true := by
  induction stream generalizing prev with
  | nil =>
    refine iff_of_false List.not_mem_nil ?_
    rintro (⟨-, h⟩ | ⟨a, h, -⟩)
    · cases h
    · rw [decoded, List.append_nil] at h
      exact not_pair_infix_toList prev h
  | cons off stream ih =>
    rw [cutEvents, mem_blocksOf_ite]
    have htail : x ∈ blocksOf (if (c.disasProbe off).len = 0 then [] else
          cutEvents c starts (some off) stream) ↔
        ∃ a, [a, x] <:+: decoded c (off :: stream) ∧ starts a x = true := by
      rw [decoded]
      by_cases hl : (c.disasProbe off).len = 0
      · rw [if_pos hl, if_pos hl]
        refine iff_of_false List.not_mem_nil ?_
        rintro ⟨a, h, -⟩
        exact not_pair_infix_toList (some off) h
      · rw [if_neg hl, if_neg hl, ih]
        simp
    rw [htail]
    cases prev with
    | none =>
      rw [decoded, List.head?_cons, Option.some.injEq, @eq_comm _ x off]
      simp only [Option.all_none, true_and, Option.toList_none, List.nil_append]
    | some p =>
      rw [decoded, Option.toList_some, List.singleton_append]
      simp only [pair_infix_cons, reduceCtorEq, false_and, false_or]
      constructor
      · rintro (⟨h, rfl⟩ | ⟨a, h, hne⟩)
        · exact ⟨p, .inl ⟨rfl, rfl⟩, by simpa using h⟩
        · exact ⟨a, .inr h, hne⟩
      · rintro ⟨a, ⟨rfl, rfl⟩ | h, hne⟩
        · exact .inl ⟨by simpa using hne, rfl⟩
        · exact .inr ⟨a, h, hne⟩

/-- Where no offset follows itself the in-process stepper drops none. -/
theorem ssEvents_eq_cutEvents (prev : Option ℕ) {stream : List ℕ}
    (hrep : ∀ a, ¬[a, a] <:+: prev.toList ++ decoded c stream) :
    ssEvents c prev stream = cutEvents c (ssStarts c) prev stream := by
  induction stream generalizing prev with
  | nil => rfl
  | cons off stream ih =>
    rw [decoded] at hrep
    have hne : prev ≠ some off := by
      rintro rfl
      exact hrep off (pair_infix_cons.2 (.inl ⟨rfl, rfl⟩))
    rw [ssEvents, cutEvents, if_neg hne]
    by_cases hl : (c.disasProbe off).len = 0
    · rw [if_pos hl, if_pos hl]
    · rw [if_neg hl, if_neg hl, ih]
      intro a h
      rw [if_neg hl] at hrep
      exact hrep a (h.trans (List.suffix_append _ _).isInfix)

/-- A repetition is dropped, so the list gets shorter. -/
theorem length_insnsOf_ssEvents_le (prev : Option ℕ) (hprev : ∀ a ∈ prev, c.Decodes a)
    (stream : List ℕ) :
    (insnsOf (ssEvents c prev stream)).length ≤ (decoded c stream).length := by
  induction stream generalizing prev with
  | nil => exact le_rfl
  | cons off stream ih =>
    rw [ssEvents, decoded]
    by_cases hrep : prev = some off
    · rw [if_pos hrep, if_neg (hprev off hrep), List.length_cons]
      exact (ih prev hprev).trans (Nat.le_succ _)
    · rw [if_neg hrep, insnsOf_ite, List.length_cons, List.length_cons]
      by_cases hl : (c.disasProbe off).len = 0
      · rw [if_pos hl, if_pos hl]
        exact le_rfl
      · rw [if_neg hl, if_neg hl]
        exact Nat.succ_le_succ (ih (some off) fun a ha => Option.mem_some_iff.1 ha ▸ hl)

theorem no_repeat_of_insnsOf_eq (prev : Option ℕ) (hprev : ∀ a ∈ prev, c.Decodes a)
    {stream : List ℕ} (h : insnsOf (ssEvents c prev stream) = decoded c stream) (a : ℕ) :
    ¬[a, a] <:+: prev.toList ++ decoded c stream := by
  induction stream generalizing prev with
  | nil =>
    rw [decoded, List.append_nil]
    exact not_pair_infix_toList prev
  | cons off stream ih =>
    by_cases hrep : prev = some off
    · have hlen := length_insnsOf_ssEvents_le prev hprev stream
      rw [ssEvents, if_pos hrep] at h
      rw [h, decoded, if_neg (hprev off hrep), List.length_cons] at hlen
      omega
    rw [ssEvents, if_neg hrep, insnsOf_ite, decoded, List.cons.injEq] at h
    have htail : ¬[a, a] <:+: decoded c (off :: stream) := by
      rw [decoded]
      by_cases hl : (c.disasProbe off).len = 0
      · rw [if_pos hl]
        exact not_pair_infix_toList (some off)
      · rw [if_neg hl, if_neg hl] at h
        rw [if_neg hl]
        exact ih (some off) (fun a ha => Option.mem_some_iff.1 ha ▸ hl) h.2
    cases prev with
    | none => exact htail
    | some p =>
      rw [decoded] at htail ⊢
      rw [Option.toList_some, List.singleton_append, pair_infix_cons, not_or]
      refine ⟨fun hp => hrep ?_, htail⟩
      rw [← hp.1, ← hp.2]

/-- The in-process stepper also marks a stream that stops short of leaving the region. -/
theorem ssMarks_eq (overflow : Bool) {prev : Option ℕ} (hprev : ∀ a ∈ prev, c.Decodes a)
    (stream : List ℕ) :
    ssMarks c overflow prev stream = (ptMarks c overflow stream ||
      (prev.toList ++ stream).getLast?.any fun a =>
        c.disasIsBranch a = false ∧ nextOff c a < c.len) := by
  induction stream generalizing prev with
  | nil => cases prev <;> rfl
  | cons off stream ih =>
    rw [ssMarks, ptMarks]
    by_cases hrep : prev = some off
    · rw [if_pos hrep, if_neg (hprev off hrep), ih hprev, hrep]
      simp
    · rw [if_neg hrep]
      by_cases hl : (c.disasProbe off).len = 0
      · rw [if_pos hl, if_pos hl, Bool.true_or]
      · rw [if_neg hl, if_neg hl, ih fun a ha => Option.mem_some_iff.1 ha ▸ hl]
        cases prev <;> simp

end Stream

section Agree

/-- An offset that is a block start for both: the first one, or one that is not behind the
instruction before it -/
def Entered (c : Code) (offs : List ℕ) (b : ℕ) : Prop :=
  offs.head? = some b ∨ ∃ a, [a, b] <:+: offs ∧ b ≠ nextOff c a

/-- The trace has room for a stream of this length. -/
structure Roomy (t : Trace) (n : ℕ) : Prop where
  insns : ∀ l, t.insns = some l → l.length + n ≤ t.insnsCap
  blocks : ∀ l, t.blocks = some l → l.length + n ≤ t.blocksCap

/-- Both materialisers make the same instruction list, the same set of block starts and the same
flag out of the stream. -/
def NormalisersAgree (stream : List ℕ) (overflow : Bool) : Prop :=
  ∀ t : Trace, Roomy t stream.length →
    let ss := ssNormalizeLoop c t overflow none stream
    let pt := Hwtrace.normalize c t (stream, overflow)
    ss.insns = pt.insns ∧ ss.blocks.map List.toFinset = pt.blocks.map List.toFinset ∧
      ss.truncated = pt.truncated

/-- The stream gives the two materialisers nothing to differ on. -/
structure Plain (stream : List ℕ) (overflow : Bool) : Prop where
  /-- no offset follows itself -/
  no_repeat : ∀ a, ¬[a, a] <:+: decoded c stream
  /-- what follows a branch is also reached where control does not fall through -/
  branch_ends : ∀ a b, [a, b] <:+: decoded c stream → c.disasIsBranch a = true →
    Entered c (decoded c stream) b
  /-- a stream that decodes and is whole leaves the region -/
  leaves : (∀ off ∈ stream, c.Decodes off) → overflow = false → ∀ a, stream.getLast? = some a →
    c.disasIsBranch a = true ∨ c.len ≤ nextOff c a

variable {c}

theorem length_decoded_le (stream : List ℕ) : (decoded c stream).length ≤ stream.length := by
  induction stream with
  | nil => exact le_rfl
  | cons off stream ih =>
    rw [decoded, List.length_cons, List.length_cons]
    split_ifs
    · exact Nat.succ_le_succ (Nat.zero_le _)
    · exact Nat.succ_le_succ ih

theorem length_blocksOf_cutEvents_le (starts : ℕ → ℕ → Bool) (prev : Option ℕ) (stream : List ℕ) :
    (blocksOf (cutEvents c starts prev stream)).length ≤ stream.length := by
  induction stream generalizing prev with
  | nil => exact le_rfl
  | cons off stream ih =>
    rw [cutEvents, Hwtrace.blocksOf_append, List.length_append, List.length_cons]
    have hrest : (blocksOf (.insn off :: if (c.disasProbe off).len = 0 then [] else
        cutEvents c starts (some off) stream)).length ≤ stream.length := by
      rw [blocksOf]
      split_ifs
      · exact Nat.zero_le _
      · exact ih _
    have hfirst : (blocksOf (if prev.all (fun a => starts a off) then [.block off] else [])).length ≤
        1 := by
      split_ifs
      · exact le_rfl
      · exact Nat.zero_le _
    omega

theorem emitAll_markTruncated (t : Trace) (evs : List Event) :
    emitAll t.markTruncated evs = (emitAll t evs).markTruncated := by
  induction evs generalizing t with
  | nil => rfl
  | cons e evs ih =>
    have hemit : Hwtrace.emit t.markTruncated e = (Hwtrace.emit t e).markTruncated := by
      cases e with
      | insn off =>
        cases hl : t.insns with
        | none => simp [Hwtrace.emit, Hwtrace.traceAppendInsn, Trace.markTruncated, hl]
        | some l =>
          simp only [Hwtrace.emit, Hwtrace.traceAppendInsn, Trace.markTruncated, hl]
          split_ifs <;> rfl
      | block off =>
        cases hl : t.blocks with
        | none => simp [Hwtrace.emit, Hwtrace.traceAppendBlock, Trace.markTruncated, hl]
        | some l =>
          simp only [Hwtrace.emit, Hwtrace.traceAppendBlock, Trace.markTruncated, hl]
          split_ifs <;> rfl
    rw [Hwtrace.emitAll_cons, Hwtrace.emitAll_cons, hemit, ih]

/-- What a trace with room holds after the events -/
theorem emitAll_of_roomy {t : Trace} {n : ℕ} (ht : Roomy t n) {evs : List Event}
    (hi : (insnsOf evs).length ≤ n) (hb : (blocksOf evs).length ≤ n) :
    (emitAll t evs).insns = t.insns.map (· ++ insnsOf evs) ∧
      (emitAll t evs).blocks.map List.toFinset =
        t.blocks.map (fun l => l.toFinset ∪ (blocksOf evs).toFinset) ∧
      (emitAll t evs).truncated = t.truncated := by
  have hfresh : ∀ t : Trace, Roomy t n → t.truncated = false →
      (emitAll t evs).insns = t.insns.map (· ++ insnsOf evs) ∧
        (emitAll t evs).blocks.map List.toFinset =
          t.blocks.map (fun l => l.toFinset ∪ (blocksOf evs).toFinset) ∧
        (emitAll t evs).truncated = t.truncated := by
    intro t ht hf
    have hroom : Hwtrace.Room t evs := by
      refine ⟨fun l hl => ?_, fun l hl => ?_⟩
      · have := ht.insns l hl
        omega
      · have := ht.blocks l hl
        have hcard := Finset.card_le_card (Finset.sdiff_subset (s := (blocksOf evs).toFinset)
          (t := l.toFinset))
        have hlen := List.toFinset_card_le (blocksOf evs)
        omega
    have hkeep := Hwtrace.truncated_emitAll_of_room hroom
    obtain ⟨-, hext⟩ := Hwtrace.emitAll_extends evs (hkeep.trans hf)
    refine ⟨hext.insns, ?_, hkeep⟩
    cases hl : t.blocks with
    | none => rw [hext.blocks_none hl]; rfl
    | some l =>
      obtain ⟨l', hl', hmem⟩ := hext.blocks_some l hl
      rw [hl', Option.map_some, Option.map_some, Option.some.injEq]
      ext x
      simp [hmem]
  cases hf : t.truncated with
  | false =>
    rw [← hf]
    exact hfresh t ht hf
  | true =>
    obtain ⟨h1, h2, h3⟩ := hfresh { t with truncated := false } ⟨ht.insns, ht.blocks⟩ rfl
    have hmark : t = Trace.markTruncated { t with truncated := false } := by
      rw [Trace.markTruncated]
      simp [← hf]
    rw [hmark, emitAll_markTruncated]
    exact ⟨h1, h2, rfl⟩

theorem markIf_fields (b : Bool) (t : Trace) :
    (markIf b t).insns = t.insns ∧ (markIf b t).blocks = t.blocks ∧
      (markIf b t).truncated = (b || t.truncated) := by
  cases b <;> exact ⟨rfl, rfl, rfl⟩

theorem ptMarks_eq_false_iff {overflow : Bool} {stream : List ℕ} :
    ptMarks c overflow stream = false ↔ (∀ off ∈ stream, c.Decodes off) ∧ overflow = false := by
  induction stream with
  | nil => simp [ptMarks]
  | cons off stream ih =>
    rw [ptMarks, List.forall_mem_cons, Code.Decodes]
    by_cases hl : (c.disasProbe off).len = 0
    · simp [hl]
    · rw [if_neg hl, ih]
      simp [hl]

theorem mem_starts_iff_entered (stream : List ℕ) (x : ℕ) :
    x ∈ blocksOf (cutEvents c (ptStarts c) none stream) ↔ Entered c (decoded c stream) x := by
  rw [mem_blocksOf_cutEvents, Entered]
  simp [ptStarts]

/-- Where no offset follows itself the two sets of block starts are equal exactly if what follows a
branch is a start for both. -/
theorem starts_eq_iff (stream : List ℕ) :
    (blocksOf (cutEvents c (ssStarts c) none stream)).toFinset =
        (blocksOf (cutEvents c (ptStarts c) none stream)).toFinset ↔
      ∀ a b, [a, b] <:+: decoded c stream → c.disasIsBranch a = true →
        Entered c (decoded c stream) b := by
  have hss : ∀ x, x ∈ blocksOf (cutEvents c (ssStarts c) none stream) ↔
      (decoded c stream).head? = some x ∨
        ∃ a, [a, x] <:+: decoded c stream ∧ (x ≠ nextOff c a ∨ c.disasIsBranch a = true) := by
    intro x
    rw [mem_blocksOf_cutEvents]
    simp [ssStarts]
  constructor
  · intro h a b hab hbr
    rw [← mem_starts_iff_entered, ← List.mem_toFinset, ← h, List.mem_toFinset, hss]
    exact .inr ⟨a, hab, .inr hbr⟩
  · intro h
    ext x
    rw [List.mem_toFinset, List.mem_toFinset, mem_starts_iff_entered, hss]
    constructor
    · rintro (hx | ⟨a, hab, hne | hbr⟩)
      · exact .inl hx
      · exact .inr ⟨a, hab, hne⟩
      · exact h a x hab hbr
    · rintro (hx | ⟨a, hab, hne⟩)
      · exact .inl hx
      · exact .inr ⟨a, hab, .inl hne⟩

theorem marks_eq_iff (overflow : Bool) (stream : List ℕ) :
    ssMarks c overflow none stream = ptMarks c overflow stream ↔
      ((∀ off ∈ stream, c.Decodes off) → overflow = false → ∀ a, stream.getLast? = some a →
        c.disasIsBranch a = true ∨ c.len ≤ nextOff c a) := by
  rw [ssMarks_eq overflow (fun a ha => by cases ha) stream, Option.toList_none, List.nil_append]
  constructor
  · intro h hdec hov a ha
    rw [ptMarks_eq_false_iff.2 ⟨hdec, hov⟩, Bool.false_or, ha] at h
    by_contra hno
    rw [not_or, Nat.not_le, Bool.not_eq_true] at hno
    simp [hno] at h
  · intro h
    cases hm : ptMarks c overflow stream with
    | true => rfl
    | false =>
      obtain ⟨hdec, hov⟩ := ptMarks_eq_false_iff.1 hm
      rw [Bool.false_or]
      cases ha : stream.getLast? with
      | none => rfl
      | some a =>
        rcases h hdec hov a ha with hbr | hle
        · simp [hbr]
        · simp [Nat.not_lt.2 hle]

/-- The two materialisers agree on a stream exactly if it gives them nothing to differ on. -/
theorem normalisers_agree_iff (c : Code) (stream : List ℕ) (overflow : Bool) :
    NormalisersAgree c stream overflow ↔ Plain c stream overflow := by
  have hss : ∀ t : Trace, ssNormalizeLoop c t overflow none stream =
      markIf (ssMarks c overflow none stream) (emitAll t (ssEvents c none stream)) :=
    fun t => ssNormalizeLoop_eq t overflow none stream
  have hpt : ∀ t : Trace, Hwtrace.normalize c t (stream, overflow) =
      markIf (ptMarks c overflow stream) (emitAll t (cutEvents c (ptStarts c) none stream)) :=
    fun t => normalizeLoop_eq t overflow none stream
  have hlen := length_decoded_le (c := c) stream
  have hroom : ∀ starts, (insnsOf (cutEvents c starts none stream)).length ≤ stream.length := by
    intro starts
    rwa [insnsOf_cutEvents]
  constructor
  · intro h
    let t : Trace := ⟨some [], stream.length, 0, some [], stream.length, 0, false⟩
    have ht : Roomy t stream.length := by
      refine ⟨fun l hl => ?_, fun l hl => ?_⟩
      · rw [← Option.some.inj hl, List.length_nil, Nat.zero_add]
      · rw [← Option.some.inj hl, List.length_nil, Nat.zero_add]
    obtain ⟨hinsns, hblocks, hflag⟩ := h t ht
    obtain ⟨hpi, hpb, hpf⟩ := emitAll_of_roomy ht (hroom (ptStarts c))
      (length_blocksOf_cutEvents_le (ptStarts c) none stream)
    simp only [hss, hpt, (markIf_fields _ _).1, (markIf_fields _ _).2.1,
      (markIf_fields _ _).2.2] at hinsns hblocks hflag
    have hrep : ∀ a, ¬[a, a] <:+: decoded c stream := by
      refine no_repeat_of_insnsOf_eq none (fun a ha => by cases ha) ?_
      have hle := length_insnsOf_ssEvents_le (c := c) none (fun a ha => by cases ha) stream
      rw [hpi, Hwtrace.insns_emitAll _ rfl, Option.map_some, Option.some.injEq,
        insnsOf_cutEvents, List.nil_append, List.nil_append] at hinsns
      rwa [show t.insnsCap - [].length = stream.length from rfl,
        List.take_of_length_le (hle.trans hlen)] at hinsns
    rw [ssEvents_eq_cutEvents none hrep] at hblocks hflag
    obtain ⟨-, hsb, hsf⟩ := emitAll_of_roomy ht (hroom (ssStarts c))
      (length_blocksOf_cutEvents_le (ssStarts c) none stream)
    refine ⟨hrep, (starts_eq_iff stream).1 ?_, (marks_eq_iff overflow stream).1 ?_⟩
    · rw [hsb, hpb] at hblocks
      simpa [t] using hblocks
    · rw [hsf, hpf] at hflag
      simpa [t] using hflag
  · intro h t ht
    obtain ⟨hpi, hpb, hpf⟩ := emitAll_of_roomy ht (hroom (ptStarts c))
      (length_blocksOf_cutEvents_le (ptStarts c) none stream)
    obtain ⟨hsi, hsb, hsf⟩ := emitAll_of_roomy ht (hroom (ssStarts c))
      (length_blocksOf_cutEvents_le (ssStarts c) none stream)
    simp only [hss, hpt, (markIf_fields _ _).1, (markIf_fields _ _).2.1, (markIf_fields _ _).2.2,
      ssEvents_eq_cutEvents none h.no_repeat]
    refine ⟨?_, ?_, ?_⟩
    · rw [hsi, hpi, insnsOf_cutEvents, insnsOf_cutEvents]
    · rw [hsb, hpb, (starts_eq_iff stream).2 h.branch_ends]
    · rw [hsf, hpf, (marks_eq_iff overflow stream).2 h.leaves]

/-- A conditional branch that is not taken: the block behind it is missing in the trace of the
ptrace backend. -/
theorem normalisers_differ_behind_branch :
    ¬NormalisersAgree (Hwtrace.unitCode 100 [.jcc 102, .plain, .ret]) [0, 1, 2] false := by
  intro h
  have hroom : Roomy ⟨some [], 3, 0, some [], 3, 0, false⟩ 3 := by
    refine ⟨fun l hl => ?_, fun l hl => ?_⟩
    · rw [← Option.some.inj hl]
      decide
    · rw [← Option.some.inj hl]
      decide
  exact absurd (h _ hroom).2.1 (by decide)

end Agree

end AsmTest.Ss
