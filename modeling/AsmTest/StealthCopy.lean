import AsmTest.Trace

/-!
# Copying a shadow trace back

The stealth helpers fill a shadow trace in shared memory, and the caller copies it into a trace of
its own. The copy stops at the caller's capacities and takes the shadow's flag as it is.
-/

namespace AsmTest.Hwtrace

section Source

/-- A trace without entries; a buffer may be missing. -/
def newTrace (insns blocks : Bool) (insnsCap blocksCap : ℕ) : Trace where
  insns := if insns then some [] else none
  insnsCap := insnsCap
  insnsTotal := 0
  blocks := if blocks then some [] else none
  blocksCap := blocksCap
  blocksTotal := 0
  truncated := false

/-- The capacities of a shadow that is made for one caller's trace -/
def scratchCaps (trace : Trace) : ℕ × ℕ :=
  (min (if trace.insnsCap ≠ 0 then trace.insnsCap else 256) 65536,
    min (if trace.blocksCap ≠ 0 then trace.blocksCap else 64) 4096)

/-- The capacities of `asmtest_hwtrace_stealth_window_begin`, which sees no trace -/
def windowCaps : ℕ × ℕ :=
  (65536, 4096)

/-- What a helper leaves: it appends, and may give up and raise the flag itself. -/
def shadowOf (caps : ℕ × ℕ) (evs : List Event) (gaveUp : Bool) : Trace :=
  let shadow := emitAll (newTrace true true caps.1 caps.2) evs
  if gaveUp then shadow.markTruncated else shadow

/-- The copy of a shadow into the caller's buffers -/
def copyBack (trace shadow : Trace) : Trace :=
  { trace with
    insns := trace.insns.map fun _ => (shadow.insns.getD []).take trace.insnsCap
    insnsTotal := shadow.insnsTotal
    blocks := trace.blocks.map fun _ => (shadow.blocks.getD []).take trace.blocksCap
    blocksTotal := shadow.blocksTotal
    truncated := shadow.truncated }

/-- `asmtest_hwtrace_stealth_trace` after the helper succeeded -/
def hwtraceStealthTrace (trace : Trace) (evs : List Event) (gaveUp : Bool) : Trace :=
  copyBack trace (shadowOf (scratchCaps trace) evs gaveUp)

/-- `asmtest_hwtrace_stealth_trace_windowed` after the helper succeeded -/
def hwtraceStealthTraceWindowed (trace : Trace) (evs : List Event) (gaveUp : Bool) : Trace :=
  copyBack trace (shadowOf (scratchCaps trace) evs gaveUp)

/-- `asmtest_hwtrace_stealth_window_end` after the helper succeeded -/
def hwtraceStealthWindowEnd (trace : Trace) (evs : List Event) (gaveUp : Bool) : Trace :=
  copyBack trace (shadowOf windowCaps evs gaveUp)

end Source

section Spec

/-- A trace that records instructions and has fewer than it counted, or that records blocks and
lacks one it was given, has its flag set. -/
structure Kept (given : List ℕ) (t : Trace) : Prop where
  insns : ∀ l ∈ t.insns, l.length < t.insnsTotal → t.truncated = true
  blocks : ∀ l ∈ t.blocks, ∀ off ∈ given, off ∉ l → t.truncated = true

/-- The shadow has its flag set, or the caller's buffers have room for what the shadow stored. -/
def Fits (trace shadow : Trace) : Prop :=
  shadow.truncated = true ∨
    (trace.insns.isSome → (shadow.insns.getD []).length ≤ trace.insnsCap) ∧
      (trace.blocks.isSome → (shadow.blocks.getD []).length ≤ trace.blocksCap)

end Spec

section Append

variable {t : Trace}

lemma insnsTotal_emit (t : Trace) (e : Event) :
    (emit t e).insnsTotal = t.insnsTotal + (insnsOf [e]).length := by
  cases e with
  | insn off => rfl
  | block off =>
    cases hl : t.blocks with
    | none =>
      rw [emit, traceAppendBlock_none hl]
      rfl
    | some l =>
      rw [emit, traceAppendBlock_some hl]
      split_ifs <;> rfl

lemma insnsTotal_emitAll (t : Trace) (evs : List Event) :
    (emitAll t evs).insnsTotal = t.insnsTotal + (insnsOf evs).length := by
  induction evs generalizing t with
  | nil => rfl
  | cons e evs ih =>
    have hcons : insnsOf (e :: evs) = insnsOf [e] ++ insnsOf evs := insnsOf_append [e] evs
    rw [emitAll_cons, ih, insnsTotal_emit, hcons, List.length_append, Nat.add_assoc]

/-- Appending keeps the invariant, whatever is recorded and whatever the capacities. -/
lemma newTrace_kept (insns blocks : Bool) (insnsCap blocksCap : ℕ) (evs : List Event) :
    Kept (blocksOf evs) (emitAll (newTrace insns blocks insnsCap blocksCap) evs) := by
  by_cases hmark : (emitAll (newTrace insns blocks insnsCap blocksCap) evs).truncated = true
  · exact ⟨fun _ _ _ => hmark, fun _ _ _ _ _ => hmark⟩
  · obtain ⟨-, hext⟩ := emitAll_extends evs (Bool.eq_false_iff.2 hmark)
    refine ⟨fun l hl hlt => ?_, fun l hl off hoff hout => ?_⟩
    · rw [insnsTotal_emitAll] at hlt
      rw [Option.mem_def, hext.insns] at hl
      cases insns with
      | false => cases hl
      | true =>
        obtain rfl := Option.some.inj hl
        simp [newTrace] at hlt
    · cases blocks with
      | false =>
        rw [Option.mem_def, hext.blocks_none rfl] at hl
        cases hl
      | true =>
        obtain ⟨l', hl', hmem⟩ := hext.blocks_some [] rfl
        obtain rfl := Option.some.inj (hl'.symm.trans hl)
        exact absurd ((hmem off).2 (Or.inr hoff)) hout

/-- A start is stored once. -/
lemma nodup_emit {e : Event} (h : ∀ l ∈ t.blocks, l.Nodup) :
    ∀ l ∈ (emit t e).blocks, l.Nodup := by
  cases e with
  | insn off =>
    cases hl : t.insns with
    | none =>
      rw [emit, traceAppendInsn_none hl]
      exact h
    | some l =>
      rw [emit, traceAppendInsn_some hl]
      split_ifs
      · exact h
      · exact h
  | block off =>
    cases hl : t.blocks with
    | none =>
      rw [emit, traceAppendBlock_none hl]
      exact h
    | some l =>
      rw [emit, traceAppendBlock_some hl]
      split_ifs with hmem hroom
      · exact h
      · intro l' hl'
        obtain rfl := Option.some.inj hl'
        refine (h l hl).append (List.nodup_singleton off) ?_
        exact List.disjoint_singleton.2 hmem
      · exact h

/-- The starts stored never exceed their capacity. -/
lemma blocks_le_emit (e : Event) (h : ∀ l ∈ t.blocks, l.length ≤ t.blocksCap) :
    (emit t e).blocksCap = t.blocksCap ∧ ∀ l ∈ (emit t e).blocks, l.length ≤ t.blocksCap := by
  cases e with
  | insn off =>
    cases hl : t.insns with
    | none =>
      rw [emit, traceAppendInsn_none hl]
      exact ⟨rfl, h⟩
    | some l =>
      rw [emit, traceAppendInsn_some hl]
      split_ifs
      · exact ⟨rfl, h⟩
      · exact ⟨rfl, h⟩
  | block off =>
    cases hl : t.blocks with
    | none =>
      rw [emit, traceAppendBlock_none hl]
      exact ⟨rfl, h⟩
    | some l =>
      rw [emit, traceAppendBlock_some hl]
      split_ifs with hmem hroom
      · exact ⟨rfl, h⟩
      · refine ⟨rfl, fun l' hl' => ?_⟩
        obtain rfl := Option.some.inj hl'
        rw [List.length_append]
        exact hroom
      · exact ⟨rfl, h⟩

lemma blocks_le_emitAll (evs : List Event) (h : ∀ l ∈ t.blocks, l.length ≤ t.blocksCap) :
    ∀ l ∈ (emitAll t evs).blocks, l.length ≤ t.blocksCap := by
  induction evs generalizing t with
  | nil => exact h
  | cons e evs ih =>
    obtain ⟨hcap, hle⟩ := blocks_le_emit e h
    rw [← hcap] at hle ⊢
    exact ih hle

lemma nodup_emitAll (evs : List Event) (h : ∀ l ∈ t.blocks, l.Nodup) :
    ∀ l ∈ (emitAll t evs).blocks, l.Nodup := by
  induction evs generalizing t with
  | nil => exact h
  | cons e evs ih => exact ih (nodup_emit h)

end Append

section Copy

variable {caps : ℕ × ℕ} {evs : List Event} {gaveUp : Bool}

/-- A shadow without its flag has every instruction, and every block once. -/
lemma shadowOf_complete (h : (shadowOf caps evs gaveUp).truncated = false) :
    (shadowOf caps evs gaveUp).insns = some (insnsOf evs) ∧
      (shadowOf caps evs gaveUp).insnsTotal = (insnsOf evs).length ∧
      ∃ l, (shadowOf caps evs gaveUp).blocks = some l ∧ l.Nodup ∧
        ∀ x, x ∈ l ↔ x ∈ blocksOf evs := by
  cases gaveUp with
  | true => cases h
  | false =>
    have hshadow : shadowOf caps evs false = emitAll (newTrace true true caps.1 caps.2) evs := rfl
    rw [hshadow] at h ⊢
    obtain ⟨-, hext⟩ := emitAll_extends evs h
    obtain ⟨l, hl, hmem⟩ := hext.blocks_some [] rfl
    refine ⟨hext.insns, ?_, l, hl, ?_, fun x => ?_⟩
    · rw [insnsTotal_emitAll]
      exact Nat.zero_add _
    · refine nodup_emitAll evs (fun l' hl' => ?_) l hl
      obtain rfl := Option.some.inj hl'
      exact List.nodup_nil
    · rw [hmem x, or_iff_right (List.not_mem_nil)]

/-- A list without repetitions loses an entry when it is cut. -/
lemma exists_notMem_take {l : List ℕ} (hl : l.Nodup) {n : ℕ} (hn : n < l.length) :
    ∃ x ∈ l, x ∉ l.take n := by
  refine ⟨l[n], List.getElem_mem hn, fun hmem => ?_⟩
  have hsplit : (l.take n ++ l.drop n).Nodup := by rwa [List.take_append_drop]
  have hdrop : l[n] ∈ l.drop n := by
    rw [List.drop_eq_getElem_cons hn]
    exact List.mem_cons_self
  exact (List.nodup_append.1 hsplit).2.2 _ hmem _ hdrop rfl

/-- A copy keeps the invariant exactly when the shadow had to give up or the caller has room. -/
lemma copyBack_kept_iff (trace : Trace) :
    Kept (blocksOf evs) (copyBack trace (shadowOf caps evs gaveUp)) ↔
      Fits trace (shadowOf caps evs gaveUp) := by
  by_cases hmark : (shadowOf caps evs gaveUp).truncated = true
  · exact ⟨fun _ => Or.inl hmark, fun _ => ⟨fun _ _ _ => hmark, fun _ _ _ _ _ => hmark⟩⟩
  · obtain ⟨hinsns, htotal, l, hblocks, hnodup, hmem⟩ :=
      shadowOf_complete (Bool.eq_false_iff.2 hmark)
    have hflag : (copyBack trace (shadowOf caps evs gaveUp)).truncated ≠ true := hmark
    rw [Fits, or_iff_right hmark, hinsns, hblocks, Option.getD_some, Option.getD_some]
    constructor
    · intro h
      refine ⟨fun hsome => ?_, fun hsome => ?_⟩
      · obtain ⟨l', hl'⟩ := Option.isSome_iff_exists.1 hsome
        by_contra hlong
        have hcopy : (insnsOf evs).take trace.insnsCap ∈
            (copyBack trace (shadowOf caps evs gaveUp)).insns := by
          rw [copyBack, hinsns, hl']
          rfl
        refine hflag (h.insns _ hcopy ?_)
        rw [copyBack, htotal, List.length_take]
        omega
      · obtain ⟨l', hl'⟩ := Option.isSome_iff_exists.1 hsome
        by_contra hlong
        have hcopy : l.take trace.blocksCap ∈
            (copyBack trace (shadowOf caps evs gaveUp)).blocks := by
          rw [copyBack, hblocks, hl']
          rfl
        obtain ⟨x, hx, hout⟩ := exists_notMem_take hnodup (Nat.lt_of_not_le hlong)
        exact hflag (h.blocks _ hcopy x ((hmem x).1 hx) hout)
    · rintro ⟨hroom, hroom'⟩
      refine ⟨fun l' hl' hlt => ?_, fun l' hl' off hoff hout => ?_⟩
      · rw [copyBack, Option.mem_def, Option.map_eq_some_iff] at hl'
        obtain ⟨own, hown, rfl⟩ := hl'
        rw [copyBack, htotal, hinsns, Option.getD_some,
          List.take_of_length_le (hroom (Option.isSome_iff_exists.2 ⟨own, hown⟩))] at hlt
        exact absurd hlt (Nat.lt_irrefl _)
      · rw [copyBack, Option.mem_def, Option.map_eq_some_iff] at hl'
        obtain ⟨own, hown, rfl⟩ := hl'
        have hfit := hroom' (Option.isSome_iff_exists.2 ⟨own, hown⟩)
        rw [hblocks, Option.getD_some, List.take_of_length_le hfit, hmem off] at hout
        exact absurd hoff hout

/-- A shadow stores no more than its capacities. -/
lemma length_shadowOf (caps : ℕ × ℕ) (evs : List Event) (gaveUp : Bool) :
    ((shadowOf caps evs gaveUp).insns.getD []).length ≤ caps.1 ∧
      ((shadowOf caps evs gaveUp).blocks.getD []).length ≤ caps.2 := by
  have hflag : ∀ t : Trace, (if gaveUp then t.markTruncated else t).insns = t.insns ∧
      (if gaveUp then t.markTruncated else t).blocks = t.blocks := by
    intro t
    cases gaveUp with
    | false => exact ⟨rfl, rfl⟩
    | true => exact ⟨rfl, rfl⟩
  rw [shadowOf, (hflag _).1, (hflag _).2]
  constructor
  · rw [insns_emitAll evs (t := newTrace true true caps.1 caps.2) rfl, Option.getD_some]
    exact List.length_take_le _ _
  · have hnew : ∀ l ∈ (newTrace true true caps.1 caps.2).blocks, l.length ≤ caps.2 := by
      intro l hl
      obtain rfl := Option.some.inj hl
      exact Nat.zero_le _
    cases hl : (emitAll (newTrace true true caps.1 caps.2) evs).blocks with
    | none => exact Nat.zero_le _
    | some l => exact blocks_le_emitAll evs hnew l hl

/-- A shadow made for the caller's trace fits, unless a buffer of the caller has no capacity. -/
lemma fits_scratchCaps {trace : Trace} (hinsns : trace.insns.isSome → trace.insnsCap ≠ 0)
    (hblocks : trace.blocks.isSome → trace.blocksCap ≠ 0) :
    Fits trace (shadowOf (scratchCaps trace) evs gaveUp) := by
  obtain ⟨hle, hle'⟩ := length_shadowOf (scratchCaps trace) evs gaveUp
  refine Or.inr ⟨fun h => hle.trans ?_, fun h => hle'.trans ?_⟩
  · rw [scratchCaps, if_pos (hinsns h)]
    exact min_le_left _ _
  · rw [scratchCaps, if_pos (hblocks h)]
    exact min_le_left _ _

end Copy

section Truncation

variable (evs : List Event) (gaveUp : Bool)

/-- The invariant holds after any appends, and after a copy exactly when the shadow had its flag set
or the caller's buffers have room for what the shadow stored. -/
theorem truncation_kept_iff :
    (∀ insns blocks insnsCap blocksCap,
      Kept (blocksOf evs) (emitAll (newTrace insns blocks insnsCap blocksCap) evs)) ∧
    ∀ trace,
      (Kept (blocksOf evs) (hwtraceStealthTrace trace evs gaveUp) ↔
        Fits trace (shadowOf (scratchCaps trace) evs gaveUp)) ∧
      (Kept (blocksOf evs) (hwtraceStealthTraceWindowed trace evs gaveUp) ↔
        Fits trace (shadowOf (scratchCaps trace) evs gaveUp)) ∧
      (Kept (blocksOf evs) (hwtraceStealthWindowEnd trace evs gaveUp) ↔
        Fits trace (shadowOf windowCaps evs gaveUp)) := by
  refine ⟨fun insns blocks insnsCap blocksCap => ?_, fun trace => ⟨?_, ?_, ?_⟩⟩
  · exact newTrace_kept insns blocks insnsCap blocksCap evs
  · exact copyBack_kept_iff trace
  · exact copyBack_kept_iff trace
  · exact copyBack_kept_iff trace

/-- With a capacity for each of its buffers, a caller that has its shadow made for it is safe. -/
theorem stealth_trace_kept {trace : Trace} (hinsns : trace.insns.isSome → trace.insnsCap ≠ 0)
    (hblocks : trace.blocks.isSome → trace.blocksCap ≠ 0) :
    Kept (blocksOf evs) (hwtraceStealthTrace trace evs gaveUp) ∧
      Kept (blocksOf evs) (hwtraceStealthTraceWindowed trace evs gaveUp) :=
  ⟨(copyBack_kept_iff trace).2 (fits_scratchCaps hinsns hblocks),
    (copyBack_kept_iff trace).2 (fits_scratchCaps hinsns hblocks)⟩

/-- The end of a window: two instructions do not fit a caller's buffer of one, and nothing says
so. -/
theorem window_end_drops_silently :
    ¬Kept (blocksOf [.insn 0, .insn 4])
      (hwtraceStealthWindowEnd (newTrace true true 1 1) [.insn 0, .insn 4] false) := by
  intro h
  have hmark := h.insns [0] (by decide) (by decide)
  exact absurd hmark (by decide)

end Truncation

end AsmTest.Hwtrace
