import AsmTest.TakeCone

/-!
# The reweave

`loom_take_run_from_step` runs a routine to step `k`, edits the state there and runs on, and joins
the two value traces. The engine under it is a parameter. The graph over the joined trace does not
know of the edit: it is the graph with the edit placed as a write before step `k` exactly if no
crossing edge rests on edited bytes alone.
-/

namespace AsmTest.Loom

open LastWriter
open Dataflow (ValRec ValTrace DefUseEdge LwKey lwKeys defuseBuild appendAll valtraceNew Stamped
  groupAt toEdge)

/-! ## The producer over a live engine -/

/-- `emu_result_t` -/
structure EmuResult where
  ok : Bool := false
  faulted : Bool := false
  faultAddr : BitVec 64 := 0
  faultKind : ℕ := 0
  deriving DecidableEq, Repr

/-- What one run gives: every step with the state before it and the call that appends it, the return
code, the fault and the state at the end -/
structure Captured (σ : Type) where
  steps : List (σ × BitVec 64 × List ValRec)
  rc : ℤ
  result : EmuResult
  final : σ

/-- The value trace of a run in the buffers of a take -/
def Captured.trace {σ : Type} (c : Captured σ) : ValTrace :=
  appendAll (valtraceNew kTakeSteps kTakeRecs) (c.steps.map Prod.snd)

/-- The engine: its states and its snapshots -/
structure Emu (σ ς : Type) where
  start : Option σ
  seed : σ → List UInt8 → List (BitVec 64) → σ
  capture : σ → List UInt8 → Captured σ
  snapshot : σ → Option ς
  restore : σ → ς → Option σ
  regWrite : σ → BitVec 32 → BitVec 64 → Option σ
  memWrite : σ → BitVec 64 → List UInt8 → Option σ

/-- The table of `asmtest_dataflow_emu_edit_gp`, by the id that the records give the register -/
def gpTab : List (String × BitVec 32) := [
  ("rax", 35), ("rbx", 37), ("rcx", 38), ("rdx", 40), ("rsi", 43), ("rdi", 39), ("rbp", 36),
  ("rsp", 44), ("r8", 106), ("r9", 107), ("r10", 108), ("r11", 109), ("r12", 110), ("r13", 111),
  ("r14", 112), ("r15", 113), ("rip", 41), ("rflags", 25)]

inductive EditKind
  | reg | mem
  deriving DecidableEq, Repr

/-- `loom_from_step_edit_t` -/
structure LoomFromStepEdit where
  k : EditKind := .reg
  step : ℕ := 0
  reg : String := ""
  regValue : BitVec 64 := 0
  memAddr : BitVec 64 := 0
  memBytes : List UInt8 := []

/-- `loom_take_t` -/
structure LoomTake where
  producer : String := ""
  code : List UInt8 := []
  args : List (BitVec 64) := []
  insnOff : List (BitVec 64) := []
  recs : List ValRec := []
  edges : List DefUseEdge := []
  result : EmuResult := {}
  err : String := ""

def LoomTake.vt (out : LoomTake) : ValTrace :=
  ⟨out.insnOff, out.insnOff.length, out.insnOff.length, out.recs, out.recs.length, out.recs.length,
    false, .memAbs⟩

section Source

variable {σ ς : Type} (E : Emu σ ς)

/-- The run from entry, and a snapshot before step `k` -/
def emuCheckpoint (e : σ) (code : List UInt8) (args : List (BitVec 64)) (k : ℕ) :
    Captured σ × Option ς :=
  let c := E.capture (E.seed e code args) code
  (c, c.steps[k]?.bind fun s => E.snapshot s.1)

def emuEditGp (e : σ) (name : String) (val : BitVec 64) : Option σ :=
  (gpTab.lookup name).bind fun r => E.regWrite e r val

def emuEditMem (e : σ) (addr : BitVec 64) (bytes : List UInt8) : Option σ :=
  if bytes.length = 0 then none else E.memWrite e addr bytes

/-- The two traces of a reweave, and how the second run ended -/
structure Reweave where
  base : ValTrace
  tail : ValTrace
  rct : ℤ
  result : EmuResult

/-- The checkpoint, the edit and the run from there -/
def reweaveRun (code : List UInt8) (args : List (BitVec 64)) (edit : LoomFromStepEdit) :
    Except String Reweave :=
  match E.start with
  | none => .error "could not open the emulator handle for the reweave"
  | some e =>
    let (c, snap) := emuCheckpoint E e code args edit.step
    if c.rc < 0 then .error "the emulator L0 producer could not set up this reweave"
    else match snap with
    | none =>
      .error ("step " ++ toString edit.step ++ " is at or past this run's " ++
        toString c.trace.stepsLen ++ " steps — no checkpoint to reweave from")
    | some s =>
      match E.restore c.final s with
      | none => .error ("could not restore the checkpoint at step " ++ toString edit.step)
      | some e =>
        let edited := match edit.k with
          | .reg => emuEditGp E e edit.reg edit.regValue
          | .mem => emuEditMem E e edit.memAddr edit.memBytes
        match edited with
        | none => .error (match edit.k with
          | .reg => "unknown register '" ++ edit.reg ++ "' for the reweave edit"
          | .mem => "the reweave memory edit could not be applied " ++
              "(unmapped address or empty bytes)")
        | some e =>
          let t := E.capture e code
          if t.rc < 0 then
            .error ("the reweave resume could not run forward from step " ++ toString edit.step)
          else .ok ⟨c.trace, t.trace, t.rc, t.result⟩

/-- The steps of the first trace below `k` and the second trace from `k` on; the step of a record
has 32 bits. -/
def stitch (k : ℕ) (base tail : ValTrace) (out : LoomTake) : LoomTake :=
  { out with
    insnOff := base.insnOff.take k ++ tail.insnOff
    recs := (base.recs.filter fun r => r.step < k) ++
      tail.recs.map fun r => stamp ((r.step + k) % 2 ^ 32) r }

/-- The graph over the joined trace -/
def rebuildEdges (out : LoomTake) : LoomTake :=
  match defuseBuild out.vt with
  | some g => { out with edges := g.edges }
  | none => out

def loomTakeRunFromStep (code : List UInt8) (args : List (BitVec 64)) (nargs : ℤ)
    (edit : LoomFromStepEdit) : Bool × LoomTake :=
  let out : LoomTake := { producer := "dataflow-emu (reweave@" ++ toString edit.step ++ ")" }
  if code = [] then (false, { out with err := "no base code to reweave from" })
  else if nargs < 0 ∨ 6 < nargs then
    (false, { out with err := "the SysV integer-argument table holds at most 6 arguments" })
  else
    let out := { out with code, args := args.take nargs.toNat }
    match reweaveRun E code (args.take nargs.toNat) edit with
    | .error why => (false, { out with err := why })
    | .ok w =>
      let out := rebuildEdges (stitch (edit.step % 2 ^ 32) w.base w.tail out)
      (true, { out with
        result := w.result
        err :=
          if w.base.truncated || w.tail.truncated then
            "the reweave's operand buffers filled: its fabric is a lower bound"
          else if w.rct = 1 then
            "the reweave faulted after the edit at step " ++ toString edit.step
          else "" })

end Source

/-! ## What the graph should be -/

/-- The edit as write records: the register, or the memory byte by byte -/
def LoomFromStepEdit.writes (edit : LoomFromStepEdit) : List ValRec :=
  match edit.k with
  | .reg =>
    (gpTab.lookup edit.reg).toList.map fun reg => { kind := .reg, reg, size := 8, isWrite := true }
  | .mem =>
    (List.range edit.memBytes.length).map fun i =>
      { kind := .memAbs, addr := edit.memAddr + BitVec.ofNat 64 i, size := 1, isWrite := true }

def LoomFromStepEdit.places (edit : LoomFromStepEdit) : List LwKey :=
  edit.writes.flatMap lwKeys

/-- The joined trace with the edit as a step of its own before step `k` -/
def placedTrace (edit : LoomFromStepEdit) (base tail : ValTrace) : ValTrace :=
  let off := base.insnOff.take edit.step ++ 0 :: tail.insnOff
  let recs := (base.recs.filter fun r => r.step < edit.step) ++
    (edit.writes.map (stamp edit.step) ++
      tail.recs.map fun r => stamp (r.step + edit.step + 1) r)
  ⟨off, off.length, off.length, recs, recs.length, recs.length, false, .memAbs⟩

/-- A record with the number of its step in the trace with the edit -/
def restamp (k : ℕ) (r : ValRec) : ValRec :=
  stamp (skip k r.step) r

def renumber (k : ℕ) (e : DefUseEdge) : DefUseEdge :=
  ⟨skip k e.fromStep, skip k e.toStep, restamp k e.loc⟩

/-- The trace has the steps below `k` and the tail from `k` on, no edge goes through the edited
location, and the edges are those of the trace with the edit in it, but for the edges from the edit
itself. -/
structure ReweaveOk (edit : LoomFromStepEdit) (base tail : ValTrace) (take : LoomTake) : Prop where
  off : take.insnOff = base.insnOff.take edit.step ++ tail.insnOff
  recs : take.recs = (base.recs.filter fun r => r.step < edit.step) ++
    tail.recs.map fun r => stamp (r.step + edit.step) r
  through : ∀ e ∈ take.edges, e.fromStep < edit.step → edit.step ≤ e.toStep →
    ¬∀ c ∈ lwKeys e.loc, c ∈ edit.places
  rest : ∃ g, defuseBuild (placedTrace edit base tail) = some g ∧
    ∀ e', (e' ∈ g.edges ∧ e'.fromStep ≠ edit.step) ↔
      ∃ e ∈ take.edges, e' = renumber edit.step e

/-- The places that step `t` of a trace writes -/
def writtenAt (v : ValTrace) : ℕ → List LwKey :=
  writesOf ValRec.isWrite lwKeys v.stepRecs

/-- Step `p` below `k` is the last to write the place when the tail reaches its step `j`. -/
def Feeds (base tail : ValTrace) (k p j : ℕ) (c : LwKey) : Prop :=
  c ∈ writtenAt base p ∧ (∀ u, p < u → u < k → c ∉ writtenAt base u) ∧
    ∀ i < j, c ∉ writtenAt tail i

/-- A read of the tail that takes a byte from a step below `k` takes a byte from that step that the
edit does not cover. -/
def NotThrough (edit : LoomFromStepEdit) (base tail : ValTrace) : Prop :=
  ∀ p < edit.step, ∀ j, j + edit.step < min edit.step base.stepsLen + tail.stepsLen →
    ∀ r ∈ tail.stepRecs j, r.isWrite = false →
      (∃ c ∈ lwKeys r, Feeds base tail edit.step p j c) →
        ∃ c ∈ lwKeys r, Feeds base tail edit.step p j c ∧ c ∉ edit.places

/-- The numbers of the joined trace fit in 32 bits. -/
def NumbersFit (edit : LoomFromStepEdit) (base tail : ValTrace) : Prop :=
  (edit.step < 2 ^ 32 ∨ base.stepsLen ≤ edit.step % 2 ^ 32) ∧
    ∀ r ∈ tail.recs, r.step + edit.step < 2 ^ 32

/-! ## The recorded traces -/

lemma stepsLen_appendAll_le (calls : List (BitVec 64 × List ValRec)) {v : ValTrace}
    (h : v.stepsLen ≤ v.stepsCap) :
    (appendAll v calls).stepsLen ≤ v.stepsCap := by
  induction calls generalizing v with
  | nil => exact h
  | cons c calls ih =>
    have hcap := Dataflow.valtraceAppend_stepsCap v c.1 c.2
    have hlen : (Dataflow.valtraceAppend v c.1 c.2).stepsLen ≤ v.stepsCap := by
      rw [Dataflow.stepsLen_append]
      split_ifs <;> omega
    rw [← hcap] at hlen ⊢
    exact ih hlen

lemma Captured.stepsLen_le {σ : Type} (c : Captured σ) : c.trace.stepsLen ≤ kTakeSteps :=
  stepsLen_appendAll_le _ (Nat.zero_le _)

lemma Captured.stamped {σ : Type} (c : Captured σ) : Stamped c.trace := by
  apply Dataflow.stamped_appendAll
  have := c.stepsLen_le
  rw [kTakeSteps] at this
  exact this.trans_lt (by decide)

/-- What the two traces of a reweave are -/
structure Traces (base tail : ValTrace) : Prop where
  baseStamped : Stamped base
  tailStamped : Stamped tail
  baseLen : base.stepsLen ≤ kTakeSteps
  tailLen : tail.stepsLen ≤ kTakeSteps

lemma traces_of_run {σ ς : Type} {E : Emu σ ς} {code : List UInt8} {args : List (BitVec 64)}
    {edit : LoomFromStepEdit} {w : Reweave} (h : reweaveRun E code args edit = .ok w) :
    Traces w.base w.tail := by
  unfold reweaveRun at h
  cases he : E.start with
  | none =>
    rw [he] at h
    cases h
  | some e =>
    rw [he] at h
    dsimp only at h
    split_ifs at h with hrc
    split at h
    · cases h
    · split at h
      · cases h
      · split at h
        · cases h
        · split_ifs at h with hrct
          cases h
          exact ⟨Captured.stamped _, Captured.stamped _, Captured.stepsLen_le _,
            Captured.stepsLen_le _⟩

/-! ## The joined trace -/

section Join

variable {edit : LoomFromStepEdit} {base tail : ValTrace}

/-- The records of the joined trace by the step numbers that are meant -/
def joined (k : ℕ) (base tail : ValTrace) : List ValRec :=
  (base.recs.filter fun r => r.step < k) ++ tail.recs.map fun r => stamp (r.step + k) r

lemma joined_sorted (h : Traces base tail) (k : ℕ) :
    (joined k base tail).Pairwise fun a b => a.step ≤ b.step := by
  rw [joined, List.pairwise_append]
  refine ⟨h.baseStamped.sorted.filter _, ?_, fun a ha b hb => ?_⟩
  · rw [List.pairwise_map]
    exact h.tailStamped.sorted.imp fun hab => Nat.add_le_add_right hab k
  · obtain ⟨q, -, rfl⟩ := List.mem_map.mp hb
    have hlt := of_decide_eq_true (List.mem_filter.mp ha).2
    change a.step ≤ q.step + k
    omega

/-- The records of a step below `k` are those of the first trace. -/
lemma filter_joined_lt {k t : ℕ} (ht : t < k) :
    ((joined k base tail).filter fun r => r.step = t) = base.stepRecs t := by
  have htail : (tail.recs.map fun r => stamp (r.step + k) r).filter (fun r => r.step = t) = [] := by
    rw [List.filter_eq_nil_iff]
    intro r hr hrt
    obtain ⟨q, -, rfl⟩ := List.mem_map.mp hr
    have : q.step + k = t := of_decide_eq_true hrt
    omega
  rw [joined, List.filter_append, htail, List.append_nil, List.filter_filter, ValTrace.stepRecs]
  apply List.filter_congr
  intro r _
  simp only [Bool.and_eq_decide, decide_eq_decide, decide_eq_true_eq]
  omega

/-- The records of step `j + k` are those of step `j` of the tail. -/
lemma filter_joined_add (k j : ℕ) :
    ((joined k base tail).filter fun r => r.step = j + k) =
      (tail.stepRecs j).map fun r => stamp (r.step + k) r := by
  have hbase : (base.recs.filter fun r => r.step < k).filter (fun r => r.step = j + k) = [] := by
    rw [List.filter_eq_nil_iff]
    intro r hr hrt
    have hlt := of_decide_eq_true (List.mem_filter.mp hr).2
    have : r.step = j + k := of_decide_eq_true hrt
    omega
  rw [joined, List.filter_append, hbase, List.nil_append, List.filter_map, ValTrace.stepRecs]
  congr 1
  apply List.filter_congr
  intro r _
  rw [Function.comp_apply, decide_eq_decide]
  exact Nat.add_right_cancel_iff

lemma mem_map_toEdge {l : List (ℕ × ℕ × ValRec)} {e : DefUseEdge} :
    e ∈ l.map toEdge ↔ (e.fromStep, e.toStep, e.loc) ∈ l := by
  rw [List.mem_map]
  constructor
  · rintro ⟨e', he', rfl⟩
    exact he'
  · exact fun h => ⟨_, h, rfl⟩

lemma restamp_injective (k : ℕ) : Function.Injective (restamp k) := by
  intro a b hab
  have hstep : a.step = b.step := skip_injective k (congrArg ValRec.step hab)
  obtain ⟨⟩ := a
  obtain ⟨⟩ := b
  simp only [restamp, stamp, ValRec.mk.injEq] at hab ⊢
  tauto

lemma isWrite_of_edit {r : ValRec} (h : r ∈ edit.writes) : r.isWrite = true := by
  unfold LoomFromStepEdit.writes at h
  split at h <;> obtain ⟨_, -, rfl⟩ := List.mem_map.mp h <;> rfl

lemma placedTrace_recs :
    (placedTrace edit base tail).recs =
      (base.recs.filter fun r => r.step < edit.step).map (restamp edit.step) ++
        (edit.writes.map (stamp edit.step) ++
          (tail.recs.map fun r => stamp (r.step + edit.step) r).map (restamp edit.step)) := by
  have hbase : (base.recs.filter fun r => r.step < edit.step).map (restamp edit.step) =
      base.recs.filter fun r => r.step < edit.step := by
    refine List.map_congr_left (fun r hr => ?_) |>.trans (List.map_id _)
    have hlt : r.step < edit.step := of_decide_eq_true (List.mem_filter.mp hr).2
    rw [restamp, skip, if_pos hlt]
    rfl
  have htail : (tail.recs.map fun r => stamp (r.step + edit.step) r).map (restamp edit.step) =
      tail.recs.map fun r => stamp (r.step + edit.step + 1) r := by
    rw [List.map_map]
    refine List.map_congr_left fun r _ => ?_
    change stamp (skip edit.step (r.step + edit.step)) (stamp (r.step + edit.step) r) = _
    rw [skip, if_neg (by omega)]
    rfl
  rw [hbase, htail]
  rfl

lemma placedTrace_sorted (h : Traces base tail) :
    (placedTrace edit base tail).recs.Pairwise fun a b => a.step ≤ b.step := by
  have hjoined := joined_sorted h edit.step
  rw [joined, List.pairwise_append] at hjoined
  obtain ⟨hbase, htail, -⟩ := hjoined
  have hmono : ∀ a b : ValRec, a.step ≤ b.step →
      (restamp edit.step a).step ≤ (restamp edit.step b).step := by
    intro a b hab
    change skip edit.step a.step ≤ skip edit.step b.step
    unfold skip
    split_ifs <;> omega
  have hlt : ∀ a ∈ (base.recs.filter fun r => r.step < edit.step).map (restamp edit.step),
      a.step < edit.step := by
    intro a ha
    obtain ⟨r, hr, rfl⟩ := List.mem_map.mp ha
    exact skip_lt.mpr (of_decide_eq_true (List.mem_filter.mp hr).2)
  have hgt : ∀ b ∈ (tail.recs.map fun r => stamp (r.step + edit.step) r).map (restamp edit.step),
      edit.step < b.step := by
    intro b hb
    obtain ⟨q, hq, rfl⟩ := List.mem_map.mp hb
    obtain ⟨r, -, rfl⟩ := List.mem_map.mp hq
    exact lt_skip.mpr (Nat.le_add_left _ _)
  have heq : ∀ b ∈ edit.writes.map (stamp edit.step), b.step = edit.step := by
    intro b hb
    obtain ⟨r, -, rfl⟩ := List.mem_map.mp hb
    rfl
  rw [placedTrace_recs, List.pairwise_append, List.pairwise_append]
  refine ⟨List.pairwise_map.mpr (hbase.imp fun hab => hmono _ _ hab), ⟨?_, ?_, ?_⟩, ?_⟩
  · exact List.pairwise_of_forall_mem_list fun a ha b hb => by rw [heq a ha, heq b hb]
  · exact List.pairwise_map.mpr (htail.imp fun hab => hmono _ _ hab)
  · intro a ha b hb
    rw [heq a ha]
    exact (hgt b hb).le
  · intro a ha b hb
    rcases List.mem_append.mp hb with hb | hb
    · rw [heq b hb]
      exact (hlt a ha).le
    · exact ((hlt a ha).trans (hgt b hb)).le

lemma filter_restamp (k t : ℕ) (l : List ValRec) :
    (l.map (restamp k)).filter (fun r => r.step = skip k t) =
      (l.filter fun r => r.step = t).map (restamp k) := by
  rw [List.filter_map]
  congr 1
  apply List.filter_congr
  intro r _
  rw [Function.comp_apply, decide_eq_decide]
  exact (skip_injective k).eq_iff

lemma filter_restamp_new (k : ℕ) (l : List ValRec) :
    (l.map (restamp k)).filter (fun r => r.step = k) = [] := by
  rw [List.filter_eq_nil_iff]
  intro r hr hrt
  obtain ⟨q, -, rfl⟩ := List.mem_map.mp hr
  exact skip_ne _ _ (of_decide_eq_true hrt)

/-- At the new step stands the edit. -/
lemma group_placed (h : Traces base tail) :
    groupAt (placedTrace edit base tail).recs edit.step = edit.writes.map (stamp edit.step) := by
  have hedit : (edit.writes.map (stamp edit.step)).filter (fun r => r.step = edit.step) =
      edit.writes.map (stamp edit.step) := by
    rw [List.filter_eq_self]
    intro r hr
    obtain ⟨q, -, rfl⟩ := List.mem_map.mp hr
    exact decide_eq_true rfl
  rw [Dataflow.groupAt_of_sorted (placedTrace_sorted h), placedTrace_recs, List.filter_append,
    List.filter_append, filter_restamp_new, filter_restamp_new, List.nil_append, List.append_nil,
    hedit]

/-- At the other steps stand the records of the joined trace. -/
lemma group_placed_skip (h : Traces base tail) (t : ℕ) :
    groupAt (placedTrace edit base tail).recs (skip edit.step t) =
      (groupAt (joined edit.step base tail) t).map (restamp edit.step) := by
  have hedit : (edit.writes.map (stamp edit.step)).filter
      (fun r => r.step = skip edit.step t) = [] := by
    rw [List.filter_eq_nil_iff]
    intro r hr hrt
    obtain ⟨q, -, rfl⟩ := List.mem_map.mp hr
    exact skip_ne _ _ (of_decide_eq_true hrt).symm
  rw [Dataflow.groupAt_of_sorted (placedTrace_sorted h),
    Dataflow.groupAt_of_sorted (joined_sorted h _), placedTrace_recs, joined, List.filter_append,
    List.filter_append, hedit, List.nil_append, filter_restamp, filter_restamp,
    List.filter_append, List.map_append]

lemma isWrite_of_group {r : ValRec} (hr : r ∈ edit.writes.map (stamp edit.step)) :
    r.isWrite = true := by
  obtain ⟨q, hq, rfl⟩ := List.mem_map.mp hr
  change q.isWrite = true
  exact isWrite_of_edit hq

/-- The edit is a step put into the joined trace. -/
lemma interposed (h : Traces base tail) :
    Interposed ValRec.isWrite lwKeys (groupAt (joined edit.step base tail))
      (groupAt (placedTrace edit base tail).recs) edit.step (restamp edit.step) where
  moved := group_placed_skip h
  placed r hr := by
    rw [group_placed h] at hr
    exact isWrite_of_group hr
  isWrite_stamp _ := rfl
  cells_stamp _ := rfl

/-- The new step writes the edited places. -/
lemma writesOf_placed (h : Traces base tail) :
    writesOf ValRec.isWrite lwKeys (groupAt (placedTrace edit base tail).recs) edit.step =
      edit.places := by
  have hwrite : (edit.writes.map (stamp edit.step)).filter ValRec.isWrite =
      edit.writes.map (stamp edit.step) :=
    List.filter_eq_self.mpr fun r hr => isWrite_of_group hr
  rw [writesOf, group_placed h, hwrite, List.flatMap_map]
  rfl

/-- The last writer across the edit, in the joined trace and in its two parts -/
lemma isLast_joined (h : Traces base tail) {p j : ℕ} (hp : p < edit.step) {c : LwKey} :
    IsLast (writesOf ValRec.isWrite lwKeys (groupAt (joined edit.step base tail)))
      (j + edit.step) c p ↔ Feeds base tail edit.step p j c := by
  have hlow : ∀ u < edit.step,
      writesOf ValRec.isWrite lwKeys (groupAt (joined edit.step base tail)) u =
        writtenAt base u := by
    intro u hu
    rw [writesOf, Dataflow.groupAt_of_sorted (joined_sorted h _), filter_joined_lt hu]
    rfl
  have hhigh : ∀ i, writesOf ValRec.isWrite lwKeys (groupAt (joined edit.step base tail))
      (i + edit.step) = writtenAt tail i := by
    intro i
    rw [writesOf, Dataflow.groupAt_of_sorted (joined_sorted h _), filter_joined_add,
      List.filter_map, List.flatMap_map]
    rfl
  constructor
  · rintro ⟨-, hc, hnone⟩
    refine ⟨hlow p hp ▸ hc, fun u hpu huk => ?_, fun i hij => ?_⟩
    · rw [← hlow u huk]
      exact hnone u hpu (by omega)
    · rw [← hhigh i]
      exact hnone _ (by omega) (by omega)
  · rintro ⟨hc, hbetween, hafter⟩
    refine ⟨by omega, (hlow p hp).symm ▸ hc, fun u hpu huj => ?_⟩
    by_cases huk : u < edit.step
    · rw [hlow u huk]
      exact hbetween u hpu huk
    · obtain ⟨i, rfl⟩ : ∃ i, u = i + edit.step := ⟨u - edit.step, by omega⟩
      rw [hhigh]
      exact hafter i (by omega)

end Join

/-! ## The graph -/

section Graph

variable {edit : LoomFromStepEdit} {base tail : ValTrace} {take : LoomTake}

lemma length_joined_off (h : Traces base tail) (k : ℕ) :
    (base.insnOff.take k ++ tail.insnOff).length = min k base.stepsLen + tail.stepsLen ∧
      min k base.stepsLen + tail.stepsLen + 1 < 2 ^ 32 := by
  have hb := h.baseLen
  have ht := h.tailLen
  rw [kTakeSteps] at hb ht
  constructor
  · rw [List.length_append, List.length_take]
    rfl
  · omega

/-- A step with records is before the end of the joined trace exactly if it is so with the edit. -/
lemma skip_lt_end (h : Traces base tail) (t : ℕ)
    (ht : groupAt (joined edit.step base tail) t ≠ []) :
    skip edit.step t < min edit.step base.stepsLen + tail.stepsLen + 1 ↔
      t < min edit.step base.stepsLen + tail.stepsLen := by
  rw [Dataflow.groupAt_of_sorted (joined_sorted h _)] at ht
  by_cases hlt : t < edit.step
  · rw [filter_joined_lt hlt] at ht
    obtain ⟨r, hr⟩ := List.exists_mem_of_ne_nil _ ht
    obtain ⟨hr, hrt⟩ := List.mem_filter.mp hr
    have hstep : r.step = t := of_decide_eq_true hrt
    have := h.baseStamped.lt r hr
    rw [skip, if_pos hlt]
    omega
  · rw [skip, if_neg hlt]
    omega

lemma exists_read_joined (h : Traces base tail) {j : ℕ} {r : ValRec} :
    r ∈ groupAt (joined edit.step base tail) (j + edit.step) ↔
      ∃ q ∈ tail.stepRecs j, r = stamp (q.step + edit.step) q := by
  rw [Dataflow.groupAt_of_sorted (joined_sorted h _), filter_joined_add, List.mem_map]
  simp only [eq_comm]

/-- The condition on the joined trace is the one on its parts. -/
lemma notThrough_iff (h : Traces base tail) :
    (∀ p < edit.step, ∀ t, edit.step ≤ t → t < min edit.step base.stepsLen + tail.stepsLen →
      ∀ r ∈ groupAt (joined edit.step base tail) t, r.isWrite = false →
        (∃ c ∈ lwKeys r, IsLast (writesOf ValRec.isWrite lwKeys
            (groupAt (joined edit.step base tail))) t c p) →
          ∃ c ∈ lwKeys r, IsLast (writesOf ValRec.isWrite lwKeys
            (groupAt (joined edit.step base tail))) t c p ∧
            c ∉ writesOf ValRec.isWrite lwKeys (groupAt (placedTrace edit base tail).recs)
              edit.step) ↔
      NotThrough edit base tail := by
  rw [writesOf_placed h]
  constructor
  · intro hall p hp j hj r hr hread hfeeds
    obtain ⟨c, hc, hlast, hfree⟩ := hall p hp (j + edit.step) (Nat.le_add_left _ _) hj _
      ((exists_read_joined h).mpr ⟨r, hr, rfl⟩) hread (by
        obtain ⟨c, hc, hf⟩ := hfeeds
        exact ⟨c, hc, (isLast_joined h hp).mpr hf⟩)
    exact ⟨c, hc, (isLast_joined h hp).mp hlast, hfree⟩
  · intro hall p hp t hkt ht r hr hread hlast
    obtain ⟨j, rfl⟩ : ∃ j, t = j + edit.step := ⟨t - edit.step, by omega⟩
    obtain ⟨q, hq, rfl⟩ := (exists_read_joined h).mp hr
    obtain ⟨c, hc, hl⟩ := hlast
    obtain ⟨c', hc', hf, hfree⟩ := hall p hp j ht q hq hread
      ⟨c, hc, (isLast_joined h hp).mp hl⟩
    exact ⟨c', hc', (isLast_joined h hp).mpr hf, hfree⟩

lemma forall_edge_iff {k : ℕ} {l l' : List (ℕ × ℕ × ValRec)} :
    (∀ e', (e' ∈ l'.map toEdge ∧ e'.fromStep ≠ k) ↔ ∃ e ∈ l.map toEdge, e' = renumber k e) ↔
      ∀ e', (e' ∈ l' ∧ e'.1 ≠ k) ↔
        ∃ e ∈ l, e' = (skip k e.1, skip k e.2.1, restamp k e.2.2) := by
  constructor
  · intro h e'
    have hiff := h (toEdge e')
    rw [mem_map_toEdge] at hiff
    refine hiff.trans ⟨?_, ?_⟩
    · rintro ⟨e, he, heq⟩
      rw [toEdge, renumber, DefUseEdge.mk.injEq] at heq
      exact ⟨_, mem_map_toEdge.mp he, Prod.ext heq.1 (Prod.ext heq.2.1 heq.2.2)⟩
    · rintro ⟨e, he, rfl⟩
      exact ⟨toEdge e, List.mem_map_of_mem he, rfl⟩
  · intro h e'
    rw [mem_map_toEdge]
    refine (h (e'.fromStep, e'.toStep, e'.loc)).trans ⟨?_, ?_⟩
    · rintro ⟨e, he, heq⟩
      rw [Prod.mk.injEq, Prod.mk.injEq] at heq
      exact ⟨toEdge e, List.mem_map_of_mem he, (DefUseEdge.mk.injEq ..).mpr heq⟩
    · rintro ⟨e, he, rfl⟩
      exact ⟨_, mem_map_toEdge.mp he, rfl⟩

/-- With the numbers right, the graph is right exactly under the condition. -/
lemma reweaveOk_iff_notThrough (h : Traces base tail)
    (hoff : take.insnOff = base.insnOff.take edit.step ++ tail.insnOff)
    (hrecs : take.recs = joined edit.step base tail)
    (hedges : ∃ g, defuseBuild take.vt = some g ∧ take.edges = g.edges) :
    ReweaveOk edit base tail take ↔ NotThrough edit base tail := by
  have hcond := @notThrough_iff edit base tail h
  have hend := @skip_lt_end edit base tail h
  obtain ⟨hlen, hlt⟩ := length_joined_off h edit.step
  generalize min edit.step base.stepsLen + tail.stepsLen = n at *
  have htake : take.edges = (edges ValRec.isWrite lwKeys
      (groupAt (joined edit.step base tail)) n).map toEdge := by
    have hsteps : take.vt.stepsLen = n := by
      rw [← hlen, ← hoff]
      rfl
    obtain ⟨g, hg, heq⟩ := hedges
    rw [Dataflow.defuseBuild_of_lt (by omega), Option.some.injEq] at hg
    rw [heq, ← hg, hsteps, ← hrecs]
    rfl
  have hplaced : defuseBuild (placedTrace edit base tail) =
      some ⟨(edges ValRec.isWrite lwKeys (groupAt (placedTrace edit base tail).recs)
        (n + 1)).map toEdge, n + 1⟩ := by
    have hsteps : (placedTrace edit base tail).stepsLen = n + 1 := by
      rw [← hlen]
      simp only [placedTrace, ValTrace.stepsLen, List.length_append, List.length_cons]
      rfl
    rw [Dataflow.defuseBuild_of_lt (by omega), hsteps]
  have hiff := (interposed h).edges_eq_iff hend (restamp_injective _)
  rw [hcond] at hiff
  constructor
  · rintro ⟨-, -, -, g, hg, hrest⟩
    rw [hplaced, Option.some.injEq] at hg
    rw [← hg, htake] at hrest
    exact hiff.mp (forall_edge_iff.mp hrest)
  · intro hfree
    refine ⟨hoff, hrecs, fun e he hfrom hto hall => ?_, _, hplaced, ?_⟩
    · rw [htake, mem_map_toEdge] at he
      obtain ⟨ht, hr, hread, hlast⟩ := (mem_edges _ _).mp he
      obtain ⟨c, hc, -, hw⟩ := hcond.mpr hfree _ hfrom _ hto ht _ hr hread hlast
      rw [writesOf_placed h] at hw
      exact hw (hall c hc)
    · rw [htake]
      exact forall_edge_iff.mpr (hiff.mpr hfree)

lemma rebuildEdges_edges (out : LoomTake) :
    ∃ g, defuseBuild out.vt = some g ∧ rebuildEdges out = { out with edges := g.edges } := by
  refine ⟨_, Dataflow.defuseBuild_eq out.vt, ?_⟩
  rw [rebuildEdges, Dataflow.defuseBuild_eq]

/-- The numbers of the joined trace are right exactly if they fit. -/
lemma stitch_eq_iff (h : Traces base tail) :
    (base.insnOff.take (edit.step % 2 ^ 32) ++ tail.insnOff =
        base.insnOff.take edit.step ++ tail.insnOff ∧
      (base.recs.filter fun r => r.step < edit.step % 2 ^ 32) ++
          (tail.recs.map fun r => stamp ((r.step + edit.step % 2 ^ 32) % 2 ^ 32) r) =
        joined edit.step base tail) ↔
      NumbersFit edit base tail := by
  have hlen : base.stepsLen = base.insnOff.length := rfl
  constructor
  · rintro ⟨hoff, hrecs⟩
    have htake := congrArg List.length (List.append_cancel_right hoff)
    rw [List.length_take, List.length_take] at htake
    refine ⟨by omega, fun r hr => ?_⟩
    obtain ⟨-, htail⟩ := List.append_inj' hrecs (by rw [List.length_map, List.length_map])
    have hstep := congrArg ValRec.step (List.map_inj_left.mp htail r hr)
    have : (r.step + edit.step % 2 ^ 32) % 2 ^ 32 = r.step + edit.step := hstep
    omega
  · rintro ⟨hstep, hfit⟩
    constructor
    · congr 1
      rcases hstep with hlt | hge
      · rw [Nat.mod_eq_of_lt hlt]
      · rw [List.take_of_length_le (by omega), List.take_of_length_le]
        have := Nat.mod_le edit.step (2 ^ 32)
        omega
    · rw [joined]
      congr 1
      · apply List.filter_congr
        intro r hr
        have := h.baseStamped.lt r hr
        have := Nat.mod_le edit.step (2 ^ 32)
        rw [decide_eq_decide]
        rcases hstep with hlt | hge
        · rw [Nat.mod_eq_of_lt hlt]
        · omega
      · apply List.map_congr_left
        intro r hr
        have := hfit r hr
        congr 1
        omega

/-- The graph of a reweave is that of the trace with the edit in it exactly if the numbers of its
steps fit and no read of the tail takes edited bytes alone from a step below the edit. -/
theorem reweave_graph_iff {σ ς : Type} (E : Emu σ ς) (code : List UInt8)
    (args : List (BitVec 64)) (nargs : ℤ) (edit : LoomFromStepEdit) (take : LoomTake)
    (h : loomTakeRunFromStep E code args nargs edit = (true, take)) :
    ∃ w, reweaveRun E code (args.take nargs.toNat) edit = .ok w ∧
      (ReweaveOk edit w.base w.tail take ↔
        NumbersFit edit w.base w.tail ∧ NotThrough edit w.base w.tail) := by
  unfold loomTakeRunFromStep at h
  dsimp only at h
  split_ifs at h with hcode hargs
  · cases h
  · cases h
  cases hw : reweaveRun E code (args.take nargs.toNat) edit with
  | error why =>
    rw [hw] at h
    cases h
  | ok w =>
    have htr := traces_of_run hw
    rw [hw] at h
    dsimp only at h
    obtain ⟨g, hg, heq⟩ := rebuildEdges_edges (stitch (edit.step % 2 ^ 32) w.base w.tail
      { producer := "dataflow-emu (reweave@" ++ toString edit.step ++ ")", code
        args := args.take nargs.toNat })
    rw [heq] at h
    obtain ⟨-, rfl⟩ := Prod.mk.inj h
    refine ⟨w, rfl, ?_⟩
    constructor
    · intro hok
      have hnum := (stitch_eq_iff htr).mp ⟨hok.off, hok.recs⟩
      exact ⟨hnum, (reweaveOk_iff_notThrough htr hok.off hok.recs ⟨g, hg, rfl⟩).mp hok⟩
    · rintro ⟨hnum, hfree⟩
      obtain ⟨hoff, hrecs⟩ := (stitch_eq_iff htr).mpr hnum
      refine (reweaveOk_iff_notThrough htr ?_ ?_ ?_).mpr hfree
      · exact hoff
      · exact hrecs
      · exact ⟨g, hg, rfl⟩

end Graph

section Sample

/-- The small machine as an engine without memory -/
def smallEmu : Emu (At ℕ) (At ℕ) where
  start := some zeroed
  seed e _ _ := e
  capture e code :=
    let l := smallMachine.run code 9 e
    ⟨l.map fun a => (a, a.pc, (smallMachine.insn code a).recs), 0, {}, l.getLast?.getD e⟩
  snapshot := some
  restore _ s := some s
  regWrite e reg val :=
    some { e with
      store := overwrite (regPlaces reg)
        (fun k => val.toNat / 256 ^ (k.a.toNat % 256) % 256) e.store }
  memWrite _ _ _ := none

/-- Before `mov rax, rdi` the edit puts a value in `rdi`. -/
def rdiEdit : LoomFromStepEdit :=
  { step := 1, reg := "rdi", regValue := 7 }

/-- Before `mov rax, rdi` the edit puts a value in `rbx`. -/
def rbxEdit : LoomFromStepEdit :=
  { step := 1, reg := "rbx", regValue := 7 }

def smallTake (edit : LoomFromStepEdit) : LoomTake :=
  (loomTakeRunFromStep smallEmu partialCode [] 0 edit).2

/-- The read of `rdi` after the edit -/
def editedRead : ValRec :=
  { kind := .reg, reg := 39, valueValid := true, value := 7, step := 1 }

/-- The edit of a register that nothing reads leaves the graph right. -/
theorem reweave_graph_rbx :
    ∃ w, reweaveRun smallEmu partialCode [] rbxEdit = .ok w ∧
      ReweaveOk rbxEdit w.base w.tail (smallTake rbxEdit) := by
  obtain ⟨w, hw, hiff⟩ := reweave_graph_iff smallEmu partialCode [] 0 rbxEdit (smallTake rbxEdit)
    (Prod.ext (by decide +kernel) rfl)
  have htail : (reweaveRun smallEmu partialCode [] rbxEdit).toOption.all (fun w =>
      (∀ r ∈ w.tail.recs, r.step + rbxEdit.step < 2 ^ 32) ∧
        ∀ r ∈ w.tail.recs, ∀ c ∈ lwKeys r, c ∉ rbxEdit.places) = true := by
    decide +kernel
  have hargs : reweaveRun smallEmu partialCode [] rbxEdit = .ok w := hw
  rw [hargs] at htail
  obtain ⟨hnum, hfree⟩ := of_decide_eq_true htail
  refine ⟨w, hw, hiff.mpr ⟨⟨.inl (by decide), hnum⟩, ?_⟩⟩
  rintro p - j - r hr - ⟨c, hc, hfeeds⟩
  exact ⟨c, hc, hfeeds, hfree r (List.mem_of_mem_filter hr) c hc⟩

/-- The whole register is overwritten by the edit, and the read of it keeps its edge from the step
that wrote a byte of the register before. -/
theorem reweave_graph_rdi :
    (loomTakeRunFromStep smallEmu partialCode [] 0 rdiEdit).1 = true ∧
      ⟨0, 1, editedRead⟩ ∈ (smallTake rdiEdit).edges ∧
      (∀ c ∈ lwKeys editedRead, c ∈ rdiEdit.places) ∧
      ∃ w, reweaveRun smallEmu partialCode [] rdiEdit = .ok w ∧
        ¬ReweaveOk rdiEdit w.base w.tail (smallTake rdiEdit) := by
  have hedge : ⟨0, 1, editedRead⟩ ∈ (smallTake rdiEdit).edges := by decide +kernel
  have hall : ∀ c ∈ lwKeys editedRead, c ∈ rdiEdit.places := by decide +kernel
  refine ⟨by decide +kernel, hedge, hall, _, rfl, fun hok => ?_⟩
  exact hok.through _ hedge (by decide) (by decide) hall

end Sample

end AsmTest.Loom
