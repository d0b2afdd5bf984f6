import AsmTest.ValTrace

/-!
# The bounds of a block-step capture

`asmtest_dataflow_blockstep_run` records a region by single steps, or by stepping from branch to
branch and replaying the blocks in an emulator. The single-step loop counts its stops and its steps;
the other path counts only the rounds before the region is entered. The registers and the memory at
a stop, the emulator and the enumeration of operands are parameters.
-/

namespace AsmTest.Blockstep

open Dataflow

section Source

/-- `DFB_STOP_BACKSTOP` -/
def stopBackstop : ℕ :=
  2 ^ 20

inductive Rc
  | ok
  | fault
  | etrace
deriving DecidableEq, Repr

/-- `dfb_imp_t` -/
inductive Imp
  | none
  | syscall
  | int80
  | hwrec
  | other
deriving DecidableEq, Repr

/-- What comes of the single step that absorbs a breakpoint; a `waitpid` that fails leaves a status
of zero, which reads as an exit. -/
inductive Absorbed (σ : Type)
  | resumeFails
  | gone
  | running
  | signal
  | trap (regs : Option σ)
deriving DecidableEq, Repr

/-- What comes of resuming the tracee and waiting for it. At a `SIGTRAP` the registers may be
unreadable, and `DR6` may name a breakpoint that the tracee was stopped at. -/
inductive Wait (σ : Type)
  | resumeFails
  | eintr
  | waitFails
  | gone
  | running
  | signal
  | trap (regs : Option σ) (hit : Option (Absorbed σ))
deriving DecidableEq, Repr

/-- What the captures are run on: `σ` is a snapshot, `ε` a state of the emulator. -/
structure Machine (σ ε : Type) where
  rbase : ℕ
  rend : ℕ
  base : ℕ
  codeLen : ℕ
  nhwrec : ℕ
  noInject : Bool
  rip : σ → ℕ
  /-- `dfb_classify_at` at the instruction of a snapshot -/
  imp : σ → Imp
  /-- The length that `asmtest_operands` reports, 0 if it cannot decode -/
  insnLen : σ → ℕ
  /-- The records of a step as it is opened, and whether a wide value found no room -/
  openRecs : σ → List ValRec × Bool
  /-- The same with the values written, from the snapshot after the step -/
  fillRecs : List ValRec → σ → List ValRec × Bool
  /-- The emulator as it is set up at the entry, if it can be -/
  setUp : σ → Option ε
  /-- The emulator seeded from a boundary for the block of this number -/
  seed : ε → σ → ℕ → ε
  /-- The snapshot of the emulator -/
  snap : ε → σ
  /-- One instruction -/
  emu : ε → Option ε
  /-- The recorded effect of an impure instruction, carried over from the real boundary -/
  inject : ε → σ → ε
  /-- The canary on the emulator's state and the real boundary -/
  coherent : ε → σ → Bool
  /-- The snapshot that closes the last step -/
  final : ε → σ → σ

variable {σ ε : Type} (M : Machine σ ε)

def Machine.Inside (s : σ) : Prop :=
  M.rbase ≤ M.rip s ∧ M.rip s < M.rend

instance (s : σ) : Decidable (M.Inside s) :=
  inferInstanceAs (Decidable (_ ∧ _))

/-- What is captured so far: the value trace and the open step -/
structure Ctx where
  vt : ValTrace
  cur : Option (ℕ × List ValRec) := none

namespace Ctx

def truncate (c : Ctx) : Ctx :=
  { c with vt := { c.vt with truncated := true } }

/-- `asmtest_valtrace_stash_wide` without room raises the flag. -/
def truncateIf (c : Ctx) (lost : Bool) : Ctx :=
  if lost then c.truncate else c

def finalizeStep (c : Ctx) (s : σ) : Ctx :=
  match c.cur with
  | none => c
  | some (off, recs) =>
    { vt := valtraceAppend (c.truncateIf (M.fillRecs recs s).2).vt (BitVec.ofNat 64 off)
        (M.fillRecs recs s).1 }

def openStep (c : Ctx) (s : σ) : Ctx :=
  { c.truncateIf (M.openRecs s).2 with cur := some (M.rip s - M.base, (M.openRecs s).1) }

def captureAt (c : Ctx) (s : σ) : Ctx :=
  (c.finalizeStep M s).openStep M s

/-- The open step as it is -/
def appendOpen (c : Ctx) : Ctx :=
  match c.cur with
  | none => c
  | some (off, recs) => { vt := valtraceAppend c.vt (BitVec.ofNat 64 off) recs }

end Ctx

/-- Where a capture stands: the stops of the tracee that it looked at, its return code once it has
ended, and whether a bound ended it -/
structure Capture where
  ctx : Ctx
  stops : ℕ
  rc : Option Rc := none
  byBound : Bool := false

/-- The loop of `capture_singlestep`. When the list is used up the capture still waits. -/
def singleLoop (maxInsns : ℕ) (c : Ctx) (entered : Bool) (nstop guard : ℕ) :
    List (Wait σ) → Capture
  | [] => { ctx := c, stops := guard }
  | .resumeFails :: _ => { ctx := c, stops := guard, rc := some .etrace }
  | .waitFails :: _ => { ctx := c, stops := guard, rc := some .etrace }
  | .eintr :: ws => singleLoop maxInsns c entered nstop guard ws
  | .running :: ws => singleLoop maxInsns c entered nstop guard ws
  | .gone :: _ =>
    { ctx := c.truncateIf c.cur.isSome
      stops := guard
      rc := some (if entered then .fault else .etrace) }
  | .signal :: _ => { ctx := c, stops := guard, rc := some .etrace }
  | .trap regs _ :: ws =>
    if stopBackstop < guard + 1 then
      { ctx := c.truncate, stops := guard, rc := some .etrace, byBound := true }
    else
      match regs with
      | none => { ctx := c, stops := guard + 1, rc := some .etrace }
      | some s =>
        if M.Inside s then
          let c := c.captureAt M s
          if maxInsns ≠ 0 ∧ maxInsns ≤ nstop + 1 then
            { ctx := c.appendOpen.truncate
              stops := guard + 1
              rc := some .fault
              byBound := true }
          else singleLoop maxInsns c true (nstop + 1) (guard + 1) ws
        else if entered then
          { ctx := c.finalizeStep M s, stops := guard + 1, rc := some .ok }
        else singleLoop maxInsns c entered nstop (guard + 1) ws

def captureSinglestep (maxInsns : ℕ) (vt : ValTrace) (ws : List (Wait σ)) : Capture :=
  singleLoop M maxInsns { vt := vt } false 0 0 ws

/-- How `step_block` ends -/
inductive Brc
  | fault
  | ok
  | diverged
deriving DecidableEq, Repr

/-- `step_block`: the snapshots at which it captures, the emulator afterwards, and how it ends -/
def stepBlock (next : σ) : ℕ → ε → List σ × ε × Brc
  | 0, uc => ([], uc, .fault)
  | guard + 1, uc =>
    let s := M.snap uc
    if M.insnLen s = 0 then ([s], uc, .fault)
    else
      match M.imp s with
      | .syscall | .int80 =>
        if M.rip s + M.insnLen s ≠ M.rip next ∨ M.noInject then ([s], uc, .fault)
        else ([s], M.inject uc next, .ok)
      | .hwrec =>
        if M.rip s + M.insnLen s ≠ M.rip next then ([s], uc, .fault)
        else ([s], M.inject uc next, .ok)
      | .other => ([s], uc, .fault)
      | .none =>
        match M.emu uc with
        | none => ([s], uc, .fault)
        | some uc =>
          if M.rip (M.snap uc) ≠ M.rip s + M.insnLen s then
            ([s], uc, if M.rip (M.snap uc) = M.rip next then .ok else .diverged)
          else
            let r := stepBlock next guard uc
            (s :: r.1, r.2)

/-- How the rounds up to the entry end -/
inductive Entry (σ : Type)
  | waiting (stops : ℕ)
  | out (stops : ℕ) (byBound : Bool)
  | at (s : σ) (stops : ℕ) (rest : List (Wait σ))

/-- The first loop of `capture_blockstep`, with the rounds that are left -/
def toEntry : ℕ → ℕ → List (Wait σ) → Entry σ
  | 0, stops, _ => .out stops true
  | _ + 1, stops, [] => .waiting stops
  | g + 1, stops, w :: ws =>
    match w with
    | .resumeFails | .waitFails | .gone | .signal => .out stops false
    | .eintr | .running => toEntry g stops ws
    | .trap none _ => .out (stops + 1) false
    | .trap (some s) _ =>
      if M.Inside s then .at s (stops + 1) ws else toEntry g (stops + 1) ws

/-- What a round of the second loop comes to before the replay -/
inductive Boundary (σ : Type)
  | again
  | lost
  | gone
  | at (s : σ)

/-- The wait of the second loop, with the step that absorbs a breakpoint, and the stops it takes -/
def boundary : Wait σ → ℕ × Boundary σ
  | .resumeFails | .waitFails | .running | .signal => (0, .lost)
  | .eintr => (0, .again)
  | .gone => (0, .gone)
  | .trap none _ => (1, .lost)
  | .trap (some s) none => (1, .at s)
  | .trap (some s) (some a) =>
    if M.nhwrec = 0 then (1, .at s)
    else
      match a with
      | .resumeFails | .running | .signal => (1, .lost)
      | .gone => (1, .gone)
      | .trap none => (2, .lost)
      | .trap (some s) => (2, .at s)

/-- The second loop of `capture_blockstep`, from the boundary `cur` -/
def blockLoop (c : Ctx) (uc : ε) (cur : σ) (blockIdx stops : ℕ) : List (Wait σ) → Capture
  | [] => { ctx := c, stops := stops }
  | w :: ws =>
    match boundary M w with
    | (k, .again) => blockLoop c uc cur blockIdx (stops + k) ws
    | (k, .lost) => { ctx := c, stops := stops + k, rc := some .etrace }
    | (k, .gone) => { ctx := c.truncate, stops := stops + k, rc := some .fault }
    | (k, .at next) =>
      let r := stepBlock M next (M.codeLen + 5) (M.seed uc cur blockIdx)
      let c := r.1.foldl (Ctx.captureAt M) c
      if r.2.2 = .fault ∨ r.2.2 = .diverged ∨ M.coherent r.2.1 next = false then
        { ctx := c.truncate, stops := stops + k, rc := some .fault }
      else if ¬M.Inside next then
        { ctx := c.finalizeStep M (M.final r.2.1 next), stops := stops + k, rc := some .ok }
      else blockLoop c r.2.1 next (blockIdx + 1) (stops + k) ws

def captureBlockstep (vt : ValTrace) (ws : List (Wait σ)) : Capture :=
  match toEntry M stopBackstop 0 ws with
  | .waiting stops => { ctx := { vt := vt }, stops := stops }
  | .out stops byBound =>
    { ctx := { vt := vt }, stops := stops, rc := some .etrace, byBound := byBound }
  | .at s stops rest =>
    match M.setUp s with
    | none => { ctx := { vt := vt }, stops := stops, rc := some .etrace }
    | some uc => blockLoop M { vt := vt } uc s 0 stops rest

/-- `asmtest_dataflow_blockstep_run` once it has decided on a path -/
def blockstepRun (useReplay : Bool) (maxInsns : ℕ) (vt : ValTrace) (ws : List (Wait σ)) : Capture :=
  if useReplay then captureBlockstep M vt ws else captureSinglestep M maxInsns vt ws

end Source

section Spec

variable {σ ε : Type} (M : Machine σ ε)

/-- At most so many steps, at most the backstop's number of stops, and a flag when a bound ended
it -/
structure Bounded (maxInsns : ℕ) (vt : ValTrace) (r : Capture) : Prop where
  steps : 0 < maxInsns → r.ctx.vt.stepsLen ≤ vt.stepsLen + maxInsns
  stops : r.stops ≤ stopBackstop
  marked : r.byBound = true → r.ctx.vt.truncated = true

/-- The tracee goes on, and is not in the region yet. -/
def Machine.Glue : Wait σ → Prop
  | .eintr | .running => True
  | .trap (some s) _ => ¬M.Inside s
  | _ => False

def Wait.isTrap : Wait σ → Bool
  | .trap _ _ => true
  | _ => false

/-- The course of the tracee from a boundary on: for each round its stops and the instructions of
its block, and whether it leaves the region in the end -/
def course (uc : ε) (cur : σ) (blockIdx : ℕ) : List (Wait σ) → List (ℕ × ℕ) × Bool
  | [] => ([], false)
  | w :: ws =>
    match boundary M w with
    | (k, .again) => ((k, 0) :: (course uc cur blockIdx ws).1, (course uc cur blockIdx ws).2)
    | (k, .lost) => ([(k, 0)], false)
    | (k, .gone) => ([(k, 0)], false)
    | (k, .at next) =>
      let r := stepBlock M next (M.codeLen + 5) (M.seed uc cur blockIdx)
      if r.2.2 = .fault ∨ r.2.2 = .diverged ∨ M.coherent r.2.1 next = false then
        ([(k, r.1.length)], false)
      else if ¬M.Inside next then ([(k, r.1.length)], true)
      else
        let rest := course r.2.1 next (blockIdx + 1) ws
        ((k, r.1.length) :: rest.1, rest.2)

/-- The instructions that come to be steps: the last one is dropped unless the region was left. -/
def stepsOf (cs : List (ℕ × ℕ) × Bool) : ℕ :=
  if cs.2 then (cs.1.map Prod.snd).sum else (cs.1.map Prod.snd).sum - 1

/-- The tracee enters the region within the backstop's number of rounds or ends before, and then
ends by itself within as many stops and, unless the trace has no room for more, within as many
instructions as there may be. -/
structure Short (maxInsns : ℕ) (vt : ValTrace) (ws : List (Wait σ)) : Prop where
  enters : stopBackstop ≤ ws.length → (∀ w ∈ ws.take stopBackstop, M.Glue w) → vt.truncated = true
  ends : ∀ glue s hit rest uc, ws = glue ++ .trap (some s) hit :: rest → (∀ w ∈ glue, M.Glue w) →
    glue.length < stopBackstop → M.Inside s → M.setUp s = some uc →
      glue.countP Wait.isTrap + 1 + ((course M uc s 0 rest).1.map Prod.fst).sum ≤ stopBackstop ∧
        (0 < maxInsns → vt.stepsCap ≤ vt.stepsLen + maxInsns ∨
          stepsOf (course M uc s 0 rest) ≤ maxInsns)

end Spec

section Steps

variable {σ ε : Type} (M : Machine σ ε) {vt : ValTrace} {c : Ctx} {t : ℕ}

/-- The stored steps after `k` appends -/
def grown (vt : ValTrace) (k : ℕ) : ℕ :=
  max vt.stepsLen (min (vt.stepsLen + k) vt.stepsCap)

lemma grown_le_iff {m k : ℕ} :
    grown vt k ≤ vt.stepsLen + m ↔ vt.stepsCap ≤ vt.stepsLen + m ∨ k ≤ m := by
  rw [grown]
  omega

/-- `t` instructions are opened and all but the last are appended. -/
structure Opened (vt : ValTrace) (t : ℕ) (c : Ctx) : Prop where
  cap : c.vt.stepsCap = vt.stepsCap
  len : c.vt.stepsLen = grown vt (t - 1)
  cur : c.cur.isSome = true ↔ 0 < t

@[simp] lemma truncateIf_stepsLen (c : Ctx) (lost : Bool) :
    (c.truncateIf lost).vt.stepsLen = c.vt.stepsLen := by
  cases lost <;> rfl

@[simp] lemma truncateIf_stepsCap (c : Ctx) (lost : Bool) :
    (c.truncateIf lost).vt.stepsCap = c.vt.stepsCap := by
  cases lost <;> rfl

@[simp] lemma truncateIf_cur (c : Ctx) (lost : Bool) : (c.truncateIf lost).cur = c.cur := by
  cases lost <;> rfl

lemma opened_zero (vt : ValTrace) : Opened vt 0 { vt := vt } := by
  refine ⟨rfl, ?_, by simp⟩
  dsimp only
  rw [grown]
  omega

/-- Closing the open step appends it. -/
lemma Opened.finalizeStep (h : Opened vt t c) (s : σ) :
    (c.finalizeStep M s).vt.stepsCap = vt.stepsCap ∧
      (c.finalizeStep M s).vt.stepsLen = grown vt t ∧ (c.finalizeStep M s).cur = none := by
  have hlen := h.len
  rw [Ctx.finalizeStep]
  cases hcur : c.cur with
  | none =>
    have ht : t = 0 := by
      have := h.cur
      rw [hcur] at this
      simpa using this
    rw [ht] at hlen ⊢
    exact ⟨h.cap, hlen, hcur⟩
  | some p =>
    have ht : 0 < t := h.cur.1 (by rw [hcur]; rfl)
    refine ⟨?_, ?_, rfl⟩
    · rw [valtraceAppend_stepsCap, truncateIf_stepsCap, h.cap]
    · rw [stepsLen_append, truncateIf_stepsCap, truncateIf_stepsLen, h.cap, hlen, grown, grown]
      split_ifs <;> omega

lemma Opened.captureAt (h : Opened vt t c) (s : σ) : Opened vt (t + 1) (c.captureAt M s) := by
  obtain ⟨hcap, hlen, -⟩ := h.finalizeStep M s
  rw [Ctx.captureAt, Ctx.openStep]
  refine ⟨?_, ?_, by simp⟩
  · dsimp only
    rw [truncateIf_stepsCap, hcap]
  · dsimp only
    rw [truncateIf_stepsLen, hlen, Nat.add_sub_cancel]

lemma Opened.foldl (h : Opened vt t c) (snaps : List σ) :
    Opened vt (t + snaps.length) (snaps.foldl (Ctx.captureAt M) c) := by
  induction snaps generalizing t c with
  | nil => exact h
  | cons s snaps ih =>
    have hnext := ih (h.captureAt M s)
    rwa [Nat.add_assoc, Nat.add_comm 1] at hnext

end Steps

section Single

variable {σ ε : Type} (M : Machine σ ε) {vt : ValTrace} {c : Ctx} {maxInsns nstop guard : ℕ}

lemma Opened.stepsLen_le (h : Opened vt nstop c) (hmax : 0 < maxInsns → nstop ≤ maxInsns) :
    0 < maxInsns → c.vt.stepsLen ≤ vt.stepsLen + maxInsns := by
  intro hpos
  have hlen := h.len
  have hle := hmax hpos
  rw [hlen, grown_le_iff]
  omega

lemma Opened.appendOpen (h : Opened vt nstop c) :
    c.appendOpen.vt.stepsLen = grown vt nstop := by
  have hlen := h.len
  rw [Ctx.appendOpen]
  cases hcur : c.cur with
  | none =>
    have ht : nstop = 0 := by
      have := h.cur
      rw [hcur] at this
      simpa using this
    rw [ht] at hlen ⊢
    exact hlen
  | some p =>
    have ht : 0 < nstop := h.cur.1 (by rw [hcur]; rfl)
    dsimp only
    rw [stepsLen_append, h.cap, hlen, grown, grown]
    split_ifs <;> omega

/-- The single-step loop keeps within its bounds. -/
lemma singleLoop_bounded (ws : List (Wait σ)) (entered : Bool) (h : Opened vt nstop c)
    (hmax : 0 < maxInsns → nstop < maxInsns) (hguard : guard ≤ stopBackstop) :
    Bounded maxInsns vt (singleLoop M maxInsns c entered nstop guard ws) := by
  have hlen := h.stepsLen_le fun hpos => (hmax hpos).le
  induction ws generalizing c entered nstop guard with
  | nil => exact ⟨hlen, hguard, fun hb => nomatch hb⟩
  | cons w ws ih =>
    cases w with
    | resumeFails => exact ⟨hlen, hguard, fun hb => nomatch hb⟩
    | waitFails => exact ⟨hlen, hguard, fun hb => nomatch hb⟩
    | eintr => exact ih entered h hmax hguard hlen
    | running => exact ih entered h hmax hguard hlen
    | signal => exact ⟨hlen, hguard, fun hb => nomatch hb⟩
    | gone =>
      refine ⟨fun hpos => ?_, hguard, fun hb => nomatch hb⟩
      rw [singleLoop]
      dsimp only
      rw [truncateIf_stepsLen]
      exact hlen hpos
    | trap regs hit =>
      rw [singleLoop.eq_def]
      dsimp only
      by_cases hback : stopBackstop < guard + 1
      · rw [if_pos hback]
        exact ⟨hlen, hguard, fun _ => rfl⟩
      rw [if_neg hback]
      have hnext : guard + 1 ≤ stopBackstop := not_lt.1 hback
      cases regs with
      | none => exact ⟨hlen, hnext, fun hb => nomatch hb⟩
      | some s =>
        dsimp only
        have hcap := h.captureAt M s
        split_ifs with hin hfull hent
        · refine ⟨fun hpos => ?_, hnext, fun _ => rfl⟩
          have happ := hcap.appendOpen
          change (Ctx.appendOpen _).vt.stepsLen ≤ _
          rw [happ, grown_le_iff]
          exact Or.inr (hmax hpos)
        · have hmax' : 0 < maxInsns → nstop + 1 < maxInsns := fun hpos => by
            by_contra hge
            exact hfull ⟨hpos.ne', not_lt.1 hge⟩
          exact ih true hcap hmax' hnext (hcap.stepsLen_le fun hpos => (hmax' hpos).le)
        · refine ⟨fun hpos => ?_, hnext, fun hb => nomatch hb⟩
          dsimp only
          rw [(h.finalizeStep M s).2.1, grown_le_iff]
          exact Or.inr (hmax hpos).le
        · exact ih entered h hmax hnext hlen

lemma captureSinglestep_bounded (maxInsns : ℕ) (vt : ValTrace) (ws : List (Wait σ)) :
    Bounded maxInsns vt (captureSinglestep M maxInsns vt ws) :=
  singleLoop_bounded M ws false (opened_zero vt) id (Nat.zero_le _)

end Single

section Block

variable {σ ε : Type} (M : Machine σ ε) {vt : ValTrace} {c : Ctx} {t : ℕ}

/-- The second loop takes the stops and the steps of the tracee's course, whatever they are. -/
lemma blockLoop_course (ws : List (Wait σ)) (uc : ε) (cur : σ) (blockIdx stops : ℕ)
    (h : Opened vt t c) :
    (blockLoop M c uc cur blockIdx stops ws).stops =
        stops + ((course M uc cur blockIdx ws).1.map Prod.fst).sum ∧
      (blockLoop M c uc cur blockIdx stops ws).ctx.vt.stepsLen =
        grown vt (if (course M uc cur blockIdx ws).2 then
            t + ((course M uc cur blockIdx ws).1.map Prod.snd).sum
          else t + ((course M uc cur blockIdx ws).1.map Prod.snd).sum - 1) ∧
      (blockLoop M c uc cur blockIdx stops ws).byBound = false := by
  induction ws generalizing c t uc cur blockIdx stops with
  | nil => exact ⟨rfl, h.len, rfl⟩
  | cons w ws ih =>
    rw [blockLoop, course]
    rcases boundary M w with ⟨k, b⟩
    cases b with
    | again =>
      obtain ⟨hstops, hlen, hb⟩ := ih uc cur blockIdx (stops + k) h
      simp only [List.map_cons, List.sum_cons, Nat.zero_add]
      exact ⟨by rw [hstops, Nat.add_assoc], hlen, hb⟩
    | lost => exact ⟨by simp, h.len, rfl⟩
    | gone => exact ⟨by simp, h.len, rfl⟩
    | «at» next =>
      dsimp only
      have hopen := h.foldl M (stepBlock M next (M.codeLen + 5) (M.seed uc cur blockIdx)).1
      by_cases hbad : (stepBlock M next (M.codeLen + 5) (M.seed uc cur blockIdx)).2.2 = .fault ∨
          (stepBlock M next (M.codeLen + 5) (M.seed uc cur blockIdx)).2.2 = .diverged ∨
          M.coherent (stepBlock M next (M.codeLen + 5) (M.seed uc cur blockIdx)).2.1 next = false
      · simp only [if_pos hbad, List.map_cons, List.map_nil, List.sum_cons, List.sum_nil,
          Nat.add_zero]
        exact ⟨trivial, hopen.len, trivial⟩
      by_cases hout : ¬M.Inside next
      · simp only [if_neg hbad, if_pos hout, List.map_cons, List.map_nil, List.sum_cons,
          List.sum_nil, Nat.add_zero]
        exact ⟨trivial, (hopen.finalizeStep M _).2.1, trivial⟩
      · obtain ⟨hstops, hlen, hb⟩ := ih _ next (blockIdx + 1) (stops + k) hopen
        simp only [if_neg hbad, if_neg hout, List.map_cons, List.sum_cons]
        refine ⟨by rw [hstops, Nat.add_assoc], ?_, hb⟩
        rw [hlen, Nat.add_assoc]

end Block

section Enter

variable {σ ε : Type} (M : Machine σ ε) {ws : List (Wait σ)}

/-- The first loop passes over the glue, one round for each event. -/
lemma toEntry_glue (glue rest : List (Wait σ)) (hglue : ∀ w ∈ glue, M.Glue w) (g stops : ℕ) :
    toEntry M (g + glue.length) stops (glue ++ rest) =
      toEntry M g (stops + glue.countP Wait.isTrap) rest := by
  induction glue generalizing stops with
  | nil => rfl
  | cons w glue ih =>
    obtain ⟨hw, hrest⟩ := List.forall_mem_cons.1 hglue
    rw [List.length_cons, ← Nat.add_assoc, List.cons_append]
    cases w with
    | eintr => exact ih hrest stops
    | running => exact ih hrest stops
    | resumeFails => exact hw.elim
    | waitFails => exact hw.elim
    | gone => exact hw.elim
    | signal => exact hw.elim
    | trap regs hit =>
      cases regs with
      | none => exact hw.elim
      | some s =>
        have hnext := ih hrest (stops + 1)
        rw [toEntry, List.countP_cons_of_pos rfl, Nat.add_comm (List.countP _ _), ← Nat.add_assoc,
          if_neg hw]
        exact hnext

/-- The events are glue, or glue up to one that is not. -/
lemma exists_glue (ws : List (Wait σ)) : (∀ w ∈ ws, M.Glue w) ∨
    ∃ glue w rest, ws = glue ++ w :: rest ∧ (∀ w ∈ glue, M.Glue w) ∧ ¬M.Glue w := by
  induction ws with
  | nil => exact Or.inl fun w hw => nomatch hw
  | cons w ws ih =>
    by_cases hw : M.Glue w
    · rcases ih with hall | ⟨glue, w', rest, rfl, hglue, hw'⟩
      · exact Or.inl (List.forall_mem_cons.2 ⟨hw, hall⟩)
      · exact Or.inr ⟨w :: glue, w', rest, rfl, List.forall_mem_cons.2 ⟨hw, hglue⟩, hw'⟩
    · exact Or.inr ⟨[], w, ws, rfl, (fun w hw => nomatch hw), hw⟩

/-- The three ways of the first loop: it is still in the glue, it uses up its rounds there, or it
comes to an event that is not glue. -/
lemma toEntry_cases (ws : List (Wait σ)) :
    (ws.length < stopBackstop ∧ (∀ w ∈ ws, M.Glue w) ∧
      toEntry M stopBackstop 0 ws = .waiting (ws.countP Wait.isTrap)) ∨
    (stopBackstop ≤ ws.length ∧ (∀ w ∈ ws.take stopBackstop, M.Glue w) ∧
      toEntry M stopBackstop 0 ws = .out ((ws.take stopBackstop).countP Wait.isTrap) true) ∨
    ∃ glue w rest, ws = glue ++ w :: rest ∧ (∀ w ∈ glue, M.Glue w) ∧ ¬M.Glue w ∧
      glue.length < stopBackstop ∧ toEntry M stopBackstop 0 ws =
        toEntry M (stopBackstop - glue.length) (glue.countP Wait.isTrap) (w :: rest) := by
  have hpass : ∀ glue rest : List (Wait σ), (∀ w ∈ glue, M.Glue w) → glue.length ≤ stopBackstop →
      toEntry M stopBackstop 0 (glue ++ rest) =
        toEntry M (stopBackstop - glue.length) (glue.countP Wait.isTrap) rest := by
    intro glue rest hglue hle
    have h := toEntry_glue M glue rest hglue (stopBackstop - glue.length) 0
    rwa [Nat.sub_add_cancel hle, Nat.zero_add] at h
  -- the glue of `ws` is used up before the rounds are, or the other way round
  by_cases hlong : stopBackstop ≤ ws.length ∧ ∀ w ∈ ws.take stopBackstop, M.Glue w
  · obtain ⟨hlen, hglue⟩ := hlong
    have htake : (ws.take stopBackstop).length = stopBackstop := by
      rw [List.length_take, min_eq_left hlen]
    have h := hpass (ws.take stopBackstop) (ws.drop stopBackstop) hglue htake.le
    rw [List.take_append_drop, htake, Nat.sub_self] at h
    exact Or.inr (Or.inl ⟨hlen, hglue, h⟩)
  · rcases exists_glue M ws with hall | ⟨glue, w, rest, rfl, hglue, hw⟩
    · have hlen : ws.length < stopBackstop := by
        by_contra hge
        exact hlong ⟨not_lt.1 hge, fun w hw => hall w (List.mem_of_mem_take hw)⟩
      have h := hpass ws [] hall hlen.le
      rw [List.append_nil] at h
      obtain ⟨g, hg⟩ : ∃ g, stopBackstop - ws.length = g + 1 :=
        ⟨stopBackstop - ws.length - 1, by omega⟩
      rw [hg] at h
      exact Or.inl ⟨hlen, hall, h⟩
    · have hlen : glue.length < stopBackstop := by
        by_contra hge
        refine hlong ⟨?_, fun w' hw' => ?_⟩
        · rw [List.length_append]
          omega
        · rw [List.take_append_of_le_length (not_lt.1 hge)] at hw'
          exact hglue w' (List.mem_of_mem_take hw')
      exact Or.inr (Or.inr ⟨glue, w, rest, rfl, hglue, hw, hlen, hpass glue _ hglue hlen.le⟩)

end Enter

section Bounds

variable {σ ε : Type} (M : Machine σ ε) {ws : List (Wait σ)} {maxInsns : ℕ} {vt : ValTrace}

/-- A capture that ended before the region left the trace alone. -/
lemma bounded_outside {stops : ℕ} (hstops : stops ≤ stopBackstop) (rc : Option Rc) (b : Bool) :
    Bounded maxInsns vt { ctx := { vt := vt }, stops := stops, rc := rc, byBound := b } ↔
      (b = true → vt.truncated = true) :=
  ⟨fun h => h.marked, fun h => ⟨fun _ => Nat.le_add_right _ _, hstops, h⟩⟩

lemma countP_take_le (ws : List (Wait σ)) (n : ℕ) : (ws.take n).countP Wait.isTrap ≤ n :=
  List.countP_le_length.trans (List.length_take_le n ws)

/-- The glue before an event that is not glue is the only one there is. -/
lemma glue_unique {glue glue' rest rest' : List (Wait σ)} {w w' : Wait σ}
    (h : glue ++ w :: rest = glue' ++ w' :: rest') (hglue : ∀ x ∈ glue, M.Glue x)
    (hw : ¬M.Glue w) (hglue' : ∀ x ∈ glue', M.Glue x) (hw' : ¬M.Glue w') :
    glue = glue' ∧ w = w' ∧ rest = rest' := by
  induction glue generalizing glue' with
  | nil =>
    cases glue' with
    | nil =>
      obtain ⟨rfl, rfl⟩ := List.cons.inj h
      exact ⟨rfl, rfl, rfl⟩
    | cons x glue' =>
      obtain ⟨rfl, -⟩ := List.cons.inj h
      exact absurd (hglue' w List.mem_cons_self) hw
  | cons x glue ih =>
    cases glue' with
    | nil =>
      obtain ⟨rfl, -⟩ := List.cons.inj h
      exact absurd (hglue x List.mem_cons_self) hw'
    | cons y glue' =>
      obtain ⟨rfl, hrest⟩ := List.cons.inj h
      obtain ⟨rfl, hw, hrest⟩ := ih hrest (List.forall_mem_cons.1 hglue).2
        (List.forall_mem_cons.1 hglue').2
      exact ⟨rfl, hw, hrest⟩

/-- Glue that ends at another event is short of the backstop's rounds. -/
lemma not_all_glue {glue rest : List (Wait σ)} {w : Wait σ} (hw : ¬M.Glue w)
    (hlen : glue.length < stopBackstop) :
    ¬∀ x ∈ (glue ++ w :: rest).take stopBackstop, M.Glue x := by
  intro hall
  obtain ⟨g, hg⟩ : ∃ g, stopBackstop = glue.length + (g + 1) :=
    ⟨stopBackstop - glue.length - 1, by omega⟩
  rw [hg, List.take_length_add_append, List.take_succ_cons] at hall
  exact hw (hall w (by simp))

/-- A tracee whose glue ends at an event that is not an entry is short. -/
lemma short_of_no_entry {glue rest : List (Wait σ)} {w : Wait σ} (hglue : ∀ x ∈ glue, M.Glue x)
    (hw : ¬M.Glue w) (hlen : glue.length < stopBackstop)
    (hno : ∀ s hit uc, w = .trap (some s) hit → M.setUp s ≠ some uc) :
    Short M maxInsns vt (glue ++ w :: rest) := by
  refine ⟨fun _ hall => absurd hall (not_all_glue M hw hlen), ?_⟩
  intro glue' s hit rest' uc heq hglue' _ hin hset
  obtain ⟨-, hws, -⟩ := glue_unique M heq hglue hw hglue' (not_not.2 hin)
  exact absurd hset (hno s hit uc hws)

/-- On the block-step path the bounds hold only where the tracee keeps them by itself. -/
lemma captureBlockstep_bounded_iff :
    Bounded maxInsns vt (captureBlockstep M vt ws) ↔ Short M maxInsns vt ws := by
  rcases toEntry_cases M ws with ⟨hlen, hall, hto⟩ | ⟨hlen, hglue, hto⟩ |
    ⟨glue, w, rest, rfl, hglue, hw, hlen, hto⟩
  · -- still in the glue
    have hle : ws.countP Wait.isTrap ≤ stopBackstop := List.countP_le_length.trans hlen.le
    rw [captureBlockstep, hto]
    dsimp only
    rw [bounded_outside hle]
    refine iff_of_true (fun hb => nomatch hb) ⟨fun hge => absurd hge (not_le.2 hlen), ?_⟩
    rintro glue s hit rest uc rfl - - hin -
    exact absurd hin (hall (.trap (some s) hit) (by simp))
  · -- the rounds are used up in the glue
    rw [captureBlockstep, hto]
    dsimp only
    rw [bounded_outside (countP_take_le ws stopBackstop)]
    refine ⟨fun h => ⟨fun _ _ => h rfl, ?_⟩, fun h _ => h.enters hlen hglue⟩
    rintro glue s hit rest uc rfl - hshort hin -
    exact absurd hglue (not_all_glue M (not_not.2 hin) hshort)
  · obtain ⟨g, hg⟩ : ∃ g, stopBackstop - glue.length = g + 1 :=
      ⟨stopBackstop - glue.length - 1, by omega⟩
    have hcount : glue.countP Wait.isTrap < stopBackstop := List.countP_le_length.trans_lt hlen
    rw [captureBlockstep, hto, hg]
    have hnone : ∀ (hno : ∀ s hit uc, w = .trap (some s) hit → M.setUp s ≠ some uc) (stops : ℕ),
        stops ≤ stopBackstop →
        (Bounded maxInsns vt { ctx := { vt := vt }, stops := stops, rc := some .etrace } ↔
          Short M maxInsns vt (glue ++ w :: rest)) := fun hno stops hstops =>
      iff_of_true ((bounded_outside hstops _ _).2 fun hb => nomatch hb)
        (short_of_no_entry M hglue hw hlen hno)
    cases w with
    | eintr => exact absurd trivial hw
    | running => exact absurd trivial hw
    | resumeFails => exact hnone (fun _ _ _ h => nomatch h) _ hcount.le
    | waitFails => exact hnone (fun _ _ _ h => nomatch h) _ hcount.le
    | gone => exact hnone (fun _ _ _ h => nomatch h) _ hcount.le
    | signal => exact hnone (fun _ _ _ h => nomatch h) _ hcount.le
    | trap regs hit =>
      cases regs with
      | none => exact hnone (fun _ _ _ h => nomatch h) _ hcount
      | some s =>
        have hin : M.Inside s := not_not.1 hw
        rw [toEntry, if_pos hin]
        dsimp only
        cases hset : M.setUp s with
        | none =>
          refine hnone (fun s' hit' uc h hset' => ?_) _ hcount
          cases h
          rw [hset] at hset'
          cases hset'
        | some uc =>
          -- the region is entered and nothing bounds what follows
          dsimp only
          obtain ⟨hstops, hsteps, hb⟩ :=
            blockLoop_course M rest uc s 0 (glue.countP Wait.isTrap + 1) (opened_zero vt)
          rw [Nat.zero_add] at hsteps
          constructor
          · intro h
            refine ⟨fun _ hall => absurd hall (not_all_glue M hw hlen), ?_⟩
            intro glue' s' hit' rest' uc' heq hglue' _ hin' hset'
            obtain ⟨rfl, hws, rfl⟩ := glue_unique M heq hglue hw hglue' (not_not.2 hin')
            cases hws
            obtain rfl := Option.some.inj (hset.symm.trans hset')
            refine ⟨hstops ▸ h.stops, fun hpos => ?_⟩
            have hle := h.steps hpos
            rwa [hsteps, grown_le_iff] at hle
          · intro h
            obtain ⟨hle, hle'⟩ := h.ends glue s hit rest uc rfl hglue hlen hin hset
            refine ⟨fun hpos => ?_, hstops ▸ hle, fun hbound => ?_⟩
            · rw [hsteps, grown_le_iff]
              exact hle' hpos
            · rw [hb] at hbound
              cases hbound

end Bounds

section Loop

/-- A region of two instructions that never leaves itself -/
def loopMachine : Machine ℕ ℕ where
  rbase := 10
  rend := 12
  base := 10
  codeLen := 2
  nhwrec := 0
  noInject := false
  rip := id
  imp _ := .none
  insnLen _ := 1
  openRecs _ := ([], false)
  fillRecs recs _ := (recs, false)
  setUp := some
  seed _ s _ := s
  snap := id
  emu pc := some (if pc = 11 then 10 else pc + 1)
  inject uc _ := uc
  coherent uc s := uc = s
  final uc _ := uc

/-- The stop at the top of the loop -/
def loopStop : Wait ℕ :=
  .trap (some 10) none

/-- Every round of the loop is a stop. -/
lemma blockLoop_loopMachine (c : Ctx) (uc blockIdx stops n : ℕ) :
    (blockLoop loopMachine c uc 10 blockIdx stops (List.replicate n loopStop)).stops =
      stops + n := by
  induction n generalizing c uc blockIdx stops with
  | zero => rfl
  | succ n ih =>
    have hblock : stepBlock loopMachine 10 (loopMachine.codeLen + 5)
        (loopMachine.seed uc 10 blockIdx) = ([10, 11], 10, .ok) := by
      change stepBlock loopMachine 10 7 10 = _
      decide
    have hwait : boundary loopMachine loopStop = (1, .at 10) := rfl
    rw [List.replicate_succ, blockLoop, hwait]
    dsimp only
    rw [hblock, if_neg (by decide), if_neg (by decide), ih]
    omega

lemma blockstepRun_loopMachine (maxInsns : ℕ) (vt : ValTrace) (n : ℕ) :
    (blockstepRun loopMachine true maxInsns vt (List.replicate (n + 1) loopStop)).stops =
      n + 1 := by
  have hentry : toEntry loopMachine stopBackstop 0 (List.replicate (n + 1) loopStop) =
      .at 10 1 (List.replicate n loopStop) := by
    rw [List.replicate_succ, show stopBackstop = 2 ^ 20 - 1 + 1 from rfl, loopStop, toEntry,
      if_pos (by decide)]
  have hset : loopMachine.setUp 10 = some 10 := rfl
  rw [blockstepRun, if_pos rfl, captureBlockstep, hentry]
  dsimp only
  rw [hset]
  dsimp only
  rw [blockLoop_loopMachine, Nat.add_comm]

end Loop

end AsmTest.Blockstep
