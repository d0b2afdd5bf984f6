import AsmTest.DfpStepLoop
import AsmTest.GapBarrier

/-!
# The loops of a value capture

The windowed loop records the stops in a set of regions and steps through the glue between them; the
scoped loop runs over the callees of its region. What either does to the trace and to the set at
risk is to finalize steps and to end excursions, in some order.
-/

namespace AsmTest.Dataflow.Gap

open Scoped (Stop State Entry Config Ctx Result Outcome)

/-- `DFP_STEP_BACKSTOP` -/
def dfpStepBackstop : ℕ := 2 ^ 20

section Agreement

/-- Two traces differ in no more than whether they are truncated. -/
def SameTrace (v v' : ValTrace) : Prop :=
  ∃ b, v' = { v with truncated := b }

/-- So do two captures. -/
structure Agrees (c c' : Cap) : Prop where
  vt : SameTrace c.vt c'.vt
  regs : c.risk.regs = c'.risk.regs
  addrs : c.risk.addrs = c'.risk.addrs
  calls : c.calls = c'.calls
  gaps : c.gaps = c'.gaps

variable {c c' : Cap} {v v' : ValTrace} {win : Bool}

lemma SameTrace.pushRecs (h : SameTrace v v') (i : ℕ) (l : List ValRec) :
    SameTrace (l.foldl (pushRec i) v) (l.foldl (pushRec i) v') := by
  induction l generalizing v v' with
  | nil => exact h
  | cons r l ih =>
    obtain ⟨b, rfl⟩ := h
    apply ih
    unfold pushRec
    dsimp only
    split_ifs
    · exact ⟨b, rfl⟩
    · exact ⟨true, rfl⟩

lemma SameTrace.append (h : SameTrace v v') (off : BitVec 64) (recs : List ValRec) :
    SameTrace (valtraceAppend v off recs) (valtraceAppend v' off recs) := by
  obtain ⟨b, rfl⟩ := h
  unfold valtraceAppend
  dsimp only
  split_ifs
  · apply SameTrace.pushRecs
    exact ⟨b, rfl⟩
  · exact ⟨true, rfl⟩

lemma SameTrace.truncate (h : SameTrace v v') (x y : Bool) :
    SameTrace { v with truncated := x } { v' with truncated := y } := by
  obtain ⟨b, rfl⟩ := h
  exact ⟨y, rfl⟩

lemma SameTrace.truncate_left (h : SameTrace v v') (x : Bool) :
    SameTrace { v with truncated := x } v' := by
  obtain ⟨b, hb⟩ := h
  exact ⟨b, hb⟩

lemma Agrees.append (h : Agrees c c') (call : Call) : Agrees (c.append call) (c'.append call) := by
  refine ⟨h.vt.append _ _, h.regs, h.addrs, ?_, h.gaps⟩
  unfold Cap.append
  dsimp only
  rw [h.calls]

lemma riskAdd_congr {risk risk' : Risk} (hregs : risk.regs = risk'.regs)
    (haddrs : risk.addrs = risk'.addrs) (r : ValRec) :
    (riskAdd win risk r).regs = (riskAdd win risk' r).regs ∧
      (riskAdd win risk r).addrs = (riskAdd win risk' r).addrs := by
  unfold riskAdd
  dsimp only
  rw [hregs, haddrs]
  split_ifs
  -- a read, a name already kept, a full list of names, a new name
  · exact ⟨hregs, haddrs⟩
  · exact ⟨hregs, haddrs⟩
  · exact ⟨hregs, haddrs⟩
  · exact ⟨rfl, rfl⟩
  -- a memory write of no usable size, then one whose bytes go in
  · exact ⟨hregs, haddrs⟩
  · exact ⟨rfl, rfl⟩
  · exact ⟨rfl, rfl⟩

lemma foldl_riskAdd_congr (recs : List ValRec) {risk risk' : Risk} (hregs : risk.regs = risk'.regs)
    (haddrs : risk.addrs = risk'.addrs) :
    (recs.foldl (riskAdd win) risk).regs = (recs.foldl (riskAdd win) risk').regs ∧
      (recs.foldl (riskAdd win) risk).addrs = (recs.foldl (riskAdd win) risk').addrs := by
  induction recs generalizing risk risk' with
  | nil => exact ⟨hregs, haddrs⟩
  | cons r recs ih =>
    obtain ⟨hregs, haddrs⟩ := @riskAdd_congr win risk risk' hregs haddrs r
    exact ih hregs haddrs

lemma Agrees.finalizeStep (h : Agrees c c') (off : BitVec 64) (recs : List ValRec) :
    Agrees (c.finalizeStep win off recs) (c'.finalizeStep win off recs) := by
  obtain ⟨hregs, haddrs⟩ := @foldl_riskAdd_congr win recs c.risk c'.risk h.regs h.addrs
  apply Agrees.append
  exact ⟨h.vt.truncate _ _, hregs, haddrs, h.calls, h.gaps⟩

lemma Agrees.foldl_append {pc : BitVec 64} {e : Excursion} (h : Agrees c c')
    (batches : List (List ValRec)) :
    Agrees (batches.foldl (fun c recs => c.append ⟨pc, recs, some e⟩) c)
      (batches.foldl (fun c recs => c.append ⟨pc, recs, some e⟩) c') := by
  induction batches generalizing c c' with
  | nil => exact h
  | cons recs batches ih => exact ih (h.append _)

lemma Agrees.emitGap (h : Agrees c c') (pc : BitVec 64) (pre post : Machine)
    (stash : BitVec 32 → Option (BitVec 32)) :
    Agrees (c.emitGap win pc pre post stash) (c'.emitGap win pc pre post stash) := by
  have hgap : dfpEmitGap c'.risk pre post stash = dfpEmitGap c.risk pre post stash := by
    unfold dfpEmitGap
    rw [h.regs, h.addrs]
  unfold Cap.emitGap
  dsimp only
  rw [hgap, ← h.calls, ← h.regs]
  apply Agrees.foldl_append
  exact ⟨h.vt.truncate _ _, rfl, h.addrs, rfl, by rw [h.gaps]⟩

end Agreement

section Window

/-- What the windowed loop is given: where the frame returns to, the region set at the stop of a
given number, after the channel was drained, the bound on recorded steps, and the operands -/
structure WinConfig where
  winRet : ℕ
  inRegionSet : ℕ → ℕ → Bool
  /-- No bound when zero -/
  maxInsns : ℕ
  records : ℕ → State Machine → State Machine → List ValRec
  openRecords : ℕ → State Machine → List ValRec
  stash : ℕ → BitVec 32 → Option (BitVec 32)

/-- The locals of the loop and the capture -/
structure WinCtx where
  cap : Cap
  /-- The state before the open step -/
  cur : Option (State Machine) := none
  /-- The state at the entry of the open gap -/
  gapPre : Option (State Machine) := none
  recorded : ℕ := 0
  stops : ℕ := 0

def WinCtx.truncate (c : WinCtx) : WinCtx :=
  { c with cap := { c.cap with vt := { c.cap.vt with truncated := true } } }

/-- `finalize_step`, when a step is open -/
def WinCtx.finalizeStep (cfg : WinConfig) (post : State Machine) (c : WinCtx) : WinCtx :=
  match c.cur with
  | none => c
  | some pre =>
    { c with cap := c.cap.finalizeStep true (BitVec.ofNat 64 pre.pc) (cfg.records pre.pc pre post),
             cur := none }

/-- The barrier, when a gap is open -/
def WinCtx.closeGap (cfg : WinConfig) (post : State Machine) (c : WinCtx) : WinCtx :=
  match c.gapPre with
  | none => c
  | some pre =>
    { c with cap := c.cap.emitGap true (BitVec.ofNat 64 pre.pc) pre.world post.world
               (cfg.stash c.stops),
             gapPre := none }

/-- A stop of the tracee; the second component is whether the loop ends here. -/
def winStop (cfg : WinConfig) (s : State Machine) (c : WinCtx) : WinCtx × Bool :=
  if s.pc = cfg.winRet then (c.finalizeStep cfg s, true)
  else if cfg.inRegionSet c.stops s.pc then
    let c := { (c.closeGap cfg s).finalizeStep cfg s with cur := some s,
                                                          recorded := c.recorded + 1 }
    if cfg.maxInsns ≠ 0 ∧ cfg.maxInsns ≤ c.recorded then
      ({ c with cap := c.cap.append ⟨BitVec.ofNat 64 s.pc, cfg.openRecords s.pc s, none⟩,
                cur := none }.truncate, true)
    else (c, false)
  else
    let c := c.finalizeStep cfg s
    (if c.gapPre = none then { c with gapPre := some s } else c, false)

/-- `dfp_window_loop` over what `waitpid` reports; when the list is used up the tracee has died. -/
def windowLoop (cfg : WinConfig) : WinCtx → List (Stop Machine) → WinCtx
  | c, [] => c.truncate
  | c, .signal fault :: rest => if fault then c.truncate else windowLoop cfg c rest
  | c, .appTrap s :: _ => (c.finalizeStep cfg s).truncate
  | c, .fail :: _ => c
  | c, .trap s :: rest =>
    let c := { c with stops := c.stops + 1 }
    if dfpStepBackstop < c.stops then c.truncate
    else
      match winStop cfg s c with
      | (c, true) => c
      | (c, false) => windowLoop cfg c rest

/-- The loop from the stop at the entry of the window -/
def dfpWindowLoop (cfg : WinConfig) (vt : ValTrace) (entry : State Machine)
    (stops : List (Stop Machine)) : WinCtx :=
  match winStop cfg entry { cap := { vt } } with
  | (c, true) => c
  | (c, false) => windowLoop cfg c stops

/-- The capture is that of at most `n` acts, but for whether it is truncated. -/
def FollowsActs (win : Bool) (vt : ValTrace) (n : ℕ) (c : Cap) : Prop :=
  ∃ acts : List Act, acts.length ≤ n ∧ Agrees (acts.foldl (Cap.act win) { vt }) c

namespace FollowsActs

variable {win : Bool} {vt : ValTrace} {n m : ℕ} {c : Cap}

lemma start : FollowsActs win vt 0 { vt } :=
  ⟨[], le_rfl, ⟨vt.truncated, rfl⟩, rfl, rfl, rfl, rfl⟩

lemma mono (h : FollowsActs win vt n c) (hle : n ≤ m) : FollowsActs win vt m c := by
  obtain ⟨acts, hlen, hagree⟩ := h
  exact ⟨acts, hlen.trans hle, hagree⟩

lemma truncate (h : FollowsActs win vt n c) (b : Bool) :
    FollowsActs win vt n { c with vt := { c.vt with truncated := b } } := by
  obtain ⟨acts, hlen, hagree⟩ := h
  exact ⟨acts, hlen, hagree.vt.truncate _ b, hagree.regs, hagree.addrs, hagree.calls, hagree.gaps⟩

lemma act (h : FollowsActs win vt n c) (a : Act) : FollowsActs win vt (n + 1) (c.act win a) := by
  obtain ⟨acts, hlen, hagree⟩ := h
  refine ⟨acts ++ [a], ?_, ?_⟩
  · rw [List.length_append, List.length_singleton]
    omega
  · rw [List.foldl_append, List.foldl_cons, List.foldl_nil]
    cases a with
    | step off recs => exact hagree.finalizeStep off recs
    | opened off recs => exact hagree.append _
    | gap pc pre post stash => exact hagree.emitGap pc pre post stash

end FollowsActs

section Loop

variable {cfg : WinConfig} {vt : ValTrace} {n : ℕ} {c : WinCtx} {s : State Machine}

lemma follows_finalizeStep (h : FollowsActs true vt n c.cap) :
    FollowsActs true vt (n + 1) (c.finalizeStep cfg s).cap := by
  unfold WinCtx.finalizeStep
  split
  · exact h.mono (Nat.le_succ n)
  · exact h.act (.step _ _)

lemma follows_closeGap (h : FollowsActs true vt n c.cap) :
    FollowsActs true vt (n + 1) (c.closeGap cfg s).cap := by
  unfold WinCtx.closeGap
  split
  · exact h.mono (Nat.le_succ n)
  · exact h.act (.gap _ _ _ _)

/-- A stop gives at most three acts: a barrier, a step, and at the bound the open step. -/
lemma follows_winStop (h : FollowsActs true vt n c.cap) :
    FollowsActs true vt (n + 3) (winStop cfg s c).1.cap ∧
      (winStop cfg s c).1.stops = c.stops := by
  have hstops : ∀ c : WinCtx, (c.finalizeStep cfg s).stops = c.stops := by
    intro c
    unfold WinCtx.finalizeStep
    split <;> rfl
  have hgap : (c.closeGap cfg s).stops = c.stops := by
    unfold WinCtx.closeGap
    split <;> rfl
  have hboth : FollowsActs true vt (n + 2) ((c.closeGap cfg s).finalizeStep cfg s).cap :=
    follows_finalizeStep (follows_closeGap h)
  unfold winStop
  dsimp only
  split_ifs with hret hin hmax hopen
  · exact ⟨(follows_finalizeStep h).mono (by omega), hstops c⟩
  · exact ⟨(hboth.act (.opened _ _)).truncate true, (hstops _).trans hgap⟩
  · exact ⟨hboth.mono (by omega), (hstops _).trans hgap⟩
  · exact ⟨(follows_finalizeStep h).mono (by omega), hstops c⟩
  · exact ⟨(follows_finalizeStep h).mono (by omega), hstops c⟩

lemma follows_windowLoop (stops : List (Stop Machine))
    (h : FollowsActs true vt (3 * c.stops + 3) c.cap) (hstops : c.stops ≤ dfpStepBackstop) :
    FollowsActs true vt (3 * dfpStepBackstop + 4) (windowLoop cfg c stops).cap := by
  have hend : FollowsActs true vt (3 * dfpStepBackstop + 4) c.cap := h.mono (by omega)
  induction stops generalizing c with
  | nil => exact hend.truncate true
  | cons stop rest ih =>
    cases stop with
    | signal fault =>
      rw [windowLoop]
      split_ifs
      · exact hend.truncate true
      · exact ih h hstops hend
    | appTrap s =>
      exact ((follows_finalizeStep h).mono (by omega)).truncate true
    | fail => exact hend
    | trap s =>
      rw [windowLoop]
      dsimp only
      split_ifs with hover
      · exact hend.truncate true
      · obtain ⟨hcap, hstop⟩ := @follows_winStop cfg vt (3 * c.stops + 3)
          { c with stops := c.stops + 1 } s h
        dsimp only at hstop
        generalize winStop cfg s { c with stops := c.stops + 1 } = out at hcap hstop
        obtain ⟨c', fin⟩ := out
        dsimp only at hcap hstop
        have hcap' : FollowsActs true vt (3 * c'.stops + 3) c'.cap := hcap.mono (by omega)
        have hend' : FollowsActs true vt (3 * dfpStepBackstop + 4) c'.cap :=
          hcap'.mono (by omega)
        cases fin with
        | true => exact hend'
        | false => exact ih hcap' (by omega) hend'

end Loop

/-- What the windowed loop captures is a run. -/
theorem exists_run_of_window (cfg : WinConfig) (stepsCap recsCap : ℕ) (entry : State Machine)
    (stops : List (Stop Machine)) : ∃ run : Run, run.win = true ∧
      Agrees run.cap (dfpWindowLoop cfg (valtraceNew stepsCap recsCap) entry stops).cap := by
  have hfollows : FollowsActs true (valtraceNew stepsCap recsCap) (3 * dfpStepBackstop + 4)
      (dfpWindowLoop cfg (valtraceNew stepsCap recsCap) entry stops).cap := by
    obtain ⟨hcap, hstop⟩ := @follows_winStop cfg (valtraceNew stepsCap recsCap) 0
      { cap := { vt := valtraceNew stepsCap recsCap } } entry FollowsActs.start
    unfold dfpWindowLoop
    generalize winStop cfg entry { cap := { vt := valtraceNew stepsCap recsCap } } = out
      at hcap hstop
    obtain ⟨c, fin⟩ := out
    dsimp only at hcap hstop
    cases fin with
    | true => exact hcap.mono (by omega)
    | false =>
      exact follows_windowLoop stops (hcap.mono (by omega)) (by rw [hstop]; exact Nat.zero_le _)
  obtain ⟨acts, hlen, hagree⟩ := hfollows
  have hbound : acts.length < 2 ^ 31 := by
    have hstop : dfpStepBackstop = 2 ^ 20 := rfl
    omega
  exact ⟨⟨true, stepsCap, recsCap, acts, hbound⟩, rfl, hagree⟩

end Window

section Scope

/-- The set at risk after what was appended: that of the steps, without the barriers -/
def riskOf (log : List Entry) : Risk :=
  log.foldl (fun risk e =>
    match e with
    | .step _ recs => recs.foldl (riskAdd false) risk
    | .gap _ _ => risk) {}

/-- The barrier of the scoped loop; the cap of the set is disclosed at the first excursion after. -/
def scopedGlue (stash : List Entry → BitVec 32 → Option (BitVec 32)) (log : List Entry)
    (pre post : State Machine) : Bool × List (List ValRec) :=
  let g := dfpEmitGap (riskOf log) pre.world post.world (stash log)
  (g.1 || (riskOf log).overflow, g.2)

/-- An append of the scoped loop: its offset and records, and whether it is a barrier -/
def entryMark (e : Entry) : BitVec 64 × List ValRec × Bool :=
  (BitVec.ofNat 64 e.off, e.recs, e.inside?.isNone)

def callMark (call : Call) : BitVec 64 × List ValRec × Bool :=
  (call.off, call.recs, call.gap.isSome)

/-- The scoped loop has appended what a capture has. -/
structure MirrorsTrace (c : Ctx Machine) (k : Cap) : Prop where
  vt : SameTrace k.vt c.vt
  calls : k.calls.map callMark = c.log.map entryMark

/-- The same is at risk, too. -/
structure Mirrors (c : Ctx Machine) (k : Cap) : Prop extends MirrorsTrace c k where
  regs : k.risk.regs = (riskOf c.log).regs
  addrs : k.risk.addrs = (riskOf c.log).addrs

section Mirror

variable {c : Ctx Machine} {k : Cap}

lemma MirrorsTrace.append (h : MirrorsTrace c k) {e : Entry} {call : Call}
    (heq : callMark call = entryMark e) : MirrorsTrace (c.append e) (k.append call) := by
  have hoff : call.off = BitVec.ofNat 64 e.off := congrArg Prod.fst heq
  have hrecs : call.recs = e.recs := congrArg (fun p => p.2.1) heq
  refine ⟨?_, ?_⟩
  · unfold Cap.append Ctx.append
    dsimp only
    rw [hoff, hrecs]
    exact h.vt.append _ _
  · unfold Cap.append Ctx.append
    dsimp only
    rw [List.map_append, List.map_append, h.calls, List.map_singleton, List.map_singleton, heq]

lemma Mirrors.step (h : Mirrors c k) (off : ℕ) (recs : List ValRec) :
    Mirrors (c.append (.step off recs)) (k.finalizeStep false (BitVec.ofNat 64 off) recs) := by
  obtain ⟨hregs, haddrs⟩ := @foldl_riskAdd_congr false recs k.risk (riskOf c.log) h.regs h.addrs
  have hrisk : riskOf (c.log ++ [.step off recs]) = recs.foldl (riskAdd false) (riskOf c.log) := by
    rw [riskOf, List.foldl_append]
    rfl
  have htrace : MirrorsTrace c
      { k with
        risk := recs.foldl (riskAdd false) k.risk,
        vt := { k.vt with
          truncated := k.vt.truncated ||
            false && (recs.foldl (riskAdd false) k.risk).overflow } } :=
    ⟨h.vt.truncate_left _, h.calls⟩
  refine ⟨htrace.append rfl, ?_, ?_⟩
  · change _ = (riskOf (c.log ++ [.step off recs])).regs
    rw [hrisk]
    exact hregs
  · change _ = (riskOf (c.log ++ [.step off recs])).addrs
    rw [hrisk]
    exact haddrs

lemma Mirrors.barriers (h : Mirrors c k) (pc : ℕ) (e : Excursion) (batches : List (List ValRec)) :
    Mirrors (batches.foldl (fun c recs => c.append (.gap pc recs)) c)
      (batches.foldl (fun k recs => k.append ⟨BitVec.ofNat 64 pc, recs, some e⟩) k) := by
  induction batches generalizing c k with
  | nil => exact h
  | cons recs batches ih =>
    have hrisk : riskOf (c.log ++ [.gap pc recs]) = riskOf c.log := by
      rw [riskOf, List.foldl_append]
      rfl
    apply ih
    refine ⟨MirrorsTrace.append h.toMirrorsTrace rfl, ?_, ?_⟩
    · change k.risk.regs = (riskOf (c.log ++ [.gap pc recs])).regs
      rw [hrisk]
      exact h.regs
    · change k.risk.addrs = (riskOf (c.log ++ [.gap pc recs])).addrs
      rw [hrisk]
      exact h.addrs

lemma Mirrors.emitGap (h : Mirrors c k) {cfg : Config Machine}
    {stash : List Entry → BitVec 32 → Option (BitVec 32)} (hglue : cfg.glue = scopedGlue stash)
    (pre post : State Machine) :
    Mirrors (c.emitGap cfg pre post)
      (k.emitGap false (BitVec.ofNat 64 pre.pc) pre.world post.world (stash c.log)) := by
  have hgap : dfpEmitGap k.risk pre.world post.world (stash c.log) =
      dfpEmitGap (riskOf c.log) pre.world post.world (stash c.log) := by
    unfold dfpEmitGap
    rw [h.regs, h.addrs]
  unfold Ctx.emitGap Cap.emitGap
  dsimp only
  rw [hglue, hgap]
  apply Mirrors.barriers
  split_ifs
  · exact ⟨⟨h.vt.truncate _ _, h.calls⟩, h.regs, h.addrs⟩
  · exact ⟨⟨h.vt.truncate_left _, h.calls⟩, h.regs, h.addrs⟩

end Mirror

/-- The scoped loop has done what at most `n` acts do. -/
def FollowsScoped (vt : ValTrace) (n : ℕ) (c : Ctx Machine) : Prop :=
  ∃ acts : List Act, acts.length ≤ n ∧ Mirrors c (acts.foldl (Cap.act false) { vt })

/-- The same, of the trace only -/
def FollowsTrace (vt : ValTrace) (n : ℕ) (c : Ctx Machine) : Prop :=
  ∃ acts : List Act, acts.length ≤ n ∧ MirrorsTrace c (acts.foldl (Cap.act false) { vt })

section Loop

variable {vt : ValTrace} {n : ℕ} {c : Ctx Machine} {cfg : Config Machine} {s : State Machine}

lemma FollowsScoped.trace (h : FollowsScoped vt n c) {m : ℕ} (hle : n ≤ m) :
    FollowsTrace vt m c := by
  obtain ⟨acts, hlen, hm⟩ := h
  exact ⟨acts, hlen.trans hle, hm.toMirrorsTrace⟩

lemma FollowsTrace.truncate (h : FollowsTrace vt n c) : FollowsTrace vt n c.truncate := by
  obtain ⟨acts, hlen, hm⟩ := h
  obtain ⟨b, hb⟩ := hm.vt
  exact ⟨acts, hlen, ⟨true, by rw [Ctx.truncate, hb]⟩, hm.calls⟩

lemma follows_finalize (h : FollowsScoped vt n c) :
    FollowsScoped vt (n + 1) (c.finalizeStep cfg s) := by
  obtain ⟨acts, hlen, hm⟩ := h
  unfold Ctx.finalizeStep
  split
  · exact ⟨acts, by omega, hm⟩
  · rename_i pre hpre
    refine ⟨acts ++ [.step (BitVec.ofNat 64 c.curOff) (cfg.records c.curOff pre s)], ?_, ?_⟩
    · rw [List.length_append, List.length_singleton]
      omega
    · rw [List.foldl_append, List.foldl_cons, List.foldl_nil]
      have hstep := hm.step c.curOff (cfg.records c.curOff pre s)
      exact ⟨⟨hstep.vt, hstep.calls⟩, hstep.regs, hstep.addrs⟩

lemma follows_appendOpen (h : FollowsScoped vt n c) :
    FollowsTrace vt (n + 1) (c.appendOpen cfg) := by
  obtain ⟨acts, hlen, hm⟩ := h
  unfold Ctx.appendOpen
  split
  · exact ⟨acts, by omega, hm.toMirrorsTrace⟩
  · rename_i pre hpre
    refine ⟨acts ++ [.opened (BitVec.ofNat 64 c.curOff) (cfg.openRecords c.curOff pre)], ?_, ?_⟩
    · rw [List.length_append, List.length_singleton]
      omega
    · rw [List.foldl_append, List.foldl_cons, List.foldl_nil]
      have hstep : MirrorsTrace (c.append (.step c.curOff (cfg.openRecords c.curOff pre)))
          ((acts.foldl (Cap.act false) { vt }).append
            ⟨BitVec.ofNat 64 c.curOff, cfg.openRecords c.curOff pre, none⟩) :=
        hm.toMirrorsTrace.append rfl
      exact ⟨hstep.vt, hstep.calls⟩

lemma follows_emitGap {stash : List Entry → BitVec 32 → Option (BitVec 32)}
    (hglue : cfg.glue = scopedGlue stash) (h : FollowsScoped vt n c) (pre post : State Machine) :
    FollowsScoped vt (n + 1) (c.emitGap cfg pre post) := by
  obtain ⟨acts, hlen, hm⟩ := h
  refine ⟨acts ++ [.gap (BitVec.ofNat 64 pre.pc) pre.world post.world (stash c.log)], ?_, ?_⟩
  · rw [List.length_append, List.length_singleton]
    omega
  · rw [List.foldl_append, List.foldl_cons, List.foldl_nil]
    exact hm.emitGap hglue pre post

lemma emitGap_total (pre post : State Machine) : (c.emitGap cfg pre post).total = c.total := by
  have hfold : ∀ (batches : List (List ValRec)) (c : Ctx Machine),
      (batches.foldl (fun c recs => c.append (.gap pre.pc recs)) c).total = c.total := by
    intro batches
    induction batches with
    | nil => exact fun _ => rfl
    | cons recs batches ih => exact fun c => ih (c.append (.gap pre.pc recs))
  unfold Ctx.emitGap
  dsimp only
  rw [hfold]
  split_ifs <;> rfl

/-- Where the loop stands after a round; a callee that was run over is one more stop to look at. -/
def Within (cfg : Config Machine) (vt : ValTrace) : Outcome Machine → Prop
  | .cont c here _ => c.total ≤ cfg.stepBackstop ∧
    ∃ n, n + here.toList.length ≤ 2 * c.total + 1 ∧ FollowsScoped vt n c
  | .done r => FollowsTrace vt (2 * cfg.stepBackstop + 3) r.ctx

lemma within_land {stash : List Entry → BitVec 32 → Option (BitVec 32)}
    (hglue : cfg.glue = scopedGlue stash) (h : FollowsScoped vt n c)
    (htotal : c.total ≤ cfg.stepBackstop) (hn : n ≤ 2 * c.total) (rest : List (Stop Machine)) :
    Within cfg vt (Scoped.land cfg c s rest) := by
  have hfin : FollowsScoped vt (n + 1) (c.finalizeStep cfg s) := follows_finalize h
  have htot : (c.finalizeStep cfg s).total = c.total := by
    unfold Ctx.finalizeStep
    split <;> rfl
  have hdone : FollowsTrace vt (2 * cfg.stepBackstop + 3) (c.finalizeStep cfg s) :=
    hfin.trace (by omega)
  unfold Scoped.land
  by_cases hin : cfg.Inside s.pc
  · rw [if_pos hin]
    unfold Scoped.landInside
    have hopen : ∀ recorded, FollowsScoped vt (n + 1)
        { ({ c.finalizeStep cfg s with entered := true }).openStep cfg s with recorded } := by
      intro recorded
      obtain ⟨acts, hlen, hm⟩ := hfin
      exact ⟨acts, hlen, ⟨hm.vt, hm.calls⟩, hm.regs, hm.addrs⟩
    have hcont : ∀ recorded, Within cfg vt (.cont
        { ({ c.finalizeStep cfg s with entered := true }).openStep cfg s with recorded } none
        rest) := by
      intro recorded
      refine ⟨?_, n + 1, ?_, hopen recorded⟩
      · change (c.finalizeStep cfg s).total ≤ _
        omega
      · change n + 1 + 0 ≤ 2 * (c.finalizeStep cfg s).total + 1
        omega
    dsimp only
    split_ifs
    · obtain ⟨acts, hlen, hm⟩ := (@follows_appendOpen vt (n + 1) _ cfg (hopen _)).truncate
      exact ⟨acts, by omega, hm⟩
    · exact hcont _
    · exact hcont _
  · rw [if_neg hin]
    split_ifs
    · unfold Scoped.landOutside
      dsimp only
      cases Scoped.isCallout cfg c.curOff s with
      | none => exact hdone
      | some resumeOff =>
        have hnext : FollowsScoped vt (n + 1)
            { c.finalizeStep cfg s with total := (c.finalizeStep cfg s).total + 1 } := by
          obtain ⟨acts, hlen, hm⟩ := hfin
          exact ⟨acts, hlen, ⟨hm.vt, hm.calls⟩, hm.regs, hm.addrs⟩
        have hstop : FollowsTrace vt (2 * cfg.stepBackstop + 3) (Ctx.truncate
            { c.finalizeStep cfg s with total := (c.finalizeStep cfg s).total + 1 }) :=
          (hnext.trace (by omega)).truncate
        dsimp only
        split_ifs with hover
        · exact hstop
        · cases Scoped.runTo (cfg.base + resumeOff) rest with
          | none => exact hstop
          | some landed =>
            have hgap := follows_emitGap hglue hnext s landed.1
            have htot' : (Ctx.emitGap cfg s landed.1
                { c.finalizeStep cfg s with total := (c.finalizeStep cfg s).total + 1 }).total =
                  c.total + 1 := by
              rw [emitGap_total]
              exact congrArg (· + 1) htot
            refine ⟨?_, n + 2, ?_, hgap⟩
            · rw [htot']
              omega
            · rw [htot']
              change n + 2 + 1 ≤ _
              omega
    · exact ⟨htotal, n, by change n + 0 ≤ _; omega, h⟩

lemma within_round {stash : List Entry → BitVec 32 → Option (BitVec 32)}
    (hglue : cfg.glue = scopedGlue stash) (h : FollowsScoped vt n c)
    (htotal : c.total ≤ cfg.stepBackstop) {here : Option (State Machine)}
    (hn : n + here.toList.length ≤ 2 * c.total + 1) (stops : List (Stop Machine)) :
    Within cfg vt (Scoped.stepRound cfg c here stops) := by
  have hc : FollowsScoped vt n { c with rounds := c.rounds + 1 } := by
    obtain ⟨acts, hlen, hm⟩ := h
    exact ⟨acts, hlen, ⟨hm.vt, hm.calls⟩, hm.regs, hm.addrs⟩
  have hlen : n ≤ 2 * c.total + 1 := by omega
  have hend : FollowsTrace vt (2 * cfg.stepBackstop + 3) { c with rounds := c.rounds + 1 } :=
    hc.trace (by omega)
  have hround : FollowsScoped vt n
      { c with rounds := c.rounds + 1, total := c.total + 1 } := by
    obtain ⟨acts, hlen, hm⟩ := h
    exact ⟨acts, hlen, ⟨hm.vt, hm.calls⟩, hm.regs, hm.addrs⟩
  unfold Scoped.stepRound
  dsimp only
  by_cases hstop : cfg.stop (c.rounds + 1) = true
  · rw [if_pos hstop]
    obtain ⟨acts, hacts, hm⟩ := (@follows_appendOpen vt n _ cfg hc).truncate
    exact ⟨acts, by omega, hm⟩
  · rw [if_neg hstop]
    split
    · exact within_land hglue hc htotal (by simpa using hn) _
    · split_ifs
      · exact hend.truncate
      · exact hend
      · exact hend.truncate
      · exact hend
    · split_ifs
      · exact hend.truncate
      · exact ⟨htotal, n, hlen, hc⟩
    · obtain ⟨acts, hacts, hm⟩ :=
        ((@follows_finalize vt n _ cfg _ hc).trace (le_refl (n + 1))).truncate
      exact ⟨acts, by omega, hm⟩
    · exact hend
    · split_ifs with hover
      · exact (hround.trace (by omega)).truncate
      · refine within_land hglue hround (by dsimp only; omega) (by dsimp only; omega) _

lemma follows_stepLoop {stash : List Entry → BitVec 32 → Option (BitVec 32)}
    (hglue : cfg.glue = scopedGlue stash) (fuel : ℕ) (h : FollowsScoped vt n c)
    (htotal : c.total ≤ cfg.stepBackstop) {here : Option (State Machine)}
    (hn : n + here.toList.length ≤ 2 * c.total + 1) (stops : List (Stop Machine)) :
    FollowsTrace vt (2 * cfg.stepBackstop + 3) (Scoped.stepLoop cfg fuel c here stops).ctx := by
  induction fuel generalizing n c here stops with
  | zero => exact h.trace (by omega)
  | succ fuel ih =>
    have hround := within_round hglue h htotal hn stops
    rw [Scoped.stepLoop]
    generalize Scoped.stepRound cfg c here stops = out at hround
    cases out with
    | done r => exact hround
    | cont c' here' rest =>
      obtain ⟨htotal', n', hn', h'⟩ := hround
      exact ih h' htotal' hn' rest

end Loop

/-- What the scoped loop captures is a run. -/
theorem exists_run_of_scoped (cfg : Config Machine)
    (stash : List Entry → BitVec 32 → Option (BitVec 32)) (hglue : cfg.glue = scopedGlue stash)
    (hstop : cfg.stepBackstop ≤ dfpStepBackstop) (stepsCap recsCap : ℕ)
    (stops : List (Stop Machine)) : ∃ run : Run, run.win = false ∧
      MirrorsTrace (Scoped.dfpStepLoop cfg (valtraceNew stepsCap recsCap) stops).ctx run.cap := by
  have hstart : FollowsScoped (valtraceNew stepsCap recsCap) 0
      { vt := valtraceNew stepsCap recsCap } :=
    ⟨[], le_rfl, ⟨⟨_, rfl⟩, rfl⟩, rfl, rfl⟩
  have hfollows : FollowsTrace (valtraceNew stepsCap recsCap) (2 * cfg.stepBackstop + 3)
      (Scoped.dfpStepLoop cfg (valtraceNew stepsCap recsCap) stops).ctx := by
    unfold Scoped.dfpStepLoop
    split
    · exact follows_stepLoop hglue _ hstart (Nat.zero_le _) (le_refl 1) _
    · exact @follows_stepLoop _ 0 _ cfg stash hglue _ hstart (Nat.zero_le _) none (Nat.zero_le 1) _
  obtain ⟨acts, hlen, hm⟩ := hfollows
  have hbound : acts.length < 2 ^ 31 := by
    have htwenty : dfpStepBackstop = 2 ^ 20 := rfl
    omega
  exact ⟨⟨false, stepsCap, recsCap, acts, hbound⟩, rfl, hm⟩

end Scope

end AsmTest.Dataflow.Gap
