import AsmTest.AddrChannel
import AsmTest.PtraceStep

/-!
# Whole-window capture

A window is stepped by instruction or by taken branch, and the addresses in the window frame or in
a region published on the address channel are recorded. Both loops read the same events of the
tracee. The memory of the target is one region from address 0 on, so an offset is an address.
-/

namespace AsmTest.Window

open Hwtrace (Code Step Trace BsStatus scanLoop ptraceStreamCap traceAppendInsn traceAppendBlock)
open Descent (BlockSeq blockseqBoundary)
open AddrChannel

/-- `PTRACE_WINDOW_STEP_CAP` -/
def ptraceWindowStepCap : ℕ := 2 ^ 22

/-- `PTRACE_BLOCK_WALK_CAP` -/
def ptraceBlockWalkCap : ℕ := 2 ^ 16

/-- What delimits a window. The form that ends when `*stop` is set has no frame. -/
structure Win where
  base : ℕ := 0
  len : ℕ := 0
  ret : ℕ := 0
  stopForm : Bool := false
deriving DecidableEq, Repr

/-- The address lies in the region of the record. -/
def inRec (pc : ℕ) (r : AddrRec) : Bool :=
  r.len ≠ 0 ∧ r.base ≤ pc ∧ pc < (r.base + r.len) % 2 ^ 64

def inRegionSet (w : Win) (regs : List AddrRec) (pc : ℕ) : Bool :=
  (w.base ≤ pc ∧ pc < (w.base + w.len) % 2 ^ 64) ∨ regs.any (inRec pc)

/-- What happens around the tracee; when the list is used up it has exited or was killed. Records
in `late` are published after the event and before the tracer looks at the channel. -/
inductive Ev
  /-- A record is published while the tracer does not look. -/
  | publish (r : AddrRec)
  /-- The caller sets `*stop`. -/
  | setStop
  /-- The next instruction, or iteration of a `rep` string instruction, executes. -/
  | retire (s : Step) (late : List AddrRec)
  /-- A signal is about to be delivered; its handler, if it has one, is then entered. -/
  | signal (late : List AddrRec) (handler : Option (ℕ × List AddrRec))
  /-- The tracee's own `int3` executes and control stands after it. -/
  | appTrap (pc : ℕ) (late : List AddrRec)
  /-- A ptrace call fails. -/
  | etrace
deriving DecidableEq, Repr

/-- The locals of the loops and the channel. Behind them: the records published so far, where the
tracee stands, and the instructions it has executed in the window, each with the number of records
published before it. -/
structure St where
  chan : Channel
  regs : List AddrRec := []
  stream : List ℕ := []
  steps : ℕ := 0
  overflow : Bool := false
  stop : Bool := false
  log : List AddrRec
  pc : ℕ
  ran : List (ℕ × ℕ) := []

/-- How a loop was left; only the first is a clean end. -/
inductive End
  | reached
  | cut
  | etrace
deriving DecidableEq, Repr

section Events

def St.publish (st : St) (r : AddrRec) : St :=
  { st with chan := addrChannelPublish st.chan r, log := st.log ++ [r] }

def St.publishAll (st : St) (rs : List AddrRec) : St :=
  rs.foldl St.publish st

/-- The pending instruction executes and control goes on at `next`. -/
def St.execute (st : St) (next : ℕ) : St :=
  { st with ran := st.ran ++ [(st.pc, st.log.length)], pc := next }

/-- `if (nreg < CAP) nreg += drain(chan, regs + nreg, CAP - nreg);` -/
def St.drain (st : St) : St :=
  if st.regs.length < addrChanCap then
    let r := addrChannelDrain st.chan (addrChanCap - st.regs.length)
    { st with chan := r.1, regs := st.regs ++ r.2 }
  else st

end Events

section Instructions

variable (w : Win)

/-- A step stop of the per-instruction loop: the budget, the drain, the end of the window and the
record. -/
def trapStop (st : St) : St × Option End :=
  let st := { st with steps := st.steps + 1 }
  if ptraceWindowStepCap < st.steps then ({ st with overflow := true }, some .cut)
  else
    let st := st.drain
    if w.stopForm = false ∧ st.pc = w.ret then (st, some .reached)
    else if inRegionSet w st.regs st.pc then
      if st.stream.length < ptraceStreamCap then
        ({ st with stream := st.stream ++ [st.pc] }, none)
      else ({ st with overflow := true }, some .cut)
    else (st, none)

/-- The thread is resumed with a signal: its handler is entered, or the signal is ignored. -/
def deliver (handler : Option (ℕ × List AddrRec)) (st : St) : St × Option End :=
  match handler with
  | none => (st, none)
  | some (pc, late) => trapStop w (St.publishAll { st with pc := pc } late)

/-- `trace_attached_window_loop`. `*stop` is looked at before each resume. An application trap is
forwarded and ends the window as truncated. -/
def traceAttachedWindowLoop : St → List Ev → St × End
  | st, [] => (st, if w.stopForm ∧ st.stop then .reached else .cut)
  | st, .publish r :: evs => traceAttachedWindowLoop (st.publish r) evs
  | st, .setStop :: evs => traceAttachedWindowLoop { st with stop := true } evs
  | st, .retire s late :: evs =>
    if w.stopForm ∧ st.stop then (st, .reached)
    else
      match trapStop w ((st.execute s.next).publishAll late) with
      | (st, some e) => (st, e)
      | (st, none) => traceAttachedWindowLoop st evs
  | st, .signal late handler :: evs =>
    if w.stopForm ∧ st.stop then (st, .reached)
    else
      match deliver w handler (st.publishAll late) with
      | (st, some e) => (st, e)
      | (st, none) => traceAttachedWindowLoop st evs
  | st, .appTrap pc late :: _ =>
    if w.stopForm ∧ st.stop then (st, .reached)
    else ({ (st.execute pc).publishAll late with overflow := true }, .cut)
  | st, .etrace :: _ => if w.stopForm ∧ st.stop then (st, .reached) else (st, .etrace)

/-- The flag of the loop: any end but the clean ones cuts the window short. -/
def endOverflow (r : St × End) : Bool :=
  r.1.overflow || r.2 ≠ .reached

end Instructions

section Blocks

variable (w : Win) (c : Code) (isRep : ℕ → Bool)

/-- `window_scan_terminator`: the rule of `bs_scan_terminator`, with a ceiling of its own. -/
def windowScanTerminator (fromPc nextPc : ℕ) : BsStatus × Option ℕ :=
  scanLoop c 0 nextPc ptraceBlockWalkCap fromPc 0 0

/-- The recording loop of `window_block_walk`. -/
def walkLoop (regs : List AddrRec) (exclusive : Bool) (term : ℕ) (r : BsStatus) :
    ℕ → ℕ → Bool → List ℕ → BsStatus × List ℕ
  | 0, _, _, stream => (.fail, stream)
  | guard + 1, walk, rep, stream =>
    let verdict := if rep ∧ r = .ok then .ambiguous else r
    if exclusive ∧ walk = term then (verdict, stream)
    else if term < walk then (.fail, stream)
    else if (c.disasProbe walk).len = 0 then (.fail, stream)
    else if inRegionSet w regs walk ∧ ptraceStreamCap ≤ stream.length then (.fail, stream)
    else
      let stream := if inRegionSet w regs walk then stream ++ [walk] else stream
      let rep := rep || (inRegionSet w regs walk && isRep walk)
      let verdict := if rep ∧ r = .ok then .ambiguous else r
      if exclusive = false ∧ walk = term then (verdict, stream)
      else walkLoop regs exclusive term r guard (walk + (c.disasProbe walk).len) rep stream

def windowBlockWalk (regs : List AddrRec) (atMode exclusive : Bool) (fromPc toPc : ℕ)
    (stream : List ℕ) : BsStatus × List ℕ :=
  if atMode then
    if toPc < fromPc then (.fail, stream)
    else walkLoop w c isRep regs exclusive toPc .ok ptraceBlockWalkCap fromPc false stream
  else
    match windowScanTerminator c fromPc toPc with
    | (.fail, _) => (.fail, stream)
    | (r, term) =>
      walkLoop w c isRep regs exclusive (term.getD toPc) r ptraceBlockWalkCap fromPc false stream

/-- A stop of the block loop: the budget, the drain and the block from `prevPc`. -/
def blockStop (atMode exclusive : Bool) (prevPc : ℕ) (st : St) : St × Option End :=
  let st := { st with steps := st.steps + 1 }
  if ptraceWindowStepCap < st.steps then ({ st with overflow := true }, some .cut)
  else
    let st := st.drain
    if inRegionSet w st.regs prevPc then
      match windowBlockWalk w c isRep st.regs atMode exclusive prevPc st.pc st.stream with
      | (.fail, stream) => ({ st with stream, overflow := true }, some .cut)
      | (.ambiguous, stream) => ({ st with stream, overflow := true }, none)
      | (.ok, stream) => ({ st with stream }, none)
    else (st, none)

/-- The per-instruction loop finishes the window, with a count of its own. -/
def handOff (handler : Option (ℕ × List AddrRec)) (st : St) (evs : List Ev) : St × End :=
  let st := { st with steps := 0 }
  if w.stopForm ∧ st.stop then (st, .reached)
  else
    match deliver w handler st with
    | (st, some e) => (st, e)
    | (st, none) => traceAttachedWindowLoop w st evs

/-- The loop of the two block-step entries. `PTRACE_SINGLEBLOCK` does not stop at an instruction
that is not a taken branch, and `*stop` is looked at only where the thread is `stopped`. -/
def windowBlockLoop : Bool → ℕ → St → List Ev → St × End
  | stopped, _, st, [] => (st, if stopped ∧ w.stopForm ∧ st.stop then .reached else .cut)
  | stopped, prevPc, st, .publish r :: evs => windowBlockLoop stopped prevPc (st.publish r) evs
  | stopped, prevPc, st, .setStop :: evs =>
    windowBlockLoop stopped prevPc { st with stop := true } evs
  | stopped, prevPc, st, .retire s late :: evs =>
    if stopped ∧ w.stopForm ∧ st.stop then (st, .reached)
    else
      let st := (st.execute s.next).publishAll late
      if s.taken = false then windowBlockLoop false prevPc st evs
      else
        match blockStop w c isRep false false prevPc st with
        | (st, some e) => (st, e)
        | (st, none) =>
          if w.stopForm = false ∧ st.pc = w.ret then (st, .reached)
          else windowBlockLoop true st.pc st evs
  | stopped, prevPc, st, .signal late handler :: evs =>
    if stopped ∧ w.stopForm ∧ st.stop then (st, .reached)
    else
      match blockStop w c isRep true false prevPc (st.publishAll late) with
      | (st, some e) => (st, e)
      | (st, none) => handOff w handler st evs
  | stopped, prevPc, st, .appTrap pc late :: _ =>
    if stopped ∧ w.stopForm ∧ st.stop then (st, .reached)
    else
      let st := (st.execute pc).publishAll late
      match blockStop w c isRep true true prevPc st with
      | (st, some e) => (st, e)
      | (st, none) => ({ st with overflow := true }, .cut)
  | stopped, _, st, .etrace :: _ =>
    (st, if stopped ∧ w.stopForm ∧ st.stop then .reached else .etrace)

end Blocks

section Entries

variable (w : Win) (c : Code) (isRep : ℕ → Bool)

/-- `materialize_stream_to_trace`; an address that does not decode is kept. -/
def materializeLoop (t : Trace) (seq : BlockSeq) (overflow : Bool) : List ℕ → Trace
  | [] => if overflow then t.markTruncated else t
  | at_ :: stream =>
    let l := (c.disasProbe at_).len
    let b := blockseqBoundary seq at_ l
    let t := if b.1 then traceAppendBlock t at_ else t
    let t := traceAppendInsn t at_
    materializeLoop (if l = 0 then t.markTruncated else t) b.2 overflow stream

def materializeStreamToTrace (t : Trace) (overflow : Bool) (stream : List ℕ) : Trace :=
  materializeLoop c t ⟨false, 0⟩ overflow stream

/-- The channel before the window: what is in `log` was published on a fresh one. -/
def startSt (recs : ℕ → AddrRec) (log : List AddrRec) (pc : ℕ) : St :=
  St.publishAll { chan := addrChannelInit recs, log := [], pc } log

/-- The windowed entries by instruction: the loop is seeded with the address of the entry. -/
def windowed (st : St) (evs : List Ev) : St × End :=
  let st := st.drain
  traceAttachedWindowLoop w
    (if inRegionSet w st.regs st.pc ∧ st.stream.length < ptraceStreamCap then
      { st with stream := st.stream ++ [st.pc] } else st) evs

/-- The windowed entries by taken branch -/
def windowedBlockstep (st : St) (evs : List Ev) : St × End :=
  windowBlockLoop w c isRep true st.pc st.drain evs

/-- The trace of a finished loop, unless a ptrace call failed -/
def resultTrace (t : Trace) (r : St × End) : Option Trace :=
  if r.2 = .etrace then none
  else some (materializeStreamToTrace c t (endOverflow r) r.1.stream)

end Entries

end AsmTest.Window
