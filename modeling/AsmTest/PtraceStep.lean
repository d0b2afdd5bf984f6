import AsmTest.Blockstep
import AsmTest.Descent

/-!
# The two region steppers

One routine in a forked tracee, stepped instruction by instruction or from taken branch to taken
branch. Both loops read the same events of the tracee; the block stepper sees of the retired
instructions only the taken branches and reconstructs the rest.
-/

namespace AsmTest.Hwtrace

open Code
open Descent (BlockSeq blockseqBoundary)

/-- What happens in the tracee; when the list is used up it has exited or was killed. -/
inductive Ev where
  /-- An instruction, or an iteration of a `rep` string instruction, retired; then the SP is. -/
  | retire (s : Step) (sp : ℕ)
  /-- A signal that has nothing to do with the routine arrives and is forwarded. -/
  | signal
  /-- `SIGSEGV`, `SIGBUS`, `SIGILL` or `SIGFPE` -/
  | fault
  /-- The tracee's own `int3` trapped and control stands after it. -/
  | appTrap (pc : ℕ)
deriving DecidableEq, Repr

/-- `exit_kind_t`, with the events that follow where recording resumes. -/
inductive ExitKind where
  | returned
  | resumed (off : ℕ) (rest : List Ev)
  | lost
deriving DecidableEq, Repr

/-- `run_until_sp`: native speed up to the breakpoint at the wanted depth. -/
def runUntilSp (target expectedSp : ℕ) : List Ev → Option (List Ev)
  | [] => none
  | .retire s sp :: rest =>
    if s.next = target ∧ sp = expectedSp then some rest else runUntilSp target expectedSp rest
  | _ :: rest => runUntilSp target expectedSp rest

section Model

variable (c : Code) (isRep : ℕ → Bool) (base : ℕ)

/-- The instruction is a call whose return lands in the region. -/
def IsCallOut (off : ℕ) : Prop :=
  c.disasAvailable = true ∧ (c.disasProbe off).isCall = true ∧ (c.disasProbe off).len ≠ 0 ∧
    off + (c.disasProbe off).len < c.len

instance (off : ℕ) : Decidable (IsCallOut c off) :=
  inferInstanceAs (Decidable (_ ∧ _ ∧ _ ∧ _))

def classifyRegionExit (lastOff entrySp : ℕ) (evs : List Ev) : ExitKind :=
  if IsCallOut c lastOff then
    let retOff := lastOff + (c.disasProbe lastOff).len
    match runUntilSp (base + retOff) (entrySp + 8) evs with
    | none => .lost
    | some rest => .resumed retOff rest
  else .returned

/-- `if (n < PTRACE_STREAM_CAP) stream[n++] = off; else overflow = 1;` -/
def streamPush (out : List ℕ × Bool) (off : ℕ) : List ℕ × Bool :=
  if out.1.length < ptraceStreamCap then (out.1 ++ [off], out.2) else (out.1, true)

/-- The loop of `asmtest_ptrace_trace_call`: the stream and `overflow`. Each round uses up an
event. -/
def singleStepLoop : ℕ → List ℕ × Bool → Bool → List Ev → List ℕ × Bool
  | 0, out, _, _ => out
  | fuel + 1, out, entered, evs =>
    match evs with
    | [] => out
    | .signal :: rest => singleStepLoop fuel out entered rest
    | .fault :: _ => (out.1, true)
    | .appTrap _ :: _ => (out.1, true)
    | .retire s sp :: rest =>
      if c.InRegion base s.next then
        singleStepLoop fuel (streamPush out (s.next - base)) true rest
      else if entered then
        match classifyRegionExit c base (out.1.getLast?.getD 0) sp rest with
        | .resumed off rest => singleStepLoop fuel (streamPush out off) true rest
        | .lost => (out.1, true)
        | .returned => out
      else singleStepLoop fuel out entered rest

/-- `blockstep_reconstruct_cut` -/
def reconstructCut (cutOff : ℕ) : ℕ → ℕ → List ℕ → List ℕ
  | 0, _, stream => stream
  | guard + 1, walk, stream =>
    if walk = cutOff then stream
    else if cutOff < walk ∨ c.len ≤ walk then stream
    else if ptraceStreamCap ≤ stream.length then stream
    else if (c.disasProbe walk).len = 0 then stream ++ [walk]
    else reconstructCut cutOff guard (walk + (c.disasProbe walk).len) (stream ++ [walk])

variable (table : Option (List PcRun))

/-- The loop of `asmtest_ptrace_trace_call_blockstep`; `prevOff` is the start of the open block,
where there is one. `PTRACE_SINGLEBLOCK` does not stop at an instruction that is not a taken
branch. -/
def blockStepLoop : ℕ → List ℕ × Bool → Option ℕ → List Ev → List ℕ × Bool
  | 0, out, _, _ => out
  | fuel + 1, out, prevOff, evs =>
    match evs with
    | [] => out
    | .signal :: rest => blockStepLoop fuel out prevOff rest
    | .fault :: _ => (out.1, true)
    | .appTrap pc :: _ =>
      match prevOff with
      | none => (out.1, true)
      | some off =>
        (if c.InRegion base pc then reconstructCut c (pc - base) (c.len + 1) off out.1 else out.1,
          true)
    | .retire s sp :: rest =>
      if s.taken = false then blockStepLoop fuel out prevOff rest
      else
        match prevOff with
        | none =>
          blockStepLoop fuel out (if c.InRegion base s.next then some (s.next - base) else none)
            rest
        | some off =>
          match blockstepReconstruct c isRep base s.next table off ⟨out.1, 0⟩ with
          | (.fail, o) => (o.stream, true)
          | (.ambiguous, o) =>
            if c.InRegion base s.next then
              blockStepLoop fuel (o.stream, true) (some (s.next - base)) rest
            else (o.stream, true)
          | (.ok, o) =>
            if c.InRegion base s.next then
              blockStepLoop fuel (o.stream, out.2) (some (s.next - base)) rest
            else
              match classifyRegionExit c base o.lastOff sp rest with
              | .resumed off rest => blockStepLoop fuel (o.stream, out.2) (some off) rest
              | .lost => (o.stream, true)
              | .returned => (o.stream, out.2)

/-- The loop of `normalize`. -/
def normalizeLoop (t : Trace) (seq : BlockSeq) (overflow : Bool) : List ℕ → Trace
  | [] => if overflow then t.markTruncated else t
  | off :: stream =>
    let l := (c.disasProbe off).len
    let b := blockseqBoundary seq off l
    let t := if b.1 then traceAppendBlock t off else t
    let t := traceAppendInsn t off
    if l = 0 then t.markTruncated else normalizeLoop t b.2 overflow stream

def normalize (t : Trace) (out : List ℕ × Bool) : Trace :=
  normalizeLoop c t ⟨false, 0⟩ out.2 out.1

/-- `asmtest_ptrace_trace_call` over the events of the tracee. -/
def ptraceTraceCall (evs : List Ev) (t : Trace) : Trace :=
  normalize c t (singleStepLoop c base (evs.length + 1) ([], false) false evs)

/-- `asmtest_ptrace_trace_call_blockstep` over the events of the tracee. -/
def ptraceTraceCallBlockstep (evs : List Ev) (t : Trace) : Trace :=
  normalize c t (blockStepLoop c isRep base table (evs.length + 1) ([], false) none evs)

end Model

end AsmTest.Hwtrace
