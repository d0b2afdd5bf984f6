import AsmTest.Trace
import AsmTest.Disas
import Mathlib.Logic.Function.Basic

/-!
# Frames of the single-step backend

Each thread keeps a stack of capture frames. The trap handler records into every frame that is
open, a push and a pop arm and disarm the thread, and a handle names a slot of the stack by its
index, a generation and the thread that opened it.
-/

namespace AsmTest.Ss

open Hwtrace (Trace Code traceAppendInsn traceAppendBlock)

def ssStreamCap : ℕ := 2 ^ 16

def ssWindowCap : ℕ := 2 ^ 20

def ssMaxFrames : ℕ := 8

def ssMaxDeny : ℕ := 32

def ssWindowBudgetDefault : ℕ := 4 * ssWindowCap

def ssWindowWatchdogMsDefault : ℕ := 10000

/-- `SS_GUARD_*`: why a whole-window frame has stopped -/
inductive Guard
  | none
  /-- The ring overflowed; the frame keeps stepping. -/
  | ring
  | budget
  | deny
  | watchdog
deriving DecidableEq, Repr

/-- `ss_frame_t`. A trace is named by its place in memory; the length of the stream is the
list's. -/
structure Frame where
  base : ℕ := 0
  baseIp : ℕ := 0
  len : ℕ := 0
  trace : Option ℕ := none
  stream : List ℕ := []
  cap : ℕ := 0
  overflow : Bool := false
  gen : ℕ := 0
  wholeWindow : Bool := false
  armTid : ℤ := 0
  steps : ℕ := 0
  insnBudget : ℕ := 0
  watchdogMs : ℕ := 0
  guard : Guard := .none
deriving DecidableEq, Repr

/-- `asmtest_hwtrace_deny_t` -/
structure Deny where
  base : ℕ
  len : ℕ
deriving DecidableEq, Repr

/-- The per-thread stack; slots keep what they held after a pop. -/
structure Tls where
  frames : List Frame := List.replicate ssMaxFrames {}
  depth : ℕ := 0
  genCtr : ℕ := 0
deriving DecidableEq, Repr

/-- The threads by their OS id, the callers' traces and the globals of the backend -/
structure Proc where
  tls : ℤ → Tls
  traces : ℕ → Trace
  armed : Bool
  installed : Bool
  armRefcount : ℕ
  wwRefcount : ℕ
  alarmFired : Bool
  deny : List Deny

inductive Err
  | einval
  | efull
  | estate
  | eunavail
  | emanaged
deriving DecidableEq, Repr

section Handler

def ssDenyAppend (table : List Deny) (d : Deny) : List Deny :=
  if ssMaxDeny ≤ table.length ∨ d.len = 0 then table else table ++ [d]

def ssRipDenied (table : List Deny) (rip : ℕ) : Bool :=
  table.any fun d => d.base ≤ rip ∧ rip < (d.base + d.len) % 2 ^ 64

/-- `if (stream_len < cap) stream[stream_len++] = at; else overflow = 1;` -/
def Frame.record (f : Frame) (at_ : ℕ) : Frame :=
  if f.stream.length < f.cap then { f with stream := f.stream ++ [at_] }
  else { f with overflow := true }

/-- A trap at `rip` in a whole-window frame -/
def trapWindow (alarmFired : Bool) (deny : List Deny) (rip : ℕ) (f : Frame) : Frame :=
  if f.guard ≠ .none then f
  else if alarmFired then { f with guard := .watchdog }
  else if ssRipDenied deny rip then { f with guard := .deny }
  else
    let f := { f with steps := f.steps + 1 }
    let f := if f.insnBudget ≤ f.steps then { f with guard := .budget } else f
    let full := f.cap ≤ f.stream.length
    let f := f.record rip
    -- the first overflow is latched, and stepping goes on
    if full ∧ f.guard = .none then { f with guard := .ring } else f

def trapFrame (alarmFired : Bool) (deny : List Deny) (rip : ℕ) (f : Frame) : Frame :=
  if f.wholeWindow then trapWindow alarmFired deny rip f
  else if f.baseIp ≤ rip ∧ rip < f.baseIp + f.len then f.record (rip - f.baseIp)
  else f

/-- Does the frame ask for another single-step? -/
def Frame.wantsStep (f : Frame) : Bool :=
  f.wholeWindow = false ∨ f.guard = .none ∨ f.guard = .ring

/-- The trap handler: the stack after it, and whether the trap flag is set again -/
def ssOnSigtrap (armed alarmFired : Bool) (deny : List Deny) (rip : ℕ) (th : Tls) : Tls × Bool :=
  if armed = false ∨ th.depth = 0 then (th, false)
  else
    let frames := th.frames.mapIdx fun i f =>
      if i < th.depth then trapFrame alarmFired deny rip f else f
    ({ th with frames }, (frames.take th.depth).any Frame.wantsStep)

end Handler

section Push

structure PushArgs where
  base : ℕ := 0
  len : ℕ := 0
  trace : Option ℕ
  wholeWindow : Bool
  insnBudget : ℕ
  watchdogMs : ℕ
  useDefaultDenylist : Bool := false
  deny : List Deny := []
deriving DecidableEq, Repr

/-- A region frame has a range and a whole-window frame has none. -/
def PushArgs.invalid (a : PushArgs) : Bool :=
  if a.wholeWindow then a.base ≠ 0 ∨ a.len ≠ 0 else a.base = 0 ∨ a.len = 0

/-- Do the system calls of a push succeed? -/
structure Os where
  alloc : Bool
  sigaction : Bool
deriving DecidableEq, Repr

def pushedFrame (a : PushArgs) (gen : ℕ) (tid : ℤ) : Frame :=
  { base := a.base
    baseIp := if a.wholeWindow then 0 else a.base
    len := a.len
    trace := a.trace
    cap := if a.wholeWindow then ssWindowCap else ssStreamCap
    gen
    wholeWindow := a.wholeWindow
    armTid := tid
    insnBudget :=
      if a.wholeWindow then if a.insnBudget = 0 then ssWindowBudgetDefault else a.insnBudget
      else 2 ^ 64 - 1
    watchdogMs :=
      if a.wholeWindow then
        if a.watchdogMs = 0 then ssWindowWatchdogMsDefault else a.watchdogMs
      else 2 ^ 32 - 1 }

/-- Whole-window frames publish their deny regions and arm the shared watchdog. -/
def armWindow (denyDefault : List Deny) (a : PushArgs) (f : Frame) (p : Proc) : Proc :=
  if a.wholeWindow = false then p
  else
    let regions := (if a.useDefaultDenylist then denyDefault else []) ++ a.deny
    let p := { p with deny := regions.foldl ssDenyAppend p.deny }
    if f.watchdogMs = 2 ^ 32 - 1 then p
    else { p with
      alarmFired := if p.wwRefcount = 0 then false else p.alarmFired
      wwRefcount := p.wwRefcount + 1 }

/-- `ss_push_frame`: the index and the generation of the new frame. The slot and the generation
counter change even when the handler cannot be installed. -/
def ssPushFrame (denyDefault : List Deny) (os : Os) (a : PushArgs) (tid : ℤ) (p : Proc) :
    Proc × Except Err (ℕ × ℕ) :=
  let th := p.tls tid
  if a.invalid then (p, .error .einval)
  else if ssMaxFrames ≤ th.depth then (p, .error .efull)
  else if os.alloc = false then (p, .error .einval)
  else
    let idx := th.depth
    let gen := (th.genCtr + 1) % 2 ^ 32
    let f := pushedFrame a gen tid
    let th := { th with frames := th.frames.set idx f, genCtr := gen }
    if p.armRefcount = 0 ∧ os.sigaction = false then
      ({ p with tls := Function.update p.tls tid th }, .error .einval)
    else
      let p := { p with installed := true, armRefcount := p.armRefcount + 1 }
      let p := armWindow denyDefault a f p
      ({ p with
        tls := Function.update p.tls tid { th with depth := idx + 1 }
        armed := true }, .ok (idx, gen))

end Push

section Normalize

/-- The loop over the offsets of a region frame: what is known of the last instruction is its
offset, its length and whether it is a branch. -/
def ssNormalizeLoop (c : Code) (t : Trace) (overflow : Bool) : Option (ℕ × ℕ × Bool) → List ℕ → Trace
  | prev, [] =>
    -- stepping stopped before the routine left the region
    let t := match prev with
      | some (_, next, branch) => if branch = false ∧ next < c.len then t.markTruncated else t
      | none => t
    if overflow then t.markTruncated else t
  | prev, off :: stream =>
    if prev.any (fun q => off = q.1) then ssNormalizeLoop c t overflow prev stream
    else
      let t := if prev.all (fun q => off ≠ q.2.1 ∨ q.2.2 = true) then traceAppendBlock t off else t
      let t := traceAppendInsn t off
      let l := (c.disasProbe off).len
      if l = 0 then t.markTruncated
      else ssNormalizeLoop c t overflow (some (off, off + l, c.disasIsBranch off)) stream

/-- The loop over the addresses of a whole-window frame -/
def ssNormalizeWindow (t : Trace) : Option ℕ → List ℕ → Trace
  | _, [] => t
  | prev, addr :: stream =>
    if prev = some addr then ssNormalizeWindow t prev stream
    else ssNormalizeWindow (traceAppendInsn t addr) (some addr) stream

/-- `ss_normalize`; `code` is the decoder's view of a region. -/
def ssNormalize (code : ℕ → ℕ → Code) (fr : Frame) (t : Trace) : Trace :=
  if fr.wholeWindow then
    let t := ssNormalizeWindow t none fr.stream
    if fr.overflow ∨ fr.guard ≠ .none then t.markTruncated else t
  else ssNormalizeLoop (code fr.base fr.len) t fr.overflow none fr.stream

end Normalize

section Pop

/-- `asmtest_ss_end`: pop the top frame of the thread, fill its trace and free its stream. -/
def ssEnd (code : ℕ → ℕ → Code) (tid : ℤ) (p : Proc) : Proc :=
  let th := p.tls tid
  if th.depth = 0 then p
  else
    let idx := th.depth - 1
    let fr := th.frames.getD idx {}
    let th := { th with depth := idx, frames := th.frames.set idx { fr with stream := [] } }
    let p := { p with
      tls := Function.update p.tls tid th
      traces := match fr.trace with
        | none => p.traces
        | some id => Function.update p.traces id (ssNormalize code fr (p.traces id)) }
    let p := if fr.wholeWindow = true ∧ fr.watchdogMs ≠ 2 ^ 32 - 1 then
      { p with wwRefcount := p.wwRefcount - 1 } else p
    let p := { p with armRefcount := p.armRefcount - 1 }
    if p.armRefcount = 0 then { p with installed := false, armed := false, deny := [] } else p

/-- `asmtest_ss_frame_lookup` on the calling thread. The frame need not be open any more. -/
def ssFrameLookup (th : Tls) (idx gen : ℕ) (armTid : ℤ) : Option Frame :=
  if ssMaxFrames ≤ idx then none
  else
    let f := th.frames.getD idx {}
    if f.gen ≠ gen ∨ f.gen = 0 then none
    else if f.armTid ≠ armTid then none
    else some f

def ssFrameGuard (th : Tls) (idx gen : ℕ) (armTid : ℤ) : Option Guard :=
  (ssFrameLookup th idx gen armTid).map Frame.guard

end Pop

end AsmTest.Ss
