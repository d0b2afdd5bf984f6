import AsmTest.Lib.Interaction

/-!
# The sampler that stops its target (cli/asmspy_ptracesample.c)

Every stop of a traced task goes through one pipeline: it is classified, the table decides
from the address space and the reason, and one function performs the act. The kernel and
the target are an environment: it answers every call as it likes. Unset test levers and
their counters are left out, and so are the symbols: `expand` gives the candidate entries
for the sampled program counters.
-/

namespace AsmTest.PtraceSample

open Interaction

abbrev Tid := ℕ
abbrev Addr := ℕ

/-- Whose address space a task is in (asmspy_ps_kind_t). -/
inductive Kind where
  | own | foreign | unknown
  deriving DecidableEq

/-- Why a task is stopped (asmspy_ps_reason_t). -/
inductive Reason where
  | clone | fork | eventOther | jobctl | interrupt | ourStep | ourTrap | trapUnsure | appTrap
  | strayTrap | signal
  deriving DecidableEq

/-- What is done to a stopped task (asmspy_ps_act_t). -/
inductive Act where
  | hold | resumeQuiet | resumeSignal | rewindResume | collect | clearAndResume | followChild
  | listen | release | releaseSignal
  deriving DecidableEq

def psDecide (kind : Kind) (why : Reason) (tearingDown isHold collecting : Bool) : Act :=
  match kind with
  | .own =>
    match why with
    | .clone => .followChild
    | .fork => .resumeQuiet
    | .eventOther => .resumeQuiet
    | .jobctl => if tearingDown then .hold else .listen
    | .interrupt => if isHold || tearingDown then .hold else .resumeQuiet
    | .ourStep => .hold
    | .ourTrap => if collecting then .collect else .rewindResume
    | .trapUnsure => .resumeQuiet
    | .appTrap => .resumeSignal
    | .strayTrap => .resumeQuiet
    | .signal => .resumeSignal
  | .foreign =>
    match why with
    | .clone | .fork | .eventOther | .jobctl | .interrupt | .ourStep | .ourTrap | .trapUnsure
    | .appTrap | .strayTrap => .release
    | .signal => .releaseSignal
  | .unknown =>
    match why with
    | .clone => .followChild
    | .fork | .eventOther => .resumeQuiet
    | .jobctl => if tearingDown then .hold else .listen
    | .interrupt => if isHold || tearingDown then .hold else .resumeQuiet
    | .ourStep => .hold
    | .ourTrap => .clearAndResume
    | .trapUnsure | .appTrap | .strayTrap => .resumeQuiet
    | .signal => .resumeSignal

/-! ### The calls -/

def sigTrap : ℕ := 5
def sigStop : ℕ := 19
def sigTstp : ℕ := 20
def sigTtin : ℕ := 21
def sigTtou : ℕ := 22
def eventFork : ℕ := 1
def eventVfork : ℕ := 2
def eventClone : ℕ := 3
def eventStop : ℕ := 128
def siKernel : ℕ := 0x80
def trapHwbkpt : ℕ := 4

/-- PTRACE_PEEKTEXT: a word, or EIO and EFAULT, or another errno. -/
inductive Peek where
  | word (w : ℕ)
  | unmapped
  | failed

/-- waitpid with WNOHANG. -/
inductive Wait where
  | stopped (tid : Tid) (sig event : ℕ)
  | gone (tid : Tid)
  | other (tid : Tid)
  | nothing
  | intr
  | failed

inductive Seize where
  | ok | gone | refused

/-- Which of the two writes of text a PTRACE_POKETEXT is; a planting knows the word that it
overwrites. -/
inductive Poke where
  | plant (orig : ℕ)
  | restore

inductive Call where
  | peek (tid : Tid) (addr : Addr)
  | poke (why : Poke) (tid : Tid) (addr : Addr) (word : ℕ)
  | regs (tid : Tid)
  | setPc (tid : Tid) (pc : Addr)
  | siginfo (tid : Tid)
  | eventMsg (tid : Tid)
  | cont (tid : Tid) (sig : ℕ)
  | listen (tid : Tid)
  | detach (tid : Tid) (sig : ℕ)
  | interrupt (tid : Tid)
  | step (tid : Tid)
  | seize (tid : Tid)
  | wait
  | now
  | nap
  | tgid (tid : Tid)
  | tasks
  | executing (tid : Tid)

/-- `regs` answers the program counter, `siginfo` the si_code, `tgid` the Tgid line of
/proc and `tasks` the names under /proc/pid/task. -/
abbrev Ans : Call → Type
  | .peek .. => Peek
  | .poke .. | .setPc .. | .cont .. | .listen _ | .detach .. | .interrupt _ | .step _
  | .executing _ => Bool
  | .regs _ | .siginfo _ | .eventMsg _ | .tgid _ => Option ℕ
  | .seize _ => Seize
  | .wait => Wait
  | .now => ℕ
  | .nap => Unit
  | .tasks => Option (List Tid)

/-! ### The table of tasks -/

def maxThreads : ℕ := 512
def armHeadroom : ℕ := 16
def tableSlots : ℕ := maxThreads + armHeadroom
def seizePasses : ℕ := 8
def detachTries : ℕ := 3
def detachPasses : ℕ := 8
def drainMax : ℕ := 512
def hitBudget : ℕ := 4
def spinUs : ℕ := 500
def intrUs : ℕ := 2000
def stopUs : ℕ := 200000
def stopForever : ℕ := 0x7fffffff
def periodUs : ℕ := 1000000 / 997

structure Thr where
  tid : Tid
  stopped : Bool := false
  listening : Bool := false
  kind : Kind := .own
  copiedBp : Addr := 0
  copiedOrig : ℕ := 0

structure Ctx where
  pid : Tid
  t : List Thr := []
  covered : Bool := false
  cap : ℕ := maxThreads
  tearingDown : Bool := false
  leaked : Bool := false
  bpBase : Addr := 0
  bpPlanted : Bool := false
  bpOrig : ℕ := 0
  bpArrived : Bool := false
  armedBp : Addr := 0
  armedOrig : ℕ := 0
  stepping : Tid := 0

abbrev Ps (α : Type) := Prog Ans Ctx α

def peek (tid : Tid) (addr : Addr) : Ps Peek := call (Call.peek tid addr)
def poke (why : Poke) (tid : Tid) (addr : Addr) (word : ℕ) : Ps Bool :=
  call (Call.poke why tid addr word)
def regs (tid : Tid) : Ps (Option Addr) := call (Call.regs tid)
def setPc (tid : Tid) (pc : Addr) : Ps Bool := call (Call.setPc tid pc)
def siginfo (tid : Tid) : Ps (Option ℕ) := call (Call.siginfo tid)
def eventMsg (tid : Tid) : Ps (Option ℕ) := call (Call.eventMsg tid)
def cont (tid : Tid) (sig : ℕ) : Ps Bool := call (Call.cont tid sig)
def listen (tid : Tid) : Ps Bool := call (Call.listen tid)
def detach (tid : Tid) (sig : ℕ) : Ps Bool := call (Call.detach tid sig)
def interrupt (tid : Tid) : Ps Bool := call (Call.interrupt tid)
def singleStep (tid : Tid) : Ps Bool := call (Call.step tid)
def seize (tid : Tid) : Ps Seize := call (Call.seize tid)
def wait : Ps Wait := call Call.wait
def now : Ps ℕ := call Call.now
def nap : Ps Unit := call Call.nap
def tgidOf (tid : Tid) : Ps (Option ℕ) := call (Call.tgid tid)
def taskNames : Ps (Option (List Tid)) := call Call.tasks
def executing (tid : Tid) : Ps Bool := call (Call.executing tid)

/-- ps_find, as the entry itself. -/
def Ctx.find (c : Ctx) (tid : Tid) : Option Thr := c.t.find? fun e => e.tid == tid

/-- A write to the entry that ps_find gives. -/
def Ctx.put (c : Ctx) (tid : Tid) (f : Thr → Thr) : Ctx :=
  { c with t := c.t.modify (c.t.findIdx fun e => e.tid == tid) f }

def Ctx.setStopped (c : Ctx) (tid : Tid) (b : Bool) : Ctx :=
  c.put tid fun e => { e with stopped := b }

/-- ps_del: the last entry takes the place of the one removed. -/
def Ctx.del (c : Ctx) (tid : Tid) : Ctx :=
  match c.find tid, c.t.getLast? with
  | some _, some last =>
    { c with t := (c.t.set (c.t.findIdx fun e => e.tid == tid) last).dropLast }
  | _, _ => c

def kindMayPoke : Kind → Bool
  | .own => true
  | .foreign | .unknown => false

def kindMaySample : Kind → Bool
  | .own => true
  | .foreign | .unknown => false

def psCanPoke (e : Thr) : Bool := e.stopped && !e.listening && kindMayPoke e.kind

def Ctx.trapAddr (c : Ctx) : Addr := if c.bpBase ≠ 0 then c.bpBase else c.armedBp

def Ctx.trapOrig (c : Ctx) : ℕ := if c.bpBase ≠ 0 then c.bpOrig else c.armedOrig

/-- The kind that the Tgid line of a task tells. -/
def kindOfTgid (pid : Tid) : Option ℕ → Kind
  | none => .unknown
  | some g => if g = pid then .own else .foreign

def newEntry (c : Ctx) (tid : Tid) (kind : Kind) : Thr :=
  { tid := tid
    kind := kind
    copiedBp := if kind ≠ .own ∧ c.armedBp ≠ 0 then c.armedBp else 0
    copiedOrig := if kind ≠ .own ∧ c.armedBp ≠ 0 then c.armedOrig else 0 }

/-- The table after the kind of a new task is known. -/
def Ctx.enter (c : Ctx) (tid : Tid) (kind : Kind) : Ctx :=
  { c with
    t := c.t ++ [newEntry c tid kind]
    covered := c.covered && decide (kind ≠ .unknown) }

/-- `false` is the refusal: the table has no slot left. -/
def psAdd (tid : Tid) : Ps Bool := do
  let c ← ctx
  if (c.find tid).isSome then pure true
  else
    update fun c => if c.cap ≤ c.t.length then { c with covered := false } else c
    if tableSlots ≤ c.t.length then pure false
    else if tid = c.pid then
      update fun c => c.enter tid .own
      pure true
    else
      let g ← tgidOf tid
      update fun c => c.enter tid (kindOfTgid c.pid g)
      pure true

def psCont (tid : Tid) (sig : ℕ) : Ps Unit := do
  if ← cont tid sig then update fun c => c.setStopped tid false else pure ()

/-! ### The trap byte -/

/-- The peeked word with an int3 in its low byte. -/
def trapWord (o : ℕ) : ℕ := o - o % 256 + 0xcc

def psPlant (tid : Tid) (base : Addr) : Ps Bool := do
  match ← peek tid base with
  | .word o =>
    if ← poke (.plant o) tid base (trapWord o) then
      update fun c =>
        { c with bpBase := base, bpOrig := o, bpPlanted := true, armedBp := base, armedOrig := o }
      pure true
    else pure false
  | _ => pure false

/-- Puts the word back where the trap byte is; `true` is: nothing of ours is there now. -/
def psRestoreCopy (tid : Tid) (base : Addr) (orig : ℕ) : Ps Bool :=
  if base = 0 then pure true
  else do
    match ← peek tid base with
    | .word cur => if cur % 256 ≠ 0xcc then pure true else poke .restore tid base orig
    | .unmapped => pure true
    | .failed => pure false

def psUnplant : Ps Bool := do
  let c ← ctx
  if c.bpPlanted = false then pure true
  else if ← firstOf (fun e => psRestoreCopy e.tid c.bpBase c.bpOrig) (c.t.filter psCanPoke) then
    update fun c => { c with bpPlanted := false }
    pure true
  else pure false

def wrapAddr : ℕ := 2 ^ 64

/-- Is the task stopped just past the byte at `base`? `none` when that cannot be read. -/
def psTrapWhere (tid : Tid) (base : Addr) : Ps (Option Bool) :=
  if base = 0 then pure (some false)
  else do
    match ← regs tid with
    | none => pure none
    | some pc => pure (some (pc == (base + 1) % wrapAddr))

def psRewind (tid : Tid) (base : Addr) : Ps Bool :=
  if base = 0 then pure true
  else do
    match ← regs tid with
    | none => pure false
    | some pc => if pc ≠ (base + 1) % wrapAddr then pure true else setPc tid base

/-- The si_code of a trap that the target made itself. -/
def appCode (code : Option ℕ) : Bool := code == some siKernel || code == some trapHwbkpt

def psSigtrapIsApp (tid : Tid) : Ps Bool := do
  let code ← siginfo tid
  pure (appCode code)

/-! ### Classify, decide, perform -/

def jobctlSignal (sig : ℕ) : Bool :=
  sig == sigStop || sig == sigTstp || sig == sigTtin || sig == sigTtou

/-- The last question about a SIGTRAP that is at no address of ours. -/
def psTrapOrigin (tid : Tid) : Ps Reason := do
  if ← psSigtrapIsApp tid then pure .appTrap else pure .strayTrap

/-- The part of ps_classify for a SIGTRAP in a signal-delivery-stop. -/
def psClassifyTrap (tid : Tid) : Ps Reason := do
  let c ← ctx
  if c.stepping = tid then pure .ourStep
  else if c.trapAddr = 0 then psTrapOrigin tid
  else
    match ← psTrapWhere tid c.trapAddr with
    | some true => pure .ourTrap
    | none => pure .trapUnsure
    | some false => psTrapOrigin tid

def psClassify (tid : Tid) (sig event : ℕ) : Ps Reason :=
  if event = eventClone then pure .clone
  else if event = eventFork ∨ event = eventVfork then pure .fork
  else if event = eventStop then
    pure (if jobctlSignal sig then .jobctl else .interrupt)
  else if event ≠ 0 then pure .eventOther
  else if sig ≠ sigTrap then pure .signal
  else psClassifyTrap tid

/-- What a wait gives its caller (PS_EV_NONE and the others). -/
inductive Ev where
  | none
  | stopped
  | arrived (tid : Tid)
  | gone
  deriving DecidableEq

/-- ps_detach_one: up to `n` attempts, the first with the signal; `ensure` brings the task
to a stop again. -/
def psDetachOne (ensure : Tid → Ps Bool) (tid : Tid) : ℕ → ℕ → Ps Bool
  | 0, _ => pure false
  | n + 1, sig => do
    if ← detach tid sig then pure true
    else if ← ensure tid then psDetachOne ensure tid n 0
    else
      let c ← ctx
      pure (c.find tid).isNone

/-- The case of ACT_FOLLOW_CHILD. -/
def psFollow (w : Tid) : Ps Unit := do
  match ← eventMsg w with
  | some child =>
    if child = 0 then pure ()
    else if ← psAdd child then pure ()
    else update fun c => { c with covered := false }
  | none => pure ()

/-- The two cases of ACT_RELEASE. -/
def psRelease (ensure : Tid → Ps Bool) (w : Tid) (sig : ℕ) : Ps Unit := do
  let c ← ctx
  match c.find w with
  | none => pure ()
  | some e =>
    if ← psRestoreCopy w e.copiedBp e.copiedOrig then
      let _ ← psRewind w (if e.copiedBp ≠ 0 then e.copiedBp else c.trapAddr)
      if ← psDetachOne ensure w detachTries sig then update fun c => c.del w
      else update fun c => c.setStopped w true
    else pure ()

def psPerform (ensure : Tid → Ps Bool) (w : Tid) (sig : ℕ) (act : Act) (hold : Tid) : Ps Ev :=
  match act with
  | .hold => pure (if w = hold then .stopped else .none)
  | .resumeQuiet => do
    psCont w 0
    pure .none
  | .resumeSignal => do
    psCont w sig
    pure .none
  | .rewindResume => do
    let c ← ctx
    if ← psRewind w c.trapAddr then
      psCont w 0
      pure .none
    else pure .none
  | .collect => do
    let c ← ctx
    if ← psRewind w c.trapAddr then
      update fun c => { c with bpArrived := true }
      pure (.arrived w)
    else pure .none
  | .clearAndResume => do
    let c ← ctx
    let _ ← psRestoreCopy w c.trapAddr c.trapOrig
    if ← psRewind w c.trapAddr then
      psCont w 0
      pure .none
    else pure .none
  | .followChild => do
    psFollow w
    psCont w 0
    pure .none
  | .listen => do
    let c ← ctx
    if (c.find w).isNone then pure .none
    else if ← listen w then
      update fun c => c.put w fun e => { e with listening := true, stopped := false }
      pure .none
    else
      psCont w 0
      pure .none
  | .release => do
    psRelease ensure w 0
    pure .none
  | .releaseSignal => do
    psRelease ensure w sig
    pure .none

/-- A stop of a task that the table has no slot for. -/
def psReleaseUntabled (w : Tid) : Ps Unit := do
  let c ← ctx
  let _ ← psRestoreCopy w c.trapAddr c.trapOrig
  let _ ← psRewind w c.trapAddr
  let _ ← detach w 0
  pure ()

/-- ps_dispatch for a task that stopped. -/
def psDispatch (ensure : Tid → Ps Bool) (w : Tid) (sig event : ℕ) (hold : Tid)
    (collecting : Bool) : Ps Ev := do
  if ← psAdd w then
    update fun c => c.put w fun e => { e with stopped := true, listening := false }
    let why ← psClassify w sig event
    let c ← ctx
    match c.find w with
    | none => pure .none
    | some e =>
      psPerform ensure w sig (psDecide e.kind why c.tearingDown (w == hold) collecting) hold
  else
    psReleaseUntabled w
    pure .none

/-- The waits of ps_ensure_stopped, until the task is stopped or the budget is spent. -/
def ensureLoop (pump : Tid → Ps Unit) (tid : Tid) (t0 budget : ℕ) : ℕ → Ps Bool
  | 0 => pure false
  | n + 1 => do
    let t ← now
    if budget ≤ t - t0 then pure false
    else
      pump tid
      let c ← ctx
      match c.find tid with
      | none => pure false
      | some e =>
        if e.stopped then pure true
        else
          let _ ← interrupt tid
          ensureLoop pump tid t0 budget n

def psEnsureStopped (pump : Tid → Ps Unit) (fuel budget : ℕ) (tid : Tid) : Ps Bool := do
  let c ← ctx
  match c.find tid with
  | none => pure false
  | some e =>
    if e.stopped then pure true
    else if budget = 0 then pure false
    else
      let _ ← interrupt tid
      let t0 ← now
      ensureLoop pump tid t0 (min budget stopUs) fuel

/-- Drops a task that is gone. -/
def psGone (w hold : Tid) : Ps Bool := do
  update fun c => c.del w
  let c ← ctx
  pure (c.t.length == 0 || (hold != 0 && w == hold))

/-- The loop of ps_pump; a hold of 0 waits for no task. Out of fuel is a deadline. -/
def pumpLoop : ℕ → ℕ → Tid → ℕ → ℕ → Bool → Ps Ev
  | 0, _, _, _, _, _ => pure .none
  | fuel + 1, t0, hold, budget, spin, collecting => do
    let t ← now
    if budget ≤ t - t0 then pure .none
    else
      match ← wait with
      | .stopped w sig event =>
        let pump (tid : Tid) : Ps Unit := do
          let t ← now
          let _ ← pumpLoop fuel t tid intrUs spinUs false
          pure ()
        match ← psDispatch (psEnsureStopped pump fuel stopForever) w sig event hold collecting with
        | .arrived x => pure (.arrived x)
        | .stopped =>
          if w = hold then pure .stopped else pumpLoop fuel t0 hold budget spin collecting
        | _ => pumpLoop fuel t0 hold budget spin collecting
      | .gone w =>
        if ← psGone w hold then pure .gone else pumpLoop fuel t0 hold budget spin collecting
      | .failed => pure .gone
      | .nothing =>
        if spin ≤ t - t0 then
          nap
          pumpLoop fuel t0 hold budget spin collecting
        else pumpLoop fuel t0 hold budget spin collecting
      | _ => pumpLoop fuel t0 hold budget spin collecting

def psPump (fuel : ℕ) (hold : Tid) (budget spin : ℕ) (collecting : Bool) : Ps Ev := do
  let t0 ← now
  pumpLoop fuel t0 hold budget spin collecting

/-- The wait for one task inside ps_ensure_stopped. -/
def pumpFor (fuel : ℕ) (tid : Tid) : Ps Unit := do
  let _ ← psPump fuel tid intrUs spinUs false
  pure ()

/-- ps_ensure_stopped over the pump. -/
def psEnsure (fuel budget : ℕ) (tid : Tid) : Ps Bool :=
  psEnsureStopped (pumpFor fuel) fuel budget tid

/-! ### The walks over the table -/

/-- What is left of the budget of a sweep. -/
def budgetLeft (bounded : Bool) (t0 budget : ℕ) : Ps ℕ :=
  if bounded then do
    let t ← now
    pure (budget - (t - t0))
  else pure stopForever

/-- One round of ps_stop_all; `false` when the budget ran out. -/
def stopRound (fuel : ℕ) (bounded : Bool) (t0 budget : ℕ) : List Tid → Ps Bool
  | [] => pure true
  | tid :: tids => do
    let left ← budgetLeft bounded t0 budget
    if left = 0 then pure false
    else
      let _ ← psEnsure fuel left tid
      stopRound fuel bounded t0 budget tids

/-- The tasks that a sweep has to stop. -/
def Ctx.unstopped (c : Ctx) : List Tid :=
  (c.t.filter fun e => !e.stopped && (!e.listening || c.tearingDown)).map Thr.tid

def stopRounds (fuel : ℕ) (bounded : Bool) (t0 budget : ℕ) : ℕ → Ps Unit
  | 0 => pure ()
  | n + 1 => do
    let c ← ctx
    if c.unstopped = [] then pure ()
    else if ← stopRound fuel bounded t0 budget c.unstopped then
      stopRounds fuel bounded t0 budget n
    else pure ()

def psStopAll (fuel budget : ℕ) : Ps Unit := do
  let t0 ← now
  stopRounds fuel (budget ≠ stopForever) t0 budget 2

def psDrain (fuel : ℕ) : ℕ → Ps Unit
  | 0 => pure ()
  | n + 1 => do
    match ← wait with
    | .stopped w sig event =>
      let _ ← psDispatch (psEnsure fuel stopForever) w sig event 0 false
      psDrain fuel n
    | .gone w =>
      let _ ← psGone w 0
      psDrain fuel n
    | .other _ => psDrain fuel n
    | _ => pure ()

/-- Does ps_resume_all resume the task? -/
def resumes (tearingDown : Bool) (e : Thr) : Bool :=
  e.stopped && !e.listening &&
    (psDecide e.kind .interrupt tearingDown false false == .resumeQuiet)

def psResumeAll : Ps Unit := do
  let c ← ctx
  each (fun e => psCont e.tid 0) (c.t.filter (resumes c.tearingDown))

def psUnplantTwice (fuel budget : ℕ) : Ps Bool := do
  if ← psUnplant then pure true
  else
    psStopAll fuel budget
    psUnplant

def rewindStopped (base : Addr) (e : Thr) : Ps Unit := do
  let _ ← psRewind e.tid base
  pure ()

def psDisarm (fuel budget : ℕ) : Ps Bool := do
  psStopAll fuel budget
  if ← psUnplantTwice fuel budget then
    psDrain fuel drainMax
    let c ← ctx
    each (rewindStopped c.bpBase) (c.t.filter Thr.stopped)
    update fun c => { c with bpBase := 0 }
    pure true
  else
    update fun c => { c with leaked := true }
    pure false

/-! ### Attach and detach -/

def uncover : Ps Unit := update fun c => { c with covered := false }

/-- The names under /proc/pid/task in one pass; the answer counts the tasks added. -/
def seizePass : List Tid → ℕ → Ps ℕ
  | [], added => pure added
  | tid :: tids, added => do
    let c ← ctx
    if (c.find tid).isSome then seizePass tids added
    else if c.cap ≤ c.t.length then
      uncover
      seizePass tids added
    else
      match ← seize tid with
      | .gone => seizePass tids added
      | .refused =>
        uncover
        seizePass tids added
      | .ok =>
        if ← psAdd tid then seizePass tids (added + 1)
        else
          uncover
          seizePass tids added

def seizeScan : ℕ → Ps Unit
  | 0 => uncover
  | n + 1 => do
    match ← taskNames with
    | none => uncover
    | some tids =>
      let added ← seizePass tids 0
      if added = 0 then pure () else seizeScan n

/-- `false` when no task could be seized. -/
def psSeizeAll : Ps Bool := do
  update fun c => { c with covered := true }
  seizeScan seizePasses
  let c ← ctx
  pure (c.t.length != 0)

/-- The copy that a task holds; `false` when it may still hold it. -/
def restoreHeld (e : Thr) : Ps Bool :=
  if e.copiedBp = 0 then pure true
  else do
    if ← psRestoreCopy e.tid e.copiedBp e.copiedOrig then
      let _ ← psRewind e.tid e.copiedBp
      pure true
    else pure false

/-- The walk of the teardown that restores copies and rewinds; `true` when no copy is left. -/
def restoreCopies : List Thr → Ps Bool
  | [] => pure true
  | e :: es => do
    let ok ← restoreHeld e
    let c ← ctx
    let _ ← psRewind e.tid c.trapAddr
    let rest ← restoreCopies es
    pure (ok && rest)

/-- Detaches the tasks of a snapshot: whether all of them went, and how many left the table. -/
def detachEach (fuel : ℕ) : List Tid → Ps (Bool × ℕ)
  | [] => pure (true, 0)
  | tid :: tids => do
    if ← psDetachOne (psEnsure fuel stopForever) tid detachTries 0 then
      let c ← ctx
      update fun c => c.del tid
      let r ← detachEach fuel tids
      pure (r.1, if (c.find tid).isSome then r.2 + 1 else r.2)
    else
      let r ← detachEach fuel tids
      pure (false, r.2)

/-- The passes of ps_detach_all; `true` when nothing was left behind on the way. -/
def detachLoop (fuel : ℕ) : ℕ → Ps Bool
  | 0 => pure true
  | n + 1 => do
    let c ← ctx
    let copies ← restoreCopies c.t
    if c.t.length = 0 then pure copies
    else
      let r ← detachEach fuel (c.t.map Thr.tid)
      let c ← ctx
      if c.t.length = 0 ∨ r.2 = 0 then pure (copies && r.1)
      else
        psStopAll fuel stopForever
        let rest ← detachLoop fuel n
        pure (copies && r.1 && rest)

/-- The start of the teardown: the byte out and every task stopped. -/
def disarmAll (fuel : ℕ) : Ps Bool := do
  let c ← ctx
  if c.bpBase = 0 then
    psStopAll fuel stopForever
    pure true
  else if ← psDisarm fuel stopForever then
    psStopAll fuel stopForever
    pure true
  else pure false

/-- `true` when the target was handed back clean. -/
def psDetachAll (fuel : ℕ) : Ps Bool := do
  update fun c => { c with tearingDown := true }
  let c ← ctx
  if c.covered = true ∧ c.t.length = 0 then
    update fun c => { c with bpBase := 0, bpPlanted := false }
    pure true
  else
    let disarmed ← disarmAll fuel
    let detached ← detachLoop fuel detachPasses
    update fun c => { c with bpBase := 0 }
    let c ← ctx
    pure (disarmed && detached && c.t.length == 0)

/-! ### The phases -/

/-- The table from index `rr` on, round robin, with the indices. -/
def roundRobin (ts : List Thr) (rr : ℕ) : List (ℕ × Thr) :=
  (List.range ts.length).filterMap fun k =>
    let i := (rr + k) % ts.length
    ts[i]?.map fun e => (i, e)

/-- The first of the tasks that is executing, with its index. -/
def pickExecuting : List (ℕ × Thr) → Ps (Option (ℕ × Tid))
  | [] => pure none
  | (i, e) :: es => do
    if !kindMaySample e.kind || e.listening then pickExecuting es
    else if ← executing e.tid then pure (some (i, e.tid))
    else pickExecuting es

/-- One sample of a task: interrupt, read, resume. -/
def sampleOne (fuel : ℕ) (tid : Tid) : Ps (List Addr) := do
  let _ ← interrupt tid
  let ev ← psPump fuel tid intrUs spinUs false
  if ev = .stopped then
    let pc ← regs tid
    psCont tid 0
    pure pc.toList
  else pure []

/-- The pick of one tick and its sample: the next index to start from and the sample. -/
def sampleNext (fuel rr : ℕ) : Ps (ℕ × List Addr) := do
  let c ← ctx
  match ← pickExecuting (roundRobin c.t rr) with
  | none => pure (rr, [])
  | some (i, tid) =>
    let pcs ← sampleOne fuel tid
    pure (i + 1, pcs)

/-- The rest of the tick is spent in the pump. -/
def pumpRest (fuel tick : ℕ) : Ps Unit := do
  let t ← now
  if t - tick < periodUs then
    let _ ← psPump fuel 0 (periodUs - (t - tick)) 0 false
    pure ()
  else pure ()

/-- Phase 1: the program counters sampled until the deadline. -/
def psPhase1 (tEnd : ℕ) : ℕ → ℕ → List Addr → Ps (List Addr)
  | 0, _, pcs => pure pcs
  | fuel + 1, rr, pcs => do
    let t ← now
    let c ← ctx
    if tEnd ≤ t ∨ c.t.length = 0 then pure pcs
    else
      let tick ← now
      let r ← sampleNext fuel rr
      pumpRest fuel tick
      psPhase1 tEnd fuel r.1 (pcs ++ r.2)

/-- The time of the first arrival, at least 1. -/
def firstUs (arrivals t0 first : ℕ) : Ps ℕ :=
  if arrivals = 0 then do
    let t ← now
    pure (max 1 (t - t0))
  else pure first

/-- One instruction of a task that arrived, with the byte out of the text. -/
def stepOff (fuel : ℕ) (who : Tid) : Ps Unit := do
  update fun c => { c with stepping := who }
  if ← singleStep who then
    update fun c => c.setStopped who false
    let _ ← psPump fuel who stopUs spinUs false
    update fun c => { c with stepping := 0 }
  else update fun c => { c with stepping := 0 }

/-- The byte back in the text through the task that arrived. -/
def rearm (who : Tid) (addr : Addr) : Ps Bool := do
  let c ← ctx
  match c.find who with
  | none => pure false
  | some e => if psCanPoke e then psPlant who addr else pure false

/-- The arrivals at an armed entry: the count and, for the first, the time it took. -/
def arrivalLoop (fuel : ℕ) (addr : Addr) (tEnd t0 : ℕ) : ℕ → ℕ → ℕ → Ps (ℕ × ℕ)
  | 0, arrivals, first => pure (arrivals, first)
  | n + 1, arrivals, first => do
    if hitBudget ≤ arrivals then pure (arrivals, first)
    else
      let t ← now
      if tEnd - t = 0 then pure (arrivals, first)
      else
        match ← psPump fuel 0 (tEnd - t) spinUs true with
        | .arrived who =>
          let first ← firstUs arrivals t0 first
          let c ← ctx
          if ← psRestoreCopy who addr c.bpOrig then
            update fun c => { c with bpPlanted := false }
            if arrivals + 1 < hitBudget then
              stepOff fuel who
              if ← rearm who addr then
                psCont who 0
                arrivalLoop fuel addr tEnd t0 n (arrivals + 1) first
              else pure (arrivals + 1, first)
            else
              psCont who 0
              arrivalLoop fuel addr tEnd t0 n (arrivals + 1) first
          else pure (arrivals + 1, first)
        | _ => pure (arrivals, first)

/-- The armed window of a candidate and its end. -/
def armedWindow (fuel : ℕ) (addr : Addr) (tEnd : ℕ) : Ps (ℕ × ℕ) := do
  let t0 ← now
  psResumeAll
  let r ← arrivalLoop fuel addr tEnd t0 (hitBudget + 1) 0 0
  let _ ← psDisarm fuel stopForever
  psResumeAll
  pure r

/-- Phase 3 for one candidate. -/
def psPhase3One (fuel : ℕ) (addr : Addr) (budget : ℕ) : Ps (ℕ × ℕ) := do
  let t ← now
  update fun c => { c with bpArrived := false }
  psStopAll fuel budget
  let c ← ctx
  if c.t.length = 0 then pure (0, 0)
  else
    match c.t.find? psCanPoke with
    | none =>
      psResumeAll
      pure (0, 0)
    | some e =>
      if ← psPlant e.tid addr then armedWindow fuel addr (t + budget)
      else
        psResumeAll
        pure (0, 0)

/-- The loop over the candidates: the arrivals of each that was tried. -/
def confirmLoop (fuel perUs tEnd : ℕ) : List Addr → ℕ → Ps (List (Addr × ℕ × ℕ))
  | [], _ => pure []
  | a :: as, nconf => do
    let c ← ctx
    if c.t.length = 0 ∨ c.leaked = true ∨ c.covered = false then pure []
    else
      let t ← now
      if tEnd ≤ t ∧ 0 < nconf then pure []
      else
        let r ← psPhase3One fuel a perUs
        let rest ← confirmLoop fuel perUs tEnd as (if 0 < r.1 then nconf + 1 else nconf)
        pure ((a, r) :: rest)

/-- Phase 3: nothing is armed unless every task is seized, with room to spare. -/
def psPhase3 (fuel perUs windowUs : ℕ) (cands : List Addr) : Ps (List (Addr × ℕ × ℕ)) := do
  let c ← ctx
  if c.covered = true ∧ c.t.length + armHeadroom ≤ c.cap then
    let t ← now
    confirmLoop fuel perUs (t + windowUs) cands 0
  else pure []

/-- What the sampler does between the seizing and the teardown. -/
def psBody (fuel perUs windowUs : ℕ) (expand : List Addr → List Addr) :
    Ps (List (Addr × ℕ × ℕ)) := do
  if ← psSeizeAll then
    let t ← now
    let pcs ← psPhase1 (t + windowUs) fuel 0 []
    psPhase3 fuel perUs windowUs (expand pcs)
  else pure []

/-- asmspy_ptrace_sample: what was confirmed, and whether the target is clean again. -/
def ptraceSample (fuel perUs windowUs : ℕ) (expand : List Addr → List Addr) :
    Ps (List (Addr × ℕ × ℕ) × Bool) := do
  let r ← psBody fuel perUs windowUs expand
  let clean ← psDetachAll fuel
  pure (r, clean)

/-- The world in which the sampler starts. -/
def start (pid : Tid) : World Ans Ctx := { ctx := { pid := pid }, log := [] }

end AsmTest.PtraceSample
