import AsmTest.ValTrace

/-!
# The scoped value capture by single steps

The loop opens a step at every stop inside the region and closes it at the next stop. A stop outside
is the end of the capture, unless the last instruction was a call that left its return address on
the stack: then the callee is run over, up to that address. How the operands of a step are read and
what a callee has overwritten are parameters; the loop does not depend on them.
-/

namespace AsmTest.Dataflow.Scoped

open Dataflow

/-- What the loop reads of the tracee at a stop; the rest of the registers and the memory is `σ`. -/
structure State (σ : Type) where
  pc : ℕ
  sp : ℕ
  rax : ℕ
  /-- The word on top of the stack, if it can be read -/
  top : Option ℕ
  world : σ
deriving DecidableEq, Repr

/-- What `waitpid` reports. A tracee that runs over a callee passes the states of `trap` without
stopping; when the list is used up it has exited. -/
inductive Stop (σ : Type) where
  | trap (s : State σ)
  | signal (fault : Bool)
  /-- A `SIGTRAP` of the tracee's own -/
  | appTrap (s : State σ)
  /-- A `ptrace` or `waitpid` call that fails -/
  | fail
deriving DecidableEq, Repr

/-- A step as it goes into the value trace: one of the region, or the barrier for a callee -/
inductive Entry where
  | step (off : ℕ) (recs : List ValRec)
  | gap (pc : ℕ) (recs : List ValRec)
deriving DecidableEq, Repr

namespace Entry

/-- `insn_off` -/
def off : Entry → ℕ
  | step off _ => off
  | gap pc _ => pc

def recs : Entry → List ValRec
  | step _ recs => recs
  | gap _ recs => recs

/-- The offset of an instruction of the region -/
def inside? : Entry → Option ℕ
  | step off _ => some off
  | gap _ _ => none

end Entry

structure Config (σ : Type) where
  base : ℕ
  codeLen : ℕ
  /-- The length of the code snapshot -/
  snapLen : ℕ
  /-- No bound when zero -/
  maxInsns : ℕ
  stepBackstop : ℕ
  prePositioned : Bool
  /-- The stop flag at the start of a round -/
  stop : ℕ → Bool
  /-- The decoder on the snapshot: whether the instruction at an offset is a call, and its length -/
  decode : ℕ → Bool × ℕ
  /-- The records of a step: reads from the state before, writes from the state after -/
  records : ℕ → State σ → State σ → List ValRec
  /-- The records of a step whose state after was not seen -/
  openRecords : ℕ → State σ → List ValRec
  /-- The barrier for a callee, after what was recorded: whether something could not be decided,
  and the locations that changed, in at most two batches -/
  glue : List Entry → State σ → State σ → Bool × List (List ValRec)

variable {σ : Type}

def Config.Inside (cfg : Config σ) (pc : ℕ) : Prop :=
  cfg.base ≤ pc ∧ pc < cfg.base + cfg.codeLen

instance (cfg : Config σ) (pc : ℕ) : Decidable (cfg.Inside pc) :=
  inferInstanceAs (Decidable (_ ∧ _))

inductive Rc where
  | ok
  | etrace
  | fault
deriving DecidableEq, Repr

/-- The locals of the loop and the capture so far -/
structure Ctx (σ : Type) where
  vt : ValTrace
  /-- What was appended, in order -/
  log : List Entry := []
  /-- The state before the open step -/
  cur : Option (State σ) := none
  curOff : ℕ := 0
  entered : Bool := false
  recorded : ℕ := 0
  total : ℕ := 0
  rounds : ℕ := 0

structure Result (σ : Type) where
  ctx : Ctx σ
  rc : Rc
  result : Option ℕ

inductive Outcome (σ : Type) where
  /-- The next round; the tracee may be stopped at a state that was not looked at yet. -/
  | cont (c : Ctx σ) (here : Option (State σ)) (rest : List (Stop σ))
  | done (r : Result σ)

namespace Ctx

def truncate (c : Ctx σ) : Ctx σ :=
  { c with vt := { c.vt with truncated := true } }

def append (e : Entry) (c : Ctx σ) : Ctx σ :=
  { c with vt := valtraceAppend c.vt (BitVec.ofNat 64 e.off) e.recs, log := c.log ++ [e] }

/-- `finalize_step`, when a step is open -/
def finalizeStep (cfg : Config σ) (post : State σ) (c : Ctx σ) : Ctx σ :=
  match c.cur with
  | none => c
  | some pre => { c.append (.step c.curOff (cfg.records c.curOff pre post)) with cur := none }

/-- The open step without its writes -/
def appendOpen (cfg : Config σ) (c : Ctx σ) : Ctx σ :=
  match c.cur with
  | none => c
  | some pre => { c.append (.step c.curOff (cfg.openRecords c.curOff pre)) with cur := none }

def openStep (cfg : Config σ) (s : State σ) (c : Ctx σ) : Ctx σ :=
  { c with cur := some s, curOff := s.pc - cfg.base }

/-- `dfp_emit_gap` -/
def emitGap (cfg : Config σ) (pre post : State σ) (c : Ctx σ) : Ctx σ :=
  let g := cfg.glue c.log pre post
  let c := if g.1 then c.truncate else c
  g.2.foldl (fun c recs => c.append (.gap pre.pc recs)) c

def done (rc : Rc) (c : Ctx σ) : Outcome σ :=
  .done ⟨c, rc, none⟩

end Ctx

/-- `dfp_is_callout`: the offset to come back to -/
def isCallout (cfg : Config σ) (lastOff : ℕ) (s : State σ) : Option ℕ :=
  if cfg.snapLen ≤ lastOff then none
  else
    let d := cfg.decode lastOff
    if d.1 = false ∨ d.2 = 0 then none
    else if cfg.codeLen ≤ lastOff + d.2 then none
    else if s.top = some (cfg.base + (lastOff + d.2)) then some (lastOff + d.2)
    else none

/-- `dfp_run_to`: up to the first arrival; signals are passed on, another trap ends it. -/
def runTo (target : ℕ) : List (Stop σ) → Option (State σ × List (Stop σ))
  | [] => none
  | .trap s :: rest => if s.pc = target then some (s, rest) else runTo target rest
  | .signal _ :: rest => runTo target rest
  | .appTrap _ :: _ => none
  | .fail :: _ => none

/-- A stop inside the region -/
def landInside (cfg : Config σ) (c : Ctx σ) (s : State σ) (rest : List (Stop σ)) : Outcome σ :=
  let c := ({ c.finalizeStep cfg s with entered := true }).openStep cfg s
  if cfg.maxInsns ≠ 0 then
    let c := { c with recorded := c.recorded + 1 }
    if cfg.maxInsns ≤ c.recorded then (c.appendOpen cfg).truncate.done .ok else .cont c none rest
  else .cont c none rest

/-- A stop outside the region after it was entered -/
def landOutside (cfg : Config σ) (c : Ctx σ) (s : State σ) (rest : List (Stop σ)) : Outcome σ :=
  let lastOff := c.curOff
  let c := c.finalizeStep cfg s
  match isCallout cfg lastOff s with
  | none => .done ⟨c, .ok, some s.rax⟩
  | some resumeOff =>
    let c := { c with total := c.total + 1 }
    if cfg.stepBackstop < c.total then c.truncate.done .ok
    else
      match runTo (cfg.base + resumeOff) rest with
      | none => c.truncate.done .etrace
      | some (r, rest) => .cont (c.emitGap cfg s r) (some r) rest

def land (cfg : Config σ) (c : Ctx σ) (s : State σ) (rest : List (Stop σ)) : Outcome σ :=
  if cfg.Inside s.pc then landInside cfg c s rest
  else if c.entered then landOutside cfg c s rest
  else .cont c none rest

/-- One round of the loop -/
def stepRound (cfg : Config σ) (c : Ctx σ) (here : Option (State σ)) (stops : List (Stop σ)) :
    Outcome σ :=
  let c := { c with rounds := c.rounds + 1 }
  if cfg.stop c.rounds then (c.appendOpen cfg).truncate.done .ok
  else
    match here, stops with
    | some s, rest => land cfg c s rest
    | none, [] =>
      (if c.cur.isSome then c.truncate else c).done (if c.entered then .ok else .etrace)
    | none, .signal fault :: rest => if fault then c.truncate.done .fault else .cont c none rest
    | none, .appTrap s :: _ => (c.finalizeStep cfg s).truncate.done .fault
    | none, .fail :: _ => c.done .etrace
    | none, .trap s :: rest =>
      let c := { c with total := c.total + 1 }
      if cfg.stepBackstop < c.total then c.truncate.done .etrace else land cfg c s rest

/-- The loop; each round uses up a stop or the state that was run to. -/
def stepLoop (cfg : Config σ) : ℕ → Ctx σ → Option (State σ) → List (Stop σ) → Result σ
  | 0, c, _, _ => ⟨c, .etrace, none⟩
  | fuel + 1, c, here, stops =>
    match stepRound cfg c here stops with
    | .done r => r
    | .cont c here rest => stepLoop cfg fuel c here rest

/-- `dfp_step_loop`; when the tracee is positioned it is stopped at the first state. -/
def dfpStepLoop (cfg : Config σ) (vt : ValTrace) (stops : List (Stop σ)) : Result σ :=
  match cfg.prePositioned, stops with
  | true, .trap s :: rest => stepLoop cfg (rest.length + 2) { vt } (some s) rest
  | _, _ => stepLoop cfg (stops.length + 1) { vt } none stops

end AsmTest.Dataflow.Scoped
