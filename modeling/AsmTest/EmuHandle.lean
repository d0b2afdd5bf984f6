import AsmTest.Lib.Circular
import AsmTest.Lib.Endian
import AsmTest.Selection
import AsmTest.Trace

/-!
# The emulator handle (src/emu.c)

An x86-64 guest on Unicorn: a routine is loaded, its arguments are placed, and what the engine's
hooks report during the run is kept in a trace, a watchpoint, a register guard and a ring of
register files. Unicorn is a parameter; what it does to the guest's memory and registers is stated
where it is relied on.
-/

namespace AsmTest.Emulator

open Hwtrace (Trace traceAppendInsn traceAppendBlock)

def emuCodeBase : BitVec 64 := 0x00100000
def emuCodeSize : ℕ := 0x00010000
def emuStackBase : BitVec 64 := 0x00200000
def emuStackSize : BitVec 64 := 0x00010000
/-- Unmapped: only a place to stop -/
def emuRetMagic : BitVec 64 := 0x00f00000

/-- `UC_PROT_READ | UC_PROT_WRITE` -/
def protRw : ℕ := 3
/-- `UC_PROT_ALL` -/
def protAll : ℕ := 7

inductive Reg where
  | rax | rbx | rcx | rdx | rsi | rdi | rbp | rsp
  | r8 | r9 | r10 | r11 | r12 | r13 | r14 | r15
  | rip | eflags
  | xmm (i : Fin 16)
  | mxcsr
  deriving DecidableEq

def gpRegs : List Reg :=
  [.rax, .rbx, .rcx, .rdx, .rsi, .rdi, .rbp, .rsp, .r8, .r9, .r10, .r11, .r12, .r13, .r14, .r15]

/-- A register with a name -/
abbrev NamedReg := { r : Reg // r ∈ gpRegs ++ [.rip] }

lemma rax_named : Reg.rax ∈ gpRegs ++ [.rip] := by decide

/-- The table of `x86_uc_reg` -/
def regNames : List (String × NamedReg) :=
  [("rax", ⟨.rax, by decide⟩), ("rbx", ⟨.rbx, by decide⟩), ("rcx", ⟨.rcx, by decide⟩),
    ("rdx", ⟨.rdx, by decide⟩), ("rsi", ⟨.rsi, by decide⟩), ("rdi", ⟨.rdi, by decide⟩),
    ("rbp", ⟨.rbp, by decide⟩), ("rsp", ⟨.rsp, by decide⟩), ("r8", ⟨.r8, by decide⟩),
    ("r9", ⟨.r9, by decide⟩), ("r10", ⟨.r10, by decide⟩), ("r11", ⟨.r11, by decide⟩),
    ("r12", ⟨.r12, by decide⟩), ("r13", ⟨.r13, by decide⟩), ("r14", ⟨.r14, by decide⟩),
    ("r15", ⟨.r15, by decide⟩), ("rip", ⟨.rip, by decide⟩)]

def x86UcReg (name : String) : Option NamedReg := (regNames.find? (·.1 = name)).map Prod.snd

/-- The registers as a hook reads them, each in the low bits of a word -/
abbrev File := Reg → BitVec 128

inductive EmuFaultKind where
  | none | read | write | fetch
  deriving DecidableEq

/-- `uc_mem_type` -/
inductive UcMemType where
  | read | write | fetch
  | readUnmapped | writeUnmapped | fetchUnmapped
  | writeProt | readProt | fetchProt
  | readAfter
  deriving DecidableEq

def kindOf : UcMemType → EmuFaultKind
  | .readUnmapped | .readProt => .read
  | .writeUnmapped | .writeProt => .write
  | .fetchUnmapped | .fetchProt => .fetch
  | _ => .none

structure UcRegion where
  begin : ℕ
  /-- Inclusive -/
  last : ℕ
  perms : ℕ

/-- What a hook is called with -/
inductive UcHook where
  | code (address : BitVec 64) (file : File)
  | block (address : BitVec 64) (file : File)
  | access (write : Bool) (address : BitVec 64) (size : ℕ) (file : File)
  | invalid (type : UcMemType) (address : BitVec 64)

/-- The calls of Unicorn on an engine `U`; `C` is a saved register context. A call that can fail
says whether it succeeded. -/
structure Unicorn (U C : Type) where
  memRegions : U → List UcRegion
  memMap : U → ℕ → ℕ → ℕ → Bool × U
  memUnmap : U → ℕ → ℕ → Bool × U
  memRead : U → ℕ → ℕ → Option (List UInt8)
  memWrite : U → ℕ → List UInt8 → Bool × U
  regRead : U → File
  regWrite : U → Reg → BitVec 128 → U
  flushTb : U → U
  contextSave : U → Option C
  contextRestore : U → C → Bool × U
  /-- From an address until another, for a number of instructions (zero is no bound): the hooks in
  the order in which they are called, the engine afterwards and the error code -/
  emuStart : U → BitVec 64 → BitVec 64 → ℕ → List UcHook × U × ℤ

inductive EmuWatchMode where
  | never | only
  deriving DecidableEq

structure EmuWatch where
  violated : Bool := false
  addr : BitVec 64 := 0
  size : ℕ := 0
  ripOff : BitVec 64 := 0
  deriving DecidableEq

/-- `out` is what the caller's result holds; without one the watch is off. -/
structure WatchCtx where
  armed : Bool := false
  lo : BitVec 64 := 0
  hi : BitVec 64 := 0
  mode : EmuWatchMode := .never
  /-- `WATCH_WRITE`, not `WATCH_READ` -/
  onWrites : Bool := true
  out : Option EmuWatch := none

structure EmuRegGuard where
  violated : Bool := false
  got : BitVec 64 := 0
  ripOff : BitVec 64 := 0
  deriving DecidableEq

structure RegGuardCtx where
  armed : Bool := false
  ucReg : NamedReg := ⟨.rax, rax_named⟩
  want : BitVec 64 := 0
  out : Option EmuRegGuard := none

/-- `emu_x86_regs_t`: all but `MXCSR`, in the order of the structure -/
abbrev X86Regs := List (BitVec 128)

def zeroRegs : X86Regs := List.replicate 34 0

structure StepRing where
  armed : Bool := false
  buf : Option (List X86Regs) := none
  /-- Beside `buf`, if it could be allocated -/
  mxcsr : Option (List (BitVec 32)) := none
  cap : ℕ := 0
  head : ℕ := 0
  count : ℕ := 0
  dropped : ℕ := 0

structure Emu (U : Type) where
  uc : U
  watch : WatchCtx := {}
  reg : RegGuardCtx := {}
  stepRing : StepRing := {}
  preload : List (NamedReg × BitVec 64) := []
  fuzzCorpus : List (BitVec 64) := []

structure EmuResult where
  ok : Bool := false
  ucErr : ℤ := 0
  faulted : Bool := false
  faultAddr : BitVec 64 := 0
  faultKind : EmuFaultKind := .none
  regs : X86Regs := zeroRegs
  deriving DecidableEq

section Hooks

def readAllRegs (file : File) : X86Regs :=
  (gpRegs ++ [Reg.rip, Reg.eflags] ++ (List.finRange 16).map Reg.xmm).map file

def mxcsrOf (file : File) : BitVec 32 := (file .mxcsr).setWidth 32

/-- `on_code_step` -/
def onCodeStep (file : File) (sr : StepRing) : StepRing :=
  match sr.buf with
  | none => sr
  | some buf =>
    if sr.cap = 0 then sr
    else
      -- a full ring gives up its oldest entry, and `head` moves on to the next
      let pos := if sr.count < sr.cap then (sr.head + sr.count) % sr.cap else sr.head
      let sr' := if sr.count < sr.cap then { sr with count := sr.count + 1 }
        else { sr with head := (sr.head + 1) % sr.cap, dropped := sr.dropped + 1 }
      { sr' with buf := some (buf.set pos (readAllRegs file)),
                 mxcsr := sr.mxcsr.map fun m => m.set pos (mxcsrOf file) }

/-- `on_mem_access` -/
def onMemAccess (addr : BitVec 64) (size : ℕ) (file : File) (w : WatchCtx) : WatchCtx :=
  match w.out with
  | none => w
  | some out =>
    -- only the first breach is kept
    if out.violated then w
    else
      let fin := addr + BitVec.ofNat 64 size
      let touches := addr < w.hi ∧ w.lo < fin
      let contained := w.lo ≤ addr ∧ fin ≤ w.hi
      if (w.mode = .never ∧ touches) ∨ (w.mode = .only ∧ ¬contained) then
        { w with out := some ⟨true, addr, size, (file .rip).setWidth 64 - emuCodeBase⟩ }
      else w

/-- `on_block_guard` -/
def onBlockGuard (address : BitVec 64) (file : File) (g : RegGuardCtx) : RegGuardCtx :=
  match g.out with
  | none => g
  | some out =>
    if out.violated then g
    else if (file g.ucReg).setWidth 64 ≠ g.want then
      { g with out := some ⟨true, (file g.ucReg).setWidth 64, address - emuCodeBase⟩ }
    else g

structure FaultRec where
  faulted : Bool := false
  addr : BitVec 64 := 0
  kind : EmuFaultKind := .none

/-- `on_invalid_mem` -/
def onInvalidMem (type : UcMemType) (address : BitVec 64) (fr : FaultRec) : FaultRec :=
  if fr.faulted then fr else ⟨true, address, kindOf type⟩

/-- What the hooks write to -/
structure Sinks where
  fr : FaultRec := {}
  trace : Option Trace
  watch : WatchCtx
  reg : RegGuardCtx
  stepRing : StepRing

/-- Only the hooks that were added are called. -/
def onHook (s : Sinks) : UcHook → Sinks
  | .code address file =>
    { s with trace := s.trace.map fun t => traceAppendInsn t (address - emuCodeBase).toNat,
             stepRing := if s.stepRing.armed then onCodeStep file s.stepRing else s.stepRing }
  | .block address file =>
    { s with trace := s.trace.map fun t => traceAppendBlock t (address - emuCodeBase).toNat,
             reg := if s.reg.armed then onBlockGuard address file s.reg else s.reg }
  | .access write address size file =>
    { s with watch := if s.watch.armed ∧ s.watch.onWrites = write then
        onMemAccess address size file s.watch else s.watch }
  | .invalid type address => { s with fr := onInvalidMem type address s.fr }

end Hooks

section Calls

variable {U C : Type} (X : Unicorn U C)

/-- The engine that was opened gets a window for the code and a stack. -/
def emuOpen (u : U) : Option (Emu U) :=
  match X.memMap u emuCodeBase.toNat emuCodeSize protAll with
  | (false, _) => none
  | (true, u) =>
    match X.memMap u emuStackBase.toNat emuStackSize.toNat protRw with
    | (false, _) => none
    | (true, u) => some { uc := u }

/-- The rest of the code window is filled with `INT3`. -/
def trapFill : ℕ → ℕ → U → U
  | 0, _, u => u
  | fuel + 1, off, u =>
    if off < emuCodeSize then
      match X.memWrite u (emuCodeBase.toNat + off)
          (List.replicate (min (emuCodeSize - off) 4096) 0xCC) with
      | (true, u) => trapFill fuel (off + 4096) u
      -- a write that fails ends the filling and is not reported
      | (false, u) => u
    else u

def loadCode (u : U) (code : List UInt8) : Bool × U :=
  -- what does not fit into the window is left out
  let code := code.take emuCodeSize
  match X.memWrite u emuCodeBase.toNat code with
  | (false, u) => (false, u)
  | (true, u) => (true, X.flushTb (trapFill X (emuCodeSize / 4096) code.length u))

def emuX86ZeroRegs (u : U) : U :=
  let u := (gpRegs.filter (· ≠ .rsp)).foldl (fun u r => X.regWrite u r 0) u
  let u := (List.finRange 16).foldl (fun u i => X.regWrite u (.xmm i) 0) u
  X.regWrite u .eflags 2

def argRegs : List Reg := [.rdi, .rsi, .rdx, .rcx, .r8, .r9]

def emuX86SetupSysv (e : Emu U) (fn : List UInt8) (args : List (BitVec 64)) : Bool × U :=
  match loadCode X e.uc fn with
  | (false, u) => (false, u)
  | (true, u) =>
    let u := emuX86ZeroRegs X u
    let u := e.preload.foldl (fun u p => X.regWrite u p.1.1 (p.2.setWidth 128)) u
    let nstack := args.length - 6
    -- at the entry the stack pointer is 8 more than a multiple of 16, as after a call
    let pad := (nstack * 8 + 15) / 16 * 16
    let sp := emuStackBase + emuStackSize - 8 - BitVec.ofNat 64 pad
    let u := (X.memWrite u sp.toNat (Endian.leBytes 8 emuRetMagic.toNat)).2
    let u := (args.drop 6).zipIdx.foldl (fun u a =>
      (X.memWrite u (sp + 8 + 8 * BitVec.ofNat 64 a.2).toNat (Endian.leBytes 8 a.1.toNat)).2) u
    let u := X.regWrite u .rsp (sp.setWidth 128)
    (true, (argRegs.zip args).foldl (fun u a => X.regWrite u a.1 (a.2.setWidth 128)) u)

/-- The armed sinks are emptied; without the caller's result a guard has nothing to empty. -/
def startSinks (e : Emu U) (trace : Option Trace) : Sinks where
  trace := trace
  watch := if e.watch.armed then
      { e.watch with out := e.watch.out.map fun o => { o with violated := false } }
    else e.watch
  reg := if e.reg.armed then
      { e.reg with out := e.reg.out.map fun o => { o with violated := false } }
    else e.reg
  stepRing := if e.stepRing.armed ∧ e.stepRing.buf.isSome then
      { e.stepRing with head := 0, count := 0, dropped := 0 }
    else e.stepRing

/-- `emu_x86_run` on the engine that was set up -/
def emuX86Run (e : Emu U) (u : U) (maxInsns : ℕ) (trace : Option Trace) :
    EmuResult × Option Trace × Emu U :=
  let (hooks, u, err) := X.emuStart u emuCodeBase emuRetMagic maxInsns
  let s := hooks.foldl onHook (startSinks e trace)
  ({ ok := err = 0 ∧ s.fr.faulted = false, ucErr := err, faulted := s.fr.faulted,
     faultAddr := s.fr.addr, faultKind := s.fr.kind, regs := readAllRegs (X.regRead u) },
    s.trace, { e with uc := u, watch := s.watch, reg := s.reg, stepRing := s.stepRing })

def emuCallTraced (e : Emu U) (fn : List UInt8) (args : List (BitVec 64)) (maxInsns : ℕ)
    (trace : Option Trace) : EmuResult × Option Trace × Emu U :=
  match emuX86SetupSysv X e fn args with
  | (false, u) => ({ ucErr := -1 }, trace, { e with uc := u })
  | (true, u) => emuX86Run X e u maxInsns trace

def emuCall (e : Emu U) (fn : List UInt8) (args : List (BitVec 64)) (maxInsns : ℕ) :
    EmuResult × Emu U :=
  let r := emuCallTraced X e fn args maxInsns none
  (r.1, r.2.2)

def emuMap (e : Emu U) (addr size : ℕ) : Bool × Emu U :=
  let r := X.memMap e.uc addr size protRw
  (r.1, { e with uc := r.2 })

def emuWrite (e : Emu U) (addr : ℕ) (data : List UInt8) : Bool × Emu U :=
  let r := X.memWrite e.uc addr data
  (r.1, { e with uc := r.2 })

def emuRead (e : Emu U) (addr len : ℕ) : Option (List UInt8) := X.memRead e.uc addr len

/-- `EMU_MAX_PRELOAD` -/
def emuMaxPreload : ℕ := 24

def emuSetReg (e : Emu U) (name : String) (value : BitVec 64) : Bool × Emu U :=
  match x86UcReg name with
  | none => (false, e)
  | some r =>
    -- one preload for a register: the newest value counts
    if e.preload.any fun p => p.1 = r then
      (true, { e with preload := e.preload.map fun p => if p.1 = r then (r, value) else p })
    else if emuMaxPreload ≤ e.preload.length then (false, e)
    else (true, { e with preload := e.preload ++ [(r, value)] })

def emuClearRegs (e : Emu U) : Emu U := { e with preload := [] }

/-- `emu_watch_writes`, and `emu_watch_reads` -/
def emuWatchArm (e : Emu U) (addr size : BitVec 64) (mode : EmuWatchMode) (onWrites : Bool)
    (out : Option EmuWatch) : Emu U :=
  { e with watch := ⟨true, addr, addr + size, mode, onWrites, out.map fun _ => {}⟩ }

def emuWatchClear (e : Emu U) : Emu U :=
  { e with watch := { e.watch with armed := false, out := none } }

def emuGuardReg (e : Emu U) (name : String) (want : BitVec 64) (out : Option EmuRegGuard) :
    Bool × Emu U :=
  match x86UcReg name with
  | none => (false, e)
  | some r => (true, { e with reg := ⟨true, r, want, out.map fun _ => {}⟩ })

def emuGuardRegClear (e : Emu U) : Emu U :=
  { e with reg := { e.reg with armed := false, out := none } }

/-- The two allocations of `emu_step_capture` may fail; without the second there is no `MXCSR`. -/
def emuStepCapture (e : Emu U) (cap : ℕ) (bufOk mxcsrOk : Bool) : Bool × Emu U :=
  if cap = 0 ∨ bufOk = false then (false, e)
  else
    (true, { e with stepRing :=
      { armed := true, buf := some (List.replicate cap zeroRegs),
        mxcsr := if mxcsrOk then some (List.replicate cap 0) else none, cap := cap } })

def emuStepCaptureClear (e : Emu U) : Emu U := { e with stepRing := {} }

def emuStepCount (e : Emu U) : ℕ := e.stepRing.count

def emuStepDropped (e : Emu U) : ℕ := e.stepRing.dropped

/-- The number of the step, and the registers before it -/
def emuStepAt (e : Emu U) (i : ℕ) : Option (ℕ × X86Regs) :=
  if e.stepRing.count ≤ i then none
  else
    (e.stepRing.buf.bind fun buf => buf[(e.stepRing.head + i) % e.stepRing.cap]?).map fun regs =>
      (e.stepRing.dropped + i, regs)

def emuStepMxcsrAt (e : Emu U) (i : ℕ) : Option (BitVec 32) :=
  if e.stepRing.count ≤ i then none
  else e.stepRing.mxcsr.bind fun m => m[(e.stepRing.head + i) % e.stepRing.cap]?

/-- A call of the interface, with what the caller gives it -/
inductive EmuOp where
  | call (fn : List UInt8) (args : List (BitVec 64)) (maxInsns : ℕ) (trace : Option Trace)
  | map (addr size : ℕ)
  | write (addr : ℕ) (data : List UInt8)
  | read (addr len : ℕ)
  | setReg (name : String) (value : BitVec 64)
  | clearRegs
  | watch (addr size : BitVec 64) (mode : EmuWatchMode) (onWrites : Bool) (out : Option EmuWatch)
  | watchClear
  | guardReg (name : String) (want : BitVec 64) (out : Option EmuRegGuard)
  | guardRegClear
  | stepCapture (cap : ℕ) (bufOk mxcsrOk : Bool)
  | stepCaptureClear

/-- What a call returns; a call without a result is `done`. -/
inductive EmuOutput where
  | result (r : EmuResult) (trace : Option Trace)
  | flag (ok : Bool)
  | bytes (data : Option (List UInt8))
  | done
  deriving DecidableEq

def emuOp (e : Emu U) : EmuOp → EmuOutput × Emu U
  | .call fn args maxInsns trace =>
    let r := emuCallTraced X e fn args maxInsns trace
    (.result r.1 r.2.1, r.2.2)
  | .map addr size => (emuMap X e addr size).map .flag id
  | .write addr data => (emuWrite X e addr data).map .flag id
  | .read addr len => (.bytes (emuRead X e addr len), e)
  | .setReg name value => (emuSetReg e name value).map .flag id
  | .clearRegs => (.done, emuClearRegs e)
  | .watch addr size mode onWrites out => (.done, emuWatchArm e addr size mode onWrites out)
  | .watchClear => (.done, emuWatchClear e)
  | .guardReg name want out => (emuGuardReg e name want out).map .flag id
  | .guardRegClear => (.done, emuGuardRegClear e)
  | .stepCapture cap bufOk mxcsrOk => (emuStepCapture e cap bufOk mxcsrOk).map .flag id
  | .stepCaptureClear => (.done, emuStepCaptureClear e)

/-- The outputs in order, and the handle at the end -/
def emuOps (e : Emu U) : List EmuOp → List EmuOutput × Emu U
  | [] => ([], e)
  | op :: ops =>
    let (out, e) := emuOp X e op
    let (outs, e) := emuOps e ops
    (out :: outs, e)

end Calls

section Runs

/-- What the hooks of a run recorded is told apart: each sink saw its own hooks only, in order. -/
def stepFiles : List UcHook → List File
  | [] => []
  | .code _ file :: hooks => file :: stepFiles hooks
  | _ :: hooks => stepFiles hooks

def traceEvents : List UcHook → List Hwtrace.Event
  | [] => []
  | .code address _ :: hooks => .insn (address - emuCodeBase).toNat :: traceEvents hooks
  | .block address _ :: hooks => .block (address - emuCodeBase).toNat :: traceEvents hooks
  | _ :: hooks => traceEvents hooks

variable {s : Sinks} {hooks : List UcHook} {sr : StepRing}

lemma armed_onCodeStep (file : File) : (onCodeStep file sr).armed = sr.armed := by
  unfold onCodeStep
  split
  · rfl
  · split_ifs <;> rfl

lemma stepRing_foldl_onHook (hooks : List UcHook) (s : Sinks) :
    (hooks.foldl onHook s).stepRing =
      if s.stepRing.armed then
        (stepFiles hooks).foldl (fun sr file => onCodeStep file sr) s.stepRing
      else s.stepRing := by
  -- only an instruction reaches the ring
  induction hooks generalizing s with
  | nil => exact (ite_self _).symm
  | cons hook hooks ih =>
    rw [List.foldl_cons, ih]
    cases hook with
    | code address file =>
      simp only [onHook, stepFiles, List.foldl_cons]
      by_cases harmed : s.stepRing.armed = true
      · simp [harmed, armed_onCodeStep]
      · simp [harmed]
    | block address file => rfl
    | access write address size file => rfl
    | invalid type address => rfl

lemma trace_foldl_onHook (hooks : List UcHook) (s : Sinks) :
    (hooks.foldl onHook s).trace =
      s.trace.map fun t => Hwtrace.emitAll t (traceEvents hooks) := by
  induction hooks generalizing s with
  | nil => exact (congrFun Option.map_id s.trace).symm
  | cons hook hooks ih =>
    rw [List.foldl_cons, ih]
    cases hook with
    | code address file => exact Option.map_map ..
    | block address file => exact Option.map_map ..
    | access write address size file => rfl
    | invalid type address => rfl

/-- The ring shows the newest of the register files it was given. -/
structure StepRing.Holds (sr : StepRing) (cap : ℕ) (withMxcsr : Bool) (files : List File) :
    Prop where
  armed : sr.armed = true
  cap_pos : 0 < cap
  cap_eq : sr.cap = cap
  buf : ∃ buf, sr.buf = some buf ∧ buf.length = cap ∧ Circular.Shows buf (files.map readAllRegs)
  mxcsr : if withMxcsr then ∃ m, sr.mxcsr = some m ∧ m.length = cap ∧
      Circular.Shows m (files.map mxcsrOf)
    else sr.mxcsr = none
  head : sr.head = (files.length - cap) % cap
  count : sr.count = min cap files.length
  dropped : sr.dropped = files.length - cap

variable {cap : ℕ} {withMxcsr : Bool} {files : List File}

lemma onCodeStep_eq {buf : List X86Regs} (hbuf : sr.buf = some buf) (hcap : sr.cap ≠ 0)
    (file : File) :
    onCodeStep file sr =
      let pos := if sr.count < sr.cap then (sr.head + sr.count) % sr.cap else sr.head
      let sr' := if sr.count < sr.cap then { sr with count := sr.count + 1 }
        else { sr with head := (sr.head + 1) % sr.cap, dropped := sr.dropped + 1 }
      { sr' with buf := some (buf.set pos (readAllRegs file)),
                 mxcsr := sr.mxcsr.map fun m => m.set pos (mxcsrOf file) } := by
  rw [onCodeStep, hbuf]
  exact if_neg hcap

lemma StepRing.Holds.onCodeStep (h : sr.Holds cap withMxcsr files) (file : File) :
    (Emulator.onCodeStep file sr).Holds cap withMxcsr (files ++ [file]) := by
  obtain ⟨buf, hbuf, hlen, hshows⟩ := h.buf
  have hcap := h.cap_pos
  have hcap_eq := h.cap_eq
  have hcount := h.count
  have hhead := h.head
  have hdropped := h.dropped
  have hlength : (files ++ [file]).length = files.length + 1 := List.length_append
  -- full or not, the entry goes to the place of its number
  have hpos : (if sr.count < sr.cap then (sr.head + sr.count) % sr.cap else sr.head) =
      files.length % cap := by
    rw [hcap_eq, hhead]
    split_ifs with hroom
    · have hle : files.length ≤ cap := by omega
      rw [hcount, Nat.sub_eq_zero_of_le hle, Nat.zero_mod, Nat.zero_add, Nat.min_eq_right hle]
    · exact (Nat.mod_eq_sub_mod (by omega)).symm
  rw [onCodeStep_eq hbuf (by omega)]
  simp only [hpos]
  constructor
  · split_ifs <;> exact h.armed
  · exact hcap
  · split_ifs <;> exact hcap_eq
  · have hnext := hshows.set hlen hcap (readAllRegs file)
    rw [List.length_map, ← List.map_singleton, ← List.map_append] at hnext
    exact ⟨_, rfl, hnext⟩
  · cases withMxcsr with
    | false => exact (congrArg _ h.mxcsr : sr.mxcsr.map _ = none)
    | true =>
      obtain ⟨m, hm, hlen, hshows⟩ := h.mxcsr
      have hnext := hshows.set hlen hcap (mxcsrOf file)
      rw [List.length_map, ← List.map_singleton, ← List.map_append] at hnext
      exact ⟨_, (congrArg _ hm : sr.mxcsr.map _ = _), hnext⟩
  · rw [hlength]
    split_ifs with hroom
    · rw [Nat.sub_eq_zero_of_le (by omega)]
      rw [Nat.sub_eq_zero_of_le (by omega)] at hhead
      exact hhead
    · have hnext : (sr.head + 1) % sr.cap = (files.length + 1 - cap) % cap := by
        rw [Nat.sub_add_comm (by omega), hcap_eq, hhead, Nat.mod_add_mod]
      exact hnext
  · rw [hlength]
    split_ifs <;> dsimp only <;> omega
  · rw [hlength]
    split_ifs <;> dsimp only <;> omega

lemma StepRing.Holds.foldl_onCodeStep (h : sr.Holds cap withMxcsr files) (files' : List File) :
    (files'.foldl (fun sr file => Emulator.onCodeStep file sr) sr).Holds cap withMxcsr
      (files ++ files') := by
  induction files' generalizing sr files with
  | nil => rwa [List.append_nil]
  | cons file files' ih =>
    rw [List.append_cons]
    exact ih (h.onCodeStep file)

end Runs

section StepLog

variable {U C : Type} (X : Unicorn U C)

/-- What the ring was armed with, and what the code hooks of the last run saw since -/
structure StepLog where
  cap : ℕ
  withMxcsr : Bool
  files : List File

def stepLogOp (e : Emu U) (log : Option StepLog) : EmuOp → Option StepLog
  | .call fn args maxInsns _ =>
    match emuX86SetupSysv X e fn args with
    | (false, _) => log
    | (true, u) => log.map fun l =>
      { l with files := stepFiles (X.emuStart u emuCodeBase emuRetMagic maxInsns).1 }
  | .stepCapture cap bufOk mxcsrOk =>
    if cap = 0 ∨ bufOk = false then log else some ⟨cap, mxcsrOk, []⟩
  | .stepCaptureClear => none
  | _ => log

def stepLog (e : Emu U) (log : Option StepLog) : List EmuOp → Option StepLog
  | [] => log
  | op :: ops => stepLog (emuOp X e op).2 (stepLogOp X e log op) ops

def StepRing.Shows (sr : StepRing) : Option StepLog → Prop
  | none => sr = {}
  | some l => sr.Holds l.cap l.withMxcsr l.files

variable {X} {e : Emu U} {log : Option StepLog}

lemma StepRing.holds_new {cap : ℕ} (hcap : 0 < cap) (mxcsrOk : Bool) :
    StepRing.Holds { armed := true, buf := some (List.replicate cap zeroRegs),
                     mxcsr := if mxcsrOk then some (List.replicate cap 0) else none, cap := cap }
      cap mxcsrOk [] where
  armed := rfl
  cap_pos := hcap
  cap_eq := rfl
  buf := ⟨_, rfl, List.length_replicate, .nil⟩
  mxcsr := by
    cases mxcsrOk with
    | false => rfl
    | true => exact ⟨_, rfl, List.length_replicate, .nil⟩
  head := by rw [List.length_nil, Nat.zero_sub, Nat.zero_mod]
  count := (Nat.min_zero cap).symm
  dropped := (Nat.zero_sub cap).symm

lemma StepRing.Holds.start {cap : ℕ} {withMxcsr : Bool} {files : List File}
    (h : e.stepRing.Holds cap withMxcsr files) (trace : Option Trace) :
    (startSinks e trace).stepRing.Holds cap withMxcsr [] := by
  obtain ⟨buf, hbuf, hlen, -⟩ := h.buf
  have hstart : (startSinks e trace).stepRing =
      { e.stepRing with head := 0, count := 0, dropped := 0 } :=
    if_pos ⟨h.armed, by rw [hbuf]; rfl⟩
  rw [hstart]
  refine ⟨h.armed, h.cap_pos, h.cap_eq, ⟨buf, hbuf, hlen, .nil⟩, ?_, ?_, ?_, ?_⟩
  · have hmxcsr := h.mxcsr
    split_ifs at hmxcsr ⊢
    · obtain ⟨m, hm, hlen, -⟩ := hmxcsr
      exact ⟨m, hm, hlen, .nil⟩
    · exact hmxcsr
  · rw [List.length_nil, Nat.zero_sub, Nat.zero_mod]
  · rw [List.length_nil, Nat.min_zero]
  · rw [List.length_nil, Nat.zero_sub]

lemma StepRing.Shows.run (h : e.stepRing.Shows log) (hooks : List UcHook) (trace : Option Trace) :
    (hooks.foldl onHook (startSinks e trace)).stepRing.Shows
      (log.map fun l => { l with files := stepFiles hooks }) := by
  rw [stepRing_foldl_onHook]
  cases log with
  | none =>
    have hring : e.stepRing = {} := h
    have hstart : (startSinks e trace).stepRing = {} := by
      simp [startSinks, hring]
    rw [hstart]
    rfl
  | some l =>
    have hstart := StepRing.Holds.start h trace
    rw [if_pos hstart.armed]
    exact hstart.foldl_onCodeStep (stepFiles hooks)

/-- Only the calls that arm the ring, clear it or run the guest touch it. -/
lemma StepRing.Shows.emuOp (h : e.stepRing.Shows log) (op : EmuOp) :
    (Emulator.emuOp X e op).2.stepRing.Shows (stepLogOp X e log op) := by
  cases op with
  | call fn args maxInsns trace =>
    simp only [Emulator.emuOp, stepLogOp, emuCallTraced]
    split
    · exact h
    · exact h.run _ trace
  | setReg name value =>
    simp only [Emulator.emuOp, emuSetReg]
    split
    · exact h
    · split_ifs <;> exact h
  | stepCapture cap bufOk mxcsrOk =>
    simp only [Emulator.emuOp, stepLogOp, emuStepCapture]
    by_cases hbad : cap = 0 ∨ bufOk = false
    · rw [if_pos hbad, if_pos hbad]
      exact h
    · rw [if_neg hbad, if_neg hbad]
      exact StepRing.holds_new (Nat.pos_of_ne_zero fun hcap => hbad (.inl hcap)) mxcsrOk
  | stepCaptureClear => rfl
  | map addr size => exact h
  | write addr data => exact h
  | read addr len => exact h
  | clearRegs => exact h
  | watch addr size mode onWrites out => exact h
  | watchClear => exact h
  | guardReg name want out =>
    simp only [Emulator.emuOp, emuGuardReg]
    split <;> exact h
  | guardRegClear => exact h

lemma StepRing.Shows.emuOps (h : e.stepRing.Shows log) (ops : List EmuOp) :
    (Emulator.emuOps X e ops).2.stepRing.Shows (stepLog X e log ops) := by
  induction ops generalizing e log with
  | nil => exact h
  | cons op ops ih => exact ih (h.emuOp op)

lemma StepRing.Holds.getElem? {α : Type} {sr : StepRing} {cap : ℕ} {withMxcsr : Bool}
    {files : List File} (h : sr.Holds cap withMxcsr files) {buf : List α} (hlen : buf.length = cap)
    {f : File → α} (hshows : Circular.Shows buf (files.map f)) {i : ℕ} (hi : i < sr.count) :
    buf[(sr.head + i) % sr.cap]? = files[sr.dropped + i]?.map f := by
  have hcount := h.count
  have hcap := h.cap_pos
  rw [h.cap_eq, h.head, Nat.mod_add_mod, h.dropped, ← List.getElem?_map]
  subst hlen
  apply hshows
  · rw [List.length_map]
    omega
  · rw [List.length_map]
    omega

/-- After any history of calls on a handle that was opened, the ring holds the newest register files
of the last run and no others, with their numbers, and says how many it dropped. -/
theorem step_ring (X : Unicorn U C) (u : U) (ops : List EmuOp) :
    let e := (emuOps X { uc := u } ops).2
    match stepLog X { uc := u } none ops with
    | none => emuStepCount e = 0 ∧ emuStepDropped e = 0 ∧
        ∀ i, emuStepAt e i = none ∧ emuStepMxcsrAt e i = none
    | some l => emuStepCount e = min l.cap l.files.length ∧
        emuStepDropped e = l.files.length - l.cap ∧
        ∀ i, emuStepAt e i = (l.files[l.files.length - l.cap + i]?).map (fun file =>
            (l.files.length - l.cap + i, readAllRegs file)) ∧
          emuStepMxcsrAt e i = if l.withMxcsr then
            (l.files[l.files.length - l.cap + i]?).map mxcsrOf else none := by
  have hopen : ({ uc := u } : Emu U).stepRing.Shows none := rfl
  have h := hopen.emuOps (X := X) ops
  intro e
  cases hlog : stepLog X { uc := u } none ops with
  | none =>
    have hring : e.stepRing = {} := by rwa [hlog] at h
    simp [emuStepCount, emuStepDropped, emuStepAt, emuStepMxcsrAt, hring]
  | some l =>
    have hring : e.stepRing.Holds l.cap l.withMxcsr l.files := by rwa [hlog] at h
    refine ⟨hring.count, hring.dropped, fun i => ?_⟩
    rw [emuStepAt, emuStepMxcsrAt, ← hring.dropped]
    by_cases hi : e.stepRing.count ≤ i
    · have hcount := hring.count
      have hdropped := hring.dropped
      have hout : l.files[e.stepRing.dropped + i]? = none := by
        rw [List.getElem?_eq_none_iff]
        omega
      simp [hi, hout]
    · rw [if_neg hi, if_neg hi]
      rw [not_le] at hi
      obtain ⟨buf, hbuf, hlen, hshows⟩ := hring.buf
      rw [hbuf, Option.bind_some, hring.getElem? hlen hshows hi, Option.map_map]
      refine ⟨rfl, ?_⟩
      have hmxcsr := hring.mxcsr
      split_ifs at hmxcsr ⊢
      · obtain ⟨m, hm, hlen, hshows⟩ := hmxcsr
        rw [hm, Option.bind_some, hring.getElem? hlen hshows hi]
      · rw [hmxcsr, Option.bind_none]

end StepLog

section Reports

/-- An access that a watchpoint is there to catch: it has a byte in a region that is never to be
accessed, or a byte outside the only one that is -/
def WatchCtx.Breaks (w : WatchCtx) (write : Bool) (addr : BitVec 64) (size : ℕ) : Prop :=
  w.onWrites = write ∧ ∃ b, (addr.toNat ≤ b ∧ b < addr.toNat + size) ∧
    match w.mode with
    | .never => w.lo.toNat ≤ b ∧ b < w.hi.toNat
    | .only => ¬(w.lo.toNat ≤ b ∧ b < w.hi.toNat)

open Classical in
noncomputable def watchBreach (w : WatchCtx) : UcHook → Option EmuWatch
  | .access write addr size file =>
    if w.Breaks write addr size then
      some ⟨true, addr, size, (file .rip).setWidth 64 - emuCodeBase⟩
    else none
  | _ => none

def guardBreach (g : RegGuardCtx) : UcHook → Option EmuRegGuard
  | .block address file =>
    if (file g.ucReg).setWidth 64 ≠ g.want then
      some ⟨true, (file g.ucReg).setWidth 64, address - emuCodeBase⟩
    else none
  | _ => none

def faultOf : UcHook → Option (BitVec 64 × EmuFaultKind)
  | .invalid type address => some (address, kindOf type)
  | _ => none

/-- Where the engine accesses memory: not past the last address, which its bound would wrap to -/
def UcHook.Bounded : UcHook → Prop
  | .access _ addr size _ => 0 < size ∧ addr.toNat + size < 2 ^ 64
  | _ => True

variable {w : WatchCtx} {g : RegGuardCtx}

/-- The comparisons of bounds are about the bytes themselves. -/
lemma breaks_iff {write : Bool} {addr : BitVec 64} {size : ℕ} (hregion : w.lo < w.hi)
    (hsize : 0 < size) (hbound : addr.toNat + size < 2 ^ 64) :
    w.Breaks write addr size ↔ w.onWrites = write ∧
      ((w.mode = .never ∧ (addr < w.hi ∧ w.lo < addr + BitVec.ofNat 64 size)) ∨
        (w.mode = .only ∧ ¬(w.lo ≤ addr ∧ addr + BitVec.ofNat 64 size ≤ w.hi))) := by
  have hfin : (addr + BitVec.ofNat 64 size).toNat = addr.toNat + size := by
    rw [BitVec.toNat_add, BitVec.toNat_ofNat, Nat.add_mod_mod, Nat.mod_eq_of_lt hbound]
  rw [BitVec.lt_def] at hregion
  rw [WatchCtx.Breaks]
  apply and_congr_right'
  cases w.mode with
  | never =>
    simp only [BitVec.lt_def, hfin, reduceCtorEq, false_and, or_false, true_and]
    constructor
    · rintro ⟨b, hb, hin⟩
      omega
    · rintro ⟨hlt, hgt⟩
      exact ⟨max addr.toNat w.lo.toNat, by omega, by omega⟩
  | only =>
    simp only [BitVec.le_def, hfin, reduceCtorEq, false_and, false_or, true_and]
    constructor
    · rintro ⟨b, hb, hout⟩
      omega
    · intro hout
      by_cases hlo : w.lo.toNat ≤ addr.toNat
      · exact ⟨addr.toNat + size - 1, by omega, by omega⟩
      · exact ⟨addr.toNat, by omega, by omega⟩

lemma violated_watchBreach {hook : UcHook} {o : EmuWatch} (h : watchBreach w hook = some o) :
    o.violated = true := by
  cases hook with
  | access write addr size file =>
    rw [watchBreach] at h
    split_ifs at h
    exact Option.some.inj h ▸ rfl
  | code | block | invalid => cases h

lemma violated_guardBreach {hook : UcHook} {o : EmuRegGuard} (h : guardBreach g hook = some o) :
    o.violated = true := by
  cases hook with
  | block address file =>
    rw [guardBreach] at h
    split_ifs at h
    exact Option.some.inj h ▸ rfl
  | code | access | invalid => cases h

lemma onMemAccess_eq {write : Bool} {addr : BitVec 64} {size : ℕ} (file : File)
    (hregion : w.lo < w.hi) (hsize : 0 < size) (hbound : addr.toNat + size < 2 ^ 64)
    (hdir : w.onWrites = write) :
    onMemAccess addr size file w = { w with out := w.out.map fun o =>
      if o.violated then o else (watchBreach w (.access write addr size file)).getD o } := by
  have hiff := @breaks_iff w write addr size hregion hsize hbound
  cases hout : w.out with
  | none =>
    rw [onMemAccess, hout, Option.map_none]
    dsimp only
    rw [← hout]
  | some o =>
    rw [onMemAccess, hout, Option.map_some]
    dsimp only
    by_cases hviolated : o.violated = true
    · rw [if_pos hviolated, if_pos hviolated, ← hout]
    · rw [if_neg hviolated, if_neg hviolated, watchBreach]
      simp only [hdir, true_and] at hiff
      by_cases hbad : w.Breaks write addr size
      · rw [if_pos hbad, if_pos (hiff.mp hbad)]
        rfl
      · rw [if_neg hbad, if_neg fun hcond => hbad (hiff.mpr hcond), Option.getD_none, ← hout]

lemma watch_onHook {s : Sinks} {hook : UcHook} (harmed : s.watch.armed = true)
    (hregion : s.watch.lo < s.watch.hi) (hbounded : hook.Bounded) :
    (onHook s hook).watch = { s.watch with out := s.watch.out.map fun o =>
      if o.violated then o else (watchBreach s.watch hook).getD o } := by
  have hnone : watchBreach s.watch hook = none →
      s.watch = { s.watch with out := s.watch.out.map fun o =>
        if o.violated then o else (watchBreach s.watch hook).getD o } := by
    intro hno
    simp [hno]
  cases hook with
  | code address file => exact hnone rfl
  | block address file => exact hnone rfl
  | invalid type address => exact hnone rfl
  | access write addr size file =>
    by_cases hdir : s.watch.onWrites = write
    · have hon : (onHook s (.access write addr size file)).watch =
          onMemAccess addr size file s.watch := if_pos ⟨harmed, hdir⟩
      rw [hon, onMemAccess_eq file hregion hbounded.1 hbounded.2 hdir]
    · have hoff : (onHook s (.access write addr size file)).watch = s.watch :=
        if_neg fun hon => hdir hon.2
      rw [hoff]
      apply hnone
      rw [watchBreach, if_neg fun hbreaks => hdir hbreaks.1]

/-- The watchpoint holds what it held or the first breach of the run. -/
lemma watch_foldl_onHook (hooks : List UcHook) {s : Sinks} (harmed : s.watch.armed = true)
    (hregion : s.watch.lo < s.watch.hi) (hbounded : ∀ hook ∈ hooks, hook.Bounded) :
    (hooks.foldl onHook s).watch = { s.watch with out := s.watch.out.map fun o =>
      if o.violated then o else (hooks.findSome? (watchBreach s.watch)).getD o } := by
  -- once a breach is kept the hooks to come change nothing
  induction hooks generalizing s with
  | nil => simp
  | cons hook hooks ih =>
    rw [List.forall_mem_cons] at hbounded
    have hstep := watch_onHook harmed hregion hbounded.1
    have hsame : watchBreach (onHook s hook).watch = watchBreach s.watch := by
      rw [hstep]
      rfl
    rw [List.foldl_cons, ih (by rw [hstep]; exact harmed) (by rw [hstep]; exact hregion)
      hbounded.2, hsame, hstep, List.findSome?_cons]
    simp only [Option.map_map]
    congr 2
    funext o
    rw [Function.comp_apply]
    by_cases hviolated : o.violated = true
    · simp [hviolated]
    · cases hbreach : watchBreach s.watch hook with
      | none => simp [hviolated]
      | some o' => simp [hviolated, violated_watchBreach hbreach]

lemma reg_onHook {s : Sinks} (harmed : s.reg.armed = true) (hook : UcHook) :
    (onHook s hook).reg = { s.reg with out := s.reg.out.map fun o =>
      if o.violated then o else (guardBreach s.reg hook).getD o } := by
  have hnone : guardBreach s.reg hook = none →
      s.reg = { s.reg with out := s.reg.out.map fun o =>
        if o.violated then o else (guardBreach s.reg hook).getD o } := by
    intro hno
    simp [hno]
  cases hook with
  | code address file => exact hnone rfl
  | access write addr size file => exact hnone rfl
  | invalid type address => exact hnone rfl
  | block address file =>
    have hon : (onHook s (.block address file)).reg = onBlockGuard address file s.reg :=
      if_pos harmed
    rw [hon]
    cases hout : s.reg.out with
    | none =>
      rw [onBlockGuard, hout, Option.map_none]
      dsimp only
      rw [← hout]
    | some o =>
      rw [onBlockGuard, hout, Option.map_some]
      dsimp only
      by_cases hviolated : o.violated = true
      · rw [if_pos hviolated, if_pos hviolated, ← hout]
      · rw [if_neg hviolated, if_neg hviolated, guardBreach]
        split_ifs
        · rfl
        · rw [Option.getD_none, ← hout]

lemma reg_foldl_onHook (hooks : List UcHook) {s : Sinks} (harmed : s.reg.armed = true) :
    (hooks.foldl onHook s).reg = { s.reg with out := s.reg.out.map fun o =>
      if o.violated then o else (hooks.findSome? (guardBreach s.reg)).getD o } := by
  induction hooks generalizing s with
  | nil => simp
  | cons hook hooks ih =>
    have hstep := reg_onHook harmed hook
    have hsame : guardBreach (onHook s hook).reg = guardBreach s.reg := by
      rw [hstep]
      rfl
    rw [List.foldl_cons, ih (by rw [hstep]; exact harmed), hsame, hstep, List.findSome?_cons]
    simp only [Option.map_map]
    congr 2
    funext o
    rw [Function.comp_apply]
    by_cases hviolated : o.violated = true
    · simp [hviolated]
    · cases hbreach : guardBreach s.reg hook with
      | none => simp [hviolated]
      | some o' => simp [hviolated, violated_guardBreach hbreach]

def FaultRec.shown (fr : FaultRec) : Option (BitVec 64 × EmuFaultKind) :=
  if fr.faulted then some (fr.addr, fr.kind) else none

lemma fr_foldl_onHook (hooks : List UcHook) (s : Sinks) :
    (hooks.foldl onHook s).fr.shown = s.fr.shown.or (hooks.findSome? faultOf) := by
  induction hooks generalizing s with
  | nil => exact Option.or_none.symm
  | cons hook hooks ih =>
    rw [List.foldl_cons, ih, List.findSome?_cons]
    cases hook with
    | invalid type address =>
      by_cases hfaulted : s.fr.faulted = true
      · simp [onHook, onInvalidMem, faultOf, FaultRec.shown, hfaulted]
      · simp [onHook, onInvalidMem, faultOf, FaultRec.shown, hfaulted]
    | code | block | access => rfl

variable {U C : Type} (X : Unicorn U C)

/-- What a run reports is told by its hooks alone, each report by the first hook of its kind: the
fault by the first invalid access, the watchpoint by the first access of its direction that has a
byte where it must not, the guard by the first block at which its register does not hold what is
wanted; none keeps the others from theirs, and the trace has all of them. -/
theorem run_reports (e : Emu U) (u : U) (maxInsns : ℕ) (trace : Option Trace)
    (hregion : e.watch.armed = true → e.watch.lo < e.watch.hi)
    (hbounded : ∀ hook ∈ (X.emuStart u emuCodeBase emuRetMagic maxInsns).1, hook.Bounded) :
    let start := X.emuStart u emuCodeBase emuRetMagic maxInsns
    let hooks := start.1
    let r := emuX86Run X e u maxInsns trace
    (if r.1.faulted then some (r.1.faultAddr, r.1.faultKind) else none) =
        hooks.findSome? faultOf ∧
      (r.1.ok = true ↔ start.2.2 = 0 ∧ hooks.findSome? faultOf = none) ∧
      r.2.1 = trace.map (fun t => Hwtrace.emitAll t (traceEvents hooks)) ∧
      (e.watch.armed = true → r.2.2.watch.out = e.watch.out.map fun o =>
        (hooks.findSome? (watchBreach e.watch)).getD { o with violated := false }) ∧
      (e.reg.armed = true → r.2.2.reg.out = e.reg.out.map fun o =>
        (hooks.findSome? (guardBreach e.reg)).getD { o with violated := false }) := by
  intro start hooks r
  have hfault : (hooks.foldl onHook (startSinks e trace)).fr.shown = hooks.findSome? faultOf :=
    fr_foldl_onHook hooks _
  refine ⟨hfault, ?_, trace_foldl_onHook hooks _, fun harmed => ?_, fun harmed => ?_⟩
  · rw [← hfault, FaultRec.shown]
    simp [r, emuX86Run, start, hooks]
  · have hstart : (startSinks e trace).watch =
        { e.watch with out := e.watch.out.map fun o => { o with violated := false } } :=
      if_pos harmed
    have hfold := watch_foldl_onHook hooks (s := startSinks e trace) (by rw [hstart]; exact harmed)
      (by rw [hstart]; exact hregion harmed) hbounded
    have hsame : watchBreach (startSinks e trace).watch = watchBreach e.watch := by
      rw [hstart]
      rfl
    rw [hsame, hstart] at hfold
    have hout := congrArg WatchCtx.out hfold
    simp only [Option.map_map] at hout
    exact hout
  · have hstart : (startSinks e trace).reg =
        { e.reg with out := e.reg.out.map fun o => { o with violated := false } } :=
      if_pos harmed
    have hfold := reg_foldl_onHook hooks (s := startSinks e trace) (by rw [hstart]; exact harmed)
    have hsame : guardBreach (startSinks e trace).reg = guardBreach e.reg := by
      rw [hstart]
      rfl
    rw [hsame, hstart] at hfold
    have hout := congrArg RegGuardCtx.out hfold
    simp only [Option.map_map] at hout
    exact hout

/-- An engine that calls these hooks and ends with this error -/
def scripted (hooks : List UcHook) (err : ℤ) : Unicorn Unit Unit where
  memRegions _ := []
  memMap _ _ _ _ := (true, ())
  memUnmap _ _ _ := (true, ())
  memRead _ _ _ := none
  memWrite _ _ _ := (true, ())
  regRead _ := 0
  regWrite _ _ _ := ()
  flushTb _ := ()
  contextSave _ := none
  contextRestore _ _ := (true, ())
  emuStart _ _ _ _ := (hooks, (), err)

def fileAt (rip : BitVec 64) : File := fun r => if r = .rip then rip.setWidth 128 else 0

/-- Two stores: one that ends in the region, and one to no memory, `UC_ERR_WRITE_UNMAPPED` -/
def strayHooks : List UcHook :=
  [.block emuCodeBase (fileAt emuCodeBase), .code emuCodeBase (fileAt emuCodeBase),
    .access true 0x300ffc 8 (fileAt emuCodeBase),
    .code (emuCodeBase + 3) (fileAt (emuCodeBase + 3)),
    .access true 0x9000 8 (fileAt (emuCodeBase + 3)), .invalid .writeUnmapped 0x9000]

def guarded : Emu Unit where
  uc := ()
  watch := ⟨true, 0x301000, 0x302000, .never, true, some {}⟩

theorem run_reports_stray :
    let r := emuX86Run (scripted strayHooks 7) guarded () 0 none
    (if r.1.faulted then some (r.1.faultAddr, r.1.faultKind) else none) =
        some (0x9000, .write) ∧ ¬r.1.ok = true ∧
      r.2.2.watch.out = some ⟨true, 0x300ffc, 8, 0⟩ := by
  have hbounded : ∀ hook ∈ strayHooks, hook.Bounded := by
    simp [strayHooks, UcHook.Bounded]
  have hbreach : strayHooks.findSome? (watchBreach guarded.watch) =
      some ⟨true, 0x300ffc, 8, 0⟩ := by
    have hbreaks : guarded.watch.Breaks true 0x300ffc 8 :=
      ⟨rfl, 0x301000, by decide, (by decide : 0x301000 ≤ 0x301000 ∧ 0x301000 < 0x302000)⟩
    have hfirst : watchBreach guarded.watch (.access true 0x300ffc 8 (fileAt emuCodeBase)) =
        some ⟨true, 0x300ffc, 8, 0⟩ := if_pos hbreaks
    simp only [strayHooks, List.findSome?_cons, hfirst]
    rfl
  obtain ⟨hfault, hok, -, hwatch, -⟩ :=
    run_reports (scripted strayHooks 7) guarded () 0 none (fun _ => by decide) hbounded
  refine ⟨hfault, fun htrue => absurd (hok.mp htrue).1 (by decide), (hwatch rfl).trans ?_⟩
  exact congrArg (fun b => some (b.getD { violated := false })) hbreach

end Reports

end AsmTest.Emulator
