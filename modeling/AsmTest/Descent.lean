import Mathlib.Tactic
import Mathlib.Logic.Relation
import AsmTest.Disas
import AsmTest.Trace

/-!
# Call descent

The single-step loop with a shadow stack of return addresses: a call that leaves the frame is
followed as a frame of its own or recorded as an edge and run over, and a return is recognised
from the program counter and the stack pointer alone. Addresses are natural numbers.
-/

namespace AsmTest.Descent

open Hwtrace (Probe Trace traceAppendInsn traceAppendBlock)

/-- `asmtest_descent_level_t` -/
inductive Level where
  | off
  | recordEdges
  | descendKnown
  | descendAll
deriving DecidableEq, Repr

/-- `asmtest_descent_region_t` -/
structure Extent where
  base : ℕ
  len : ℕ
deriving DecidableEq, Repr

def Extent.Contains (e : Extent) (addr : ℕ) : Prop :=
  e.base ≤ addr ∧ addr < e.base + e.len

instance (e : Extent) (addr : ℕ) : Decidable (e.Contains addr) :=
  inferInstanceAs (Decidable (_ ∧ _))

/-- The handle's configuration, the traced routine and what is asked of the outside. The caller's
callbacks and the list of executable mappings may answer differently at each step. -/
structure Config where
  level : Level
  maxDepth : ℕ
  insnBudget : ℕ
  allow : List Extent
  deny : List Extent
  resolver : Option (ℕ → ℕ → Option Extent)
  denylist : Option (ℕ → ℕ → Bool)
  /-- The ranges `descend_maps_cache_lookup` searches at a step. -/
  maps : ℕ → List Extent
  /-- `descend_probe` of an address in a frame that ends at the second argument. -/
  probe : ℕ → ℕ → Probe
  root : Extent
  forwardFaults : Bool
  /-- How many frames the pool can grow to. -/
  framesMax : ℕ

def descendMaxStack : ℕ := 256

def descendRecursionCap : ℕ := 64

def descendHardStepCap : ℕ := 2 ^ 22

def regionContains (arr : List Extent) (addr : ℕ) : Option Extent :=
  arr.find? fun e => decide (e.Contains addr)

/-- The extent to descend into at the `n`-th step, and whether the depth cap was marked. -/
def descendDecide (cfg : Config) (n depth callee : ℕ) : Option Extent × Bool :=
  match cfg.level with
  | .off => (none, false)
  | .recordEdges => (none, false)
  | .descendKnown =>
    if cfg.maxDepth < depth + 1 then (none, true)
    else
      match regionContains cfg.allow callee with
      | some e => (some e, false)
      | none =>
        match cfg.resolver.bind fun f => f n callee with
        | some e => (if 0 < e.len ∧ e.Contains callee then some e else none, false)
        | none => (none, false)
  | .descendAll =>
    if cfg.maxDepth < depth + 1 then (none, true)
    else if (regionContains cfg.deny callee).isSome then (none, false)
    else if cfg.denylist.any fun f => f n callee then (none, false)
    else (regionContains (cfg.maps n) callee, false)

lemma regionContains_contains {arr : List Extent} {addr : ℕ} {e : Extent}
    (h : regionContains arr addr = some e) : e.Contains addr := by
  have hp := List.find?_some h
  simpa using hp

/-- What the policy descends into holds the callee, whoever named the extent. -/
lemma descendDecide_contains {cfg : Config} {n depth callee : ℕ} {e : Extent} {capped : Bool}
    (h : descendDecide cfg n depth callee = (some e, capped)) : e.Contains callee := by
  unfold descendDecide at h
  split at h
  · cases h
  · cases h
  · split_ifs at h
    · cases h
    · split at h
      · rename_i e' hallow
        cases h
        exact regionContains_contains hallow
      · split at h
        · split_ifs at h with hc
          · cases h
            exact hc.2
          · cases h
        · cases h
  · split_ifs at h
    · cases h
    · cases h
    · cases h
    · exact regionContains_contains (congrArg Prod.fst h)

/-! ### The handle -/

/-- `asmtest_blockseq_t` -/
structure BlockSeq where
  havePrev : Bool
  expectedNext : ℕ
deriving DecidableEq, Repr

def blockseqBoundary (s : BlockSeq) (off len : ℕ) : Bool × BlockSeq :=
  (!s.havePrev || off != s.expectedNext,
    if len = 0 then { s with havePrev := false } else ⟨true, off + len⟩)

/-- `asmtest_descent_frame_t`; the root has no parent. -/
structure Frame where
  base : ℕ
  len : ℕ
  depth : ℕ
  parent : Option ℕ
  insns : List ℕ
  blocks : List ℕ
  seq : BlockSeq
deriving DecidableEq, Repr

/-- `asmtest_descent_edge_t` -/
structure Edge where
  site : ℕ
  target : ℕ
  depth : ℕ
  fromFrame : ℕ
deriving DecidableEq, Repr

/-- What a descent fills in `asmtest_descent_t`. -/
structure Handle where
  frames : List Frame
  edges : List Edge
  truncated : Bool
  depthCapped : Bool
deriving DecidableEq, Repr

def Handle.new : Handle := ⟨[], [], false, false⟩

def markTruncated (d : Handle) : Handle := { d with truncated := true }

def markDepthCapped (d : Handle) : Handle := { d with depthCapped := true }

def pushFrame (cfg : Config) (d : Handle) (e : Extent) (depth : ℕ) (parent : Option ℕ) :
    Option ℕ × Handle :=
  if d.frames.length < cfg.framesMax then
    (some d.frames.length,
      { d with frames := d.frames ++ [⟨e.base, e.len, depth, parent, [], [], ⟨false, 0⟩⟩] })
  else (none, markTruncated d)

def frameRecord (d : Handle) (fi off insnLen : ℕ) : Bool × Handle :=
  match d.frames[fi]? with
  | none => (false, d)
  | some f =>
    let (newBlock, seq) := blockseqBoundary f.seq off insnLen
    let blocks := if newBlock ∧ off ∉ f.blocks then f.blocks ++ [off] else f.blocks
    let f := { f with insns := f.insns ++ [off], blocks := blocks, seq := seq }
    (newBlock,
      { d with frames := d.frames.set fi f, truncated := d.truncated || insnLen == 0 })

def addEdge (d : Handle) (e : Edge) : Handle := { d with edges := d.edges ++ [e] }

/-! ### The shadow stack -/

/-- The part of `dframe_t` that is fixed when the frame is opened. -/
structure Slot where
  idx : ℕ
  base : ℕ
  len : ℕ
  retAddr : ℕ
  spRet : ℕ
  depth : ℕ
deriving DecidableEq, Repr

def Slot.extent (f : Slot) : Extent := ⟨f.base, f.len⟩

/-- The part of `dframe_t` that follows the last recorded instruction. -/
structure Pending where
  lastWasCall : Bool
  lastWasRet : Bool
  callSite : ℕ
  callLen : ℕ
  callSp : ℕ
deriving DecidableEq, Repr

structure DFrame extends Slot, Pending
deriving DecidableEq, Repr

/-- A zeroed frame with its fixed part set. -/
def DFrame.open (f : Slot) : DFrame := { f with
  lastWasCall := false, lastWasRet := false, callSite := 0, callLen := 0, callSp := 0 }

/-- `read_pc_ret`: the program counter, the stack pointer and the result register. -/
structure State where
  pc : ℕ
  sp : ℕ
  ret : ℕ
deriving DecidableEq, Repr

/-- How a `waitpid` of the loop ends; when the list of stops is used up the tracee has exited. -/
inductive Stop where
  | trap (s : State)
  | signal (fault : Bool)
  /-- A `SIGTRAP` of the tracee's own. -/
  | appTrap
deriving DecidableEq, Repr

/-- The locals of `descend_core`; `top :: below` is the live part of `stack`. -/
structure Mach where
  top : DFrame
  below : List DFrame
  handle : Handle
  flat : Option Trace
  steps : ℕ
  entered : Bool
deriving DecidableEq, Repr

/-- `descend_record` on the top frame. -/
def descendRecord (cfg : Config) (m : Mach) (pc sp : ℕ) : Mach :=
  let off := pc - m.top.base
  let p := cfg.probe pc (m.top.base + m.top.len)
  let (newBlock, handle) := frameRecord m.handle m.top.idx off p.len
  let mirror (t : Trace) : Trace :=
    let t := if newBlock then traceAppendBlock t off else t
    let t := traceAppendInsn t off
    if p.len = 0 then t.markTruncated else t
  let top := { m.top with lastWasRet := p.isRet && p.len != 0 }
  { m with
    handle := handle
    flat := if m.top.depth = 0 then m.flat.map mirror else m.flat
    top :=
      if p.isCall ∧ p.len ≠ 0 then
        { top with lastWasCall := true, callSite := off, callLen := p.len, callSp := sp }
      else { top with lastWasCall := false } }

/-- Phase (A): pop every frame that returned or was unwound; the root frame stays. -/
def popFrames (s : State) : DFrame → List DFrame → DFrame × List DFrame
  | f, [] => (f, [])
  | f, g :: gs =>
    if f.spRet < s.sp then popFrames s g gs
    else if s.sp = f.spRet ∧ s.pc = f.retAddr ∧ f.lastWasRet = true then popFrames s g gs
    else (f, g :: gs)

/-- Open a frame of the top frame's pending call. -/
def Mach.push (m : Mach) (handle : Handle) (idx : ℕ) (e : Extent) (retAddr : ℕ) : Mach :=
  { m with
    handle := handle
    top := DFrame.open ⟨idx, e.base, e.len, retAddr, m.top.callSp, m.top.depth + 1⟩
    below := { m.top with lastWasCall := false } :: m.below }

/-- `run_until`: first arrival at `target`; signals and foreign traps are passed on. -/
def runUntil (target : ℕ) : List Stop → Option (State × List Stop)
  | [] => none
  | .trap s :: rest => if s.pc = target then some (s, rest) else runUntil target rest
  | _ :: rest => runUntil target rest

inductive Rc where
  | ok
  | etrace
deriving DecidableEq, Repr

structure Result where
  handle : Handle
  flat : Option Trace
  result : Option ℕ
  rc : Rc
deriving DecidableEq, Repr

inductive Outcome where
  | cont (m : Mach) (rest : List Stop)
  | done (r : Result)
deriving DecidableEq, Repr

/-- Truncate the handle and the flat trace and give up. -/
def Mach.abandon (m : Mach) : Outcome :=
  .done ⟨markTruncated m.handle, m.flat.map Trace.markTruncated, none, .etrace⟩

/-- The address after the pending call. -/
def Mach.fallthru (m : Mach) : ℕ := m.top.base + m.top.callSite + m.top.callLen

/-- Phase (B): a landing inside the top frame, where a pending call opens a frame. -/
def landInside (cfg : Config) (m : Mach) (s : State) : Mach :=
  let m :=
    if m.top.lastWasCall = true ∧ s.pc ≠ m.fallthru then
      let same := ((m.top :: m.below).filter fun f => f.base = m.top.base).length
      if m.below.length + 1 < descendMaxStack ∧ same < descendRecursionCap ∧
          m.top.depth + 1 ≤ cfg.maxDepth then
        match pushFrame cfg m.handle m.top.extent (m.top.depth + 1) (some m.top.idx) with
        | (some ni, h) => m.push h ni m.top.extent m.fallthru
        | (none, h) => { m with handle := markTruncated h }
      else { m with handle := markDepthCapped m.handle }
    else m
  descendRecord cfg m s.pc s.sp

/-- The second half of phase (C): record the edge and run the callee over. -/
def stepOver (cfg : Config) (m : Mach) (s : State) (rest : List Stop) : Outcome :=
  let m := if cfg.level = .off then m
    else { m with handle := addEdge m.handle ⟨m.top.callSite, s.pc, m.top.depth, m.top.idx⟩ }
  match runUntil m.fallthru rest with
  | none => m.abandon
  | some (r, rest) => .cont (descendRecord cfg m m.fallthru r.sp) rest

/-- Phase (C): a pending call that left the top frame and returns into it. -/
def callOut (cfg : Config) (m : Mach) (s : State) (rest : List Stop) : Outcome :=
  let (would, capped) := descendDecide cfg m.steps m.top.depth s.pc
  let budgetOk := decide (m.steps < cfg.insnBudget)
  let m := if capped || (!budgetOk && would.isSome) then
    { m with handle := markDepthCapped m.handle } else m
  match would with
  | none => stepOver cfg m s rest
  | some e =>
    if budgetOk = true ∧ 0 < e.len ∧ m.below.length + 1 < descendMaxStack then
      match pushFrame cfg m.handle e (m.top.depth + 1) (some m.top.idx) with
      | (some ni, h) => .cont (descendRecord cfg (m.push h ni e m.fallthru) s.pc s.sp) rest
      | (none, h) => stepOver cfg { m with handle := markTruncated h } s rest
    else stepOver cfg m s rest

/-- Phase (D): the root returned, or a frame was left without a return. -/
def leave (cfg : Config) (m : Mach) (s : State) (rest : List Stop) : Outcome :=
  if m.top.depth = 0 then .done ⟨m.handle, m.flat, some s.ret, .ok⟩
  else
    match m.below with
    | [] => .done ⟨m.handle, m.flat, none, .ok⟩
    | f :: fs =>
      let m := { m with top := f, below := fs }
      .cont (if f.extent.Contains s.pc then descendRecord cfg m s.pc s.sp else m) rest

/-- Phases (A) to (D) at a stop. -/
def descendLand (cfg : Config) (m : Mach) (s : State) (rest : List Stop) : Outcome :=
  let (top, below) := popFrames s m.top m.below
  let m := { m with top := top, below := below }
  if m.top.extent.Contains s.pc then .cont (landInside cfg m s) rest
  else if m.top.lastWasCall = true ∧ m.top.callSite + m.top.callLen < m.top.len then
    callOut cfg m s rest
  else leave cfg m s rest

/-- One iteration of the loop. -/
def descendStep (cfg : Config) (m : Mach) (stops : List Stop) : Outcome :=
  let m := { m with steps := m.steps + 1 }
  if descendHardStepCap < m.steps then m.abandon
  else
    match stops with
    | [] => .done ⟨m.handle, m.flat, none, .ok⟩
    | .signal fault :: rest =>
      if !cfg.forwardFaults && fault then m.abandon else .cont m rest
    | .appTrap :: _ => m.abandon
    | .trap s :: rest =>
      if m.entered = false ∧ ¬cfg.root.Contains s.pc then .cont m rest
      else descendLand cfg { m with entered := true } s rest

/-- The loop; each round uses up a stop, so one more round than stops is enough. -/
def descendLoop (cfg : Config) : ℕ → Mach → List Stop → Result
  | 0, m, _ => ⟨m.handle, m.flat, none, .etrace⟩
  | fuel + 1, m, stops =>
    match descendStep cfg m stops with
    | .done r => r
    | .cont m rest => descendLoop cfg fuel m rest

/-- `descend_core`, the tracee stopped at `init`. -/
def descendCore (cfg : Config) (d : Handle) (flat : Option Trace) (init : State)
    (stops : List Stop) : Result :=
  match pushFrame cfg d cfg.root 0 none with
  | (none, d) => ⟨d, flat, none, .etrace⟩
  | (some f0, d) =>
    let m : Mach := ⟨DFrame.open ⟨f0, cfg.root.base, cfg.root.len, 0, 0, 0⟩, [], d, flat, 0, false⟩
    let m := if cfg.root.Contains init.pc then
      { descendRecord cfg m init.pc init.sp with entered := true } else m
    descendLoop cfg (stops.length + 1) m stops

end AsmTest.Descent
