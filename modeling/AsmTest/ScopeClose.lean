import AsmTest.SsFrames

/-!
# Scopes and their handles

`begin_window`, `begin_scope` and `end_window` over the frames of the threads and the one hardware
window of the process. A book keeps which scopes are open, by the handle each was opened with, and
`end_window` is compared with closing a scope in the book.
-/

namespace AsmTest.Ss

open Hwtrace (Trace Code)

inductive Backend
  | singlestep
  | intelPt
  | other
deriving DecidableEq, Repr

/-- `asmtest_hwtrace_scope_t` -/
structure Handle where
  idx : ℕ
  gen : ℕ
  armTid : ℤ
deriving DecidableEq, Repr

/-- The reserved index of a hardware window -/
def ptSentinel : ℕ := 0xfffffffe

/-- What a failed begin leaves behind -/
def Handle.invalid : Handle := ⟨0xffffffff, 0, -1⟩

/-- `hw_region_t` -/
structure Region where
  name : String
  base : ℕ
  len : ℕ
  trace : Option ℕ
  armTid : ℤ := 0
deriving DecidableEq, Repr

structure Hw where
  proc : Proc
  inited : Bool
  backend : Backend
  regions : List Region
  /-- `g_pt_window`, null when there is none -/
  ptWindow : Option ℕ
  ptGen : ℕ
  ptTid : ℤ
  /-- `g_active` of each thread -/
  active : ℤ → Option String
  /-- `g_arm_tid` of each thread -/
  armTid : ℤ → ℤ

/-- `asmtest_hwtrace_window_guards_t`, as far as it is copied -/
structure WindowGuards where
  structSize : ℕ
  insnBudget : ℕ := 0
  watchdogMs : ℕ := 0
  useDefaultDenylist : Bool := false
  deny : List Deny := []
deriving DecidableEq, Repr

/-- What the world outside the library answers during a begin -/
structure Env where
  os : Os
  denyDefault : List Deny := []
  /-- the safe-managed policy is on and a managed runtime is loaded -/
  managed : Bool := false
  /-- the context of a hardware window, if it can be armed -/
  ptCtx : Option ℕ := none
  /-- the hardware region capture can be opened -/
  auxOpen : Bool := false
deriving DecidableEq, Repr

section Calls

/-- On success the handle is given, whether or not the caller takes it; `none` where there is no
handle to give. -/
def beginWindow (env : Env) (tid : ℤ) (trace : Option ℕ) (g : Option WindowGuards) (out : Bool)
    (s : Hw) : Hw × Except Err (Option Handle) :=
  let gc := g.getD ⟨1, 0, 0, false, []⟩
  if trace = none then (s, .error .einval)
  else if gc.structSize = 0 ∨ ssMaxDeny < gc.deny.length then (s, .error .einval)
  else if s.inited = false then (s, .error .estate)
  else match s.backend with
    | .singlestep =>
      if env.managed then (s, .error .emanaged)
      else
        match ssPushFrame env.denyDefault env.os
          { trace, wholeWindow := true, insnBudget := gc.insnBudget, watchdogMs := gc.watchdogMs
            useDefaultDenylist := gc.useDefaultDenylist, deny := gc.deny } tid s.proc with
        | (p, .error e) =>
          ({ s with proc := p, armTid := Function.update s.armTid tid (-1) }, .error e)
        | (p, .ok (idx, gen)) =>
          ({ s with proc := p, armTid := Function.update s.armTid tid tid },
            .ok (some ⟨idx, gen, tid⟩))
    | .intelPt =>
      if s.ptWindow.isSome then (s, .error .estate)
      else match env.ptCtx with
        | none => (s, .error .eunavail)
        | some ctx =>
          -- the generation moves on only when there is a handle to put it in
          let gen := if out then (s.ptGen + 1) % 2 ^ 32 else s.ptGen
          ({ s with
            ptWindow := some ctx
            ptTid := tid
            ptGen := gen
            armTid := Function.update s.armTid tid tid },
            .ok (if out then some ⟨ptSentinel, gen, tid⟩ else none))
    | .other => (s, .error .eunavail)

/-- The name-keyed begin of the hardware backends, which gives no handle -/
def tryBegin (env : Env) (tid : ℤ) (name : String) (s : Hw) : Hw × Except Err (Option Handle) :=
  if (s.active tid).isSome then (s, .error .estate)
  else match s.regions.find? fun r => r.name = name with
    | none => (s, .error .einval)
    | some _ =>
      if env.auxOpen then
        ({ s with
          active := Function.update s.active tid (some name)
          armTid := Function.update s.armTid tid tid }, .ok none)
      else ({ s with armTid := Function.update s.armTid tid (-1) }, .error .eunavail)

def beginScope (env : Env) (tid : ℤ) (name : String) (s : Hw) : Hw × Except Err (Option Handle) :=
  if s.inited = false then (s, .error .estate)
  else match s.backend with
    | .singlestep =>
      match s.regions.find? fun r => r.name = name with
      | none => (s, .error .einval)
      | some r =>
        let s := { s with
          regions := s.regions.map fun r : Region =>
            if r.name = name then { r with armTid := tid } else r
          armTid := Function.update s.armTid tid tid }
        match ssPushFrame env.denyDefault env.os
          { base := r.base, len := r.len, trace := r.trace, wholeWindow := false
            insnBudget := 2 ^ 64 - 1, watchdogMs := 2 ^ 32 - 1 } tid s.proc with
        | (p, .error e) => ({ s with proc := p }, .error e)
        | (p, .ok (idx, gen)) => ({ s with proc := p }, .ok (some ⟨idx, gen, tid⟩))
    | _ => tryBegin env tid name s

/-- `if (trace != NULL) trace->truncated = true;` -/
def flagTrace (trace : Option ℕ) (p : Proc) : Proc :=
  match trace with
  | none => p
  | some id => { p with traces := Function.update p.traces id (p.traces id).markTruncated }

/-- `drain` is what the close of a hardware window writes into a trace. -/
def endWindow (code : ℕ → ℕ → Code) (drain : ℕ → Trace → Trace) (tid : ℤ) (h : Handle)
    (trace : Option ℕ) (s : Hw) : Hw :=
  if h.idx = ptSentinel then
    match s.ptWindow with
    | none => { s with proc := flagTrace trace s.proc }
    | some ctx =>
      if h.gen = s.ptGen ∧ h.armTid = s.ptTid then
        let p := match trace with
          | none => s.proc
          | some id => { s.proc with
            traces := Function.update s.proc.traces id (drain ctx (s.proc.traces id)) }
        { s with
          ptWindow := none
          ptTid := 0
          armTid := Function.update s.armTid tid (-1)
          proc := if tid ≠ s.ptTid then flagTrace trace p else p }
      else { s with proc := flagTrace trace s.proc }
  else
    match ssFrameLookup (s.proc.tls tid) h.idx h.gen h.armTid with
    -- the frame that is closed is the top one of the calling thread
    | some _ =>
      { s with proc := ssEnd code tid s.proc, armTid := Function.update s.armTid tid (-1) }
    | none => { s with proc := flagTrace trace s.proc }

end Calls

section Book

/-- The open scopes: the frames of each thread, the top one last, and the hardware window, which may
have been opened without a handle. -/
structure Book where
  stack : ℤ → List Handle
  hw : Option (Option Handle)
  /-- every handle given so far -/
  past : List Handle

def Book.empty : Book := ⟨fun _ => [], none, []⟩

/-- A frame is opened. -/
def Book.push (b : Book) (tid : ℤ) (h : Handle) : Book :=
  { b with stack := Function.update b.stack tid (b.stack tid ++ [h]), past := h :: b.past }

/-- The hardware window is opened. -/
def Book.openHw (b : Book) (h : Option Handle) : Book :=
  { b with hw := some h, past := h.toList ++ b.past }

/-- The scope of a handle is closed if it is the top one of the thread, or the hardware window. -/
def Book.close (b : Book) (tid : ℤ) (h : Handle) : Book :=
  if (b.stack tid).getLast? = some h then
    { b with stack := Function.update b.stack tid (b.stack tid).dropLast }
  else if b.hw = some (some h) then { b with hw := none }
  else b

end Book

section Runs

inductive Call
  | beginWindow (env : Env) (tid : ℤ) (trace : Option ℕ) (g : Option WindowGuards) (out : Bool)
  | beginScope (env : Env) (tid : ℤ) (name : String)
  | endWindow (tid : ℤ) (h : Handle) (trace : Option ℕ)
  /-- The thread is stepped. -/
  | trap (tid : ℤ) (rip : ℕ)

variable (code : ℕ → ℕ → Code) (drain : ℕ → Trace → Trace)

def step (s : Hw) : Call → Hw
  | .beginWindow env tid trace g out => (beginWindow env tid trace g out s).1
  | .beginScope env tid name => (beginScope env tid name s).1
  | .endWindow tid h trace => endWindow code drain tid h trace s
  | .trap tid rip =>
    let r := ssOnSigtrap s.proc.armed s.proc.alarmFired s.proc.deny rip (s.proc.tls tid)
    { s with proc := { s.proc with tls := Function.update s.proc.tls tid r.1 } }

/-- What the book says after the call -/
def bookStep (s : Hw) (b : Book) : Call → Book
  | .beginWindow env tid trace g out =>
    match (beginWindow env tid trace g out s).2 with
    | .error _ => b
    | .ok h =>
      if s.backend = .singlestep then h.elim b (b.push tid) else b.openHw h
  | .beginScope env tid name =>
    match (beginScope env tid name s).2 with
    | .error _ => b
    | .ok h => h.elim b (b.push tid)
  | .endWindow tid h _ => b.close tid h
  | .trap _ _ => b

/-- The condition on an `end_window`: a handle that its slot still carries names the top frame of
the calling thread, and a handle that matches the hardware window is the one the window was opened
with. -/
structure NamesOpenScope (s : Hw) (b : Book) (tid : ℤ) (h : Handle) : Prop where
  frame : h.idx ≠ ptSentinel →
    ∀ f, ssFrameLookup (s.proc.tls tid) h.idx h.gen h.armTid = some f →
      h.idx + 1 = (s.proc.tls tid).depth
  window : h.idx = ptSentinel → s.ptWindow.isSome → h.gen = s.ptGen → h.armTid = s.ptTid →
    b.hw = some (some h)

/-- The condition on a call; a begin does not wrap the generation counter. -/
def CallOk (s : Hw) (b : Book) : Call → Prop
  | .beginWindow _ tid _ _ _ => (s.proc.tls tid).genCtr + 1 < 2 ^ 32 ∧ s.ptGen + 1 < 2 ^ 32
  | .beginScope _ tid _ => (s.proc.tls tid).genCtr + 1 < 2 ^ 32
  | .endWindow tid h _ => NamesOpenScope s b tid h
  | .trap _ _ => True

/-- The process before the first call -/
def Hw.start (inited : Bool) (backend : Backend) (regions : List Region) (traces : ℕ → Trace) : Hw where
  proc := {
    tls := fun _ => {}
    traces
    armed := false
    installed := false
    armRefcount := 0
    wwRefcount := 0
    alarmFired := false
    deny := [] }
  inited := inited
  backend := backend
  regions := regions
  ptWindow := none
  ptGen := 0
  ptTid := 0
  active := fun _ => none
  armTid := fun _ => -1

/-- The states of the runs whose calls all meet the condition -/
inductive Reach : Hw → Book → Prop
  | start (inited : Bool) (backend : Backend) (regions : List Region) (traces : ℕ → Trace) :
      Reach (Hw.start inited backend regions traces) Book.empty
  | call {s : Hw} {b : Book} (c : Call) :
      Reach s b → CallOk s b c → Reach (step code drain s c) (bookStep s b c)

/-- `end_window` closes the frame the handle was given for if that is the top one, the hardware
window if it was given for that, and otherwise nothing, which it reports; it changes no other frame
and no other slot. -/
def ClosesOwn (s : Hw) (b : Book) (tid : ℤ) (h : Handle) (trace : Option ℕ) : Prop :=
  let s' := endWindow code drain tid h trace s
  (∀ tid' ≠ tid, s'.proc.tls tid' = s.proc.tls tid') ∧
  if (b.stack tid).getLast? = some h then
    (s'.proc.tls tid).depth + 1 = (s.proc.tls tid).depth ∧
      (∀ i, i + 1 ≠ (s.proc.tls tid).depth →
        (s'.proc.tls tid).frames[i]? = (s.proc.tls tid).frames[i]?) ∧
      (∀ id, ((s.proc.tls tid).frames.getD h.idx {}).trace ≠ some id →
        s'.proc.traces id = s.proc.traces id) ∧
      s'.ptWindow = s.ptWindow ∧ s'.ptGen = s.ptGen ∧ s'.ptTid = s.ptTid
  else
    s'.proc.tls tid = s.proc.tls tid ∧
    if b.hw = some (some h) then
      s'.ptWindow = none ∧ ∀ id, trace ≠ some id → s'.proc.traces id = s.proc.traces id
    else s'.ptWindow = s.ptWindow ∧ s'.ptGen = s.ptGen ∧ s'.ptTid = s.ptTid ∧
      s'.proc = flagTrace trace s.proc

end Runs

section Push

theorem armWindow_tls (denyDefault : List Deny) (a : PushArgs) (f : Frame) (p : Proc) :
    (armWindow denyDefault a f p).tls = p.tls := by
  rw [armWindow]
  by_cases hw : a.wholeWindow = false
  · rw [if_pos hw]
  · rw [if_neg hw]
    by_cases hms : f.watchdogMs = 2 ^ 32 - 1
    · rw [if_pos hms]
    · rw [if_neg hms]

/-- What a push does to the stack of the thread -/
inductive Pushed (a : PushArgs) (tid : ℤ) (th th' : Tls) : Except Err (ℕ × ℕ) → Prop
  | refused (e : Err) (same : th' = th) : Pushed a tid th th' (.error e)
  /-- The handler could not be installed. -/
  | undone (e : Err) (room : th.depth < ssMaxFrames)
      (stack : th' = { th with
        frames := th.frames.set th.depth (pushedFrame a ((th.genCtr + 1) % 2 ^ 32) tid)
        genCtr := (th.genCtr + 1) % 2 ^ 32 }) : Pushed a tid th th' (.error e)
  | done (room : th.depth < ssMaxFrames)
      (stack : th' = {
        frames := th.frames.set th.depth (pushedFrame a ((th.genCtr + 1) % 2 ^ 32) tid)
        genCtr := (th.genCtr + 1) % 2 ^ 32
        depth := th.depth + 1 }) : Pushed a tid th th' (.ok (th.depth, (th.genCtr + 1) % 2 ^ 32))

theorem ssPushFrame_spec (denyDefault : List Deny) (os : Os) (a : PushArgs) (tid : ℤ) (p : Proc) :
    ∃ th, (ssPushFrame denyDefault os a tid p).1.tls = Function.update p.tls tid th ∧
      Pushed a tid (p.tls tid) th (ssPushFrame denyDefault os a tid p).2 := by
  rw [ssPushFrame]
  dsimp only
  split_ifs with h1 h2 h3 h4
  · exact ⟨p.tls tid, by simp, .refused _ rfl⟩
  · exact ⟨p.tls tid, by simp, .refused _ rfl⟩
  · exact ⟨p.tls tid, by simp, .refused _ rfl⟩
  · exact ⟨_, rfl, .undone _ (Nat.not_le.1 h2) rfl⟩
  · refine ⟨_, ?_, .done (Nat.not_le.1 h2) rfl⟩
    dsimp only
    rw [armWindow_tls]

end Push

section Matching

/-- The handle of a slot -/
def slotHandle (th : Tls) (i : ℕ) : Handle :=
  ⟨i, (th.frames.getD i {}).gen, (th.frames.getD i {}).armTid⟩

/-- The stack of one thread is as the book has it. -/
structure StackOk (th : Tls) (stack : List Handle) : Prop where
  slots : th.frames.length = ssMaxFrames
  depth_le : th.depth ≤ ssMaxFrames
  stack : stack = (List.range th.depth).map (slotHandle th)
  gen_ne : ∀ i < th.depth, (th.frames.getD i {}).gen ≠ 0

structure Matches (s : Hw) (b : Book) : Prop where
  threads : ∀ tid, StackOk (s.proc.tls tid) (b.stack tid)
  window : b.hw.isSome = s.ptWindow.isSome
  own : ∀ h, b.hw = some (some h) → h = ⟨ptSentinel, s.ptGen, s.ptTid⟩
  past_frame : ∀ h ∈ b.past, h.idx ≠ ptSentinel → h.gen ≤ (s.proc.tls h.armTid).genCtr
  past_window : ∀ h ∈ b.past, h.idx = ptSentinel → h.gen ≤ s.ptGen

theorem getD_set_ne {l : List Frame} {i j : ℕ} {f : Frame} (h : j ≠ i) :
    (l.set j f).getD i {} = l.getD i {} := by
  rw [List.getD_eq_getElem?_getD, List.getD_eq_getElem?_getD, List.getElem?_set_ne h]

theorem getD_set_self {l : List Frame} {i : ℕ} {f : Frame} (h : i < l.length) :
    (l.set i f).getD i {} = f := by
  rw [List.getD_eq_getElem?_getD, List.getElem?_set_self h, Option.getD_some]

/-- Slots from the depth on may change. -/
theorem StackOk.above {th : Tls} {stack : List Handle} (h : StackOk th stack) (f : Frame) (gen : ℕ) :
    StackOk { th with frames := th.frames.set th.depth f, genCtr := gen } stack := by
  refine ⟨by simpa using h.slots, h.depth_le, ?_, ?_⟩
  · rw [h.stack]
    apply List.map_congr_left
    intro i hi
    rw [slotHandle, slotHandle, getD_set_ne (List.mem_range.1 hi).ne']
  · intro i hi
    rw [getD_set_ne hi.ne']
    exact h.gen_ne i hi

theorem StackOk.push {th : Tls} {stack : List Handle} (h : StackOk th stack) {f : Frame} (gen : ℕ)
    (hroom : th.depth < ssMaxFrames) (hgen : f.gen ≠ 0) :
    StackOk { frames := th.frames.set th.depth f, genCtr := gen, depth := th.depth + 1 }
      (stack ++ [⟨th.depth, f.gen, f.armTid⟩]) := by
  have habove := h.above f gen
  have hself : (th.frames.set th.depth f).getD th.depth {} = f :=
    getD_set_self (hroom.trans_eq h.slots.symm)
  refine ⟨habove.slots, hroom, ?_, ?_⟩
  · rw [List.range_succ, List.map_append, List.map_singleton, slotHandle, hself]
    congr 1
    exact habove.stack
  · intro i hi
    rcases Nat.lt_succ_iff_lt_or_eq.1 hi with hlt | rfl
    · exact habove.gen_ne i hlt
    · rw [hself]
      exact hgen

theorem StackOk.pop {th : Tls} {stack : List Handle} (h : StackOk th stack) (hd : th.depth ≠ 0)
    (f : Frame) :
    StackOk { th with depth := th.depth - 1, frames := th.frames.set (th.depth - 1) f }
      stack.dropLast := by
  obtain ⟨d, hd'⟩ := Nat.exists_eq_succ_of_ne_zero hd
  have hpred : th.depth - 1 = d := by omega
  refine ⟨by simpa using h.slots, ?_, ?_, ?_⟩
  · have := h.depth_le
    dsimp only
    omega
  · rw [h.stack, hd', List.range_succ, List.map_append, List.map_singleton, List.dropLast_concat]
    dsimp only
    rw [Nat.succ_sub_one]
    apply List.map_congr_left
    intro i hi
    rw [slotHandle, slotHandle, getD_set_ne (List.mem_range.1 hi).ne']
  · intro i hi
    dsimp only at hi ⊢
    rw [hpred] at hi ⊢
    rw [getD_set_ne hi.ne']
    exact h.gen_ne i (by omega)

/-- The top of the stack is the slot below the depth. -/
theorem StackOk.getLast?_eq_some_iff {th : Tls} {stack : List Handle} (h : StackOk th stack)
    {x : Handle} :
    stack.getLast? = some x ↔ ∃ d, th.depth = d + 1 ∧ x = slotHandle th d := by
  rw [h.stack]
  cases hd : th.depth with
  | zero => simp
  | succ d =>
    rw [List.range_succ, List.map_append, List.map_singleton, List.getLast?_concat,
      Option.some.injEq]
    constructor
    · rintro rfl
      exact ⟨d, rfl, rfl⟩
    · rintro ⟨d', hd', rfl⟩
      rw [Nat.succ.inj hd']

theorem StackOk.idx_lt {th : Tls} {stack : List Handle} (h : StackOk th stack) {x : Handle}
    (hx : stack.getLast? = some x) : x.idx < ssMaxFrames := by
  obtain ⟨d, hd, rfl⟩ := h.getLast?_eq_some_iff.1 hx
  have := h.depth_le
  change d < ssMaxFrames
  omega

/-- A lookup that succeeds finds the slot the handle was made of. -/
theorem slotHandle_of_lookup {th : Tls} {h : Handle} {f : Frame}
    (hf : ssFrameLookup th h.idx h.gen h.armTid = some f) : slotHandle th h.idx = h := by
  rw [ssFrameLookup] at hf
  by_cases hroom : ssMaxFrames ≤ h.idx
  · rw [if_pos hroom] at hf
    cases hf
  rw [if_neg hroom] at hf
  dsimp only at hf
  by_cases hgen : (th.frames.getD h.idx {}).gen ≠ h.gen ∨ (th.frames.getD h.idx {}).gen = 0
  · rw [if_pos hgen] at hf
    cases hf
  rw [if_neg hgen] at hf
  by_cases htid : (th.frames.getD h.idx {}).armTid ≠ h.armTid
  · rw [if_pos htid] at hf
    cases hf
  rw [slotHandle, not_not.1 (not_or.1 hgen).1, not_not.1 htid]

theorem StackOk.lookup_top {th : Tls} {stack : List Handle} (h : StackOk th stack) {x : Handle}
    (hx : stack.getLast? = some x) :
    x.idx + 1 = th.depth ∧
      ssFrameLookup th x.idx x.gen x.armTid = some (th.frames.getD x.idx {}) := by
  have hlt := h.idx_lt hx
  obtain ⟨d, hd, rfl⟩ := h.getLast?_eq_some_iff.1 hx
  refine ⟨hd.symm, ?_⟩
  have hne := h.gen_ne d (by omega)
  rw [ssFrameLookup, if_neg hlt.not_ge]
  simpa [slotHandle] using hne

theorem record_handle (f : Frame) (at_ : ℕ) :
    (f.record at_).gen = f.gen ∧ (f.record at_).armTid = f.armTid := by
  unfold Frame.record
  split_ifs
  · exact ⟨rfl, rfl⟩
  · exact ⟨rfl, rfl⟩

theorem trapWindow_handle (alarm : Bool) (deny : List Deny) (rip : ℕ) (f : Frame) :
    (trapWindow alarm deny rip f).gen = f.gen ∧
      (trapWindow alarm deny rip f).armTid = f.armTid := by
  unfold trapWindow
  split
  · exact ⟨rfl, rfl⟩
  split
  · exact ⟨rfl, rfl⟩
  split
  · exact ⟨rfl, rfl⟩
  dsimp only
  -- the step is counted, and may use up the budget, before the address is recorded
  generalize hbudget : (if f.insnBudget ≤ f.steps + 1 then
    { f with steps := f.steps + 1, guard := .budget } else { f with steps := f.steps + 1 }) = f'
  have hkept : f'.gen = f.gen ∧ f'.armTid = f.armTid := by
    rw [← hbudget]
    split
    · exact ⟨rfl, rfl⟩
    · exact ⟨rfl, rfl⟩
  obtain ⟨hgen, htid⟩ := record_handle f' rip
  split
  · exact ⟨hgen.trans hkept.1, htid.trans hkept.2⟩
  · exact ⟨hgen.trans hkept.1, htid.trans hkept.2⟩

theorem trapFrame_handle (alarm : Bool) (deny : List Deny) (rip : ℕ) (f : Frame) :
    (trapFrame alarm deny rip f).gen = f.gen ∧ (trapFrame alarm deny rip f).armTid = f.armTid := by
  rw [trapFrame]
  split_ifs
  · exact trapWindow_handle alarm deny rip f
  · exact record_handle f _
  · exact ⟨rfl, rfl⟩

theorem StackOk.trap {th : Tls} {stack : List Handle} (h : StackOk th stack) (armed alarm : Bool)
    (deny : List Deny) (rip : ℕ) : StackOk (ssOnSigtrap armed alarm deny rip th).1 stack := by
  rw [ssOnSigtrap]
  by_cases hoff : armed = false ∨ th.depth = 0
  · rw [if_pos hoff]
    exact h
  · rw [if_neg hoff]
    dsimp only
    have hslot : ∀ i, i < th.depth → ∀ g : Frame → Frame,
        (th.frames.mapIdx fun i f => if i < th.depth then g f else f).getD i {} =
          g (th.frames.getD i {}) := by
      intro i hi g
      have hlen : i < th.frames.length := hi.trans_le (h.depth_le.trans_eq h.slots.symm)
      rw [List.getD_eq_getElem?_getD, List.getD_eq_getElem?_getD, List.getElem?_mapIdx,
        List.getElem?_eq_getElem hlen, Option.map_some, if_pos hi, Option.getD_some,
        Option.getD_some]
    refine ⟨by simpa using h.slots, h.depth_le, ?_, ?_⟩
    · rw [h.stack]
      apply List.map_congr_left
      intro i hi
      obtain ⟨hg, ht⟩ := trapFrame_handle alarm deny rip (th.frames.getD i {})
      rw [slotHandle, slotHandle, hslot i (List.mem_range.1 hi), hg, ht]
    · intro i hi
      rw [hslot i hi, (trapFrame_handle alarm deny rip _).1]
      exact h.gen_ne i hi

end Matching

section Keep

variable {s s' : Hw} {b : Book}

theorem Matches.start (inited : Bool) (backend : Backend) (regions : List Region)
    (traces : ℕ → Trace) : Matches (Hw.start inited backend regions traces) Book.empty := by
  refine ⟨fun tid => ⟨rfl, Nat.zero_le _, rfl, ?_⟩, rfl, ?_, ?_, ?_⟩
  · intro i hi
    exact absurd hi (Nat.not_lt_zero i)
  · intro h hh
    cases hh
  · intro h hh
    cases hh
  · intro h hh
    cases hh

/-- A thread whose stack changes without opening or closing a scope -/
theorem Matches.thread (h : Matches s b) {tid : ℤ} {th : Tls}
    (htls : s'.proc.tls = Function.update s.proc.tls tid th) (hth : StackOk th (b.stack tid))
    (hgen : (s.proc.tls tid).genCtr ≤ th.genCtr) (hw : s'.ptWindow = s.ptWindow)
    (hg : s'.ptGen = s.ptGen) (ht : s'.ptTid = s.ptTid) : Matches s' b := by
  refine ⟨?_, by rw [hw, h.window], by rw [hg, ht]; exact h.own, ?_, by rw [hg]; exact h.past_window⟩
  · intro tid'
    rw [htls]
    rcases eq_or_ne tid' tid with rfl | hne
    · rw [Function.update_self]
      exact hth
    · rw [Function.update_of_ne hne]
      exact h.threads tid'
  · intro x hx hidx
    have hle := h.past_frame x hx hidx
    rw [htls]
    rcases eq_or_ne x.armTid tid with heq | hne
    · rw [heq, Function.update_self]
      rw [heq] at hle
      exact hle.trans hgen
    · rw [Function.update_of_ne hne]
      exact hle

theorem ssMaxFrames_lt_ptSentinel : ssMaxFrames < ptSentinel := by decide

/-- A push that fails opens no scope. -/
theorem Matches.push_error (h : Matches s b) {a : PushArgs} {tid : ℤ} {th : Tls} {e : Err}
    (htls : s'.proc.tls = Function.update s.proc.tls tid th)
    (hpush : Pushed a tid (s.proc.tls tid) th (.error e))
    (hctr : (s.proc.tls tid).genCtr + 1 < 2 ^ 32)
    (hw : s'.ptWindow = s.ptWindow) (hg : s'.ptGen = s.ptGen) (ht : s'.ptTid = s.ptTid) :
    Matches s' b := by
  cases hpush with
  | refused e same =>
    rw [same] at htls
    exact h.thread htls (h.threads tid) le_rfl hw hg ht
  | undone e room stack =>
    refine h.thread htls (stack ▸ (h.threads tid).above _ _) ?_ hw hg ht
    rw [stack, Nat.mod_eq_of_lt hctr]
    exact Nat.le_succ _

/-- The handle of a new frame has never been given before. -/
theorem Matches.push_new (h : Matches s b) {a : PushArgs} {tid : ℤ} {th : Tls} {idx gen : ℕ}
    (hpush : Pushed a tid (s.proc.tls tid) th (.ok (idx, gen)))
    (hctr : (s.proc.tls tid).genCtr + 1 < 2 ^ 32) : (⟨idx, gen, tid⟩ : Handle) ∉ b.past := by
  cases hpush with
  | done room stack =>
    intro hmem
    have hle := h.past_frame _ hmem (room.trans ssMaxFrames_lt_ptSentinel).ne
    dsimp only at hle
    rw [Nat.mod_eq_of_lt hctr] at hle
    omega

/-- A push that succeeds keeps the book and the stacks together. -/
theorem Matches.push_ok (h : Matches s b) {a : PushArgs} {tid : ℤ} {th : Tls} {idx gen : ℕ}
    (htls : s'.proc.tls = Function.update s.proc.tls tid th)
    (hpush : Pushed a tid (s.proc.tls tid) th (.ok (idx, gen)))
    (hctr : (s.proc.tls tid).genCtr + 1 < 2 ^ 32)
    (hw : s'.ptWindow = s.ptWindow) (hg : s'.ptGen = s.ptGen) (ht : s'.ptTid = s.ptTid) :
    Matches s' (b.push tid ⟨idx, gen, tid⟩) := by
  have hmod : ((s.proc.tls tid).genCtr + 1) % 2 ^ 32 = (s.proc.tls tid).genCtr + 1 :=
    Nat.mod_eq_of_lt hctr
  cases hpush with
  | done room stack =>
    refine ⟨?_, by rw [hw]; exact h.window, by rw [hg, ht]; exact h.own, ?_, ?_⟩
    · intro tid'
      rw [htls, Book.push]
      dsimp only
      rcases eq_or_ne tid' tid with rfl | hne
      · rw [Function.update_self, Function.update_self, stack]
        exact (h.threads tid').push _ room (by rw [pushedFrame, hmod]; exact Nat.succ_ne_zero _)
      · rw [Function.update_of_ne hne, Function.update_of_ne hne]
        exact h.threads tid'
    · intro x hx hidx
      rw [htls]
      rcases List.mem_cons.1 hx with rfl | hx
      · dsimp only
        rw [Function.update_self, stack]
      · have hle := h.past_frame x hx hidx
        rcases eq_or_ne x.armTid tid with heq | hne
        · rw [heq, Function.update_self, stack]
          rw [heq] at hle
          dsimp only
          omega
        · rw [Function.update_of_ne hne]
          exact hle
    · intro x hx hidx
      rw [hg]
      rcases List.mem_cons.1 hx with rfl | hx
      · exact absurd hidx (room.trans ssMaxFrames_lt_ptSentinel).ne
      · exact h.past_window x hx hidx

/-- Nothing a thread's stack or the hardware window consists of has changed. -/
theorem Matches.same (h : Matches s b) (htls : s'.proc.tls = s.proc.tls)
    (hw : s'.ptWindow = s.ptWindow) (hg : s'.ptGen = s.ptGen) (ht : s'.ptTid = s.ptTid) :
    Matches s' b := by
  have hself : s'.proc.tls = Function.update s.proc.tls 0 (s.proc.tls 0) := by
    rw [htls, Function.update_eq_self]
  exact h.thread hself (h.threads 0) le_rfl hw hg ht

/-- The hardware window is opened without a handle. -/
theorem Matches.openHw_silent (h : Matches s b) (htls : s'.proc.tls = s.proc.tls)
    (hw : s'.ptWindow.isSome) (hg : s'.ptGen = s.ptGen) : Matches s' (b.openHw none) := by
  refine ⟨by rw [htls]; exact h.threads, by rw [hw]; rfl, ?_, by rw [htls]; exact h.past_frame,
    by rw [hg]; exact h.past_window⟩
  intro x hx
  cases hx

/-- The hardware window is opened with a handle, and the generation moves on. -/
theorem Matches.openHw (h : Matches s b) (htls : s'.proc.tls = s.proc.tls)
    (hw : s'.ptWindow.isSome) (hg : s'.ptGen = s.ptGen + 1) :
    Matches s' (b.openHw (some ⟨ptSentinel, s'.ptGen, s'.ptTid⟩)) := by
  refine ⟨by rw [htls]; exact h.threads, by rw [hw]; rfl, ?_, ?_, ?_⟩
  · intro x hx
    cases hx
    rfl
  · intro x hx hidx
    rw [htls]
    rcases List.mem_cons.1 hx with rfl | hx
    · exact absurd rfl hidx
    · exact h.past_frame x hx hidx
  · intro x hx hidx
    rcases List.mem_cons.1 hx with rfl | hx
    · exact le_rfl
    · rw [hg]
      exact (h.past_window x hx hidx).trans (Nat.le_succ _)

theorem Matches.beginWindow (h : Matches s b) (env : Env) (tid : ℤ) (trace : Option ℕ)
    (g : Option WindowGuards) (out : Bool) (hctr : (s.proc.tls tid).genCtr + 1 < 2 ^ 32)
    (hpt : s.ptGen + 1 < 2 ^ 32) :
    Matches (beginWindow env tid trace g out s).1
        (bookStep s b (.beginWindow env tid trace g out)) ∧
      ∀ x, (Ss.beginWindow env tid trace g out s).2 = .ok (some x) → x ∉ b.past := by
  have hstay : ∀ e : Err, Matches s b ∧
      ∀ x, (.error e : Except Err (Option Handle)) = .ok (some x) → x ∉ b.past := by
    intro e
    exact ⟨h, fun x hx => nomatch hx⟩
  rw [bookStep]
  unfold Ss.beginWindow
  dsimp only
  by_cases h1 : trace = none
  · rw [if_pos h1]
    exact hstay _
  rw [if_neg h1]
  by_cases h2 : (g.getD ⟨1, 0, 0, false, []⟩).structSize = 0 ∨
      ssMaxDeny < (g.getD ⟨1, 0, 0, false, []⟩).deny.length
  · rw [if_pos h2]
    exact hstay _
  rw [if_neg h2]
  by_cases h3 : s.inited = false
  · rw [if_pos h3]
    exact hstay _
  rw [if_neg h3]
  cases hback : s.backend with
  | singlestep =>
    dsimp only
    by_cases h4 : env.managed = true
    · rw [if_pos h4]
      exact hstay _
    rw [if_neg h4]
    obtain ⟨th, htls, hpush⟩ := ssPushFrame_spec env.denyDefault env.os
      { trace, wholeWindow := true
        insnBudget := (g.getD ⟨1, 0, 0, false, []⟩).insnBudget
        watchdogMs := (g.getD ⟨1, 0, 0, false, []⟩).watchdogMs
        useDefaultDenylist := (g.getD ⟨1, 0, 0, false, []⟩).useDefaultDenylist
        deny := (g.getD ⟨1, 0, 0, false, []⟩).deny } tid s.proc
    revert htls hpush
    generalize ssPushFrame _ _ _ _ _ = r
    obtain ⟨p, r⟩ := r
    intro htls hpush
    cases r with
    | error e => exact ⟨h.push_error htls hpush hctr rfl rfl rfl, fun x hx => nomatch hx⟩
    | ok r =>
      refine ⟨h.push_ok htls hpush hctr rfl rfl rfl, ?_⟩
      intro x hx
      cases hx
      exact h.push_new hpush hctr
  | intelPt =>
    dsimp only
    by_cases h4 : s.ptWindow.isSome = true
    · rw [if_pos h4]
      exact hstay _
    rw [if_neg h4]
    cases hctx : env.ptCtx with
    | none => exact hstay _
    | some ctx =>
      cases out with
      | false =>
        refine ⟨h.openHw_silent rfl rfl rfl, ?_⟩
        intro x hx
        cases hx
      | true =>
        have hmod : (s.ptGen + 1) % 2 ^ 32 = s.ptGen + 1 := Nat.mod_eq_of_lt hpt
        refine ⟨h.openHw rfl rfl hmod, ?_⟩
        intro x hx hmem
        cases hx
        have hle := h.past_window _ hmem rfl
        rw [if_pos rfl, hmod] at hle
        exact absurd hle (Nat.not_succ_le_self _)
  | other => exact hstay _

theorem Matches.tryBegin (h : Matches s b) (env : Env) (tid : ℤ) (name : String) :
    Matches (tryBegin env tid name s).1 b ∧
      ∀ x, (Ss.tryBegin env tid name s).2 ≠ .ok (some x) := by
  rw [Ss.tryBegin]
  by_cases h1 : (s.active tid).isSome = true
  · rw [if_pos h1]
    exact ⟨h, fun x hx => nomatch hx⟩
  rw [if_neg h1]
  cases s.regions.find? fun r => r.name = name with
  | none => exact ⟨h, fun x hx => nomatch hx⟩
  | some r =>
    dsimp only
    by_cases h2 : env.auxOpen = true
    · rw [if_pos h2]
      exact ⟨h.same rfl rfl rfl rfl, fun x hx => nomatch hx⟩
    · rw [if_neg h2]
      exact ⟨h.same rfl rfl rfl rfl, fun x hx => nomatch hx⟩

theorem Matches.beginScope (h : Matches s b) (env : Env) (tid : ℤ) (name : String)
    (hctr : (s.proc.tls tid).genCtr + 1 < 2 ^ 32) :
    Matches (beginScope env tid name s).1 (bookStep s b (.beginScope env tid name)) ∧
      ∀ x, (Ss.beginScope env tid name s).2 = .ok (some x) → x ∉ b.past := by
  have hstay : ∀ e : Err, Matches s b ∧
      ∀ x, (.error e : Except Err (Option Handle)) = .ok (some x) → x ∉ b.past := by
    intro e
    exact ⟨h, fun x hx => nomatch hx⟩
  have htry : Matches (Ss.tryBegin env tid name s).1
        (match (Ss.tryBegin env tid name s).2 with
          | .error _ => b
          | .ok x => x.elim b (b.push tid)) ∧
      ∀ x, (Ss.tryBegin env tid name s).2 = .ok (some x) → x ∉ b.past := by
    obtain ⟨hm, hno⟩ := h.tryBegin env tid name
    refine ⟨?_, fun x hx => absurd hx (hno x)⟩
    cases hr : (Ss.tryBegin env tid name s).2 with
    | error e => exact hm
    | ok x =>
      cases x with
      | none => exact hm
      | some x => exact absurd hr (hno x)
  rw [bookStep]
  unfold Ss.beginScope
  by_cases h1 : s.inited = false
  · rw [if_pos h1]
    exact hstay _
  rw [if_neg h1]
  cases hback : s.backend with
  | singlestep =>
    dsimp only
    cases s.regions.find? fun r => r.name = name with
    | none => exact hstay _
    | some r =>
      dsimp only
      obtain ⟨th, htls, hpush⟩ := ssPushFrame_spec env.denyDefault env.os
        { base := r.base, len := r.len, trace := r.trace, wholeWindow := false
          insnBudget := 2 ^ 64 - 1, watchdogMs := 2 ^ 32 - 1 } tid s.proc
      revert htls hpush
      generalize ssPushFrame _ _ _ _ _ = r
      obtain ⟨p, r⟩ := r
      intro htls hpush
      cases r with
      | error e => exact ⟨h.push_error htls hpush hctr rfl rfl rfl, fun x hx => nomatch hx⟩
      | ok r =>
        refine ⟨h.push_ok htls hpush hctr rfl rfl rfl, ?_⟩
        intro x hx
        cases hx
        exact h.push_new hpush hctr
  | intelPt => exact htry
  | other => exact htry

theorem Matches.trap (h : Matches s b) (tid : ℤ) (rip : ℕ) :
    Matches { s with proc := { s.proc with
      tls := Function.update s.proc.tls tid
        (ssOnSigtrap s.proc.armed s.proc.alarmFired s.proc.deny rip (s.proc.tls tid)).1 } } b := by
  refine h.thread rfl ((h.threads tid).trap _ _ _ _) (le_of_eq ?_) rfl rfl rfl
  rw [ssOnSigtrap]
  split_ifs <;> rfl

end Keep

section Close

theorem flagTrace_tls (trace : Option ℕ) (p : Proc) : (flagTrace trace p).tls = p.tls := by
  cases trace <;> rfl

theorem flagTrace_traces_ne {trace : Option ℕ} {id : ℕ} (h : trace ≠ some id) (p : Proc) :
    (flagTrace trace p).traces id = p.traces id := by
  cases trace with
  | none => rfl
  | some id' => exact Function.update_of_ne (fun heq => h (congrArg some heq.symm)) _ _

variable {code : ℕ → ℕ → Code} {drain : ℕ → Trace → Trace}

/-- The stack after a pop: one frame fewer, and only the slot of that frame has changed. -/
theorem ssEnd_tls (code : ℕ → ℕ → Code) {tid : ℤ} {p : Proc} (hd : (p.tls tid).depth ≠ 0) :
    ∃ f, (ssEnd code tid p).tls = Function.update p.tls tid
      { p.tls tid with
        depth := (p.tls tid).depth - 1
        frames := (p.tls tid).frames.set ((p.tls tid).depth - 1) f } := by
  rw [ssEnd, if_neg hd]
  dsimp only
  refine ⟨{ (p.tls tid).frames.getD ((p.tls tid).depth - 1) {} with stream := [] }, ?_⟩
  split_ifs <;> rfl

/-- A pop writes the trace of its frame only. -/
theorem ssEnd_traces_ne {tid : ℤ} {p : Proc} {id : ℕ}
    (h : ((p.tls tid).frames.getD ((p.tls tid).depth - 1) {}).trace ≠ some id) :
    (ssEnd code tid p).traces id = p.traces id := by
  rw [ssEnd]
  by_cases hd : (p.tls tid).depth = 0
  · rw [if_pos hd]
  rw [if_neg hd]
  dsimp only
  have hkeep : (match ((p.tls tid).frames.getD ((p.tls tid).depth - 1) {}).trace with
      | none => p.traces
      | some id => Function.update p.traces id (ssNormalize code
          ((p.tls tid).frames.getD ((p.tls tid).depth - 1) {}) (p.traces id))) id = p.traces id := by
    revert h
    cases ((p.tls tid).frames.getD ((p.tls tid).depth - 1) {}).trace with
    | none =>
      intro h
      rfl
    | some id' =>
      intro h
      exact Function.update_of_ne (fun heq => h (congrArg some heq.symm)) _ _
  split_ifs <;> exact hkeep

variable {s : Hw} {b : Book} {tid : ℤ} {h : Handle} {trace : Option ℕ}

theorem endWindow_found {f : Frame} (hidx : h.idx ≠ ptSentinel)
    (hf : ssFrameLookup (s.proc.tls tid) h.idx h.gen h.armTid = some f) :
    endWindow code drain tid h trace s = { s with
      proc := ssEnd code tid s.proc, armTid := Function.update s.armTid tid (-1) } := by
  rw [endWindow, if_neg hidx, hf]

theorem endWindow_stale (hidx : h.idx ≠ ptSentinel)
    (hf : ssFrameLookup (s.proc.tls tid) h.idx h.gen h.armTid = none) :
    endWindow code drain tid h trace s = { s with proc := flagTrace trace s.proc } := by
  rw [endWindow, if_neg hidx, hf]

/-- A hardware handle that does not match, or no window to match -/
theorem endWindow_mismatch (hidx : h.idx = ptSentinel)
    (hm : ¬(s.ptWindow.isSome ∧ h.gen = s.ptGen ∧ h.armTid = s.ptTid)) :
    endWindow code drain tid h trace s = { s with proc := flagTrace trace s.proc } := by
  rw [endWindow, if_pos hidx]
  cases hw : s.ptWindow with
  | none => rfl
  | some ctx =>
    rw [hw] at hm
    exact if_neg fun hgt => hm ⟨rfl, hgt⟩

variable (code drain tid trace) in
theorem endWindow_hw (hidx : h.idx = ptSentinel) (hw : s.ptWindow.isSome) (hg : h.gen = s.ptGen)
    (ht : h.armTid = s.ptTid) :
    (endWindow code drain tid h trace s).ptWindow = none ∧
      (endWindow code drain tid h trace s).ptGen = s.ptGen ∧
      (endWindow code drain tid h trace s).proc.tls = s.proc.tls ∧
      ∀ id, trace ≠ some id →
        (endWindow code drain tid h trace s).proc.traces id = s.proc.traces id := by
  rw [endWindow, if_pos hidx]
  obtain ⟨ctx, hctx⟩ := Option.isSome_iff_exists.1 hw
  rw [hctx]
  dsimp only
  rw [if_pos ⟨hg, ht⟩]
  refine ⟨rfl, rfl, ?_, ?_⟩
  · cases trace <;> split_ifs <;> rfl
  · intro id hid
    cases trace with
    | none => split_ifs <;> rfl
    | some id' =>
      have hne : id ≠ id' := fun heq => hid (congrArg some heq.symm)
      split_ifs
      · rw [flagTrace_traces_ne hid]
        exact Function.update_of_ne hne _ _
      · exact Function.update_of_ne hne _ _

/-- A handle of a slot of the stack is not one of the hardware window. -/
theorem Matches.hw_ne (hm : Matches s b) (hidx : h.idx ≠ ptSentinel) : b.hw ≠ some (some h) := by
  intro hhw
  exact hidx (congrArg Handle.idx (hm.own h hhw))

theorem Matches.top_ne (hm : Matches s b) (hidx : h.idx = ptSentinel) :
    (b.stack tid).getLast? ≠ some h := by
  intro htop
  exact absurd hidx (((hm.threads tid).idx_lt htop).trans ssMaxFrames_lt_ptSentinel).ne

theorem Matches.stale (hm : Matches s b)
    (hf : ssFrameLookup (s.proc.tls tid) h.idx h.gen h.armTid = none) :
    (b.stack tid).getLast? ≠ some h := by
  intro htop
  rw [((hm.threads tid).lookup_top htop).2] at hf
  cases hf

/-- A lookup that finds the slot below the depth has found the top scope. -/
theorem Matches.found (hm : Matches s b) {f : Frame}
    (hf : ssFrameLookup (s.proc.tls tid) h.idx h.gen h.armTid = some f)
    (htop : h.idx + 1 = (s.proc.tls tid).depth) : (b.stack tid).getLast? = some h :=
  (hm.threads tid).getLast?_eq_some_iff.2 ⟨h.idx, htop.symm, (slotHandle_of_lookup hf).symm⟩

theorem Matches.mismatch (hm : Matches s b)
    (hno : ¬(s.ptWindow.isSome ∧ h.gen = s.ptGen ∧ h.armTid = s.ptTid)) :
    b.hw ≠ some (some h) := by
  intro hhw
  apply hno
  rw [← hm.window, hhw, hm.own h hhw]
  exact ⟨rfl, rfl, rfl⟩

/-- The four things an `end_window` that meets the condition can do -/
inductive Closed (s : Hw) (b : Book) (tid : ℤ) (h : Handle) : Prop
  | top (f : Frame) (idx : h.idx ≠ ptSentinel)
      (found : ssFrameLookup (s.proc.tls tid) h.idx h.gen h.armTid = some f)
      (isTop : (b.stack tid).getLast? = some h)
  | stale (idx : h.idx ≠ ptSentinel)
      (lost : ssFrameLookup (s.proc.tls tid) h.idx h.gen h.armTid = none)
  | window (idx : h.idx = ptSentinel) (live : s.ptWindow.isSome) (gen : h.gen = s.ptGen)
      (armTid : h.armTid = s.ptTid) (own : b.hw = some (some h))
  | mismatch (idx : h.idx = ptSentinel)
      (no : ¬(s.ptWindow.isSome ∧ h.gen = s.ptGen ∧ h.armTid = s.ptTid))

theorem NamesOpenScope.closed (hm : Matches s b) (hok : NamesOpenScope s b tid h) :
    Closed s b tid h := by
  by_cases hidx : h.idx = ptSentinel
  · by_cases hwin : s.ptWindow.isSome ∧ h.gen = s.ptGen ∧ h.armTid = s.ptTid
    · obtain ⟨hw, hg, ht⟩ := hwin
      exact .window hidx hw hg ht (hok.window hidx hw hg ht)
    · exact .mismatch hidx hwin
  · cases hf : ssFrameLookup (s.proc.tls tid) h.idx h.gen h.armTid with
    | none => exact .stale hidx hf
    | some f => exact .top f hidx hf (hm.found hf (hok.frame hidx f hf))

theorem Matches.endWindow (hm : Matches s b) (hok : NamesOpenScope s b tid h) :
    Matches (endWindow code drain tid h trace s) (b.close tid h) := by
  rw [Book.close]
  cases hok.closed hm with
  | top f hidx hf htop =>
    have hd : (s.proc.tls tid).depth ≠ 0 := by
      rw [← ((hm.threads tid).lookup_top htop).1]
      exact Nat.succ_ne_zero _
    obtain ⟨g, hg⟩ := ssEnd_tls code hd
    rw [if_pos htop, endWindow_found hidx hf]
    refine ⟨?_, hm.window, hm.own, ?_, hm.past_window⟩
    · intro tid'
      dsimp only
      rw [hg]
      rcases eq_or_ne tid' tid with rfl | hne
      · rw [Function.update_self, Function.update_self]
        exact (hm.threads tid').pop hd g
      · rw [Function.update_of_ne hne, Function.update_of_ne hne]
        exact hm.threads tid'
    · intro x hx hidx
      have hle := hm.past_frame x hx hidx
      dsimp only
      rw [hg]
      rcases eq_or_ne x.armTid tid with heq | hne
      · rw [heq, Function.update_self]
        rw [heq] at hle
        exact hle
      · rw [Function.update_of_ne hne]
        exact hle
  | stale hidx hf =>
    rw [if_neg (hm.stale hf), if_neg (hm.hw_ne hidx), endWindow_stale hidx hf]
    exact hm.same (flagTrace_tls _ _) rfl rfl rfl
  | window hidx hw hg ht hown =>
    obtain ⟨h1, h2, h3, -⟩ := endWindow_hw code drain tid trace hidx hw hg ht
    rw [if_neg (hm.top_ne hidx), if_pos hown]
    refine ⟨by rw [h3]; exact hm.threads, by rw [h1]; rfl, ?_, by rw [h3]; exact hm.past_frame,
      by rw [h2]; exact hm.past_window⟩
    intro x hx
    cases hx
  | mismatch hidx hno =>
    rw [if_neg (hm.top_ne hidx), if_neg (hm.mismatch hno), endWindow_mismatch hidx hno]
    exact hm.same (flagTrace_tls _ _) rfl rfl rfl

theorem Matches.call (hm : Matches s b) {c : Call} (hok : CallOk s b c) :
    Matches (step code drain s c) (bookStep s b c) := by
  cases c with
  | beginWindow env tid trace g out => exact (hm.beginWindow env tid trace g out hok.1 hok.2).1
  | beginScope env tid name => exact (hm.beginScope env tid name hok).1
  | endWindow tid h trace => exact hm.endWindow hok
  | trap tid rip => exact hm.trap tid rip

/-- In every state of a run the book and the stacks agree. -/
theorem Reach.matches (hr : Reach code drain s b) : Matches s b := by
  induction hr with
  | start inited backend regions traces => exact Matches.start inited backend regions traces
  | call c _ hok ih => exact ih.call hok

theorem NamesOpenScope.closesOwn (hm : Matches s b) (hok : NamesOpenScope s b tid h) :
    ClosesOwn code drain s b tid h trace := by
  rw [ClosesOwn]
  cases hok.closed hm with
  | top f hidx hf htop =>
    obtain ⟨hdepth, -⟩ := (hm.threads tid).lookup_top htop
    obtain ⟨g, hg⟩ := ssEnd_tls code (show (s.proc.tls tid).depth ≠ 0 by omega)
    rw [if_pos htop, endWindow_found hidx hf]
    dsimp only
    rw [hg, Function.update_self]
    refine ⟨fun tid' hne => Function.update_of_ne hne _ _, ?_, ?_, ?_, rfl, rfl, rfl⟩
    · dsimp only
      omega
    · intro i hi
      exact List.getElem?_set_ne (by omega)
    · intro id hid
      apply ssEnd_traces_ne
      rw [← hdepth, Nat.add_sub_cancel]
      exact hid
  | stale hidx hf =>
    rw [if_neg (hm.stale hf), if_neg (hm.hw_ne hidx), endWindow_stale hidx hf]
    dsimp only
    rw [flagTrace_tls]
    exact ⟨fun _ _ => rfl, rfl, rfl, rfl, rfl, rfl⟩
  | window hidx hw hg ht hown =>
    obtain ⟨h1, -, h3, h4⟩ := endWindow_hw code drain tid trace hidx hw hg ht
    rw [if_neg (hm.top_ne hidx), if_pos hown, h3]
    exact ⟨fun _ _ => rfl, rfl, h1, h4⟩
  | mismatch hidx hno =>
    rw [if_neg (hm.top_ne hidx), if_neg (hm.mismatch hno), endWindow_mismatch hidx hno]
    dsimp only
    rw [flagTrace_tls]
    exact ⟨fun _ _ => rfl, rfl, rfl, rfl, rfl, rfl⟩

/-- A close that does what it should, with a trace to report into, was one of the condition. -/
theorem namesOpenScope_of_closesOwn (hm : Matches s b) {id : ℕ}
    (hclean : (s.proc.traces id).truncated = false)
    (hc : ClosesOwn code drain s b tid h (some id)) : NamesOpenScope s b tid h := by
  rw [ClosesOwn] at hc
  constructor
  · intro hidx f hf
    by_cases htop : (b.stack tid).getLast? = some h
    · exact ((hm.threads tid).lookup_top htop).1
    · -- a frame was popped that the handle does not name, or none and nothing was reported
      exfalso
      rw [if_neg htop, if_neg (hm.hw_ne hidx), endWindow_found hidx hf] at hc
      obtain ⟨-, hsame, -, -, -, hproc⟩ := hc
      dsimp only at hsame hproc
      by_cases hd : (s.proc.tls tid).depth = 0
      · rw [ssEnd, if_pos hd] at hproc
        have := congrArg (fun p => (p.traces id).truncated) hproc
        simp [flagTrace, Trace.markTruncated, hclean] at this
      · obtain ⟨g, hg⟩ := ssEnd_tls code hd
        rw [hg, Function.update_self] at hsame
        have := congrArg Tls.depth hsame
        dsimp only at this
        omega
  · intro hidx hw hg ht
    by_contra hown
    rw [if_neg (hm.top_ne hidx), if_neg hown] at hc
    have h1 := (endWindow_hw code drain tid (some id) hidx hw hg ht).1
    rw [hc.2.2.1] at h1
    rw [h1] at hw
    cases hw

/-- The state and the book after some calls -/
def runCalls (code : ℕ → ℕ → Code) (drain : ℕ → Trace → Trace) (s : Hw) (b : Book) (calls : List Call) :
    Hw × Book :=
  calls.foldl (fun q c => (step code drain q.1 c, bookStep q.1 q.2 c)) (s, b)

/-- A decoder and a drain for the runs below, which need neither -/
def idleCode : ℕ → ℕ → Code := fun _ _ => Hwtrace.unitCode 100 []

def idleDrain : ℕ → Trace → Trace := fun _ t => t

/-- A call of thread 7 that succeeds if the backend can do it -/
def openWindow (trace : ℕ) (out : Bool) : Call :=
  .beginWindow { os := ⟨true, true⟩, ptCtx := some 0 } 7 (some trace) none out

def runFresh (backend : Backend) (calls : List Call) : Hw × Book :=
  runCalls idleCode idleDrain (Hw.start true backend [] fun _ => ⟨none, 0, 0, none, 0, 0, false⟩)
    Book.empty calls

end Close

end AsmTest.Ss
