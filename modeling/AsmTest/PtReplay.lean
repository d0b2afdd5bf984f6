import AsmTest.ValTrace

/-!
# Replaying a recorded path

`asmtest_dataflow_pt_replay_path` runs a region in an emulator and compares each instruction with a
recorded path. The emulator is a deterministic engine that calls the code hook before each
instruction and stops at the return sentinel, at the instruction count, or when a hook asks.
-/

namespace AsmTest.Dataflow

/-- `DF_PT_*` -/
inductive PtStatus
  | ok
  | fault
  | einval
  deriving DecidableEq, Repr

/-- `DF_CODE_BASE` -/
def dfCodeBase : BitVec 64 := 0x00100000

/-- `DF_CODE_SIZE` -/
def dfCodeSize : ℕ := 0x00010000

/-- `DF_RET_MAGIC` -/
def dfRetMagic : BitVec 64 := 0x00f00000

/-- A memory access, as the memory hooks are told of it -/
structure Access where
  isWrite : Bool
  addr : BitVec 64
  size : ℤ
  value : BitVec 64
  deriving DecidableEq, Repr

/-- The emulator. `boot` is its state with the code written, the registers zeroed, the sentinel on
the stack and the arguments in their registers. -/
structure Engine (σ : Type*) where
  boot : List (BitVec 8) → List (BitVec 64) → σ
  pc : σ → BitVec 64
  /-- The instruction at `pc`, `none` where it faults -/
  step : σ → Option σ
  regRead : σ → BitVec 32 → Option (BitVec 64)
  /-- What the instruction at `pc` accesses, in order -/
  accesses : σ → List Access

/-- What the replay asks about the region: the operands of the instruction at an offset, reads and
writes, and the two verdicts of the block-step tier with their reasons. -/
structure Region where
  code : List (BitVec 8)
  operands : BitVec 64 → List ValRec × List ValRec
  isReplayable : ℤ × Option String
  isPure : ℤ × Option String

/-- `df_pt_ctx`; `cur` is the open step, its offset and its records. -/
structure PtCtx where
  vt : ValTrace
  cur : Option (BitVec 64 × List ValRec)
  step : ℕ
  diverged : Bool
  divergedAt : ℕ

/-- `asmtest_dataflow_pt_info_t` -/
structure PtInfo where
  isPure : Bool
  reason : Option String
  steps : ℕ
  pathLen : ℕ
  divergedAt : ℕ
  deriving DecidableEq, Repr

section Model

variable {σ : Type*} (e : Engine σ) (g : Region)

/-- The value of a register write, readable once the instruction has executed -/
def fillWrite (s : σ) (r : ValRec) : ValRec :=
  if r.isWrite ∧ r.kind = .reg ∧ r.valueValid = false then
    match e.regRead s r.reg with
    | some value => { r with value, valueValid := true }
    | none => r
  else r

def dfFinalize (s : σ) (c : PtCtx) : PtCtx :=
  match c.cur with
  | none => c
  | some (off, recs) =>
    { c with vt := valtraceAppend c.vt off (recs.map (fillWrite e s)), cur := none }

/-- The register records of a step at its own hook: reads with their values, then writes without. -/
def openRecs (s : σ) (off : BitVec 64) : List ValRec :=
  ((g.operands off).1.filter fun r => r.kind = .reg).map (fun r =>
    match e.regRead s r.reg with
    | some value => { r with value, valueValid := true }
    | none => r) ++
  ((g.operands off).2.filter fun r => r.kind = .reg).map fun r => { r with valueValid := false }

def dfOnCode (path : List (BitVec 64)) (s : σ) (c : PtCtx) : PtCtx :=
  if c.diverged then c
  else
    let c := dfFinalize e s c
    let off := e.pc s - dfCodeBase
    if path[c.step]? = some off then
      { c with step := c.step + 1, cur := some (off, openRecs e g s off) }
    else
      { c with diverged := true, divergedAt := c.step, vt := { c.vt with truncated := true } }

def dfOnMem (c : PtCtx) (a : Access) : PtCtx :=
  match c.cur with
  | none => c
  | some (off, recs) =>
    let size := a.size.toNat % 2 ^ 16
    let r : ValRec := { kind := .memAbs, addr := a.addr, size, isWrite := a.isWrite }
    { c with cur := some (off, recs ++
      [if size ≤ 8 then { r with value := a.value, valueValid := true } else r]) }

/-- `uc_emu_start` with the count given; the last part is whether it reports an error. -/
def emuStart (path : List (BitVec 64)) : ℕ → σ → PtCtx → σ × PtCtx × Bool
  | 0, s, c => (s, c, false)
  | count + 1, s, c =>
    if e.pc s = dfRetMagic then (s, c, false)
    else
      let c := dfOnCode e g path s c
      if c.diverged then (s, c, false)
      else
        let c := (e.accesses s).foldl dfOnMem c
        match e.step s with
        | none => (s, c, true)
        | some s' => emuStart path count s' c

/-- `asmtest_dataflow_pt_replay_path`: the status, the value trace and the telemetry -/
def ptReplayPath (path args : List (BitVec 64)) (vt : ValTrace) : PtStatus × ValTrace × PtInfo :=
  if g.code = [] ∨ 6 < args.length then (.einval, vt, ⟨false, none, 0, 0, 0⟩)
  else
    let vt := { vt with memSpace := .memAbs }
    if g.isReplayable.1 = 0 then
      (.fault, { vt with truncated := true }, ⟨false, g.isReplayable.2, 0, path.length, 0⟩)
    else if g.isPure.1 = 0 then
      (.fault, { vt with truncated := true }, ⟨false, g.isPure.2, 0, path.length, 0⟩)
    else
      let r := emuStart e g path (path.length + 1) (e.boot (g.code.take dfCodeSize) args)
        ⟨vt, none, 0, false, 0⟩
      let c := if r.2.1.diverged then r.2.1 else dfFinalize e r.1 r.2.1
      let info : PtInfo :=
        ⟨g.isPure.1 = 1, none, c.vt.stepsLen, path.length, c.divergedAt⟩
      if c.diverged then
        (.fault, c.vt, { info with reason := "path divergence (nondeterministic input?)" })
      else if r.2.2 then
        (.fault, { c.vt with truncated := true }, { info with reason := "unicorn fault" })
      else (.ok, c.vt, info)

end Model

section Spec

variable {σ : Type*} (e : Engine σ) (g : Region)

/-- From this state the engine executes exactly these offsets and then stands at the sentinel. -/
inductive Returns : σ → List (BitVec 64) → Prop
  | done {s : σ} : e.pc s = dfRetMagic → Returns s []
  | exec {s s' : σ} {offs : List (BitVec 64)} : e.pc s ≠ dfRetMagic → e.step s = some s' →
      Returns s' offs → Returns s ((e.pc s - dfCodeBase) :: offs)

/-- The records of the next `n` instructions -/
def recsNeeded : ℕ → σ → ℕ
  | 0, _ => 0
  | n + 1, s => (openRecs e g s (e.pc s - dfCodeBase)).length + (e.accesses s).length +
      (e.step s).elim 0 (recsNeeded n)

end Spec

variable {σ : Type*} {e : Engine σ} {g : Region}

section Room

/-- The trace has room for the open step and for `n` more instructions from `s`. -/
structure Room (e : Engine σ) (g : Region) (n : ℕ) (s : σ) (c : PtCtx) : Prop where
  whole : c.vt.truncated = false
  steps : c.vt.stepsLen + (c.cur.elim 0 fun _ => 1) + n ≤ c.vt.stepsCap
  recs : c.vt.recs.length + (c.cur.elim 0 fun cur => cur.2.length) + recsNeeded e g n s ≤
    c.vt.recsCap

variable {n : ℕ} {s : σ} {c : PtCtx}

theorem valtraceAppend_room {v : ValTrace} (off : BitVec 64) {l : List ValRec}
    (hsteps : v.stepsLen < v.stepsCap) (hrecs : v.recs.length + l.length ≤ v.recsCap) :
    (valtraceAppend v off l).truncated = v.truncated ∧
      (valtraceAppend v off l).stepsLen = v.stepsLen + 1 ∧
      (valtraceAppend v off l).stepsCap = v.stepsCap ∧
      (valtraceAppend v off l).recsCap = v.recsCap ∧
      (valtraceAppend v off l).recs.length = v.recs.length + l.length := by
  have hroom : v.insnOff.length < v.stepsCap := hsteps
  rw [valtraceAppend]
  dsimp only
  rw [if_pos hroom, foldl_pushRec_of_room _ _ (by exact hrecs)]
  refine ⟨rfl, ?_, rfl, rfl, ?_⟩
  · rw [ValTrace.stepsLen, ValTrace.stepsLen, List.length_append]
    rfl
  · rw [List.length_append, List.length_map]

theorem Room.finalize (h : Room e g n s c) (t : σ) :
    Room e g n s (dfFinalize e t c) ∧ (dfFinalize e t c).cur = none := by
  obtain ⟨hwhole, hsteps, hrecs⟩ := h
  rcases hcur : c.cur with _ | ⟨off, recs⟩
  · have hc : dfFinalize e t c = c := by
      rw [dfFinalize, hcur]
    rw [hc]
    exact ⟨⟨hwhole, hsteps, hrecs⟩, hcur⟩
  · rw [hcur] at hsteps hrecs
    simp only [Option.elim_some] at hsteps hrecs
    obtain ⟨h1, h2, h3, h4, h5⟩ := @valtraceAppend_room c.vt off (recs.map (fillWrite e t))
      (by omega) (by rw [List.length_map]; omega)
    rw [List.length_map] at h5
    rw [dfFinalize, hcur]
    refine ⟨⟨h1.trans hwhole, ?_, ?_⟩, rfl⟩
    · dsimp only [Option.elim_none]
      omega
    · dsimp only [Option.elim_none]
      omega

theorem foldl_dfOnMem {off : BitVec 64} (l : List Access) {recs : List ValRec}
    (hcur : c.cur = some (off, recs)) :
    ∃ new : List ValRec, l.foldl dfOnMem c = { c with cur := some (off, recs ++ new) } ∧
      new.length = l.length := by
  induction l generalizing c recs with
  | nil =>
    refine ⟨[], ?_, rfl⟩
    rw [List.append_nil, ← hcur]
    rfl
  | cons a l ih =>
    have hmem : ∃ r, dfOnMem c a = { c with cur := some (off, recs ++ [r]) } := by
      rw [dfOnMem, hcur]
      exact ⟨_, rfl⟩
    obtain ⟨r, hmem⟩ := hmem
    obtain ⟨new, hnew, hlen⟩ := @ih { c with cur := some (off, recs ++ [r]) } (recs ++ [r]) rfl
    refine ⟨r :: new, ?_, by rw [List.length_cons, List.length_cons, hlen]⟩
    rw [List.foldl_cons, hmem, hnew, List.append_assoc, List.singleton_append]

/-- A step that is on the path is opened, and its accesses are added. -/
theorem Room.next {path : List (BitVec 64)} (h : Room e g (n + 1) s c) (hdiv : c.diverged = false)
    (hstep : path[c.step]? = some (e.pc s - dfCodeBase)) :
    ∃ c', (e.accesses s).foldl dfOnMem (dfOnCode e g path s c) = c' ∧ c'.diverged = false ∧
      c'.step = c.step + 1 ∧ (dfOnCode e g path s c).diverged = false ∧
      ∀ s', (e.step s).elim 0 (recsNeeded e g n) = recsNeeded e g n s' ∨
        recsNeeded e g n s' = 0 → Room e g n s' c' := by
  obtain ⟨hfin, hnone⟩ := h.finalize s
  have hdiv' : (dfFinalize e s c).diverged = false ∧ (dfFinalize e s c).step = c.step := by
    rw [dfFinalize]
    rcases c.cur with _ | ⟨off, recs⟩ <;> exact ⟨hdiv, rfl⟩
  have hcode : dfOnCode e g path s c = { dfFinalize e s c with
      step := c.step + 1
      cur := some (e.pc s - dfCodeBase, openRecs e g s (e.pc s - dfCodeBase)) } := by
    rw [dfOnCode, if_neg (by simp [hdiv])]
    dsimp only
    rw [hdiv'.2, if_pos hstep]
  obtain ⟨new, hnew, hlen⟩ := foldl_dfOnMem (e.accesses s)
    (show (dfOnCode e g path s c).cur = some (e.pc s - dfCodeBase, _) by rw [hcode])
  refine ⟨_, hnew, ?_, ?_, ?_, fun s' hneed => ?_⟩
  · rw [hcode]
    exact hdiv'.1
  · rw [hcode]
  · rw [hcode]
    exact hdiv'.1
  · obtain ⟨hwhole, hsteps, hrecs⟩ := hfin
    rw [hnone] at hsteps hrecs
    rw [recsNeeded] at hrecs
    simp only [Option.elim_none] at hsteps hrecs
    rw [hcode]
    refine ⟨hwhole, ?_, ?_⟩
    · simp only [Option.elim_some]
      omega
    · simp only [Option.elim_some, List.length_append, hlen]
      omega

end Room

section Emulation

variable {s : σ} {c : PtCtx} {path rest : List (BitVec 64)}

/-- The engine from a state on returns after a part of the path. -/
def ReturnsWithin (e : Engine σ) (s : σ) (path : List (BitVec 64)) : Prop :=
  ∃ pre, pre <+: path ∧ Returns e s pre

theorem returnsWithin_of_ret (h : e.pc s = dfRetMagic) : ReturnsWithin e s rest :=
  ⟨[], List.nil_prefix, .done h⟩

theorem returnsWithin_cons {off : BitVec 64} (hpc : e.pc s ≠ dfRetMagic) :
    ReturnsWithin e s (off :: rest) ↔
      off = e.pc s - dfCodeBase ∧ ∃ s', e.step s = some s' ∧ ReturnsWithin e s' rest := by
  constructor
  · rintro ⟨pre, hpre, hret⟩
    cases hret with
    | done hdone => exact absurd hdone hpc
    | exec _ hstep hrest =>
      obtain ⟨hoff, hpre⟩ := List.cons_prefix_cons.1 hpre
      exact ⟨hoff.symm, _, hstep, _, hpre, hrest⟩
  · rintro ⟨rfl, s', hstep, pre, hpre, hret⟩
    exact ⟨_, List.cons_prefix_cons.2 ⟨rfl, hpre⟩, .exec hpc hstep hret⟩

theorem dfOnCode_diverges (hdiv : c.diverged = false)
    (hoff : path[c.step]? ≠ some (e.pc s - dfCodeBase)) :
    (dfOnCode e g path s c).diverged = true ∧ (dfOnCode e g path s c).vt.truncated = true := by
  have hstep : (dfFinalize e s c).step = c.step := by
    rw [dfFinalize]
    rcases c.cur with _ | ⟨off, recs⟩ <;> rfl
  rw [dfOnCode, if_neg (by simp [hdiv])]
  dsimp only
  rw [hstep, if_neg hoff]
  exact ⟨rfl, rfl⟩

/-- What the emulation of the rest of the path comes to: it returns on the path with the trace
whole, it diverges and marks the trace, or it faults. -/
theorem emuStart_spec (hrest : path.drop c.step = rest) (hdiv : c.diverged = false)
    (hroom : Room e g rest.length s c) :
    (ReturnsWithin e s rest ∧ ∃ s' c', emuStart e g path (rest.length + 1) s c = (s', c', false) ∧
      c'.diverged = false ∧ (dfFinalize e s' c').vt.truncated = false) ∨
    (¬ReturnsWithin e s rest ∧ ∃ s' c', emuStart e g path (rest.length + 1) s c = (s', c', false) ∧
      c'.diverged = true ∧ c'.vt.truncated = true) ∨
    (¬ReturnsWithin e s rest ∧ ∃ s' c', emuStart e g path (rest.length + 1) s c = (s', c', true) ∧
      c'.diverged = false) := by
  induction rest generalizing s c with
  | nil =>
    rw [emuStart]
    by_cases hpc : e.pc s = dfRetMagic
    · rw [if_pos hpc]
      exact .inl ⟨returnsWithin_of_ret hpc, s, c, rfl, hdiv, (hroom.finalize s).1.whole⟩
    · have hoff : path[c.step]? ≠ some (e.pc s - dfCodeBase) := by
        rw [List.getElem?_eq_none (List.drop_eq_nil_iff.1 hrest)]
        simp
      obtain ⟨hd, ht⟩ := @dfOnCode_diverges σ e g s c path hdiv hoff
      rw [if_neg hpc]
      dsimp only
      rw [if_pos hd]
      refine .inr (.inl ⟨?_, s, _, rfl, hd, ht⟩)
      rintro ⟨pre, hpre, hret⟩
      rw [List.prefix_nil.1 hpre] at hret
      cases hret with
      | done hdone => exact hpc hdone
  | cons off rest ih =>
    have hget : path[c.step]? = some off := by
      have hhead := congrArg List.head? hrest
      rwa [List.head?_drop] at hhead
    have htail : path.drop (c.step + 1) = rest := by
      rw [← List.tail_drop, hrest, List.tail_cons]
    rw [List.length_cons, emuStart]
    by_cases hpc : e.pc s = dfRetMagic
    · rw [if_pos hpc]
      exact .inl ⟨returnsWithin_of_ret hpc, s, c, rfl, hdiv, (hroom.finalize s).1.whole⟩
    rw [if_neg hpc, returnsWithin_cons hpc]
    dsimp only
    by_cases hoff : off = e.pc s - dfCodeBase
    · obtain ⟨c', hc', hdiv', hstep', hcode, hroom'⟩ := Room.next hroom hdiv (hoff ▸ hget)
      rw [if_neg (by simp [hcode]), hc']
      cases hstep : e.step s with
      | none =>
        refine .inr (.inr ⟨?_, s, c', rfl, hdiv'⟩)
        rintro ⟨-, s', hnone, -⟩
        cases hnone
      | some s' =>
        have hdrop : path.drop c'.step = rest := by
          rw [hstep']
          exact htail
        have hwithin : (off = e.pc s - dfCodeBase ∧ ∃ s₁, some s' = some s₁ ∧
            ReturnsWithin e s₁ rest) ↔ ReturnsWithin e s' rest := by
          simp [hoff]
        rw [hwithin]
        refine ih hdrop hdiv' (hroom' s' (.inl ?_))
        rw [hstep, Option.elim_some]
    · have hne : path[c.step]? ≠ some (e.pc s - dfCodeBase) := by
        rw [hget, Ne, Option.some.injEq]
        exact hoff
      obtain ⟨hd, ht⟩ := @dfOnCode_diverges σ e g s c path hdiv hne
      rw [if_pos hd]
      exact .inr (.inl ⟨fun h => hoff h.1, s, _, rfl, hd, ht⟩)

end Emulation

section Result

variable {path args : List (BitVec 64)} {vt : ValTrace}

/-- The replay of a region that passes the gates, into a trace with room for the path: it is clean
if the execution returns after a part of the path, and else it faults and marks the trace. -/
theorem ptReplayPath_spec (hcode : g.code ≠ []) (hargs : args.length ≤ 6)
    (hrep : g.isReplayable.1 ≠ 0) (hpure : g.isPure.1 ≠ 0) (hwhole : vt.truncated = false)
    (hsteps : vt.stepsLen + path.length ≤ vt.stepsCap)
    (hrecs : vt.recs.length +
      recsNeeded e g path.length (e.boot (g.code.take dfCodeSize) args) ≤ vt.recsCap) :
    (ReturnsWithin e (e.boot (g.code.take dfCodeSize) args) path →
      (ptReplayPath e g path args vt).1 = .ok ∧
        (ptReplayPath e g path args vt).2.1.truncated = false) ∧
    (¬ReturnsWithin e (e.boot (g.code.take dfCodeSize) args) path →
      (ptReplayPath e g path args vt).1 = .fault ∧
        (ptReplayPath e g path args vt).2.1.truncated = true) := by
  rw [ptReplayPath, if_neg (by simp [hcode, hargs])]
  dsimp only
  rw [if_neg hrep, if_neg hpure]
  have hroom : Room e g path.length (e.boot (g.code.take dfCodeSize) args)
      ⟨{ vt with memSpace := .memAbs }, none, 0, false, 0⟩ :=
    ⟨hwhole, hsteps, hrecs⟩
  obtain ⟨hret, s, c, hrun, hdiv, hfin⟩ | ⟨hret, s, c, hrun, hdiv, hmark⟩ |
      ⟨hret, s, c, hrun, hdiv⟩ := emuStart_spec (@List.drop_zero _ path) rfl hroom
  · have hdiv' : (dfFinalize e s c).diverged = false := by
      rw [dfFinalize]
      rcases c.cur with _ | ⟨off, recs⟩ <;> exact hdiv
    rw [hrun]
    simp only [hdiv, hdiv', hfin, hret, Bool.false_eq_true, if_false, not_true, forall_const,
      false_imp_iff, and_true]
  · rw [hrun]
    simp only [hdiv, hmark, hret, if_true, not_false_eq_true, forall_const, false_imp_iff,
      and_true]
  · have hdiv' : (dfFinalize e s c).diverged = false := by
      rw [dfFinalize]
      rcases c.cur with _ | ⟨off, recs⟩ <;> exact hdiv
    rw [hrun]
    simp only [hdiv, hdiv', hret, Bool.false_eq_true, if_false, if_true, not_false_eq_true,
      forall_const, false_imp_iff, and_true]

/-- The execution is back at the sentinel before the path is used up. -/
def ReturnsEarly (e : Engine σ) (s : σ) (path : List (BitVec 64)) : Prop :=
  ∃ pre rest, path = pre ++ rest ∧ rest ≠ [] ∧ Returns e s pre

/-- An execution is one only. -/
theorem Returns.unique {s : σ} {p q : List (BitVec 64)} (hp : Returns e s p) (hq : Returns e s q) :
    p = q := by
  induction hp generalizing q with
  | done hdone =>
    cases hq with
    | done => rfl
    | exec hpc => exact absurd hdone hpc
  | exec hpc hstep _ ih =>
    cases hq with
    | done hdone => exact absurd hdone hpc
    | exec _ hstep' hrest =>
      rw [hstep, Option.some.injEq] at hstep'
      subst hstep'
      rw [ih hrest]

theorem returnsWithin_iff {s : σ} :
    ReturnsWithin e s path ↔ Returns e s path ∨ ReturnsEarly e s path := by
  constructor
  · rintro ⟨pre, ⟨rest, rfl⟩, hret⟩
    cases rest with
    | nil =>
      rw [List.append_nil]
      exact .inl hret
    | cons off rest => exact .inr ⟨pre, off :: rest, rfl, List.cons_ne_nil _ _, hret⟩
  · rintro (hret | ⟨pre, rest, rfl, -, hret⟩)
    · exact ⟨path, List.prefix_rfl, hret⟩
    · exact ⟨pre, List.prefix_append _ _, hret⟩

/-- A replay of a region that passes the gates, into a trace with room for the path, is clean with
the trace whole if and only if the path is what the engine executes, and else faults and marks the
trace: exactly if the execution does not return before the path is used up. -/
theorem ptReplayPath_whole_iff (hcode : g.code ≠ []) (hargs : args.length ≤ 6)
    (hrep : g.isReplayable.1 ≠ 0) (hpure : g.isPure.1 ≠ 0) (hwhole : vt.truncated = false)
    (hsteps : vt.stepsLen + path.length ≤ vt.stepsCap)
    (hrecs : vt.recs.length +
      recsNeeded e g path.length (e.boot (g.code.take dfCodeSize) args) ≤ vt.recsCap) :
    (((ptReplayPath e g path args vt).1 = .ok ∧
        (ptReplayPath e g path args vt).2.1.truncated = false ↔
          Returns e (e.boot (g.code.take dfCodeSize) args) path) ∧
      (¬Returns e (e.boot (g.code.take dfCodeSize) args) path →
        (ptReplayPath e g path args vt).1 = .fault ∧
          (ptReplayPath e g path args vt).2.1.truncated = true)) ↔
    ¬ReturnsEarly e (e.boot (g.code.take dfCodeSize) args) path := by
  obtain ⟨hclean, hfault⟩ := ptReplayPath_spec hcode hargs hrep hpure hwhole hsteps hrecs
  rw [returnsWithin_iff] at hclean hfault
  constructor
  · rintro ⟨hiff, -⟩ hearly
    have hret := hiff.1 (hclean (.inr hearly))
    obtain ⟨pre, rest, hpath, hne, hpre⟩ := hearly
    have heq := hret.unique hpre
    rw [hpath] at heq
    exact hne (List.append_right_eq_self.1 heq)
  · intro hearly
    have hout : ¬Returns e (e.boot (g.code.take dfCodeSize) args) path →
        (ptReplayPath e g path args vt).1 = .fault ∧
          (ptReplayPath e g path args vt).2.1.truncated = true := fun hret =>
      hfault (not_or.2 ⟨hret, hearly⟩)
    refine ⟨⟨fun hok => ?_, fun hret => hclean (.inl hret)⟩, hout⟩
    by_contra hret
    rw [(hout hret).1] at hok
    cases hok.1

end Result

section MovRet

/-- The registers that `mov rax, rdi; ret` uses -/
structure MovRet where
  pc : BitVec 64
  rax : BitVec 64
  rdi : BitVec 64
  rsp : BitVec 64
  deriving DecidableEq, Repr

/-- The emulator on `mov rax, rdi; ret` -/
def movRetEngine : Engine MovRet where
  boot _ args := ⟨dfCodeBase, 0, args.headD 0, 0x0020fff8⟩
  pc s := s.pc
  step s :=
    if s.pc = dfCodeBase then some { s with pc := dfCodeBase + 3, rax := s.rdi }
    else if s.pc = dfCodeBase + 3 then some { s with pc := dfRetMagic, rsp := s.rsp + 8 }
    else none
  regRead s reg := if reg = 35 then some s.rax else if reg = 39 then some s.rdi
    else if reg = 44 then some s.rsp else none
  accesses s := if s.pc = dfCodeBase + 3 then [⟨false, s.rsp, 8, dfRetMagic⟩] else []

def movRet : Region where
  code := [0x48, 0x89, 0xf8, 0xc3]
  operands off :=
    if off = 0 then
      ([{ kind := .reg, reg := 39, size := 8 }],
        [{ kind := .reg, reg := 35, size := 8, isWrite := true }])
    else if off = 3 then
      ([{ kind := .reg, reg := 44, size := 8 }],
        [{ kind := .reg, reg := 44, size := 8, isWrite := true }])
    else ([], [])
  isReplayable := (1, none)
  isPure := (1, none)

theorem returns_movRet : Returns movRetEngine (movRetEngine.boot (movRet.code.take dfCodeSize) [7])
    [0, 3] :=
  .exec (by decide) rfl (.exec (by decide) rfl (.done rfl))

/-- The recorded path goes on after the return, and the replay is taken for a clean one. -/
theorem ptReplayPath_early :
    (ptReplayPath movRetEngine movRet [0, 3, 4] [7] (valtraceNew 8 8)).1 = .ok ∧
      (ptReplayPath movRetEngine movRet [0, 3, 4] [7] (valtraceNew 8 8)).2.1.truncated = false ∧
      ¬Returns movRetEngine (movRetEngine.boot (movRet.code.take dfCodeSize) [7]) [0, 3, 4] := by
  refine ⟨by decide +kernel, by decide +kernel, fun h => ?_⟩
  exact absurd (h.unique returns_movRet) (by decide)

theorem ptReplayPath_whole_iff_movRet :
    (((ptReplayPath movRetEngine movRet [0, 3] [7] (valtraceNew 8 8)).1 = .ok ∧
        (ptReplayPath movRetEngine movRet [0, 3] [7] (valtraceNew 8 8)).2.1.truncated = false ↔
          Returns movRetEngine (movRetEngine.boot (movRet.code.take dfCodeSize) [7]) [0, 3]) ∧
      (¬Returns movRetEngine (movRetEngine.boot (movRet.code.take dfCodeSize) [7]) [0, 3] →
        (ptReplayPath movRetEngine movRet [0, 3] [7] (valtraceNew 8 8)).1 = .fault ∧
          (ptReplayPath movRetEngine movRet [0, 3] [7] (valtraceNew 8 8)).2.1.truncated = true)) ↔
    ¬ReturnsEarly movRetEngine (movRetEngine.boot (movRet.code.take dfCodeSize) [7]) [0, 3] :=
  ptReplayPath_whole_iff (by decide) (by decide) (by decide) (by decide) rfl (by decide)
    (by decide +kernel)

end MovRet

end AsmTest.Dataflow
