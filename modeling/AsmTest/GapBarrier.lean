import AsmTest.VecAlias
import Mathlib.Data.List.Sort

/-!
# The gap barrier of a value capture

A capture steps over code that it does not record: the glue between the regions of a window, or a
callee. What the capture has recorded as written is at risk there. At the end of the excursion
`dfp_emit_gap` compares every register name and every memory byte at risk with what it held before
and appends a step that writes those that changed. The def-use builder then files a name under the
bytes of its container, or under its own id.
-/

namespace AsmTest.Dataflow.Gap

open LastWriter

section Source

/-- `DFP_WIN_RISK_REGS` -/
def winRiskRegs : ℕ := 96

/-- `DFP_WIN_RISK_BYTES` -/
def winRiskBytes : ℕ := 4096

/-- The tracee at a stop: its registers by the id of the container, its vector registers by number
and byte, what its memory reads as, and whether the vector file and its upper half can be read -/
structure Machine where
  gp : ℕ → BitVec 64
  vec : ℕ → ℕ → BitVec 8
  mem : BitVec 64 → Option (BitVec 8)
  vecOk : Bool
  vecHi : Bool

/-- The switch of `gp_value`: the containers, RIP and EFLAGS -/
def gpCases : List (ℕ × List ℕ) :=
  containerCases ++ [(41, [41]), (25, [25])]

def gpValue (m : Machine) (reg : BitVec 32) : Option (BitVec 64) :=
  (switchOn gpCases reg.toNat).map m.gp

/-- The switch of `dfp_alias_shape`: shift and width, and the aliases of that shape -/
def shapeCases : List ((ℕ × ℕ) × List ℕ) := [
  ((0, 8), [35, 37, 38, 40, 43, 39, 36, 44, 106, 107, 108, 109, 110, 111, 112, 113, 41, 25]),
  ((0, 4), [19, 21, 22, 24, 29, 23, 20, 30, 226, 227, 228, 229, 230, 231, 232, 233]),
  ((0, 2), [3, 8, 12, 18, 45, 14, 6, 47, 234, 235, 236, 237, 238, 239, 240, 241]),
  ((0, 1), [2, 5, 10, 16, 46, 15, 7, 48, 218, 219, 220, 221, 222, 223, 224, 225]),
  ((8, 1), [1, 4, 9, 13])]

def aliasShape (reg : BitVec 32) : Option (ℕ × ℕ) :=
  switchOn shapeCases reg.toNat

def aliasSlice (container : BitVec 64) (shift width : ℕ) : BitVec 64 :=
  let v := container >>> shift
  if width < 8 then v &&& (1#64 <<< (width * 8) - 1#64) else v

/-- `vec_width` of the single-step producer, which does not read ZMM registers -/
def vecWidth (reg : BitVec 32) : ℕ :=
  if xmm0 ≤ reg.toNat ∧ reg.toNat ≤ xmm0 + 31 then 16
  else if ymm0 ≤ reg.toNat ∧ reg.toNat ≤ ymm0 + 31 then 32
  else 0

/-- `idx` of a vector register -/
def vecIdx (reg : BitVec 32) : ℕ :=
  reg.toNat - if vecWidth reg = 16 then xmm0 else ymm0

/-- A snapshot of the vector file does not hold the register. -/
def vecUnread (pre post : Machine) (idx : ℕ) : Bool :=
  decide (31 < idx) || !pre.vecOk || !post.vecOk || decide (16 ≤ idx) && (!pre.vecHi || !post.vecHi)

/-- `dfp_riskset` without its snapshot -/
structure Risk where
  regs : List (BitVec 32) := []
  addrs : List (BitVec 64) := []
  overflow : Bool := false
  pending : Bool := false

/-- `dfp_risk_flag`; a window truncates at once. -/
def Risk.flag (win : Bool) (risk : Risk) : Risk :=
  { risk with overflow := true, pending := risk.pending || !win }

/-- The bytes of one memory write, up to the cap; the addresses are kept sorted. -/
def riskAddBytes (addrs : List (BitVec 64)) : List (BitVec 64) → List (BitVec 64) × Bool
  | [] => (addrs, false)
  | a :: rest =>
    if a ∈ addrs then riskAddBytes addrs rest
    else if addrs.length = winRiskBytes then (addrs, true)
    else riskAddBytes (addrs.orderedInsert (· ≤ ·) a) rest

/-- `dfp_risk_add` -/
def riskAdd (win : Bool) (risk : Risk) (r : ValRec) : Risk :=
  if r.isWrite = false then risk
  else if r.kind = .reg then
    if r.reg ∈ risk.regs then risk
    else if risk.regs.length = winRiskRegs then risk.flag win
    else { risk with regs := risk.regs ++ [r.reg] }
  else if r.size = 0 ∨ 64 < r.size then risk.flag win
  else
    let t := riskAddBytes risk.addrs ((List.range r.size).map fun b => r.addr + BitVec.ofNat 64 b)
    if t.2 then { risk with addrs := t.1 }.flag win else { risk with addrs := t.1 }

/-- What the comparison of a location comes to -/
inductive Verdict where
  | undecided
  | same
  | changed (r : ValRec)

/-- The comparison of a register name; `stash` is where the sink puts a wide value, if it has
room. -/
def gapReg (pre post : Machine) (stash : BitVec 32 → Option (BitVec 32)) (reg : BitVec 32) :
    Verdict :=
  if vecWidth reg = 0 then
    match gpValue pre reg, gpValue post reg, aliasShape reg with
    | some a, some b, some (shift, width) =>
      if aliasSlice a shift width = aliasSlice b shift width then .same
      else .changed { kind := .reg, reg, isWrite := true, size := width, value := b,
                      valueValid := true }
    | _, _, _ => .undecided
  else
    if vecUnread pre post (vecIdx reg) then .undecided
    else if ∀ b < vecWidth reg, pre.vec (vecIdx reg) b = post.vec (vecIdx reg) b then .same
    else
      match stash reg with
      | none => .undecided
      | some off => .changed { kind := .reg, reg, isWrite := true, size := vecWidth reg,
                               wide := true, wideOff := off, valueValid := true }

/-- The comparison of a memory byte -/
def gapMem (pre post : Machine) (a : BitVec 64) : Verdict :=
  match pre.mem a, post.mem a with
  | some x, some now =>
    if now = x then .same
    else .changed { kind := .memAbs, addr := a, size := 1, isWrite := true,
                    value := now.setWidth 64, valueValid := true }
  | _, _ => .undecided

/-- The loop over the names: whether one is undecided, and the records; `n` is their number. -/
def gapRegs (verdict : BitVec 32 → Verdict) : List (BitVec 32) → ℕ → Bool × List ValRec
  | [], _ => (false, [])
  | reg :: rest, n =>
    if winRiskRegs ≤ n then (false, [])
    else
      match verdict reg with
      | .undecided => (true, (gapRegs verdict rest n).2)
      | .same => gapRegs verdict rest n
      | .changed r =>
        let t := gapRegs verdict rest (n + 1)
        (t.1, r :: t.2)

/-- The loop over the bytes: the records fill up the first batch, then the second. -/
def gapMems (verdict : BitVec 64 → Verdict) :
    List (BitVec 64) → ℕ → ℕ → Bool × List ValRec × List ValRec
  | [], _, _ => (false, [], [])
  | a :: rest, n, mn =>
    match verdict a with
    | .undecided => (true, (gapMems verdict rest n mn).2)
    | .same => gapMems verdict rest n mn
    | .changed r =>
      if n < winRiskRegs then
        let t := gapMems verdict rest (n + 1) mn
        (t.1, r :: t.2.1, t.2.2)
      else if mn < 64 then
        let t := gapMems verdict rest n (mn + 1)
        (t.1, t.2.1, r :: t.2.2)
      else (true, [], [])

/-- `dfp_emit_gap`: whether something could not be decided, and the batches to append -/
def dfpEmitGap (risk : Risk) (pre post : Machine) (stash : BitVec 32 → Option (BitVec 32)) :
    Bool × List (List ValRec) :=
  let g := gapRegs (gapReg pre post stash) risk.regs 0
  let m := gapMems (gapMem pre post) risk.addrs g.2.length 0
  let recs := g.2 ++ m.2.1
  (g.1 || m.1,
    if recs = [] ∧ m.2.2 = [] then [] else if m.2.2 = [] then [recs] else [recs, m.2.2])

end Source

section Captures

/-- An excursion: the number of appends before it, the names at risk, and the tracee at both ends -/
structure Excursion where
  pos : ℕ
  regs : List (BitVec 32)
  pre : Machine
  post : Machine
  stash : BitVec 32 → Option (BitVec 32)

/-- An append, with the excursion whose barrier it is -/
structure Call where
  off : BitVec 64
  recs : List ValRec
  gap : Option Excursion

/-- The capture so far -/
structure Cap where
  vt : ValTrace
  risk : Risk := {}
  calls : List Call := []
  gaps : List Excursion := []

namespace Cap

def append (c : Cap) (call : Call) : Cap :=
  { c with vt := valtraceAppend c.vt call.off call.recs, calls := c.calls ++ [call] }

/-- `finalize_step` -/
def finalizeStep (win : Bool) (off : BitVec 64) (recs : List ValRec) (c : Cap) : Cap :=
  let risk := recs.foldl (riskAdd win) c.risk
  let vt := { c.vt with truncated := c.vt.truncated || win && risk.overflow }
  { c with risk, vt }.append ⟨off, recs, none⟩

/-- The end of an excursion: the cap of the set is disclosed, and the barrier appended. -/
def emitGap (win : Bool) (pc : BitVec 64) (pre post : Machine)
    (stash : BitVec 32 → Option (BitVec 32)) (c : Cap) : Cap :=
  let e : Excursion := ⟨c.calls.length, c.risk.regs, pre, post, stash⟩
  let g := dfpEmitGap c.risk pre post stash
  let vt := { c.vt with truncated := c.vt.truncated || g.1 || !win && c.risk.pending }
  let c := { c with vt, risk := { c.risk with pending := c.risk.pending && win },
                    gaps := c.gaps ++ [e] }
  g.2.foldl (fun c recs => c.append ⟨pc, recs, some e⟩) c

end Cap

/-- What the loops of the capture do: a step is finalized, a step that is still open is appended as
it is, or an excursion ends. -/
inductive Act where
  | step (off : BitVec 64) (recs : List ValRec)
  | opened (off : BitVec 64) (recs : List ValRec)
  | gap (pc : BitVec 64) (pre post : Machine) (stash : BitVec 32 → Option (BitVec 32))

def Cap.act (win : Bool) (c : Cap) : Act → Cap
  | .step off recs => c.finalizeStep win off recs
  | .opened off recs => c.append ⟨off, recs, none⟩
  | .gap pc pre post stash => c.emitGap win pc pre post stash

/-- A run of a loop. An act appends at most two steps, and the trace numbers its steps with 32
bits; `DFP_STEP_BACKSTOP` is far below. -/
structure Run where
  win : Bool
  stepsCap : ℕ
  recsCap : ℕ
  acts : List Act
  bounded : acts.length < 2 ^ 31

def Run.cap (run : Run) : Cap :=
  run.acts.foldl (Cap.act run.win) { vt := valtraceNew run.stepsCap run.recsCap }

end Captures

section Spec

/-- A byte of the tracee; a register that is in no container is a container of its own. -/
inductive Byte where
  | gp (container off : ℕ)
  | vec (n off : ℕ)
  | mem (a : BitVec 64)
deriving DecidableEq, Repr

def Machine.byte (m : Machine) : Byte → Option (BitVec 8)
  | .gp container off => some ((m.gp container >>> (8 * off)).setWidth 8)
  | .vec n off => some (m.vec n off)
  | .mem a => m.mem a

/-- The bytes of a register that the builder files under its own id -/
def rawBytes (reg : BitVec 32) : List Byte :=
  match vecRegInfo reg with
  | some (n, width) => (List.range width).map (.vec n)
  | none => (List.range 8).map (.gp reg.toNat)

/-- The bytes that the builder files under a key -/
def keyBytes (k : LwKey) : List Byte :=
  if k.kind = 0#8 then rawBytes (k.a.setWidth 32)
  else if k.kind = 1#8 then [.mem k.a]
  else [.gp (k.a.toNat / 256) (k.a.toNat % 256)]

def bytesOf (r : ValRec) : List Byte :=
  (lwKeys r).flatMap keyBytes

/-- The keys under which the builder files a write of a register name: the bytes of its container
from its first on, all eight for a 32-bit name, or its id -/
def nameKeys (reg : BitVec 32) : List LwKey :=
  lwKeys { kind := .reg, reg, isWrite := true }

/-- The bytes that a name stands for; those of a ZMM register cannot be read. -/
def ownBytes (reg : BitVec 32) : List Byte :=
  match regSlice reg with
  | some s => (List.range s.len).map fun b => .gp s.container (s.off + b)
  | none =>
    if vecWidth reg ≠ 0 ∨ reg.toNat = 41 ∨ reg.toNat = 25 then rawBytes reg else []

namespace Excursion

variable (e : Excursion)

/-- A byte of the name is not what it was, and if it is a vector register its two values could be
read and the new one stored. -/
def Changes (reg : BitVec 32) : Prop :=
  (∃ b ∈ ownBytes reg, e.pre.byte b ≠ e.post.byte b) ∧
    ∀ n width, vecRegInfo reg = some (n, width) →
      e.pre.vecOk = true ∧ e.post.vecOk = true ∧
        (16 ≤ n → e.pre.vecHi = true ∧ e.post.vecHi = true) ∧ e.stash reg ≠ none

/-- A name at risk that the excursion changes is filed under the key too, or the key is a memory
byte that it changes. -/
def Hits (k : LwKey) : Prop :=
  (∃ reg ∈ e.regs, e.Changes reg ∧ k ∈ nameKeys reg) ∨
    k.kind = 1#8 ∧ e.pre.mem k.a ≠ e.post.mem k.a

end Excursion

namespace Cap

variable (c : Cap)

/-- A step of the trace that is no barrier -/
def Recorded (u : ℕ) : Prop :=
  ∃ call, c.calls[u]? = some call ∧ call.gap = none

def WritesByte (u : ℕ) (b : Byte) : Prop :=
  ∃ w ∈ c.vt.stepRecs u, w.isWrite = true ∧ b ∈ bytesOf w

def WritesKey (u : ℕ) (k : LwKey) : Prop :=
  ∃ w ∈ c.vt.stepRecs u, w.isWrite = true ∧ k ∈ lwKeys w

/-- Step `t` reads a byte that step `s` was the last recorded one to write, and no excursion in
between changed it. -/
structure TrueEdge (s t : ℕ) (r : ValRec) (b : Byte) : Prop where
  reader : c.Recorded t
  read : r ∈ c.vt.stepRecs t ∧ r.isWrite = false ∧ b ∈ bytesOf r
  lt : s < t
  writer : c.Recorded s ∧ c.WritesByte s b
  last : ∀ u, s < u → u < t → c.Recorded u → ¬c.WritesByte u b
  kept : ∀ e ∈ c.gaps, s < e.pos → e.pos ≤ t → e.pre.byte b = e.post.byte b

/-- The builder yields every true edge. -/
def Keeps : Prop :=
  ∀ s t r b, c.TrueEdge s t r b → ∃ g, defuseBuild c.vt = some g ∧ ⟨s, t, r⟩ ∈ g.edges

/-- Some key of the read is last written by step `s` among the recorded ones and hit by no excursion
in between. -/
def Exposed (s t : ℕ) (r : ValRec) : Prop :=
  ∃ k ∈ lwKeys r, c.WritesKey s k ∧
    (∀ u, s < u → u < t → c.Recorded u → ¬c.WritesKey u k) ∧
      ∀ e ∈ c.gaps, s < e.pos → e.pos ≤ t → ¬e.Hits k

end Cap

end Spec

section Slices

lemma getLsbD_sliceMask {width : ℕ} (hw : width < 8) (i : ℕ) :
    (1#64 <<< (width * 8) - 1#64).getLsbD i = decide (i < 8 * width) := by
  have hmask : 1#64 <<< (width * 8) - 1#64 = BitVec.ofNat 64 (2 ^ (8 * width) - 1) := by
    interval_cases width <;> rfl
  rw [hmask, BitVec.getLsbD_ofNat, Nat.testBit_two_pow_sub_one]
  by_cases hi : i < 8 * width
  · simp only [hi, decide_true, Bool.and_true, decide_eq_true_eq]
    omega
  · simp only [hi, decide_false, Bool.and_false]

lemma getLsbD_aliasSlice (v : BitVec 64) (off : ℕ) {width : ℕ} (hw : width ≤ 8) (i : ℕ) :
    (aliasSlice v (8 * off) width).getLsbD i =
      (decide (i < 8 * width) && v.getLsbD (8 * off + i)) := by
  unfold aliasSlice
  dsimp only
  split
  · rename_i hlt
    rw [BitVec.getLsbD_and, getLsbD_sliceMask hlt, BitVec.getLsbD_ushiftRight, Bool.and_comm]
  · rename_i hge
    obtain rfl : width = 8 := by omega
    rw [BitVec.getLsbD_ushiftRight]
    by_cases hi : i < 8 * 8
    · rw [decide_eq_true hi, Bool.true_and]
    · rw [decide_eq_false hi, Bool.false_and]
      exact BitVec.getLsbD_of_ge _ _ (by omega)

/-- Two containers have the same slice exactly when they agree on its bytes. -/
lemma aliasSlice_eq_iff (a b : BitVec 64) (off : ℕ) {width : ℕ} (hw : width ≤ 8) :
    aliasSlice a (8 * off) width = aliasSlice b (8 * off) width ↔
      ∀ o < width, (a >>> (8 * (off + o))).setWidth 8 = (b >>> (8 * (off + o))).setWidth 8 := by
  have hbyte : ∀ (v : BitVec 64) (o j : ℕ), ((v >>> (8 * (off + o))).setWidth 8).getLsbD j =
      (decide (j < 8) && v.getLsbD (8 * off + (8 * o + j))) := by
    intro v o j
    rw [BitVec.getLsbD_setWidth, BitVec.getLsbD_ushiftRight]
    congr 2
    omega
  constructor
  · intro h o ho
    apply BitVec.eq_of_getLsbD_eq
    intro j hj
    have hbit := congrArg (fun v => v.getLsbD (8 * o + j)) h
    simp only [getLsbD_aliasSlice _ _ hw, show 8 * o + j < 8 * width by omega, decide_true,
      Bool.true_and] at hbit
    rw [hbyte, hbyte, hbit]
  · intro h
    apply BitVec.eq_of_getLsbD_eq
    intro i _
    rw [getLsbD_aliasSlice _ _ hw, getLsbD_aliasSlice _ _ hw]
    by_cases hi : i < 8 * width
    · have hbit := congrArg (fun v => v.getLsbD (i % 8)) (h (i / 8) (by omega))
      simp only [hbyte, show i % 8 < 8 by omega, decide_true, Bool.true_and,
        show 8 * (i / 8) + i % 8 = i by omega] at hbit
      rw [hbit]
    · rw [decide_eq_false hi, Bool.false_and, Bool.false_and]

end Slices

section Tables

/-- What the two switches of the producer say of an id -/
def shapeOf (n : ℕ) : Option (ℕ × ℕ × ℕ) :=
  match switchOn gpCases n, switchOn shapeCases n with
  | some container, some (shift, width) => some (container, shift, width)
  | _, _ => none

/-- The switches of the builder, and RIP and EFLAGS -/
def sliceOf (n : ℕ) : Option (ℕ × ℕ × ℕ) :=
  match switchOn containerCases n, switchOn extentCases n with
  | some container, some (off, len) => some (container, 8 * off, len)
  | _, _ => if n = 41 ∨ n = 25 then some (n, 0, 8) else none

lemma switchOn_of_notMem {α : Type*} {cases : List (α × List ℕ)} {n : ℕ}
    (h : n ∉ cases.flatMap Prod.snd) : switchOn cases n = none := by
  rw [switchOn, Option.map_eq_none_iff, List.find?_eq_none]
  intro c hc hmem
  exact h (List.mem_flatMap.2 ⟨c, hc, of_decide_eq_true hmem⟩)

/-- The producer and the builder agree on the shape of a name. -/
lemma shapeOf_eq (n : ℕ) : shapeOf n = sliceOf n := by
  by_cases hn : n ∈ gpCases.flatMap Prod.snd
  · have hall : ∀ n ∈ gpCases.flatMap Prod.snd, shapeOf n = sliceOf n := by decide +kernel
    exact hall n hn
  · -- neither table lists the name, and RIP and EFLAGS are listed
    have hgp : switchOn gpCases n = none := switchOn_of_notMem hn
    rw [gpCases, List.flatMap_append, List.mem_append, not_or] at hn
    have hcont : switchOn containerCases n = none := switchOn_of_notMem hn.1
    have hflat : [(41, [41]), (25, [25])].flatMap Prod.snd = [41, 25] := rfl
    rw [hflat, List.mem_pair] at hn
    rw [shapeOf, sliceOf, hgp, hcont]
    dsimp only
    rw [if_neg hn.2]

lemma sliceOf_toNat (reg : BitVec 32) : sliceOf reg.toNat =
    match regSlice reg with
    | some s => some (s.container, 8 * s.off, s.len)
    | none => if reg.toNat = 41 ∨ reg.toNat = 25 then some (reg.toNat, 0, 8) else none := by
  unfold sliceOf regSlice
  cases switchOn containerCases reg.toNat with
  | none => rfl
  | some container =>
    cases switchOn extentCases reg.toNat with
    | none => rfl
    | some ext => rfl

lemma vecWidth_eq (reg : BitVec 32) :
    vecWidth reg = 0 ∨ vecRegInfo reg = some (vecIdx reg, vecWidth reg) ∧ vecIdx reg < 32 := by
  unfold vecIdx vecWidth vecRegInfo
  by_cases hx : xmm0 ≤ reg.toNat ∧ reg.toNat ≤ xmm0 + 31
  · right
    simp only [if_pos hx, if_true]
    refine ⟨trivial, ?_⟩
    omega
  by_cases hy : ymm0 ≤ reg.toNat ∧ reg.toNat ≤ ymm0 + 31
  · right
    simp only [if_neg hx, if_pos hy, show ¬32 = 16 by decide, if_false]
    refine ⟨trivial, ?_⟩
    omega
  · left
    rw [if_neg hx, if_neg hy]

/-- A vector register that the producer does not read is in no table. -/
lemma vecRegInfo_of_width_zero {reg : BitVec 32} (h : vecWidth reg = 0) {n width : ℕ}
    (hinfo : vecRegInfo reg = some (n, width)) : ownBytes reg = [] := by
  obtain ⟨-, hlo, hhi⟩ := vecRegInfo_pos hinfo
  have hlo' : 122 ≤ reg.toNat := hlo
  unfold ownBytes
  rw [regSlice_vec hinfo]
  dsimp only
  rw [if_neg]
  omega

end Tables

section Verdicts

variable {pre post : Machine} {stash : BitVec 32 → Option (BitVec 32)} {reg : BitVec 32}

/-- The record of a name is filed as a write of the name. -/
lemma gapReg_rec {r : ValRec} (h : gapReg pre post stash reg = .changed r) :
    r.isWrite = true ∧ lwKeys r = nameKeys reg := by
  unfold gapReg at h
  split at h
  · split at h
    · split at h
      · exact Verdict.noConfusion h
      · rw [← Verdict.changed.inj h]
        exact ⟨rfl, rfl⟩
    · exact Verdict.noConfusion h
  · split at h
    · exact Verdict.noConfusion h
    · split at h
      · exact Verdict.noConfusion h
      · split at h
        · exact Verdict.noConfusion h
        · rw [← Verdict.changed.inj h]
          exact ⟨rfl, rfl⟩

lemma gapReg_of_width_zero (h : vecWidth reg = 0) : gapReg pre post stash reg =
    match sliceOf reg.toNat with
    | some (container, shift, width) =>
      if aliasSlice (pre.gp container) shift width = aliasSlice (post.gp container) shift width then
        .same
      else .changed { kind := .reg, reg, isWrite := true, size := width, value := post.gp container,
                      valueValid := true }
    | none => .undecided := by
  rw [← shapeOf_eq]
  unfold gapReg shapeOf gpValue aliasShape
  rw [if_pos h]
  cases switchOn gpCases reg.toNat with
  | none => rfl
  | some container =>
    cases switchOn shapeCases reg.toNat with
    | none => rfl
    | some shape => rfl

variable (pos : ℕ) (regs : List (BitVec 32))

/-- A name of a container has a record exactly when the excursion changes one of its bytes. -/
lemma gapReg_changed_gp {container off width : ℕ} (hw : vecWidth reg = 0)
    (hslice : sliceOf reg.toNat = some (container, 8 * off, width)) (hwidth : width ≤ 8)
    (hown : ownBytes reg = (List.range width).map fun b => .gp container (off + b)) :
    (∃ r, gapReg pre post stash reg = .changed r) ↔
      ∃ b ∈ ownBytes reg, pre.byte b ≠ post.byte b := by
  have hbytes : (∃ b ∈ ownBytes reg, pre.byte b ≠ post.byte b) ↔
      ¬aliasSlice (pre.gp container) (8 * off) width =
        aliasSlice (post.gp container) (8 * off) width := by
    rw [aliasSlice_eq_iff _ _ _ hwidth, hown]
    simp only [List.mem_map, List.mem_range, exists_exists_and_eq_and, Machine.byte, ne_eq,
      Option.some.injEq, not_forall, exists_prop]
  rw [hbytes, gapReg_of_width_zero hw, hslice]
  dsimp only
  split
  · rename_i heq
    simp [heq]
  · rename_i hne
    simp [hne]

/-- A vector register has a record exactly when a byte of it changes that could be read. -/
lemma gapReg_changed_vec (hinfo : vecRegInfo reg = some (vecIdx reg, vecWidth reg)) :
    (∃ r, gapReg pre post stash reg = .changed r) ↔
      (∃ b ∈ ownBytes reg, pre.byte b ≠ post.byte b) ∧
        vecUnread pre post (vecIdx reg) = false ∧ stash reg ≠ none := by
  have hpos := (vecRegInfo_pos hinfo).1
  have hown : ownBytes reg = (List.range (vecWidth reg)).map (.vec (vecIdx reg)) := by
    rw [ownBytes, regSlice_vec hinfo]
    dsimp only
    rw [if_pos (.inl hpos.ne'), rawBytes, hinfo]
  have hbytes : (∃ b ∈ ownBytes reg, pre.byte b ≠ post.byte b) ↔
      ¬∀ b < vecWidth reg, pre.vec (vecIdx reg) b = post.vec (vecIdx reg) b := by
    rw [hown]
    simp only [List.mem_map, List.mem_range, exists_exists_and_eq_and, Machine.byte, ne_eq,
      Option.some.injEq, not_forall, exists_prop]
  rw [hbytes, gapReg, if_neg hpos.ne']
  cases hunread : vecUnread pre post (vecIdx reg) with
  | true => simp
  | false =>
    rw [if_neg Bool.false_ne_true]
    by_cases hsame : ∀ b < vecWidth reg, pre.vec (vecIdx reg) b = post.vec (vecIdx reg) b
    · rw [if_pos hsame]
      constructor
      · rintro ⟨r, hr⟩
        exact Verdict.noConfusion hr
      · rintro ⟨hne, -⟩
        exact absurd hsame hne
    · rw [if_neg hsame]
      cases stash reg with
      | none => simp
      | some off => simp [hsame]

lemma vecUnread_iff {idx : ℕ} (h : idx < 32) : vecUnread pre post idx = false ↔
    pre.vecOk = true ∧ post.vecOk = true ∧
      (16 ≤ idx → pre.vecHi = true ∧ post.vecHi = true) := by
  unfold vecUnread
  simp only [Bool.or_eq_false_iff, decide_eq_false_iff_not, Bool.not_eq_false',
    Bool.and_eq_false_imp, decide_eq_true_eq, not_lt, show idx ≤ 31 by omega, true_and, and_assoc]

/-- A name has a record exactly when the excursion changes it. -/
lemma gapReg_changed_iff :
    (∃ r, gapReg pre post stash reg = .changed r) ↔
      (⟨pos, regs, pre, post, stash⟩ : Excursion).Changes reg := by
  unfold Excursion.Changes
  dsimp only
  rcases vecWidth_eq reg with hw | ⟨hinfo, hidx⟩
  · cases hinfo : vecRegInfo reg with
    | some info =>
      have hlo : 122 ≤ reg.toNat := (@vecRegInfo_pos reg info.1 info.2 hinfo).2.1
      have hnone : sliceOf reg.toNat = none := by
        rw [sliceOf_toNat, regSlice_vec hinfo]
        exact if_neg (by omega)
      rw [gapReg_of_width_zero hw, hnone, vecRegInfo_of_width_zero hw hinfo]
      simp
    | none =>
      simp only [reduceCtorEq, false_implies, implies_true, and_true]
      cases hs : regSlice reg with
      | some s =>
        have hcases := regSlice_cases hs
        have hslice : sliceOf reg.toNat = some (s.container, 8 * s.off, s.len) := by
          rw [sliceOf_toNat, hs]
        apply gapReg_changed_gp hw hslice
        · omega
        · rw [ownBytes, hs]
      | none =>
        by_cases hid : reg.toNat = 41 ∨ reg.toNat = 25
        · have hslice : sliceOf reg.toNat = some (reg.toNat, 8 * 0, 8) := by
            rw [sliceOf_toNat, hs]
            exact if_pos hid
          apply gapReg_changed_gp hw hslice le_rfl
          rw [ownBytes, hs]
          dsimp only
          rw [if_pos (.inr hid), rawBytes, hinfo]
          simp only [Nat.zero_add]
        · have hslice : sliceOf reg.toNat = none := by
            rw [sliceOf_toNat, hs]
            exact if_neg hid
          have hown : ownBytes reg = [] := by
            rw [ownBytes, hs]
            exact if_neg (by omega)
          rw [gapReg_of_width_zero hw, hslice, hown]
          simp
  · rw [gapReg_changed_vec hinfo, vecUnread_iff hidx, hinfo]
    constructor
    · rintro ⟨hbyte, ⟨hpre, hpost, hhi⟩, hstash⟩
      refine ⟨hbyte, fun n width heq => ?_⟩
      obtain ⟨rfl, -⟩ := Prod.mk.inj (Option.some.inj heq)
      exact ⟨hpre, hpost, hhi, hstash⟩
    · rintro ⟨hbyte, hread⟩
      obtain ⟨hpre, hpost, hhi, hstash⟩ := hread _ _ rfl
      exact ⟨hbyte, ⟨hpre, hpost, hhi⟩, hstash⟩

end Verdicts

section Batches

/-- The records of the names, while no more than fit the batch are at risk -/
lemma mem_gapRegs {verdict : BitVec 32 → Verdict} {regs : List (BitVec 32)} {n : ℕ}
    (h : n + regs.length ≤ winRiskRegs) (r : ValRec) :
    r ∈ (gapRegs verdict regs n).2 ↔ ∃ reg ∈ regs, verdict reg = .changed r := by
  induction regs generalizing n with
  | nil => simp [gapRegs]
  | cons reg rest ih =>
    rw [List.length_cons] at h
    rw [gapRegs, if_neg (by omega)]
    cases hv : verdict reg with
    | undecided => simp [ih (show n + rest.length ≤ winRiskRegs by omega), hv]
    | same => simp [ih (show n + rest.length ≤ winRiskRegs by omega), hv]
    | changed r' =>
      simp only [List.mem_cons, ih (show n + 1 + rest.length ≤ winRiskRegs by omega),
        exists_eq_or_imp, hv, Verdict.changed.injEq]
      rw [eq_comm]

/-- The records of the bytes are those that changed. -/
lemma mem_gapMems {verdict : BitVec 64 → Verdict} {addrs : List (BitVec 64)} {n mn : ℕ}
    {r : ValRec} (h : r ∈ (gapMems verdict addrs n mn).2.1 ∨ r ∈ (gapMems verdict addrs n mn).2.2) :
    ∃ a ∈ addrs, verdict a = .changed r := by
  induction addrs generalizing n mn with
  | nil => simp [gapMems] at h
  | cons a rest ih =>
    have hrest : (∃ a ∈ rest, verdict a = .changed r) → ∃ a' ∈ a :: rest, verdict a' = .changed r :=
      fun ⟨a', ha', hv⟩ => ⟨a', List.mem_cons_of_mem a ha', hv⟩
    unfold gapMems at h
    cases hv : verdict a with
    | undecided =>
      rw [hv] at h
      exact hrest (ih h)
    | same =>
      rw [hv] at h
      exact hrest (ih h)
    | changed r' =>
      rw [hv] at h
      dsimp only at h
      split_ifs at h
      · rcases h with h | h
        · rcases List.mem_cons.1 h with rfl | h
          · exact ⟨a, List.mem_cons_self, hv⟩
          · exact hrest (ih (.inl h))
        · exact hrest (ih (.inr h))
      · rcases h with h | h
        · exact hrest (ih (.inl h))
        · rcases List.mem_cons.1 h with rfl | h
          · exact ⟨a, List.mem_cons_self, hv⟩
          · exact hrest (ih (.inr h))
      · simp at h

lemma gapMem_rec {pre post : Machine} {a : BitVec 64} {r : ValRec}
    (h : gapMem pre post a = .changed r) :
    r.isWrite = true ∧ lwKeys r = [⟨1#8, a⟩] ∧ pre.mem a ≠ post.mem a := by
  unfold gapMem at h
  cases hpre : pre.mem a with
  | none =>
    rw [hpre] at h
    exact Verdict.noConfusion h
  | some x =>
    cases hpost : post.mem a with
    | none =>
      rw [hpre, hpost] at h
      exact Verdict.noConfusion h
    | some now =>
      rw [hpre, hpost] at h
      dsimp only at h
      split at h
      · exact Verdict.noConfusion h
      · rename_i hne
        rw [← Verdict.changed.inj h]
        refine ⟨rfl, ?_, ?_⟩
        · simp [lwKeys, recBytes]
        · intro heq
          exact hne (Option.some.inj heq).symm

/-- What a batch of the barrier of an excursion holds -/
def Excursion.Batch (e : Excursion) (recs : List ValRec) : Prop :=
  ∀ r ∈ recs, r.isWrite = true ∧ ((∃ reg ∈ e.regs, e.Changes reg ∧ lwKeys r = nameKeys reg) ∨
    ∃ a, lwKeys r = [⟨1#8, a⟩] ∧ e.pre.mem a ≠ e.post.mem a)

variable {risk : Risk} {pre post : Machine} {stash : BitVec 32 → Option (BitVec 32)}

lemma batch_of_mem (pos : ℕ) (hrisk : risk.regs.length ≤ winRiskRegs) {recs : List ValRec}
    (h : recs ∈ (dfpEmitGap risk pre post stash).2) :
    (⟨pos, risk.regs, pre, post, stash⟩ : Excursion).Batch recs := by
  have hreg : ∀ r ∈ (gapRegs (gapReg pre post stash) risk.regs 0).2,
      r.isWrite = true ∧ ∃ reg ∈ risk.regs,
        (⟨pos, risk.regs, pre, post, stash⟩ : Excursion).Changes reg ∧
          lwKeys r = nameKeys reg := by
    intro r hr
    obtain ⟨reg, hmem, hv⟩ := (mem_gapRegs (by omega) r).1 hr
    obtain ⟨hwrite, hkeys⟩ := gapReg_rec hv
    exact ⟨hwrite, reg, hmem, (gapReg_changed_iff pos risk.regs).1 ⟨r, hv⟩, hkeys⟩
  have hmems : ∀ r, r ∈ (gapMems (gapMem pre post) risk.addrs
        (gapRegs (gapReg pre post stash) risk.regs 0).2.length 0).2.1 ∨
      r ∈ (gapMems (gapMem pre post) risk.addrs
        (gapRegs (gapReg pre post stash) risk.regs 0).2.length 0).2.2 →
      r.isWrite = true ∧ ∃ a, lwKeys r = [⟨1#8, a⟩] ∧ pre.mem a ≠ post.mem a := by
    intro r hr
    obtain ⟨a, -, hv⟩ := mem_gapMems hr
    obtain ⟨hwrite, hkeys, hne⟩ := gapMem_rec hv
    exact ⟨hwrite, a, hkeys, hne⟩
  have hfirst : (⟨pos, risk.regs, pre, post, stash⟩ : Excursion).Batch
      ((gapRegs (gapReg pre post stash) risk.regs 0).2 ++ (gapMems (gapMem pre post) risk.addrs
        (gapRegs (gapReg pre post stash) risk.regs 0).2.length 0).2.1) := by
    intro r hr
    rcases List.mem_append.1 hr with hr | hr
    · exact ⟨(hreg r hr).1, .inl (hreg r hr).2⟩
    · exact ⟨(hmems r (.inl hr)).1, .inr (hmems r (.inl hr)).2⟩
  unfold dfpEmitGap at h
  dsimp only at h
  split_ifs at h
  · simp at h
  · rw [List.mem_singleton.1 h]
    exact hfirst
  · rcases List.mem_cons.1 h with rfl | h
    · exact hfirst
    · rw [List.mem_singleton.1 h]
      intro r hr
      exact ⟨(hmems r (.inr hr)).1, .inr (hmems r (.inr hr)).2⟩

/-- A name that the excursion changes has its record in the first batch. -/
lemma exists_first_batch (pos : ℕ) (hrisk : risk.regs.length ≤ winRiskRegs) {reg : BitVec 32}
    (hmem : reg ∈ risk.regs)
    (hchange : (⟨pos, risk.regs, pre, post, stash⟩ : Excursion).Changes reg) :
    ∃ recs rest, (dfpEmitGap risk pre post stash).2 = recs :: rest ∧
      ∃ r ∈ recs, r.isWrite = true ∧ lwKeys r = nameKeys reg := by
  obtain ⟨r, hv⟩ := (gapReg_changed_iff pos risk.regs).2 hchange
  have hr : r ∈ (gapRegs (gapReg pre post stash) risk.regs 0).2 :=
    (mem_gapRegs (by omega) r).2 ⟨reg, hmem, hv⟩
  have hne : (gapRegs (gapReg pre post stash) risk.regs 0).2 ≠ [] := List.ne_nil_of_mem hr
  have hrec := gapReg_rec hv
  unfold dfpEmitGap
  dsimp only
  rw [if_neg (by simp [hne])]
  split_ifs
  · exact ⟨_, [], rfl, r, List.mem_append_left _ hr, hrec⟩
  · exact ⟨_, _, rfl, r, List.mem_append_left _ hr, hrec⟩

lemma length_dfpEmitGap (risk : Risk) (pre post : Machine)
    (stash : BitVec 32 → Option (BitVec 32)) : (dfpEmitGap risk pre post stash).2.length ≤ 2 := by
  unfold dfpEmitGap
  dsimp only
  split_ifs
  · exact Nat.zero_le 2
  · exact Nat.le_succ 1
  · exact le_rfl

end Batches

section Stored

def stamp (i : ℕ) (r : ValRec) : ValRec :=
  { r with step := i }

lemma lwKeys_stamp (i : ℕ) (r : ValRec) : lwKeys (stamp i r) = lwKeys r :=
  rfl

/-- The records of some appends, each with the number of its append -/
def flat (calls : List Call) : List ValRec :=
  calls.zipIdx.flatMap fun p => p.1.recs.map (stamp p.2)

lemma flat_concat (calls : List Call) (call : Call) :
    flat (calls ++ [call]) = flat calls ++ call.recs.map (stamp calls.length) := by
  simp [flat, List.zipIdx_append]

lemma mem_flat {calls : List Call} {r : ValRec} :
    r ∈ flat calls ↔ ∃ u call, calls[u]? = some call ∧ ∃ w ∈ call.recs, r = stamp u w := by
  simp only [flat, List.mem_flatMap, List.mem_map, Prod.exists, List.mem_zipIdx_iff_getElem?]
  constructor
  · rintro ⟨call, u, hcall, w, hw, rfl⟩
    exact ⟨u, call, hcall, w, hw, rfl⟩
  · rintro ⟨u, call, hcall, w, hw, rfl⟩
    exact ⟨call, u, hcall, w, hw, rfl⟩

lemma take_take_append {α : Type*} (n : ℕ) (a b : List α) :
    (a.take n ++ b).take n = (a ++ b).take n := by
  rw [List.take_append, List.take_append, List.take_take, min_self, List.length_take]
  congr 2
  omega

/-- The record loop keeps what fits. -/
lemma foldl_pushRec_take (i : ℕ) (l : List ValRec) {v : ValTrace}
    (h : v.recs.length ≤ v.recsCap) :
    (l.foldl (pushRec i) v).recs = (v.recs ++ l.map (stamp i)).take v.recsCap := by
  induction l generalizing v with
  | nil => rw [List.foldl_nil, List.map_nil, List.append_nil, List.take_of_length_le h]
  | cons r l ih =>
    rw [List.foldl_cons, pushRec]
    by_cases hroom : v.recs.length < v.recsCap
    · rw [if_pos hroom]
      have hrecs := @ih { v with recs := v.recs ++ [{ r with step := i }] } (by
        rw [List.length_append, List.length_singleton]
        exact hroom)
      rw [hrecs, List.append_assoc]
      rfl
    · rw [if_neg hroom]
      have hrecs := @ih { v with truncated := true } h
      have hfull : v.recs.length = v.recsCap := le_antisymm h (Nat.le_of_not_lt hroom)
      rw [hrecs, ← hfull, List.take_left, List.take_left]

/-- The trace holds the appends up to its two capacities. -/
structure Cap.Stored (c : Cap) : Prop where
  len : c.vt.stepsLen = min c.calls.length c.vt.stepsCap
  recs : c.vt.recs = (flat (c.calls.take c.vt.stepsCap)).take c.vt.recsCap
  stamped : Stamped c.vt

variable {c : Cap}

lemma Cap.Stored.append (h : c.Stored) (hlt : c.calls.length < 2 ^ 32) (call : Call) :
    (c.append call).Stored := by
  have hle : c.vt.recs.length ≤ c.vt.recsCap := by
    rw [h.recs, List.length_take]
    exact min_le_left _ _
  have hlen := h.len
  have hstamped : Stamped (c.append call).vt := h.stamped.append _ _ (by omega)
  by_cases hroom : c.vt.stepsLen < c.vt.stepsCap
  · have hcalls : c.vt.stepsLen = c.calls.length := by omega
    have hrecs := @foldl_pushRec_take (c.vt.insnOff.length % 2 ^ 32) call.recs
      { c.vt with stepsTotal := c.vt.stepsTotal + 1,
                  recsTotal := c.vt.recsTotal + call.recs.length,
                  insnOff := c.vt.insnOff ++ [call.off] } hle
    obtain ⟨-, hsteps, hcap, -⟩ := foldl_pushRec_frame (c.vt.insnOff.length % 2 ^ 32) call.recs
      { c.vt with stepsTotal := c.vt.stepsTotal + 1,
                  recsTotal := c.vt.recsTotal + call.recs.length,
                  insnOff := c.vt.insnOff ++ [call.off] }
    have hvt : (c.append call).vt = call.recs.foldl (pushRec (c.vt.insnOff.length % 2 ^ 32))
        { c.vt with stepsTotal := c.vt.stepsTotal + 1,
                    recsTotal := c.vt.recsTotal + call.recs.length,
                    insnOff := c.vt.insnOff ++ [call.off] } := by
      unfold Cap.append valtraceAppend
      exact if_pos hroom
    have hidx : c.vt.insnOff.length % 2 ^ 32 = c.calls.length := by
      rw [← hcalls]
      exact Nat.mod_eq_of_lt (by unfold ValTrace.stepsLen at hcalls; omega)
    refine ⟨?_, ?_, hstamped⟩
    · have hstep := stepsLen_append c.vt call.off call.recs
      rw [if_pos hroom] at hstep
      have hlen' : (c.append call).calls.length = c.calls.length + 1 := by
        simp [Cap.append]
      rw [hvt, hsteps, ← hvt]
      change (valtraceAppend c.vt call.off call.recs).stepsLen = _
      rw [hstep, hlen']
      dsimp only
      omega
    · rw [hvt, hrecs, hcap, hsteps, hidx]
      have hall : c.calls.take c.vt.stepsCap = c.calls := List.take_of_length_le (by omega)
      have hall' : (c.calls ++ [call]).take c.vt.stepsCap = c.calls ++ [call] :=
        List.take_of_length_le (by rw [List.length_append, List.length_singleton]; omega)
      change (c.vt.recs ++ _).take c.vt.recsCap =
        (flat ((c.calls ++ [call]).take c.vt.stepsCap)).take c.vt.recsCap
      rw [hall', flat_concat, h.recs, hall, take_take_append]
  · have hvt : (c.append call).vt = { c.vt with stepsTotal := c.vt.stepsTotal + 1,
                                                recsTotal := c.vt.recsTotal + call.recs.length,
                                                truncated := true } := by
      unfold Cap.append valtraceAppend
      exact if_neg hroom
    refine ⟨?_, ?_, hstamped⟩
    · rw [hvt]
      have hlen' : (c.append call).calls.length = c.calls.length + 1 := by
        simp [Cap.append]
      rw [hlen']
      change c.vt.stepsLen = min _ c.vt.stepsCap
      omega
    · rw [hvt]
      change c.vt.recs = (flat ((c.calls ++ [call]).take c.vt.stepsCap)).take c.vt.recsCap
      rw [List.take_append_of_le_length (by omega)]
      exact h.recs

lemma Cap.Stored.exists_call (h : c.Stored) {u : ℕ} {w : ValRec} (hw : w ∈ c.vt.stepRecs u) :
    ∃ call, c.calls[u]? = some call ∧ ∃ w' ∈ call.recs, w = stamp u w' := by
  rw [ValTrace.stepRecs, List.mem_filter, decide_eq_true_iff, h.recs] at hw
  obtain ⟨hmem, rfl⟩ := hw
  obtain ⟨u, call, hcall, w', hw', rfl⟩ := mem_flat.1 (List.mem_of_mem_take hmem)
  rw [List.getElem?_take] at hcall
  split_ifs at hcall
  exact ⟨call, hcall, w', hw', rfl⟩

lemma mem_take_of_mem {α : Type*} {a b : List α} {n : ℕ} {x y : α} (hx : x ∈ (a ++ b).take n)
    (hxa : x ∉ a) (hy : y ∈ a) : y ∈ (a ++ b).take n := by
  rw [List.take_append] at hx ⊢
  rcases List.mem_append.1 hx with hx | hx
  · exact absurd (List.mem_of_mem_take hx) hxa
  · have hlt : a.length < n := by
      by_contra hge
      rw [Nat.sub_eq_zero_of_le (Nat.le_of_not_lt hge), List.take_zero] at hx
      exact List.not_mem_nil hx
    rw [List.take_of_length_le hlt.le]
    exact List.mem_append_left _ hy

/-- If a record of a step is stored, so are all records of the steps before it. -/
lemma Cap.Stored.mem_of_later (h : c.Stored) {t u : ℕ} {r w : ValRec} {call : Call}
    (hr : r ∈ c.vt.stepRecs t) (hu : u < t) (hcall : c.calls[u]? = some call)
    (hw : w ∈ call.recs) : stamp u w ∈ c.vt.stepRecs u := by
  rw [ValTrace.stepRecs, List.mem_filter, decide_eq_true_iff] at hr ⊢
  refine ⟨?_, rfl⟩
  obtain ⟨hmem, hstep⟩ := hr
  have hall := h.recs
  generalize hstored : c.calls.take c.vt.stepsCap = stored at hall
  have ht : t < stored.length := by
    rw [hall] at hmem
    obtain ⟨t', call', hcall', w', -, rfl⟩ := mem_flat.1 (List.mem_of_mem_take hmem)
    have hlt := (List.getElem?_eq_some_iff.1 hcall').1
    have heq : t' = t := hstep
    omega
  -- the steps below `t` come first, and the record is not one of them
  have hsplit : ∃ rest, flat stored = flat (stored.take t) ++ rest := by
    refine ⟨((stored.drop t).zipIdx t).flatMap fun p => p.1.recs.map (stamp p.2), ?_⟩
    have hzip : stored.zipIdx = (stored.take t).zipIdx ++ (stored.drop t).zipIdx t := by
      conv_lhs => rw [← List.take_append_drop t stored, List.zipIdx_append]
      rw [List.length_take, min_eq_left ht.le, Nat.zero_add]
    rw [flat, hzip, List.flatMap_append]
    rfl
  obtain ⟨rest, hsplit⟩ := hsplit
  rw [hsplit] at hall
  rw [hall] at hmem ⊢
  apply mem_take_of_mem hmem
  · intro hbefore
    obtain ⟨t', call', hcall', w', -, rfl⟩ := mem_flat.1 hbefore
    have hlt := (List.getElem?_eq_some_iff.1 hcall').1
    rw [List.length_take] at hlt
    have heq : t' = t := hstep
    omega
  · rw [mem_flat]
    refine ⟨u, call, ?_, w, hw, rfl⟩
    rw [List.getElem?_take_of_lt hu, ← hstored, List.getElem?_take_of_lt, hcall]
    rw [← hstored, List.length_take] at ht
    omega

end Stored

section Barriers

/-- What the appends have to do with the excursions -/
structure Cap.Barred (c : Cap) : Prop where
  risk : c.risk.regs.length ≤ winRiskRegs
  mark : ∀ u call e, c.calls[u]? = some call → call.gap = some e →
    e ∈ c.gaps ∧ e.pos ≤ u ∧ e.Batch call.recs ∧
      ∀ j, e.pos ≤ j → j ≤ u → ¬c.Recorded j
  first : ∀ e ∈ c.gaps, ∀ reg ∈ e.regs, e.Changes reg →
    ∃ call, c.calls[e.pos]? = some call ∧ call.gap = some e ∧
      ∃ r ∈ call.recs, r.isWrite = true ∧ lwKeys r = nameKeys reg

variable {c : Cap}

lemma riskAdd_regs_length {win : Bool} {risk : Risk} (h : risk.regs.length ≤ winRiskRegs)
    (r : ValRec) : (riskAdd win risk r).regs.length ≤ winRiskRegs := by
  unfold riskAdd
  dsimp only
  split_ifs with hw hk hmem hfull hsize hover
  · exact h
  · exact h
  · exact h
  · rw [List.length_append, List.length_singleton]
    omega
  · exact h
  · exact h
  · exact h

lemma foldl_riskAdd_length {win : Bool} (recs : List ValRec) {risk : Risk}
    (h : risk.regs.length ≤ winRiskRegs) :
    (recs.foldl (riskAdd win) risk).regs.length ≤ winRiskRegs := by
  induction recs generalizing risk with
  | nil => exact h
  | cons r recs ih => exact ih (riskAdd_regs_length h r)

variable {pc : BitVec 64} {e : Excursion}

/-- Whether a step is a barrier does not change later. -/
lemma recorded_of_append {calls : List Call} {c' : Cap} (h : c'.calls = c.calls ++ calls) {j : ℕ}
    (hj : j < c.calls.length) : c'.Recorded j ↔ c.Recorded j := by
  unfold Cap.Recorded
  rw [h, List.getElem?_append_left hj]

lemma Cap.Barred.append (h : c.Barred) (off : BitVec 64) (recs : List ValRec) :
    (c.append ⟨off, recs, none⟩).Barred := by
  have hcalls : (c.append ⟨off, recs, none⟩).calls = c.calls ++ [⟨off, recs, none⟩] := rfl
  refine ⟨h.risk, ?_, ?_⟩
  · intro u call e hcall hgap
    rw [hcalls] at hcall
    rcases Nat.lt_or_ge u c.calls.length with hu | hu
    · rw [List.getElem?_append_left hu] at hcall
      obtain ⟨hmem, hpos, hbatch, hbetween⟩ := h.mark u call e hcall hgap
      refine ⟨hmem, hpos, hbatch, fun j hj hju => ?_⟩
      rw [recorded_of_append hcalls (hju.trans_lt hu)]
      exact hbetween j hj hju
    · rw [List.getElem?_append_right hu, List.getElem?_singleton] at hcall
      split_ifs at hcall
      rw [← Option.some.inj hcall] at hgap
      cases hgap
  · intro e he reg hreg hchange
    obtain ⟨call, hcall, hrest⟩ := h.first e he reg hreg hchange
    refine ⟨call, ?_, hrest⟩
    rw [hcalls, List.getElem?_append_left (List.getElem?_eq_some_iff.1 hcall).1, hcall]

lemma foldl_append_calls (batches : List (List ValRec)) (c : Cap) :
    (batches.foldl (fun c recs => c.append ⟨pc, recs, some e⟩) c).calls =
        c.calls ++ batches.map (fun recs => ⟨pc, recs, some e⟩) ∧
      (batches.foldl (fun c recs => c.append ⟨pc, recs, some e⟩) c).gaps = c.gaps ∧
        (batches.foldl (fun c recs => c.append ⟨pc, recs, some e⟩) c).risk = c.risk := by
  induction batches generalizing c with
  | nil => exact ⟨(List.append_nil _).symm, rfl, rfl⟩
  | cons recs batches ih =>
    obtain ⟨hcalls, hgaps, hrisk⟩ := ih (c.append ⟨pc, recs, some e⟩)
    refine ⟨?_, hgaps, hrisk⟩
    rw [List.foldl_cons, hcalls, List.map_cons]
    change c.calls ++ [_] ++ _ = _
    rw [List.append_assoc, List.singleton_append]

section Emit

variable (win : Bool) (pc : BitVec 64) (pre post : Machine)
  (stash : BitVec 32 → Option (BitVec 32))

/-- The excursion that ends here -/
def Cap.excursion (c : Cap) : Excursion :=
  ⟨c.calls.length, c.risk.regs, pre, post, stash⟩

lemma emitGap_calls (c : Cap) : (c.emitGap win pc pre post stash).calls =
    c.calls ++ (dfpEmitGap c.risk pre post stash).2.map
      fun recs => ⟨pc, recs, some (c.excursion pre post stash)⟩ :=
  (foldl_append_calls _ _).1

lemma emitGap_gaps (c : Cap) : (c.emitGap win pc pre post stash).gaps =
    c.gaps ++ [c.excursion pre post stash] :=
  (foldl_append_calls _ _).2.1

lemma emitGap_regs (c : Cap) : (c.emitGap win pc pre post stash).risk.regs = c.risk.regs := by
  unfold Cap.emitGap
  dsimp only
  rw [(foldl_append_calls _ _).2.2]

lemma Cap.Barred.emitGap (h : c.Barred) : (c.emitGap win pc pre post stash).Barred := by
  have hcalls := emitGap_calls win pc pre post stash c
  have hgaps := emitGap_gaps win pc pre post stash c
  refine ⟨by rw [emitGap_regs]; exact h.risk, ?_, ?_⟩
  · intro u call e hcall hgap
    rw [hgaps]
    rcases Nat.lt_or_ge u c.calls.length with hu | hu
    · rw [hcalls, List.getElem?_append_left hu] at hcall
      obtain ⟨hmem, hpos, hbatch, hbetween⟩ := h.mark u call e hcall hgap
      refine ⟨List.mem_append_left _ hmem, hpos, hbatch, fun j hj hju => ?_⟩
      rw [recorded_of_append hcalls (hju.trans_lt hu)]
      exact hbetween j hj hju
    · -- an append of this barrier
      rw [hcalls, List.getElem?_append_right hu, List.getElem?_map, Option.map_eq_some_iff] at hcall
      obtain ⟨recs, hrecs, rfl⟩ := hcall
      obtain rfl : c.excursion pre post stash = e := Option.some.inj hgap
      refine ⟨List.mem_append_right _ (List.mem_singleton_self _), hu,
        batch_of_mem _ h.risk (List.mem_of_getElem? hrecs), fun j hj hju => ?_⟩
      rintro ⟨call, hcall, hnone⟩
      have hj' : c.calls.length ≤ j := hj
      rw [hcalls, List.getElem?_append_right hj', List.getElem?_map,
        Option.map_eq_some_iff] at hcall
      obtain ⟨recs', -, rfl⟩ := hcall
      cases hnone
  · intro e he reg hreg hchange
    rw [hgaps, List.mem_append, List.mem_singleton] at he
    rcases he with he | rfl
    · obtain ⟨call, hcall, hrest⟩ := h.first e he reg hreg hchange
      refine ⟨call, ?_, hrest⟩
      rw [hcalls, List.getElem?_append_left (List.getElem?_eq_some_iff.1 hcall).1, hcall]
    · obtain ⟨recs, rest, hbatches, hrec⟩ := exists_first_batch _ h.risk hreg hchange
      refine ⟨⟨pc, recs, some (c.excursion pre post stash)⟩, ?_, rfl, hrec⟩
      change (c.emitGap win pc pre post stash).calls[c.calls.length]? = _
      rw [hcalls, hbatches, List.map_cons, List.getElem?_append_right le_rfl, Nat.sub_self]
      rfl

end Emit

end Barriers

section Runs

variable {c : Cap} {win : Bool}

lemma Cap.Stored.foldl_append {pc : BitVec 64} {e : Excursion} (h : c.Stored)
    (batches : List (List ValRec)) (hlt : c.calls.length + batches.length < 2 ^ 32) :
    (batches.foldl (fun c recs => c.append ⟨pc, recs, some e⟩) c).Stored := by
  induction batches generalizing c with
  | nil => exact h
  | cons recs batches ih =>
    rw [List.length_cons] at hlt
    apply ih (h.append (by omega) _)
    change (c.calls ++ [_]).length + batches.length < 2 ^ 32
    rw [List.length_append, List.length_singleton]
    omega

/-- One act of a loop keeps the trace what was appended, and the barriers what the excursions
changed. -/
lemma act_sound (hs : c.Stored) (hb : c.Barred) (hlt : c.calls.length + 2 < 2 ^ 32) (a : Act) :
    (c.act win a).Stored ∧ (c.act win a).Barred ∧
      (c.act win a).calls.length ≤ c.calls.length + 2 := by
  cases a with
  | step off recs =>
    have hs' : ({ c with risk := recs.foldl (riskAdd win) c.risk,
                         vt := { c.vt with truncated := c.vt.truncated ||
                           win && (recs.foldl (riskAdd win) c.risk).overflow } } : Cap).Stored :=
      ⟨hs.len, hs.recs, hs.stamped.sorted, hs.stamped.lt⟩
    have hb' : ({ c with risk := recs.foldl (riskAdd win) c.risk,
                         vt := { c.vt with truncated := c.vt.truncated ||
                           win && (recs.foldl (riskAdd win) c.risk).overflow } } : Cap).Barred :=
      ⟨foldl_riskAdd_length recs hb.risk, hb.mark, hb.first⟩
    refine ⟨hs'.append (by dsimp only; omega) _, hb'.append off recs, ?_⟩
    change (c.calls ++ [_]).length ≤ _
    rw [List.length_append, List.length_singleton]
    omega
  | opened off recs =>
    refine ⟨hs.append (by omega) _, hb.append off recs, ?_⟩
    change (c.calls ++ [_]).length ≤ _
    rw [List.length_append, List.length_singleton]
    omega
  | gap pc pre post stash =>
    have htwo := length_dfpEmitGap c.risk pre post stash
    refine ⟨?_, hb.emitGap win pc pre post stash, ?_⟩
    · apply Cap.Stored.foldl_append
      · exact ⟨hs.len, hs.recs, hs.stamped.sorted, hs.stamped.lt⟩
      · dsimp only
        omega
    · change (c.emitGap win pc pre post stash).calls.length ≤ _
      rw [emitGap_calls, List.length_append, List.length_map]
      omega

lemma acts_sound (acts : List Act) (hs : c.Stored) (hb : c.Barred)
    (hlt : c.calls.length + 2 * acts.length < 2 ^ 32) :
    (acts.foldl (Cap.act win) c).Stored ∧ (acts.foldl (Cap.act win) c).Barred ∧
      (acts.foldl (Cap.act win) c).calls.length < 2 ^ 32 := by
  induction acts generalizing c with
  | nil => exact ⟨hs, hb, by simpa using hlt⟩
  | cons a acts ih =>
    rw [List.length_cons] at hlt
    obtain ⟨hs', hb', hlen⟩ := @act_sound c win hs hb (by omega) a
    exact ih hs' hb' (by omega)

lemma run_sound (run : Run) :
    run.cap.Stored ∧ run.cap.Barred ∧ run.cap.calls.length < 2 ^ 32 := by
  apply acts_sound
  · refine ⟨?_, ?_, stamped_new _ _⟩
    · exact (Nat.zero_min _).symm
    · rw [List.take_nil]
      exact List.take_nil.symm
  · refine ⟨Nat.zero_le _, ?_, ?_⟩
    · intro u call e hcall
      cases hcall
    · intro e he
      cases he
  · have hbound := run.bounded
    change 0 + _ < _
    omega

end Runs

section Edges

variable {c : Cap} {s t : ℕ} {r : ValRec}

lemma writesKey_iff (u : ℕ) (k : LwKey) :
    k ∈ writesOf ValRec.isWrite lwKeys c.vt.stepRecs u ↔ c.WritesKey u k := by
  simp only [writesOf, List.mem_flatMap, List.mem_filter, Cap.WritesKey, and_assoc]

/-- The builder links a read to a step exactly when the step is the last writer of one of its
keys. -/
lemma edge_iff (hstored : c.Stored) (hlt : c.calls.length < 2 ^ 32) (hr : r ∈ c.vt.stepRecs t)
    (hread : r.isWrite = false) :
    (∃ g, defuseBuild c.vt = some g ∧ ⟨s, t, r⟩ ∈ g.edges) ↔
      ∃ k ∈ lwKeys r, s < t ∧ c.WritesKey s k ∧ ∀ u, s < u → u < t → ¬c.WritesKey u k := by
  have hlen := hstored.len
  have hlog : groupAt c.vt.recs = c.vt.stepRecs := funext (groupAt_eq_stepRecs hstored.stamped)
  have ht : t < c.vt.stepsLen := by
    rw [ValTrace.stepRecs, List.mem_filter, decide_eq_true_iff] at hr
    rw [← hr.2]
    exact hstored.stamped.lt r hr.1
  rw [defuseBuild_of_lt (by omega), hlog]
  simp only [Option.some.injEq, exists_eq_left', List.mem_map, Prod.exists, toEdge,
    DefUseEdge.mk.injEq]
  constructor
  · rintro ⟨s, t, r, hmem, rfl, rfl, rfl⟩
    obtain ⟨-, -, -, k, hk, hlast⟩ := (mem_edges _ _).1 hmem
    simp only [IsLast, writesKey_iff] at hlast
    exact ⟨k, hk, hlast⟩
  · rintro ⟨k, hk, hlast⟩
    refine ⟨s, t, r, (mem_edges _ _).2 ⟨ht, hr, hread, k, hk, ?_⟩, rfl, rfl, rfl⟩
    simp only [IsLast, writesKey_iff]
    exact hlast

/-- A barrier between two recorded steps writes a key only if its excursion hits it. -/
lemma hits_of_barrier (hstored : c.Stored) (hbarred : c.Barred) {u : ℕ} {k : LwKey}
    (hs : c.Recorded s) (hsu : s < u) (hut : u < t) (hu : ¬c.Recorded u)
    (hw : c.WritesKey u k) : ∃ e ∈ c.gaps, s < e.pos ∧ e.pos ≤ t ∧ e.Hits k := by
  obtain ⟨w, hw, hwrite, hk⟩ := hw
  obtain ⟨call, hcall, w', hw', rfl⟩ := hstored.exists_call hw
  rw [lwKeys_stamp] at hk
  cases hgap : call.gap with
  | none => exact absurd ⟨call, hcall, hgap⟩ hu
  | some e =>
    obtain ⟨he, hpos, hbatch, hbetween⟩ := hbarred.mark u call e hcall hgap
    have hspos : s < e.pos := by
      by_contra hle
      exact hbetween s (Nat.le_of_not_lt hle) hsu.le hs
    refine ⟨e, he, hspos, by omega, ?_⟩
    rcases (hbatch w' hw').2 with ⟨reg, hreg, hchange, hkeys⟩ | ⟨a, hkeys, hne⟩
    · rw [hkeys] at hk
      exact .inl ⟨reg, hreg, hchange, hk⟩
    · rw [hkeys, List.mem_singleton] at hk
      rw [hk]
      exact .inr ⟨rfl, hne⟩

/-- An excursion that hits a register key before a stored read has a barrier that writes it. -/
lemma barrier_of_hits (hstored : c.Stored) (hbarred : c.Barred) {e : Excursion} {reg : BitVec 32}
    {k : LwKey} (ht : c.Recorded t) (hr : r ∈ c.vt.stepRecs t) (he : e ∈ c.gaps) (hpos : e.pos ≤ t)
    (hreg : reg ∈ e.regs) (hchange : e.Changes reg) (hk : k ∈ nameKeys reg) :
    e.pos < t ∧ c.WritesKey e.pos k := by
  obtain ⟨call, hcall, hgap, w, hw, hwrite, hkeys⟩ := hbarred.first e he reg hreg hchange
  have hlt : e.pos < t := by
    rcases Nat.lt_or_eq_of_le hpos with hlt | heq
    · exact hlt
    · obtain ⟨call', hcall', hnone⟩ := ht
      rw [← heq, hcall] at hcall'
      rw [← Option.some.inj hcall', hgap] at hnone
      cases hnone
  refine ⟨hlt, stamp e.pos w, hstored.mem_of_later hr hlt hcall hw, hwrite, ?_⟩
  rw [lwKeys_stamp, hkeys]
  exact hk

lemma kind_of_mem_lwKeys {k : LwKey} (h : k ∈ lwKeys r) : k.kind = 1#8 ↔ r.kind ≠ .reg := by
  unfold lwKeys at h
  by_cases hk : r.kind = .reg
  · rw [if_pos hk] at h
    simp only [hk, ne_eq, not_true_eq_false, iff_false]
    cases hs : regSlice r.reg with
    | some sl =>
      rw [hs] at h
      obtain ⟨b, -, rfl⟩ := List.mem_map.1 h
      exact (by decide : ¬2#8 = 1#8)
    | none =>
      rw [hs] at h
      rw [List.mem_singleton.1 h]
      exact (by decide : ¬0#8 = 1#8)
  · rw [if_neg hk] at h
    obtain ⟨b, -, rfl⟩ := List.mem_map.1 h
    simp [hk]

lemma mem_mem_keyBytes {a : BitVec 64} {k : LwKey} : Byte.mem a ∈ keyBytes k ↔ k = ⟨1#8, a⟩ := by
  unfold keyBytes rawBytes
  by_cases h0 : k.kind = 0#8
  · rw [if_pos h0]
    constructor
    · intro h
      split at h
      · simp at h
      · simp at h
    · rintro rfl
      exact absurd h0 (by decide : ¬1#8 = 0#8)
  rw [if_neg h0]
  by_cases h1 : k.kind = 1#8
  · rw [if_pos h1, List.mem_singleton, Byte.mem.injEq]
    constructor
    · rintro rfl
      rw [← h1]
    · rintro rfl
      rfl
  · rw [if_neg h1]
    constructor
    · intro h
      simp at h
    · rintro rfl
      exact absurd rfl h1

lemma writesByte_mem_iff {a : BitVec 64} {u : ℕ} :
    c.WritesByte u (.mem a) ↔ c.WritesKey u ⟨1#8, a⟩ := by
  simp only [Cap.WritesByte, Cap.WritesKey, bytesOf, List.mem_flatMap, mem_mem_keyBytes,
    exists_eq_right]

/-- A true edge of a memory read is exposed: a byte that is left alone has no barrier. -/
lemma Cap.TrueEdge.exposed_of_mem {b : Byte} (h : c.TrueEdge s t r b) (hk : r.kind ≠ .reg) :
    c.Exposed s t r := by
  obtain ⟨hr, hread, hb⟩ := h.read
  obtain ⟨⟨kind, a⟩, hkey, hbyte⟩ := List.mem_flatMap.1 hb
  obtain rfl : kind = 1#8 := (kind_of_mem_lwKeys hkey).2 hk
  obtain rfl : b = .mem a := List.mem_singleton.1 hbyte
  refine ⟨⟨1#8, a⟩, hkey, writesByte_mem_iff.1 h.writer.2, ?_, ?_⟩
  · intro u hsu hut hu hw
    exact h.last u hsu hut hu (writesByte_mem_iff.2 hw)
  · rintro e he hsp hpt (⟨reg, -, -, hname⟩ | ⟨-, hne⟩)
    · exact (kind_of_mem_lwKeys hname).1 rfl rfl
    · exact hne (h.kept e he hsp hpt)

end Edges

section HighByte

/-- A machine that has nothing but a value in RAX -/
def raxMachine (rax : BitVec 64) : Machine where
  gp k := if k = 35 then rax else 0
  vec _ _ := 0
  mem _ := none
  vecOk := true
  vecHi := true

/-- `mov rax, ..`, a callee that changes AH, and an instruction that reads AL -/
def highByteRun : Run where
  win := false
  stepsCap := 8
  recsCap := 8
  acts := [.step 0 [{ kind := .reg, reg := 35, isWrite := true }],
    .gap 0x9000 (raxMachine 0x1122) (raxMachine 0x3322) fun _ => none,
    .step 7 [{ kind := .reg, reg := 2 }]]
  bounded := by decide

lemma highByteRun_trueEdge : highByteRun.cap.TrueEdge 0 2 { kind := .reg, reg := 2, step := 2 }
    (.gp 35 0) where
  reader := ⟨_, rfl, rfl⟩
  read := by decide
  lt := by decide
  writer := ⟨⟨_, rfl, rfl⟩, { kind := .reg, reg := 35, isWrite := true }, by decide, rfl, by decide⟩
  last := by
    intro u h0 h2 hu
    obtain rfl : u = 1 := by omega
    obtain ⟨call, hcall, hgap⟩ := hu
    cases hcall
    cases hgap
  kept := by
    intro e he _ _
    cases he with
    | head => decide
    | tail _ h => cases h

end HighByte

end AsmTest.Dataflow.Gap
