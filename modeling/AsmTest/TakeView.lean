import AsmTest.Lineage
import AsmTest.Lib.Closure
import Mathlib.Data.Prod.Lex
import Mathlib.Data.Finset.Sort

/-!
# A take beside its base

`loom_take_view`: where the two runs part, the cone of the edited fact, and a verdict for each step
of the base inside both.
-/

namespace AsmTest.Loom

open Lib
open Dataflow (ValRec ValTrace DefUse DefUseEdge)

section Divergence

structure DtDivergence where
  diverged : Bool := false
  /-- A side was truncated. -/
  bounded : Bool := false
  step : ℕ := 0
  offA : BitVec 64 := 0
  offB : BitVec 64 := 0
deriving DecidableEq, Repr

/-- How long two streams agree -/
def agreeing : List (BitVec 64) → List (BitVec 64) → ℕ
  | x :: a, y :: b => if x = y then agreeing a b + 1 else 0
  | _, _ => 0

def dtFirstDivergence (a b : List (BitVec 64)) (aTruncated bTruncated : Bool) : DtDivergence :=
  let n := min a.length b.length
  let i := agreeing a b
  let bounded := aTruncated || bTruncated
  if i < n then
    { diverged := true, bounded, step := i % 2 ^ 32, offA := a.getD i 0, offB := b.getD i 0 }
  else if a.length ≠ b.length then
    let shortA := decide (a.length < b.length)
    -- a truncated recording stops where the execution need not
    if (if shortA then aTruncated else bTruncated) then { bounded }
    else
      { diverged := true, bounded, step := n % 2 ^ 32
        offA := if shortA then 0 else a.getD n 0
        offB := if shortA then b.getD n 0 else 0 }
  else { bounded }

end Divergence

/-- `loom_edit_desc_t`: the one fact that a take changed -/
structure LoomEditDesc where
  codePatch : Bool := false
  /-- The container of the argument register -/
  argReg : ℕ := 0
  label : String := ""
  baseCode : List UInt8 := []
  takeCode : List UInt8 := []
  fromStepEdit : Bool := false
  fromStep : ℕ := 0

inductive TakeVerdict
  | neutral
  | dim
  | hot
deriving DecidableEq, Repr

structure LoomTakeStep where
  step : ℕ
  verdict : TakeVerdict := .neutral
  inCone : Bool
  unaligned : Bool
  noWrites : Bool := false
deriving DecidableEq, Repr

structure LoomTakeNode where
  label : String
  edit : String
  alignment : String := ""
  fault : String
  err : String
  disclosure : String
  hasFabric : Bool
deriving DecidableEq, Repr

structure LoomTakeView where
  /-- The length of the shared prefix -/
  shared : ℕ := 0
  div : DtDivergence := {}
  cone : List ℕ := []
  steps : List LoomTakeStep := []
  node : LoomTakeNode

def kLoomAlignedEndToEnd : String := "aligned end-to-end"

def kLoomReweaveBanner : String :=
  "forks re-run the emulator replay — an explicit crossing of the native→virtual line; never " ++
    "evidence about a live process or silicon timing"

section Writes

/-- The place of a write: a register, or an address and a width -/
abbrev WKey := ℕ ×ₗ ℕ ×ₗ ℕ

def keyOf (f : LoomFabric) (s : LoomSpan) : Option WKey :=
  f.lanes[s.lane]?.map fun l =>
    if l.kind = .reg then toLex (0, toLex (l.reg, 0))
    else toLex (1, toLex (s.lo, (s.hi + (2 ^ 64 - s.lo)) % 2 ^ 64))

/-- The write spans of a step by place; the last one at a place stays. -/
def writesAt (f : LoomFabric) (step : ℕ) : List (WKey × LoomSpan) :=
  f.spans.foldl (fun m s =>
    if s.bornUntraced = true ∨ s.tWrite ≠ step then m
    else (keyOf f s).elim m fun k => mapInsert k s m) []

end Writes

section Cone

/-- Forward closure over the def-use edges -/
def forward (edges : List DefUseEdge) (nsteps : ℕ) (seed : List ℕ) : Option (Finset ℕ) :=
  Closure.run nsteps (fun s => (mapFind s (adj edges).fwd).getD []) nsteps
    (seed.foldl (Closure.visit nsteps) {})

/-- Where the bytes that are compared for a step end -/
def windowEnd (edit : LoomEditDesc) (insnOff : List (BitVec 64)) (s : ℕ) (off : ℕ) : ℕ :=
  let next := insnOff[s + 1]?
  let stop :=
    match next with
    | some o => if o ≠ BitVec.allOnes 64 ∧ off < o.toNat then o.toNat else off + 1
    | none => off + 1
  min stop (min edit.baseCode.length edit.takeCode.length)

/-- The instruction of a step differs in the two images, as far as they are compared. -/
def windowDiffers (edit : LoomEditDesc) (insnOff : List (BitVec 64)) (s : ℕ) : Bool :=
  match insnOff[s]? with
  | none => false
  | some o =>
    let off := o.toNat
    if o = BitVec.allOnes 64 ∨ edit.baseCode.length ≤ off ∨ edit.takeCode.length ≤ off then false
    else (List.range' off (windowEnd edit insnOff s off - off)).any fun b =>
      edit.baseCode[b]? ≠ edit.takeCode[b]?

/-- A step that reads the argument register without a producer -/
def readsArg (edit : LoomEditDesc) (take : LoomFabric) (r : LoomRead) : Bool :=
  !r.hasProducer && (take.lanes[r.lane]?.any fun l => l.kind = .reg ∧ l.reg = edit.argReg)

def takeSeed (edit : LoomEditDesc) (take : LoomFabric) (shared : ℕ) : List ℕ :=
  if edit.fromStepEdit then if edit.fromStep < take.steps then [edit.fromStep] else []
  else if edit.codePatch then
    ((List.range (min shared take.insnOff.length)).find? (windowDiffers edit take.insnOff)).toList
  else
    (((take.reads.filter (readsArg edit take)).map LoomRead.step).insertionSort (· ≤ ·)).dedup

end Cone

section View

def takeVerdict (a b : List (WKey × LoomSpan)) : TakeVerdict × Bool :=
  let pairs := a.filterMap fun e => (mapFind e.1 b).map fun s => (e.2, s)
  -- equality of unknown values is never claimed
  let known := pairs.filter fun p => p.1.valueValid && p.2.valueValid
  let verdict :=
    if known.any fun p => p.1.value ≠ p.2.value then .hot
    else if pairs ≠ [] ∧ known.length = pairs.length then .dim
    else .neutral
  (verdict, pairs.isEmpty)

def takeStep (base take : LoomFabric) (shared : ℕ) (cone : Finset ℕ) (s : ℕ) : LoomTakeStep :=
  let row : LoomTakeStep := { step := s, inCone := s ∈ cone, unaligned := shared ≤ s }
  if row.inCone = true ∧ row.unaligned = false then
    let (verdict, noWrites) := takeVerdict (writesAt base s) (writesAt take s)
    { row with verdict, noWrites }
  else row

def alignmentText (div : DtDivergence) : String :=
  if div.diverged then
    "patient zero at step " ++ toString div.step ++ ": base " ++ hex div.offA.toNat ++
      " vs take " ++ hex div.offB.toNat
  else
    kLoomAlignedEndToEnd ++
      if div.bounded then
        " (bounded — at least one side was truncated, so agreement past the recorded window was " ++
          "never observed)"
      else ""

def sharedPrefix (div : DtDivergence) (base take : LoomFabric) : ℕ :=
  if div.diverged then div.step else min base.insnOff.length take.insnOff.length % 2 ^ 32

/-- The flags say whether the recording behind a fabric was truncated. -/
def loomTakeView (base take : LoomFabric) (baseTruncated takeTruncated : Bool)
    (takeEdges : List DefUseEdge) (edit : LoomEditDesc) (fault err : String) :
    Option LoomTakeView :=
  let node : LoomTakeNode :=
    { label := "(edited fact → new fabric)", edit := edit.label, fault, err
      disclosure := kLoomReweaveBanner, hasFabric := 0 < take.steps }
  if take.steps = 0 then some { node }
  else do
    let div := dtFirstDivergence base.insnOff take.insnOff baseTruncated takeTruncated
    let shared := sharedPrefix div base take
    let cone ← forward takeEdges take.steps (takeSeed edit take shared)
    return {
      shared
      div
      cone := cone.sort (· ≤ ·)
      steps := (List.range base.steps).map (takeStep base take shared cone)
      node := { node with alignment := alignmentText div } }

end View

/-! ## What the view is built from -/

lemma agreeing_spec (a b : List (BitVec 64)) :
    agreeing a b ≤ min a.length b.length ∧ ∀ i < agreeing a b, a[i]? = b[i]? := by
  induction a generalizing b with
  | nil => exact ⟨by simp [agreeing], by simp [agreeing]⟩
  | cons x a ih =>
    cases b with
    | nil => exact ⟨by simp [agreeing], by simp [agreeing]⟩
    | cons y b =>
      obtain ⟨hle, heq⟩ := ih b
      rw [agreeing]
      split_ifs with hxy
      · refine ⟨by simp only [List.length_cons]; omega, fun i hi => ?_⟩
        cases i with
        | zero => simp [hxy]
        | succ i => simpa using heq i (by omega)
      · exact ⟨Nat.zero_le _, fun i hi => absurd hi (Nat.not_lt_zero i)⟩

/-- The shared prefix is as long as the two runs agree. -/
lemma sharedPrefix_eq {base take : LoomFabric} {baseTruncated takeTruncated : Bool}
    {div : DtDivergence}
    (hdiv : div = dtFirstDivergence base.insnOff take.insnOff baseTruncated takeTruncated)
    (hlen : base.insnOff.length < 2 ^ 32) :
    sharedPrefix div base take = agreeing base.insnOff take.insnOff := by
  obtain ⟨hle, -⟩ := agreeing_spec base.insnOff take.insnOff
  have hmod : ∀ i ≤ min base.insnOff.length take.insnOff.length, i % 2 ^ 32 = i := by
    intro i hi
    exact Nat.mod_eq_of_lt (by omega)
  rw [hdiv, dtFirstDivergence, sharedPrefix]
  dsimp only
  by_cases hi : agreeing base.insnOff take.insnOff < min base.insnOff.length take.insnOff.length
  · rw [if_pos hi, if_pos rfl]
    exact hmod _ hi.le
  · have hall : min base.insnOff.length take.insnOff.length =
        agreeing base.insnOff take.insnOff := by omega
    have hfull := hmod _ hle
    rw [if_neg hi, hall]
    split_ifs <;> first | contradiction | exact hfull

/-- In the shared prefix the two runs are at the same instruction. -/
lemma sharedPrefix_spec {base take : LoomFabric} {baseTruncated takeTruncated : Bool}
    {div : DtDivergence}
    (hdiv : div = dtFirstDivergence base.insnOff take.insnOff baseTruncated takeTruncated)
    (hlen : base.insnOff.length < 2 ^ 32) :
    sharedPrefix div base take ≤ min base.insnOff.length take.insnOff.length ∧
      ∀ i < sharedPrefix div base take, base.insnOff[i]? = take.insnOff[i]? := by
  rw [sharedPrefix_eq hdiv hlen]
  exact agreeing_spec base.insnOff take.insnOff

/-- The closure ends, with the seeds in it and the targets of its edges. -/
lemma forward_spec (edges : List DefUseEdge) (nsteps : ℕ) (seed : List ℕ) :
    ∃ cone, forward edges nsteps seed = some cone ∧ (∀ s ∈ seed, s < nsteps → s ∈ cone) ∧
      ∀ e ∈ edges, e.fromStep ∈ cone → e.toStep < nsteps → e.toStep ∈ cone := by
  obtain ⟨cone, hrun, hseed, hclosed⟩ :=
    Closure.run_start nsteps (fun s => (mapFind s (adj edges).fwd).getD []) seed
  refine ⟨cone, hrun, hseed, fun e he hfrom hto => hclosed _ hfrom _ ?_ hto⟩
  rw [adj, mem_adjOf]
  exact ⟨e, he, rfl, rfl⟩

/-- The cone of a take that ran -/
lemma loomTakeView_spec {base take : LoomFabric} (hsteps : take.steps ≠ 0)
    (hlen : base.insnOff.length < 2 ^ 32) (baseTruncated takeTruncated : Bool)
    (edges : List DefUseEdge) (edit : LoomEditDesc) (fault err : String) :
    ∃ v, loomTakeView base take baseTruncated takeTruncated edges edit fault err = some v ∧
      v.shared ≤ min base.insnOff.length take.insnOff.length ∧
      (∀ i < v.shared, base.insnOff[i]? = take.insnOff[i]?) ∧
      (∀ s ∈ takeSeed edit take v.shared, s < take.steps → s ∈ v.cone) ∧
      ∀ e ∈ edges, e.fromStep ∈ v.cone → e.toStep < take.steps → e.toStep ∈ v.cone := by
  obtain ⟨hle, heq⟩ := @sharedPrefix_spec base take baseTruncated takeTruncated _ rfl hlen
  obtain ⟨cone, hcone, hseed, hclosed⟩ := forward_spec edges take.steps (takeSeed edit take
    (sharedPrefix (dtFirstDivergence base.insnOff take.insnOff baseTruncated takeTruncated) base
      take))
  rw [loomTakeView]
  dsimp only
  rw [if_neg hsteps, hcone]
  refine ⟨_, rfl, hle, heq, fun s hs hlt => ?_, fun e he hfrom hlt => ?_⟩
  · exact (Finset.mem_sort _).2 (hseed s hs hlt)
  · exact (Finset.mem_sort _).2 (hclosed e he ((Finset.mem_sort _).1 hfrom) hlt)

end AsmTest.Loom
