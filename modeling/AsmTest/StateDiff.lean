import Mathlib.Data.List.Destutter
import AsmTest.NdjsonDf

/-!
# State differences of two recordings

A `statediff` line carries the registers that changed since the step before. The desktop puts two
such streams side by side, step by step.
-/

namespace AsmTest.Doc

open Lib

/-- The fields of `asmtest_regfile_t` that a delta covers -/
inductive RegField
  | rax | rbx | rcx | rdx | rsi | rdi | rbp | rsp
  | r8 | r9 | r10 | r11 | r12 | r13 | r14 | r15
  | rip | rflags
deriving DecidableEq, Repr

def RegField.name : RegField → String
  | .rax => "rax" | .rbx => "rbx" | .rcx => "rcx" | .rdx => "rdx"
  | .rsi => "rsi" | .rdi => "rdi" | .rbp => "rbp" | .rsp => "rsp"
  | .r8 => "r8" | .r9 => "r9" | .r10 => "r10" | .r11 => "r11"
  | .r12 => "r12" | .r13 => "r13" | .r14 => "r14" | .r15 => "r15"
  | .rip => "rip" | .rflags => "rflags"

abbrev RegFile := RegField → BitVec 64

section Writer

/-- In descriptor order -/
def kRegfileFields : List RegField :=
  [.rax, .rbx, .rcx, .rdx, .rsi, .rdi, .rbp, .rsp, .r8, .r9, .r10, .r11, .r12, .r13, .r14, .r15,
    .rip, .rflags]

def changedFields (prev cur : RegFile) : List RegField :=
  kRegfileFields.filter fun r => prev r ≠ cur r

def entryPiece (sep : String) (cur : RegFile) (r : RegField) : Bytes :=
  ascii sep ++ ascii "\"" ++ ascii r.name ++ ascii "\":" ++ decimal (cur r).toNat

/-- Only the first entry stands without a comma. -/
def entryPieces (cur : RegFile) : List RegField → List Bytes
  | [] => []
  | r :: rs => entryPiece "" cur r :: rs.map (entryPiece "," cur)

/-- Without a predecessor nothing is listed, and the delta is not computed. -/
def listedFields : Option RegFile → RegFile → List RegField
  | none, _ => []
  | some prev, cur => changedFields prev cur

def statediffPieces (step : ℕ) (prev : Option RegFile) (cur : RegFile) : List Bytes :=
  [ascii "\"step\":" ++ decimal step ++ ascii ",\"changed\":\x7b"] ++
  entryPieces cur (listedFields prev cur) ++
  [ascii "\x7d,\"computed\":" ++ boolText prev.isSome]

def asmtraceStatediffBody (cap step : ℕ) (prev : Option RegFile) (cur : RegFile) : Bytes :=
  (statediffPieces step prev cur).foldl (bp cap) []

/-- The lines for the held register files, numbered from `step` on. The live capture holds every
step from 0; the recorder may have dropped a number of them. -/
def emitStatediffs (cap : ℕ) : ℕ → Option RegFile → List RegFile → List Bytes
  | _, _, [] => []
  | step, prev, cur :: files =>
    asmtraceEmit "statediff" (asmtraceStatediffBody cap (step % 2 ^ 32) prev cur) ::
      emitStatediffs cap (step + 1) (some cur) files

end Writer

/-- A decoded `statediff` event -/
structure StateDelta where
  step : ℕ
  changed : List (Bytes × ℕ)
  computed : Bool
deriving DecidableEq, Repr

/-- The ordered instructions and the blocks, with what their offsets are relative to -/
structure TraceStream where
  basis : Bytes := []
  basisError : Bytes := []
  insns : List ℕ := []
  blocks : List ℕ := []

def TraceStream.present (t : TraceStream) : Bool :=
  t.insns ≠ [] ∨ t.blocks ≠ []

/-- What the comparison of two recordings reads of each -/
structure Streams where
  trace : TraceStream := {}
  arch : Bytes := []
  codePresent : Bool := false
  codeSha : Bytes := []
  statediff : List StateDelta := []

variable {F : Type}

section Decode

/-- An entry whose value is an integer -/
def changedEntry (e : Bytes × Json F) : Option (Bytes × ℕ) :=
  e.2.asInt.map fun n => (e.1, (n % 2 ^ 64).toNat)

def decodeChanged (m : Members F) : List (Bytes × ℕ) :=
  (m.filterMap changedEntry).foldl (fun c e => mapInsert e.1 e.2 c) []

def decodeStateDelta (body : Json F) : StateDelta :=
  let m := fields body
  { step := getUint 32 "step" m
    changed := decodeChanged ((objMember "changed" m).getD [])
    computed := getBool "computed" m }

end Decode

section Compare

def emDash : Bytes := [0xE2, 0x80, 0x94]

def ellipsis : Bytes := [0xE2, 0x80, 0xA6]

structure DtDiff where
  err : Bytes := []
  identityNote : Bytes := []

/-- Why a pair is refused -/
def dtDiffErr (a b : Streams) : Bytes :=
  if a.trace.basisError ≠ [] ∨ b.trace.basisError ≠ [] then
    ascii "one of these recordings cannot be placed on an axis at all: " ++
      if a.trace.basisError = [] then b.trace.basisError else a.trace.basisError
  else if ¬(a.trace.present = true ∧ b.trace.present = true) then
    ascii "both recordings need a trace or coverage stream to be aligned; " ++
      ascii (if a.trace.present then "the second" else "the first") ++ ascii " has neither"
  else if a.trace.basis ≠ b.trace.basis then
    ascii "these recordings use different address bases (\"" ++ a.trace.basis ++
      ascii "\" vs \"" ++ b.trace.basis ++ ascii "\") " ++ emDash ++
      ascii " a region-relative offset and an absolute address are not the same place; " ++
      ascii "re-record one to match"
  else if a.arch ≠ [] ∧ b.arch ≠ [] ∧ a.arch ≠ b.arch then
    ascii "these recordings are of different architectures (" ++ a.arch ++ ascii " vs " ++ b.arch ++
      ascii ") " ++ emDash ++ ascii " the same offset is a different instruction"
  else if a.codePresent = true ∧ b.codePresent = true ∧ a.codeSha ≠ b.codeSha then
    ascii "these recordings are of different routines (code sha256 " ++ a.codeSha.take 12 ++
      ellipsis ++ ascii " vs " ++ b.codeSha.take 12 ++ ellipsis ++ ascii ") " ++ emDash ++
      ascii " the same offset is a different instruction; a diff would align unrelated code"
  else []

def dtIdentityNote (a b : Streams) : Bytes :=
  ascii "checked: address basis (" ++ a.trace.basis ++
  if a.codePresent ∧ b.codePresent then
    ascii "), arch (" ++ (if a.arch = [] then ascii "unstated" else a.arch) ++
      ascii "), and routine identity (code sha256 " ++ a.codeSha.take 12 ++ ellipsis ++
      ascii " matches)."
  else
    ascii ") and arch (" ++ (if a.arch = [] then ascii "unstated" else a.arch) ++
      ascii "). NOT checked: that both recordings are of the same routine " ++ emDash ++ ascii " " ++
      (if a.codePresent ∨ b.codePresent then
        ascii "only " ++ ascii (if a.codePresent then "the first" else "the second") ++
          ascii " recording carries a code identity, so the hashes cannot be compared"
      else ascii "neither .asmtrace header carries a code identity") ++
      ascii ", so that is the reader's assertion, not this build's finding."

/-- The refusal and the note of `dt_diff_build`, which are what the state comparison takes of it -/
def dtDiffBuild (a b : Streams) : DtDiff :=
  if dtDiffErr a b ≠ [] then { err := dtDiffErr a b } else { identityNote := dtIdentityNote a b }

structure DtStateStep where
  step : ℕ
  regs : List Bytes
  bounded : Bool
deriving DecidableEq, Repr

structure DtStatediff where
  steps : List DtStateStep := []
  err : Bytes := []
  identityNote : Bytes := []
  note : Bytes := []
  bounded : Bool := false
  merged : Bool := false

/-- The last delta of each step, by step -/
def indexSteps (ds : List StateDelta) : List (ℕ × StateDelta) :=
  ds.foldl (fun m d => mapInsert d.step d m) []

/-- The steps of both sides, ascending -/
def unionSteps (ma mb : List (ℕ × StateDelta)) : List ℕ :=
  ((ma.map Prod.fst ++ mb.map Prod.fst).foldl (fun s k => mapInsert k () s) []).map Prod.fst

/-- Changed on one side only, or to different values -/
def divergingRegs (ca cb : List (Bytes × ℕ)) : List Bytes :=
  let regs := (ca.filter fun e => mapFind e.1 cb ≠ some e.2).map Prod.fst ++
    (cb.filter fun e => mapFind e.1 ca = none).map Prod.fst
  (regs.insertionSort (· ≤ ·)).destutter (· ≠ ·)

/-- The entry of a step, when it says something -/
def stateStep (ma mb : List (ℕ × StateDelta)) (step : ℕ) : Option DtStateStep :=
  match mapFind step ma, mapFind step mb with
  | some da, some db =>
    if da.computed ∧ db.computed then
      let regs := divergingRegs da.changed db.changed
      if regs ≠ [] then some { step, regs, bounded := false } else none
    else some { step, regs := [], bounded := true }
  | _, _ => some { step, regs := [], bounded := true }

def dtStatediffBuild (a b : Streams) : DtStatediff :=
  let gate := dtDiffBuild a b
  if gate.err ≠ [] then { err := gate.err }
  else if a.statediff = [] ∨ b.statediff = [] then
    { identityNote := gate.identityNote
      note := ascii <|
        if a.statediff = [] ∧ b.statediff = [] then "neither recording carries a statediff stream"
        else if a.statediff = [] then "the first recording carries no statediff stream"
        else "the second recording carries no statediff stream" }
  else
    let ma := indexSteps a.statediff
    let mb := indexSteps b.statediff
    let steps := (unionSteps ma mb).filterMap (stateStep ma mb)
    { steps
      identityNote := gate.identityNote
      bounded := steps.any DtStateStep.bounded
      merged := true }

end Compare

end AsmTest.Doc
