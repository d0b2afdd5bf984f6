import AsmTest.RecordingUnion

/-!
# Data-flow streams of a document

The decoder of the `df_step` and `df_edge` events, and the split of a document into the passes of
its capture. A pass starts at a `df_invocation` marker; a one-shot capture has none and is one pass.
-/

namespace AsmTest.Doc

open Lib

/-- A decoded operand -/
structure ValRec where
  step : ℕ := 0
  space : Bytes := []
  reg : ℕ := 0
  addr : ℕ := 0
  size : ℕ := 0
  write : Bool := false
  valueValid : Bool := false
  wide : Bool := false
  value : ℕ := 0
  bytes : Bytes := []
deriving DecidableEq, Repr

/-- One pass -/
structure DataflowStream where
  insnOff : List ℕ := []
  insnRbase : List ℕ := []
  rbasePresent : Bool := false
  insnWhen : List ℕ := []
  whenPresent : Bool := false
  disasm : List Bytes := []
  recs : List ValRec := []
  edges : List (ℕ × ℕ) := []
  edgeLoc : List ValRec := []
  nsteps : ℕ := 0
  recsGrouped : Bool := true
  stepsMissing : ℕ := 0
  stepPresent : List Bool := []
deriving DecidableEq, Repr

/-- A decoded `df_step` -/
structure DfStep where
  step : ℕ
  off : ℕ
  rbase : ℕ
  when : ℕ
  disasm : Bytes
  ops : List ValRec
deriving DecidableEq, Repr

variable {F : Type}

section Decode

/-- Where `find` looks: only an object has members. -/
def fields (j : Json F) : Members F :=
  j.asObj.getD []

/-- `get` of an unsigned field of `w` bits, whose default is 0 -/
def getUint (w : ℕ) (key : String) (m : Members F) : ℕ :=
  match (member key m).bind Json.asInt with
  | some n => (n % 2 ^ w).toNat
  | none => 0

lemma getUint_of_some {w n : ℕ} {key : String} {m : Members F}
    (h : member key m = some (.int n)) (hn : n < 2 ^ w) : getUint w key m = n := by
  have hmod : (n : ℤ) % 2 ^ w = n := by
    exact_mod_cast congrArg Nat.cast (Nat.mod_eq_of_lt hn)
  rw [getUint, h]
  simp only [Option.bind_some, Json.asInt]
  rw [hmod, Int.toNat_natCast]

lemma getUint_of_none {w : ℕ} {key : String} {m : Members F} (h : member key m = none) :
    getUint w key m = 0 := by
  rw [getUint, h]
  rfl

def getStr (key : String) (m : Members F) : Bytes :=
  (strMember key m).getD []

def getBool (key : String) (m : Members F) : Bool :=
  (boolMember key m).getD false

/-- The pairs of digits; a digit that is none spoils the whole. -/
def decodeHexPairs : Bytes → Option Bytes
  | [] => some []
  | [_] => none
  | h :: l :: rest =>
    match hexVal h, hexVal l, decodeHexPairs rest with
    | some hi, some lo, some bs => some (UInt8.ofNat (hi * 16 + lo) :: bs)
    | _, _, _ => none

def decodeHex (h : Bytes) : Bytes :=
  (decodeHexPairs h).getD []

def decodeOp (j : Json F) : ValRec :=
  let m := fields j
  { space := getStr "space" m
    reg := getUint 32 "reg" m
    addr := getUint 64 "addr" m
    size := getUint 32 "size" m
    write := getBool "write" m
    valueValid := getBool "value_valid" m
    wide := getBool "wide" m
    value := getUint 64 "value" m
    bytes := decodeHex (getStr "bytes" m) }

variable (L : JsonLib F)

/-- `get<uint32_t>()`, for a number. -/
def getU32 : Json F → Option ℕ
  | .int n => some (n % 2 ^ 32).toNat
  | .float x => some (L.floatToU32 x % 2 ^ 32)
  | _ => none

def u32Member (key : String) (m : Members F) : Option ℕ :=
  (member key m).bind (getU32 L)

lemma u32Member_of_some {n : ℕ} {key : String} {m : Members F}
    (h : member key m = some (.int n)) (hn : n < 2 ^ 32) : u32Member L key m = some n := by
  have hmod : (n : ℤ) % 2 ^ 32 = n := by
    exact_mod_cast congrArg Nat.cast (Nat.mod_eq_of_lt hn)
  rw [u32Member, h, Option.bind_some, getU32, hmod, Int.toNat_natCast]

/-- A `df_step` without a number for its step is skipped. -/
def decodeStep (body : Json F) : Option DfStep :=
  let m := fields body
  match u32Member L "step" m with
  | none => none
  | some step => some {
      step
      off := getUint 64 "off" m
      rbase := getUint 64 "rbase" m
      when := getUint 64 "when" m
      disasm := getStr "disasm" m
      ops := (((member "ops" m).bind Json.asArr).getD []).map fun o => { decodeOp o with step } }

def decodeEdge (body : Json F) : Option ((ℕ × ℕ) × ValRec) :=
  let m := fields body
  match u32Member L "from" m, u32Member L "to" m with
  | some f, some t => some ((f, t), ((objMember "loc" m).map fun l => decodeOp (.obj l)).getD {})
  | _, _ => none

/-- No step comes after one with a greater index. -/
def grouped : List ℕ → Bool
  | a :: b :: l => a ≤ b && grouped (b :: l)
  | _ => true

/-- `a[st.step] = f st` for every step in turn -/
def fillSteps {α : Type} (f : DfStep → α) (steps : List DfStep) (a : List α) : List α :=
  steps.foldl (fun a st => a.set st.step (f st)) a

def decodeDataflow (stepEvs edgeEvs : List (Event F)) : DataflowStream :=
  let inOrder := (stepEvs.map Event.body).filterMap (decodeStep L)
  let steps := inOrder.insertionSort fun a b => a.step ≤ b.step
  -- `st.step + 1` is an unsigned int
  let nsteps := (steps.map fun st => (st.step + 1) % 2 ^ 32).foldl max 0
  let seen := fillSteps (fun _ => true) steps (List.replicate nsteps false)
  let edges := (edgeEvs.map Event.body).filterMap (decodeEdge L)
  { insnOff := fillSteps DfStep.off steps (List.replicate nsteps 0)
    insnRbase := fillSteps DfStep.rbase steps (List.replicate nsteps 0)
    rbasePresent := steps.any fun st => st.rbase ≠ 0
    insnWhen := fillSteps DfStep.when steps (List.replicate nsteps 0)
    whenPresent := steps.any fun st => st.when ≠ 0
    disasm := fillSteps DfStep.disasm (steps.filter fun st => st.disasm ≠ [])
      (List.replicate nsteps [])
    recs := steps.flatMap DfStep.ops
    edges := edges.map Prod.fst
    edgeLoc := edges.map Prod.snd
    nsteps
    recsGrouped := grouped (inOrder.map DfStep.step)
    stepsMissing := seen.countP fun c => !c
    stepPresent := seen }

end Decode

section Segments

/-- The events of a kind, in the order they came -/
def kindEvents (k : String) (r : Recording F) : List (Event F) :=
  (mapFind (ascii k) r.byKind).getD []

/-- The stream positions of each pass, from its marker to the next one and at last to `top` -/
def windows (top : ℕ) : List ℕ → List (ℕ × ℕ)
  | [] => []
  | [lo] => [(lo, top)]
  | lo :: hi :: rest => (lo, hi) :: windows top (hi :: rest)

def bucket (w : ℕ × ℕ) (es : List (Event F)) : List (Event F) :=
  es.filter fun e => w.1 ≤ e.seq ∧ e.seq < w.2

/-- The `df_step` and `df_edge` events of each pass -/
def passEvents (r : Recording F) : List (List (Event F) × List (Event F)) :=
  let steps := kindEvents "df_step" r
  let edges := kindEvents "df_edge" r
  let marks := (kindEvents "df_invocation" r).insertionSort fun a b => a.seq ≤ b.seq
  if marks = [] then
    if steps = [] ∧ edges = [] then [] else [(steps, edges)]
  else (windows (2 ^ 64 - 1) (marks.map Event.seq)).map fun w => (bucket w steps, bucket w edges)

def buildSegmentedDataflow (L : JsonLib F) (r : Recording F) : List DataflowStream :=
  (passEvents r).map fun p => decodeDataflow L p.1 p.2

end Segments

end AsmTest.Doc
