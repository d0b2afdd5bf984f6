import AsmTest.Lib.OrderedMap
import AsmTest.Footprint
import Mathlib.Data.List.Sort
import Mathlib.Data.List.Indexes

/-!
# The fabric of a recorded run

`loom_fabric_build`: a value trace and its def-use edges as lanes, spans, hops, reads and knots.
Indices into lanes and spans are 32 bits wide, addresses 64.
-/

namespace AsmTest.Loom

open Lib
open Dataflow (ValRec ValTrace DefUse DefUseEdge LocKind)

/-- Alive at the end of the trace -/
def kLoomAlive : ℕ := 2 ^ 32 - 1

/-- No defining record -/
def kLoomNoRec : ℕ := 2 ^ 64 - 1

def kLoomNoSpan : ℕ := 2 ^ 32 - 1

/-- Bands coalesce across gaps of at most this many bytes. -/
def kBandGap : ℕ := 64

/-- One byte is the smallest thing a memory access can be. -/
def recWidth (r : ValRec) : ℕ :=
  if r.size ≠ 0 then r.size else 1

def recHi (r : ValRec) : ℕ :=
  (r.addr.toNat + recWidth r) % 2 ^ 64

section Registers

/-- Sub-register and 64-bit container -/
def kFolds : List (ℕ × ℕ) := [
  (2, 35), (1, 35), (3, 35), (19, 35), -- al ah ax eax
  (5, 37), (4, 37), (8, 37), (21, 37), -- bl bh bx ebx
  (10, 38), (9, 38), (12, 38), (22, 38), -- cl ch cx ecx
  (16, 40), (13, 40), (18, 40), (24, 40), -- dl dh dx edx
  (46, 43), (45, 43), (29, 43), -- sil si esi
  (15, 39), (14, 39), (23, 39), -- dil di edi
  (7, 36), (6, 36), (20, 36), -- bpl bp ebp
  (48, 44), (47, 44), (30, 44), -- spl sp esp
  (218, 106), (226, 106), (234, 106), -- r8b r8d r8w
  (219, 107), (227, 107), (235, 107),
  (220, 108), (228, 108), (236, 108),
  (221, 109), (229, 109), (237, 109),
  (222, 110), (230, 110), (238, 110),
  (223, 111), (231, 111), (239, 111),
  (224, 112), (232, 112), (240, 112),
  (225, 113), (233, 113), (241, 113)] -- r15b r15d r15w

def kNames : List (ℕ × String) := [
  (35, "rax"), (37, "rbx"), (38, "rcx"), (40, "rdx"), (43, "rsi"), (39, "rdi"), (36, "rbp"),
  (44, "rsp"), (106, "r8"), (107, "r9"), (108, "r10"), (109, "r11"), (110, "r12"), (111, "r13"),
  (112, "r14"), (113, "r15"), (41, "rip"), (25, "eflags")]

/-- A container, or a register that is not modelled, is its own. -/
def loomFoldReg (reg : ℕ) : ℕ :=
  ((kFolds.find? fun f => f.1 = reg).map Prod.snd).getD reg

def loomRegName (container : ℕ) : String :=
  ((kNames.find? fun n => n.1 = container).map Prod.snd).getD ("reg#" ++ toString container)

/-- The argument registers, the other general ones, then `rsp`, `rip` and the flags -/
def loomRegDeck : List ℕ :=
  [39, 43, 40, 38, 106, 107, 35, 37, 36, 108, 109, 110, 111, 112, 113, 44, 41, 25]

end Registers

structure LoomProvenance where
  producer : String
  exact : Bool
deriving DecidableEq, Repr

inductive LaneKind
  | reg
  | memBand
deriving DecidableEq, Repr

/-- One location over time: a register container or a band of bytes from `lo` to below `hi` -/
structure LoomLane where
  kind : LaneKind
  reg : ℕ := 0
  lo : ℕ := 0
  hi : ℕ := 0
  name : String
  space : String := ""
  firstTouchStep : ℕ
deriving DecidableEq, Repr

/-- The value on a lane from `tWrite` until the next write that overlaps it -/
structure LoomSpan where
  lane : ℕ
  tWrite : ℕ
  tEnd : ℕ := kLoomAlive
  recIdx : ℕ := kLoomNoRec
  valueValid : Bool
  bornUntraced : Bool := false
  value : BitVec 64
  lo : ℕ := 0
  hi : ℕ := 0
deriving DecidableEq, Repr

/-- A def-use edge on the fabric -/
structure LoomHop where
  fromSpan : ℕ
  toSpan : ℕ
  edge : ℕ
deriving DecidableEq, Repr

structure LoomRead where
  step : ℕ
  lane : ℕ
  hasProducer : Bool
deriving DecidableEq, Repr

structure LoomFabric where
  lanes : List LoomLane
  spans : List LoomSpan
  hops : List LoomHop
  /-- Steps that both read and write -/
  knots : List ℕ
  reads : List LoomRead
  prov : LoomProvenance
  steps : ℕ
  insnOff : List (BitVec 64)

section Lanes

/-- Container and the step it is first touched at -/
def regFirst (recs : List ValRec) : List (ℕ × ℕ) :=
  (recs.filter fun r => r.kind = .reg).foldl (fun m r =>
    let c := loomFoldReg r.reg.toNat
    match mapFind c m with
    | none => mapInsert c r.step m
    | some s => mapInsert c (min s r.step) m) []

def regLane (c firstTouchStep : ℕ) : LoomLane :=
  { kind := .reg, reg := c, name := loomRegName c, firstTouchStep }

def deckLanes (first : List (ℕ × ℕ)) : List LoomLane :=
  loomRegDeck.filterMap fun c => (mapFind c first).map (regLane c)

/-- Registers outside the deck, by first touch and then by id -/
def extraLanes (first : List (ℕ × ℕ)) : List LoomLane :=
  ((first.filter fun e => e.1 ∉ loomRegDeck).insertionSort
    fun a b => a.2 < b.2 ∨ a.2 = b.2 ∧ a.1 ≤ b.1).map fun e => regLane e.1 e.2

structure MemRange where
  lo : ℕ
  hi : ℕ
  firstStep : ℕ
deriving DecidableEq, Repr

def memRange (r : ValRec) : MemRange :=
  ⟨r.addr.toNat, recHi r, r.step⟩

/-- The loop over the sorted ranges, with the band that is still open -/
def coalesce : MemRange → List MemRange → List MemRange
  | cur, [] => [cur]
  | cur, r :: rs =>
    if r.lo ≤ (cur.hi + kBandGap) % 2 ^ 64 then
      coalesce ⟨cur.lo, max cur.hi r.hi, min cur.firstStep r.firstStep⟩ rs
    else cur :: coalesce r rs

def rangeLe (a b : MemRange) : Prop :=
  a.lo < b.lo ∨ a.lo = b.lo ∧ a.hi ≤ b.hi

instance : DecidableRel rangeLe := fun _ _ => inferInstanceAs (Decidable (_ ∨ _))

def bandLe (a b : MemRange) : Prop :=
  a.firstStep < b.firstStep ∨ a.firstStep = b.firstStep ∧ a.lo ≤ b.lo

instance : DecidableRel bandLe := fun _ _ => inferInstanceAs (Decidable (_ ∨ _))

def memRanges (recs : List ValRec) : List MemRange :=
  (recs.filter fun r => r.kind ≠ .reg).map memRange

def memBands (recs : List ValRec) : List MemRange :=
  match (memRanges recs).insertionSort rangeLe with
  | [] => []
  | r :: rs => (coalesce r rs).insertionSort bandLe

def hex (n : ℕ) : String :=
  "0x" ++ String.ofList (Nat.toDigits 16 n)

def bandLane (space : String) (b : MemRange) : LoomLane :=
  { kind := .memBand, lo := b.lo, hi := b.hi, space, firstTouchStep := b.firstStep
    name := "mem[" ++ hex b.lo ++ ".." ++ hex b.hi ++ ")" }

def fabricLanes (v : ValTrace) : List LoomLane :=
  let first := regFirst v.recs
  let space := if v.memSpace = .memOff then "off" else "abs"
  deckLanes first ++ extraLanes first ++ (memBands v.recs).map (bandLane space)

/-- Does the record touch the lane? -/
def onLane (r : ValRec) (l : LoomLane) : Bool :=
  if r.kind = .reg then l.kind = .reg ∧ l.reg = loomFoldReg r.reg.toNat
  else l.kind = .memBand ∧ r.addr.toNat < l.hi ∧ l.lo < recHi r

def laneOf (lanes : List LoomLane) (r : ValRec) : ℕ :=
  match lanes.findIdx? (onLane r) with
  | some i => i % 2 ^ 32
  | none => kLoomNoSpan

end Lanes

section Spans

def writeSpan (lanes : List LoomLane) (r : ValRec) (i : ℕ) : Option LoomSpan :=
  if r.isWrite = false ∨ laneOf lanes r = kLoomNoSpan then none
  else some {
    lane := laneOf lanes r
    tWrite := r.step
    recIdx := i
    valueValid := r.valueValid
    value := r.value
    lo := if r.kind = .reg then 0 else r.addr.toNat
    hi := if r.kind = .reg then 0 else recHi r }

def writeSpans (lanes : List LoomLane) (recs : List ValRec) : List LoomSpan :=
  recs.zipIdx.filterMap fun p => writeSpan lanes p.1 p.2

/-- A lane whose first record is a read held a value that was never seen written. -/
def entrySpan (lanes : List LoomLane) (recs : List ValRec) (writes : List LoomSpan) (lane : ℕ) :
    Option LoomSpan :=
  match recs.find? (fun r => laneOf lanes r = lane), lanes[lane]? with
  | some first, some l =>
    if first.isWrite then none
    else some {
      lane
      tWrite := 0
      tEnd := ((writes.filter fun s => s.lane = lane).map LoomSpan.tWrite).foldl min kLoomAlive
      bornUntraced := true
      valueValid := first.valueValid
      value := first.value
      lo := l.lo
      hi := l.hi }
  | _, _ => none

def spanLe (a b : LoomSpan) : Prop :=
  a.lane < b.lane ∨ a.lane = b.lane ∧
    (a.tWrite < b.tWrite ∨ a.tWrite = b.tWrite ∧ a.recIdx ≤ b.recIdx)

instance : DecidableRel spanLe := fun _ _ => inferInstanceAs (Decidable (_ ∨ _))

/-- Does `o` end the span `s`? Register spans always intersect. -/
def endsSpan (lanes : List LoomLane) (s o : LoomSpan) : Bool :=
  o.lane = s.lane ∧ o.bornUntraced = false ∧ s.tWrite < o.tWrite ∧
    ((lanes[s.lane]?.map LoomLane.kind) = some .reg ∨ o.lo < s.hi ∧ s.lo < o.hi)

def closeSpan (lanes : List LoomLane) (spans : List LoomSpan) (s : LoomSpan) : LoomSpan :=
  if s.bornUntraced then s
  else { s with
    tEnd := ((spans.filter (endsSpan lanes s)).map LoomSpan.tWrite).foldl min kLoomAlive }

def fabricSpans (lanes : List LoomLane) (recs : List ValRec) : List LoomSpan :=
  let writes := writeSpans lanes recs
  let entries := (List.range lanes.length).filterMap (entrySpan lanes recs writes)
  let sorted := (writes ++ entries).insertionSort spanLe
  sorted.map (closeSpan lanes sorted)

end Spans

section Hops

/-- The index of the last span that passes the test -/
def lastSpan (p : LoomSpan → Bool) (spans : List LoomSpan) : ℕ :=
  spans.zipIdx.foldl (fun best s => if p s.1 then s.2 % 2 ^ 32 else best) kLoomNoSpan

/-- Could this span be the producer of the edge? -/
def producesEdge (lanes : List LoomLane) (lane : ℕ) (e : DefUseEdge) (s : LoomSpan) : Bool :=
  s.lane = lane ∧ s.tWrite = e.fromStep ∧ s.bornUntraced = false ∧
    ((lanes[lane]?.map LoomLane.kind) = some .memBand →
      e.loc.addr.toNat < s.hi ∧ s.lo < recHi e.loc)

/-- The consumer's span, on the same lane if there is one -/
def consumerSpan (lane : ℕ) (e : DefUseEdge) (spans : List LoomSpan) : ℕ :=
  let defines s := decide (s.tWrite = e.toStep ∧ s.bornUntraced = false)
  match spans.findIdx? fun s => defines s ∧ s.lane = lane with
  | some j => j % 2 ^ 32
  | none =>
    match spans.findIdx? defines with
    | some j => j % 2 ^ 32
    | none => kLoomNoSpan

def fabricHop (lanes : List LoomLane) (spans : List LoomSpan) (e : DefUseEdge) (i : ℕ) :
    Option LoomHop :=
  let lane := laneOf lanes e.loc
  let src := lastSpan (producesEdge lanes lane e) spans
  if lane = kLoomNoSpan ∨ src = kLoomNoSpan then none
  else some { fromSpan := src, toSpan := consumerSpan lane e spans, edge := i % 2 ^ 32 }

def fabricHops (lanes : List LoomLane) (spans : List LoomSpan) (edges : List DefUseEdge) :
    List LoomHop :=
  edges.zipIdx.filterMap fun p => fabricHop lanes spans p.1 p.2

end Hops

def fabricReads (lanes : List LoomLane) (recs : List ValRec) (edges : List DefUseEdge) :
    List LoomRead :=
  (recs.filter fun r => r.isWrite = false ∧ laneOf lanes r ≠ kLoomNoSpan).map fun r =>
    { step := r.step
      lane := laneOf lanes r
      hasProducer := edges.any fun e => e.toStep = r.step ∧ laneOf lanes e.loc = laneOf lanes r }

def fabricKnots (recs : List ValRec) : List ℕ :=
  ((recs.foldl (fun m r => mapInsert r.step () m) []).map Prod.fst).filter fun t =>
    (recs.any fun r => r.step = t ∧ r.isWrite = false) ∧
      recs.any fun r => r.step = t ∧ r.isWrite = true

/-- `st.step + 1` is 32 bits wide. -/
def fabricSteps (v : ValTrace) : ℕ :=
  v.recs.foldl (fun n r => max n ((r.step + 1) % 2 ^ 32)) (v.stepsLen % 2 ^ 32)

def loomFabricBuild (v : ValTrace) (g : DefUse) (prov : LoomProvenance) :
    Except String LoomFabric :=
  if prov.exact = false then
    .error ("refusing to weave \"" ++ (if prov.producer = "" then "(unnamed)" else prov.producer) ++
      "\": it is a statistical producer, and a statistical feed can never appear as fabric — a " ++
      "sample cannot say what a value was at a step. It joins the lane annex as corroboration " ++
      "instead.")
  else
    let lanes := fabricLanes v
    let spans := fabricSpans lanes v.recs
    .ok {
      lanes
      spans
      hops := fabricHops lanes spans g.edges
      knots := fabricKnots v.recs
      reads := fabricReads lanes v.recs g.edges
      prov
      steps := fabricSteps v
      -- a step without a recorded offset keeps the largest value
      insnOff := (List.range (fabricSteps v)).map fun s => v.insnOff.getD s (BitVec.allOnes 64) }

/-- The span on a lane at time `t` -/
def LoomFabric.resident (f : LoomFabric) (lane t : ℕ) : ℕ :=
  lastSpan (fun s => s.lane = lane ∧ s.tWrite ≤ t ∧ (s.tEnd = kLoomAlive ∨ t < s.tEnd)) f.spans

end AsmTest.Loom
