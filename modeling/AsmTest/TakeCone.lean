import AsmTest.TakeView
import AsmTest.Lib.Influence

/-!
# The cone of an edit

A machine whose instructions depend on their bytes and on the places that their records name, a run
of it, and the run after one edit. The cone of the view has every step with a different write if
every step that the edited fact enters is a seed and no step of the take reads a place that only the
base wrote.
-/

namespace AsmTest.Loom

open Lib Influence
open Dataflow (ValRec ValTrace DefUse DefUseEdge LwKey lwKeys regSlice defuseBuild appendAll
  valtraceNew groupAt)

variable {β : Type}

/-- What an instruction does: its operand records, the bytes at the places it writes and the offset
it goes on at -/
structure Insn (β : Type) where
  recs : List ValRec
  bytes : LwKey → β
  next : Option (BitVec 64)

namespace Insn

def reads (x : Insn β) : List LwKey :=
  (x.recs.filter fun r => !r.isWrite).flatMap lwKeys

def writes (x : Insn β) : List LwKey :=
  (x.recs.filter ValRec.isWrite).flatMap lwKeys

def effect (x : Insn β) : Effect LwKey β (List ValRec × Option (BitVec 64)) :=
  ⟨x.reads, x.writes, x.bytes, x.recs, x.next⟩

end Insn

/-- An abstract deterministic machine -/
structure Machine (β : Type) where
  exec : List UInt8 → BitVec 64 → (LwKey → β) → Insn β
  length : List UInt8 → BitVec 64 → ℕ
  reads_only : ∀ code pc, Local fun s => (exec code pc s).effect
  fetch : ∀ code code' pc,
    (∀ b, pc.toNat ≤ b → b < pc.toNat + length code pc → code[b]? = code'[b]?) →
      exec code pc = exec code' pc

/-- The machine before a step -/
structure At (β : Type) where
  pc : BitVec 64
  store : LwKey → β

namespace Machine

variable (M : Machine β) (code : List UInt8)

def insn (a : At β) : Insn β :=
  M.exec code a.pc a.store

/-- At most `n` steps -/
def run : ℕ → At β → List (At β)
  | 0, _ => []
  | n + 1, a =>
    a :: match (M.insn code a).next with
      | none => []
      | some pc => run n ⟨pc, (M.insn code a).effect.apply a.store⟩

/-- Every state comes from the one before. -/
def Chain (l : List (At β)) : Prop :=
  ∀ i a b, l[i]? = some a → l[i + 1]? = some b → b.store = (M.insn code a).effect.apply a.store

lemma run_head (n : ℕ) (a : At β) {b : At β} (h : (M.run code n a)[0]? = some b) : b = a := by
  cases n with
  | zero => cases h
  | succ n =>
    cases h
    rfl

lemma run_chain (n : ℕ) (a : At β) : M.Chain code (M.run code n a) := by
  -- the run is a step and the run from there
  induction n generalizing a with
  | zero => exact fun i a b h => by cases h
  | succ n ih =>
    intro i b c hb hc
    rw [run] at hb hc
    cases i with
    | zero =>
      cases hb
      rw [List.getElem?_cons_succ] at hc
      split at hc
      · cases hc
      · rw [run_head M code _ _ hc]
    | succ i =>
      rw [List.getElem?_cons_succ] at hb hc
      cases hnext : (M.insn code a).next with
      | none =>
        rw [hnext] at hb
        cases hb
      | some pc =>
        rw [hnext] at hb hc
        exact ih _ i b c hb hc

/-- The recording of a run -/
def record (stepsCap recsCap : ℕ) (l : List (At β)) : ValTrace :=
  appendAll (valtraceNew stepsCap recsCap) (l.map fun a => (a.pc, (M.insn code a).recs))

/-- The buffers do not fill. -/
def Fits (stepsCap recsCap : ℕ) (l : List (At β)) : Prop :=
  l.length ≤ stepsCap ∧ (l.flatMap fun a => (M.insn code a).recs).length ≤ recsCap

end Machine

/-- The argument registers in order -/
def argRegs : List (BitVec 32) :=
  [39, 43, 40, 38, 106, 107]

/-- The bytes of a register -/
def regPlaces (reg : BitVec 32) : List LwKey :=
  lwKeys { kind := .reg, reg }

/-- Put the bytes at the places. -/
def overwrite (places : List LwKey) (bytes s : LwKey → β) : LwKey → β :=
  fun k => if k ∈ places then bytes k else s k

inductive Edit (β : Type) where
  | entryArg (arg : Fin 6) (bytes : LwKey → β)
  | codePatch (code : List UInt8)
  /-- A register or a memory range before step `k`; a new `rip` is apart. -/
  | fromStep (k : ℕ) (places : List LwKey) (bytes : LwKey → β) (rip : Option (BitVec 64))

namespace Edit

def desc (code : List UInt8) : Edit β → LoomEditDesc
  | entryArg arg _ => { argReg := (argRegs.get arg).toNat }
  | codePatch code' => { codePatch := true, baseCode := code, takeCode := code' }
  | fromStep k _ _ _ => { fromStepEdit := true, fromStep := k }

def start : Edit β → ℕ
  | entryArg _ _ => 0
  | codePatch _ => 0
  | fromStep k _ _ _ => k

/-- The places of the edited fact -/
def places : Edit β → List LwKey
  | entryArg arg _ => regPlaces (argRegs.get arg)
  | codePatch _ => []
  | fromStep _ places _ _ => places

/-- The code that the take runs -/
def takeCode (code : List UInt8) : Edit β → List UInt8
  | entryArg _ _ => code
  | codePatch code' => code'
  | fromStep _ _ _ _ => code

/-- The take: a run of its own, or the base up to the step and a run from there -/
def take (M : Machine β) (code : List UInt8) (a : At β) (base : List (At β)) (n : ℕ) :
    Edit β → List (At β)
  | entryArg arg bytes =>
    M.run code n { a with store := overwrite (regPlaces (argRegs.get arg)) bytes a.store }
  | codePatch code' => M.run code' n a
  | fromStep k places bytes rip =>
    base.take k ++
      match base[k]? with
      | none => []
      | some b => M.run code n ⟨rip.getD b.pc, overwrite places bytes b.store⟩

/-- There is no take from a step that the base does not have. -/
def Applies (base : List (At β)) : Edit β → Prop
  | fromStep k _ _ _ => k < base.length
  | _ => True

end Edit

section Conditions

variable (M : Machine β) (code : List UInt8) (base take : List (At β))

/-- Up to step `i` the runs are at the same instructions. -/
def Aligned (i : ℕ) : Prop :=
  ∀ j ≤ i, ∃ a b, base[j]? = some a ∧ take[j]? = some b ∧ a.pc = b.pc

/-- A place that a step of the run writes -/
def WritesAt (l : List (At β)) (i : ℕ) (k : LwKey) : Prop :=
  ∃ a ∈ l[i]?, k ∈ (M.insn code a).writes

def ReadsAt (l : List (At β)) (i : ℕ) (k : LwKey) : Prop :=
  ∃ a ∈ l[i]?, k ∈ (M.insn code a).reads

/-- The step reads the edited fact: a place of it that no step since the edit wrote. -/
def ReadsEdited (edit : Edit β) (i : ℕ) (k : LwKey) : Prop :=
  ReadsAt M (edit.takeCode code) take i k ∧ k ∈ edit.places ∧ edit.start ≤ i ∧
    ∀ j, edit.start ≤ j → j < i → ¬WritesAt M (edit.takeCode code) take j k

/-- The bytes of the instruction at step `i` are patched. -/
def Patched (code' : List UInt8) (i : ℕ) : Prop :=
  ∃ a ∈ base[i]?, ∃ b, a.pc.toNat ≤ b ∧ b < a.pc.toNat + M.length code a.pc ∧
    code[b]? ≠ code'[b]?

/-- Every step of the shared prefix that the edited fact enters is one of the seeds: a step that
reads the argument reads no byte of it that was written before, the only patched instruction that
runs is the first one whose compared bytes differ, only the step of the edit reads what was
edited. -/
def EntersAtSeeds : Edit β → Prop
  | .entryArg arg bytes => ∀ i, Aligned base take i →
    (∃ k, ReadsEdited M code take (.entryArg arg bytes) i k) →
      ∀ k ∈ regPlaces (argRegs.get arg), ReadsAt M code take i k →
        ∀ j < i, ¬WritesAt M code take j k
  | .codePatch code' => ∀ i, Aligned base take i → Patched M code base code' i →
    windowDiffers ((Edit.codePatch code' : Edit β).desc code) (take.map At.pc) i = true ∧
      ∀ j < i, windowDiffers ((Edit.codePatch code' : Edit β).desc code) (take.map At.pc) j = false
  | .fromStep k places bytes rip => ∀ i, Aligned base take i →
    (∃ key, ReadsEdited M code take (.fromStep k places bytes rip) i key) → i = k

/-- No step of the shared prefix reads a place that the base wrote before it and the take has not
written since, but for the edited fact. -/
def NoLostReads (edit : Edit β) : Prop :=
  ∀ i, Aligned base take i → ∀ k, ReadsAt M (edit.takeCode code) take i k →
    ¬ReadsEdited M code take edit i k → ∀ j < i, WritesAt M code base j k →
      ∃ u, j ≤ u ∧ u < i ∧ WritesAt M (edit.takeCode code) take u k

end Conditions

section Differs

/-- The place of a write record: the register's container, or an address and a width -/
def placeOf (r : ValRec) : WKey :=
  if r.kind = .reg then toLex (0, toLex (loomFoldReg r.reg.toNat, 0))
  else toLex (1, toLex (r.addr.toNat, recWidth r))

/-- The last write of an instruction to a place -/
def lastWrite (recs : List ValRec) (p : WKey) : Option ValRec :=
  (recs.filter fun r => r.isWrite ∧ placeOf r = p).getLast?

/-- The two runs write different known values to the same place at step `i`. -/
def DiffersAt (M : Machine β) (code code' : List UInt8) (base take : List (At β)) (i : ℕ) : Prop :=
  ∃ a ∈ base[i]?, ∃ b ∈ take[i]?, ∃ p, ∃ w ∈ lastWrite (M.insn code a).recs p,
    ∃ w' ∈ lastWrite (M.insn code' b).recs p,
      w.valueValid = true ∧ w'.valueValid = true ∧ w.value ≠ w'.value

end Differs

section Recording

open Dataflow (pushRec valtraceAppend Stamped)

lemma insnOff_appendAll (calls : List (BitVec 64 × List ValRec)) {v : ValTrace}
    (h : v.insnOff.length + calls.length ≤ v.stepsCap) :
    (appendAll v calls).insnOff = v.insnOff ++ calls.map Prod.fst := by
  -- there is room for each of the calls, so none is left out
  induction calls generalizing v with
  | nil => exact (List.append_nil _).symm
  | cons c calls ih =>
    rw [List.length_cons] at h
    have hoff : (valtraceAppend v c.1 c.2).insnOff = v.insnOff ++ [c.1] := by
      rw [valtraceAppend]
      dsimp only
      rw [if_pos (by omega), Dataflow.foldl_pushRec_insnOff]
    have hcap := Dataflow.valtraceAppend_stepsCap v c.1 c.2
    have hroom : (valtraceAppend v c.1 c.2).insnOff.length + calls.length ≤
        (valtraceAppend v c.1 c.2).stepsCap := by
      rw [hoff, hcap, List.length_append, List.length_singleton]
      omega
    change (appendAll (valtraceAppend v c.1 c.2) calls).insnOff = _
    rw [ih hroom, hoff, List.append_assoc, List.map_cons, List.singleton_append]

/-- A record with the number of its step -/
def stamp (i : ℕ) (r : ValRec) : ValRec :=
  { r with step := i }

lemma filter_flatMap_stamp (f : ℕ → List ValRec) (n i : ℕ) :
    ((List.range n).flatMap fun j => (f j).map (stamp j)).filter (fun r => r.step = i) =
      if i < n then (f i).map (stamp i) else [] := by
  induction n with
  | zero => rfl
  | succ n ih =>
    have hlast : ((f n).map (stamp n)).filter (fun r => r.step = i) =
        if n = i then (f n).map (stamp n) else [] := by
      rw [List.filter_map]
      by_cases hni : n = i
      · rw [if_pos hni, List.filter_eq_self.2]
        intro r _
        exact decide_eq_true hni
      · rw [if_neg hni, List.filter_eq_nil_iff.2, List.map_nil]
        intro r _ hr
        exact hni (of_decide_eq_true hr)
    rw [List.range_succ, List.flatMap_append, List.filter_append, ih, List.flatMap_singleton,
      hlast]
    by_cases hni : n = i
    · subst hni
      rw [if_neg (lt_irrefl _), if_pos rfl, if_pos (Nat.lt_succ_self _), List.nil_append]
    · rw [if_neg hni, List.append_nil]
      by_cases hi : i < n
      · rw [if_pos hi, if_pos (by omega)]
      · rw [if_neg hi, if_neg (by omega)]

/-- What is recorded of a run when there is room -/
structure Recorded (M : Machine β) (code : List UInt8) (l : List (At β)) (v : ValTrace) : Prop where
  off : v.insnOff = l.map At.pc
  group : ∀ i a, l[i]? = some a → groupAt v.recs i = (M.insn code a).recs.map (stamp i)
  stamped : Stamped v

lemma recorded {M : Machine β} {code : List UInt8} {stepsCap recsCap : ℕ} {l : List (At β)}
    (h : M.Fits code stepsCap recsCap l) (hcap : stepsCap < 2 ^ 32) :
    Recorded M code l (M.record code stepsCap recsCap l) ∧
      (M.record code stepsCap recsCap l).recs.length ≤ recsCap := by
  obtain ⟨hsteps, hrecs⟩ := h
  rw [Machine.record]
  generalize hcalls : (l.map fun a => (a.pc, (M.insn code a).recs)) = calls
  have hlen : calls.length = l.length := by rw [← hcalls, List.length_map]
  have hflat : (calls.flatMap Prod.snd).length ≤ recsCap := by
    rwa [← hcalls, List.flatMap_map]
  obtain ⟨v, hv, hvlen, -, -, hvrecs, hveq⟩ := Dataflow.appendAll_of_room calls
    (show calls.length ≤ stepsCap by omega) (by omega) hflat
  have hoff : v.insnOff = l.map At.pc := by
    rw [← hv, insnOff_appendAll calls (by simpa [valtraceNew] using (by omega)), ← hcalls,
      List.map_map]
    rfl
  have hstamped : Stamped v := by
    rw [← hv]
    apply Dataflow.stamped_appendAll
    rw [hv, hvlen]
    omega
  rw [hv]
  refine ⟨⟨hoff, fun i a ha => ?_, hstamped⟩, by omega⟩
  have hi : i < l.length := (List.getElem?_eq_some_iff.1 ha).1
  rw [Dataflow.groupAt_eq_stepRecs hstamped, ValTrace.stepRecs, hveq]
  have hcall : (calls.getD i (0, [])).2 = (M.insn code a).recs := by
    rw [List.getD_eq_getElem?_getD, ← hcalls, List.getElem?_map, ha]
    rfl
  have hfilter := filter_flatMap_stamp (fun j => (calls.getD j (0, [])).2) calls.length i
  rw [if_pos (by omega), hcall] at hfilter
  exact hfilter

end Recording

section Runs

variable {M : Machine β} {code : List UInt8} {a : At β} {base take : List (At β)}

lemma overwrite_ne {places : List LwKey} {bytes s : LwKey → β} {k : LwKey}
    (h : s k ≠ overwrite places bytes s k) : k ∈ places := by
  by_contra hk
  exact h (if_neg hk).symm

/-- The take is a run but for the edited places. -/
structure Edited (M : Machine β) (code : List UInt8) (base take : List (At β)) (start : ℕ)
    (places : List LwKey) : Prop where
  head : ∀ a b, base[0]? = some a → take[0]? = some b → ∀ k, a.store k ≠ b.store k →
    start = 0 ∧ k ∈ places
  step : ∀ i a b, take[i]? = some a → take[i + 1]? = some b → ∀ k,
    b.store k ≠ (M.insn code a).effect.apply a.store k → start = i + 1 ∧ k ∈ places

lemma Machine.Chain.edited {start : ℕ} {places : List LwKey} (h : M.Chain code take)
    (hhead : ∀ a b, base[0]? = some a → take[0]? = some b → ∀ k, a.store k ≠ b.store k →
      start = 0 ∧ k ∈ places) : Edited M code base take start places :=
  ⟨hhead, fun i a b ha hb k hne => absurd (congrFun (h i a b ha hb) k) hne⟩

/-- The base up to step `k` and another run from there -/
lemma getElem?_stitch {k : ℕ} (hk : k < base.length) (tail : List (At β)) (i : ℕ) :
    (base.take k ++ tail)[i]? = if i < k then base[i]? else tail[i - k]? := by
  have hlen : (base.take k).length = k := by
    rw [List.length_take]
    omega
  by_cases hi : i < k
  · rw [if_pos hi, List.getElem?_append_left (by omega), List.getElem?_take_of_lt hi]
  · rw [if_neg hi, List.getElem?_append_right (by omega), hlen]

lemma edited_fromStep {k n : ℕ} {places : List LwKey} {bytes : LwKey → β} {b : At β}
    {pc : BitVec 64} (hbase : M.Chain code base) (hb : base[k]? = some b) :
    Edited M code base (base.take k ++ M.run code n ⟨pc, overwrite places bytes b.store⟩) k
      places := by
  have hk : k < base.length := (List.getElem?_eq_some_iff.1 hb).1
  constructor
  · intro x y hx hy key hne
    rw [getElem?_stitch hk] at hy
    split_ifs at hy with h0
    · rw [hx, Option.some.injEq] at hy
      rw [hy] at hne
      exact absurd rfl hne
    · obtain rfl : k = 0 := by omega
      rw [Machine.run_head M code _ _ hy] at hne
      rw [hx, Option.some.injEq] at hb
      rw [hb] at hne
      exact ⟨rfl, overwrite_ne hne⟩
  · intro i x y hx hy key hne
    rw [getElem?_stitch hk] at hx hy
    by_cases hi : i + 1 < k
    · rw [if_pos (by omega)] at hx
      rw [if_pos hi] at hy
      exact absurd (congrFun (hbase i x y hx hy) key) hne
    · rw [if_neg hi] at hy
      by_cases hik : i < k
      · -- the first state of the new run
        obtain rfl : k = i + 1 := by omega
        rw [if_pos hik] at hx
        rw [Nat.sub_self] at hy
        rw [Machine.run_head M code _ _ hy, ← hbase i x b hx hb] at hne
        exact ⟨rfl, overwrite_ne (Ne.symm hne)⟩
      · rw [if_neg hik] at hx
        rw [show i + 1 - k = i - k + 1 by omega] at hy
        exact absurd (congrFun (Machine.run_chain M code n _ (i - k) x y hx hy) key) hne

lemma edited_take {edit : Edit β} (m n : ℕ) (happlies : edit.Applies (M.run code m a)) :
    Edited M (edit.takeCode code) (M.run code m a) (edit.take M code a (M.run code m a) n)
      edit.start edit.places := by
  cases edit with
  | entryArg arg bytes =>
    refine (Machine.run_chain M code n _).edited fun x y hx hy k hne => ⟨rfl, ?_⟩
    rw [Machine.run_head M code _ _ hx, Machine.run_head M code _ _ hy] at hne
    exact overwrite_ne hne
  | codePatch code' =>
    refine (Machine.run_chain M code' n a).edited fun x y hx hy k hne => absurd ?_ hne
    rw [Machine.run_head M code _ _ hx, Machine.run_head M code' _ _ hy]
  | fromStep k places bytes rip =>
    have hb : (M.run code m a)[k]? = some ((M.run code m a).get ⟨k, happlies⟩) :=
      List.getElem?_eq_getElem happlies
    rw [Edit.take, hb]
    exact edited_fromStep (Machine.run_chain M code m a) hb

variable [Inhabited β]

def pcOf (l : List (At β)) (i : ℕ) : BitVec 64 :=
  (l[i]?.map At.pc).getD 0

def storeOf (l : List (At β)) (i : ℕ) : LwKey → β :=
  (l[i]?.map At.store).getD default

/-- The operation of step `i` -/
def opAt (M : Machine β) (code : List UInt8) (l : List (At β)) (i : ℕ) (s : LwKey → β) :
    Effect LwKey β (List ValRec × Option (BitVec 64)) :=
  (M.exec code (pcOf l i) s).effect

lemma storeOf_eq {l : List (At β)} {i : ℕ} {b : At β} (h : l[i]? = some b) :
    storeOf l i = b.store := by
  rw [storeOf, h]
  rfl

lemma opAt_eq {l : List (At β)} {i : ℕ} {b : At β} (h : l[i]? = some b) :
    opAt M code l i (storeOf l i) = (M.insn code b).effect := by
  rw [opAt, storeOf_eq h, pcOf, h]
  rfl

lemma mem_writesAt {l : List (At β)} {i : ℕ} {b : At β} (h : l[i]? = some b) {k : LwKey} :
    k ∈ Influence.writesAt (opAt M code l) (storeOf l) i ↔ WritesAt M code l i k := by
  rw [Influence.writesAt, opAt_eq h, WritesAt, h]
  simp [Insn.effect]

/-- The two runs as far as they are aligned -/
lemma Edited.twin {code' : List UInt8} {start n : ℕ} {places : List LwKey}
    (h : Edited M code' base take start places) (hbase : M.Chain code base)
    (halign : ∀ i < n, Aligned base take i) (hn : 0 < n) :
    Twin n (opAt M code base) (opAt M code' take) (storeOf base) (storeOf take) start places := by
  refine ⟨fun i hi => M.reads_only code' _, fun k hne => ?_, fun i hi => ?_, fun i hi k hne => ?_⟩
  · obtain ⟨x, y, hx, hy, -⟩ := halign 0 hn 0 le_rfl
    rw [storeOf_eq hx, storeOf_eq hy] at hne
    exact h.head x y hx hy k hne
  · obtain ⟨x, -, hx, -, -⟩ := halign (i + 1) hi i (by omega)
    obtain ⟨x', -, hx', -, -⟩ := halign (i + 1) hi (i + 1) le_rfl
    rw [opAt_eq hx, storeOf_eq hx, storeOf_eq hx']
    exact hbase i x x' hx hx'
  · obtain ⟨-, y, -, hy, -⟩ := halign (i + 1) hi i (by omega)
    obtain ⟨-, y', -, hy', -⟩ := halign (i + 1) hi (i + 1) le_rfl
    rw [opAt_eq hy, storeOf_eq hy, storeOf_eq hy'] at hne
    exact h.step i y y' hy hy' k hne

end Runs

section Edges

open LastWriter

variable {M : Machine β} {code : List UInt8} {take : List (At β)} {v : ValTrace}

lemma mem_reads {x : Insn β} {k : LwKey} :
    k ∈ x.reads ↔ ∃ r ∈ x.recs, r.isWrite = false ∧ k ∈ lwKeys r := by
  simp only [Insn.reads, List.mem_flatMap, List.mem_filter, Bool.not_eq_eq_eq_not, Bool.not_true,
    and_assoc]

lemma mem_writes {x : Insn β} {k : LwKey} :
    k ∈ x.writes ↔ ∃ r ∈ x.recs, r.isWrite = true ∧ k ∈ lwKeys r := by
  simp only [Insn.writes, List.mem_flatMap, List.mem_filter, and_assoc]

/-- The writes of a recorded step -/
lemma Recorded.mem_writesOf (h : Recorded M code take v) {j : ℕ} {b : At β}
    (hb : take[j]? = some b) {k : LwKey} :
    k ∈ writesOf ValRec.isWrite lwKeys (groupAt v.recs) j ↔ k ∈ (M.insn code b).writes := by
  rw [writesOf, h.group j b hb, mem_writes]
  simp only [List.mem_flatMap, List.mem_filter, List.mem_map]
  constructor
  · rintro ⟨r, ⟨⟨r', hr', rfl⟩, hw⟩, hk⟩
    exact ⟨r', hr', hw, hk⟩
  · rintro ⟨r, hr, hw, hk⟩
    exact ⟨stamp j r, ⟨⟨r, hr, rfl⟩, hw⟩, hk⟩

lemma Recorded.stepsLen (h : Recorded M code take v) : v.stepsLen = take.length := by
  rw [ValTrace.stepsLen, h.off, List.length_map]

/-- An edge into a recorded step: it reads a place whose last writer is the other end. -/
lemma Recorded.mem_edges (h : Recorded M code take v) (hlen : take.length < 2 ^ 32) {g : DefUse}
    (hg : defuseBuild v = some g) {i p : ℕ} {r : ValRec} {b : At β} (hb : take[i]? = some b) :
    ⟨p, i, r⟩ ∈ g.edges ↔ ∃ r' ∈ (M.insn code b).recs, r = stamp i r' ∧ r'.isWrite = false ∧
      ∃ k ∈ lwKeys r', p < i ∧ WritesAt M code take p k ∧
        ∀ u, p < u → u < i → ¬WritesAt M code take u k := by
  have hi : i < take.length := (List.getElem?_eq_some_iff.1 hb).1
  have hw : ∀ u < i, ∀ k, k ∈ writesOf ValRec.isWrite lwKeys (groupAt v.recs) u ↔
      WritesAt M code take u k := by
    intro u hu k
    have hget : take[u]? = some (take.get ⟨u, hu.trans hi⟩) := List.getElem?_eq_getElem _
    rw [h.mem_writesOf hget, WritesAt, hget]
    simp
  rw [Dataflow.defuseBuild_of_lt (by rw [h.stepsLen]; exact hlen), Option.some.injEq] at hg
  subst hg
  have hmap : ⟨p, i, r⟩ ∈ (edges ValRec.isWrite lwKeys (groupAt v.recs) v.stepsLen).map
      Dataflow.toEdge ↔ (p, i, r) ∈ edges ValRec.isWrite lwKeys (groupAt v.recs) v.stepsLen := by
    constructor
    · intro hmem
      obtain ⟨⟨p', i', r'⟩, he, heq⟩ := List.mem_map.1 hmem
      cases heq
      exact he
    · exact fun he => List.mem_map.2 ⟨_, he, rfl⟩
  change ⟨p, i, r⟩ ∈ (edges ValRec.isWrite lwKeys (groupAt v.recs) v.stepsLen).map
    Dataflow.toEdge ↔ _
  rw [hmap, LastWriter.mem_edges, h.group i b hb, h.stepsLen]
  constructor
  · rintro ⟨-, hr, hread, k, hk, hlt, hwp, hnone⟩
    obtain ⟨r', hr', rfl⟩ := List.mem_map.1 hr
    exact ⟨r', hr', rfl, hread, k, hk, hlt, (hw p hlt k).1 hwp,
      fun u h1 h2 hu => hnone u h1 h2 ((hw u h2 k).2 hu)⟩
  · rintro ⟨r', hr', rfl, hread, k, hk, hlt, hwp, hnone⟩
    exact ⟨hi, List.mem_map_of_mem hr', hread, k, hk, hlt, (hw p hlt k).2 hwp,
      fun u h1 h2 hu => hnone u h1 h2 ((hw u h2 k).1 hu)⟩

end Edges

section ArgRegisters

open Dataflow (Cell RegSlice cellKey footprint containerBase)

variable {reg : BitVec 32} {r : ValRec}

lemma regSlice_argReg (h : reg ∈ argRegs) : regSlice reg = some ⟨reg.toNat, 0, 8⟩ := by
  simp only [argRegs, List.mem_cons, List.not_mem_nil, or_false] at h
  rcases h with rfl | rfl | rfl | rfl | rfl | rfl <;> rfl

/-- What shares a byte with an argument register is a name of it. -/
lemma fold_of_mem_regPlaces (h : reg ∈ argRegs) {k : LwKey} (hk : k ∈ regPlaces reg)
    (hr : k ∈ lwKeys r) : r.kind = .reg ∧ loomFoldReg r.reg.toNat = reg.toNat := by
  rw [regPlaces, Dataflow.lwKeys_eq_map] at hk
  rw [Dataflow.lwKeys_eq_map] at hr
  obtain ⟨c, hc, rfl⟩ := List.mem_map.1 hk
  obtain ⟨c', hc', hkey⟩ := List.mem_map.1 hr
  have hbyte : ∃ off, c = .regByte reg.toNat off := by
    rcases mem_footprint_reg hc rfl with ⟨s, off, hs, rfl⟩ | ⟨hs, -⟩
    · rw [regSlice_argReg h, Option.some.injEq] at hs
      exact ⟨off, by rw [← hs]⟩
    · rw [regSlice_argReg h] at hs
      cases hs
  obtain ⟨off, rfl⟩ := hbyte
  rcases Dataflow.cellKey_inj (Dataflow.footprint_small hc') (Dataflow.footprint_small hc) hkey with
    rfl | ⟨sp, sp', a, -, heq⟩
  · have hkind : r.kind = .reg := by
      by_contra hne
      rw [footprint, if_neg hne] at hc'
      obtain ⟨b, -, heq⟩ := List.mem_map.1 hc'
      cases heq
    refine ⟨hkind, ?_⟩
    rcases mem_footprint_reg hc' hkind with ⟨s, off', hs, heq⟩ | ⟨-, heq⟩
    · rw [loomFoldReg_of_regSlice hs]
      exact (Cell.regByte.inj heq).1.symm
    · cases heq
  · cases heq

lemma regSlice_of_fold (h : reg ∈ argRegs) (hfold : loomFoldReg r.reg.toNat = reg.toNat) :
    ∃ s, regSlice r.reg = some s ∧ s.container = reg.toNat := by
  have hfolds : ∀ f ∈ kFolds, ((regSlice (BitVec.ofNat 32 f.1)).map RegSlice.container) =
      some f.2 := by decide
  rw [loomFoldReg] at hfold
  cases hfind : kFolds.find? fun f => f.1 = r.reg.toNat with
  | none =>
    rw [hfind] at hfold
    have hreg : r.reg = reg := BitVec.eq_of_toNat_eq hfold
    refine ⟨⟨reg.toNat, 0, 8⟩, ?_, rfl⟩
    rw [hreg]
    exact regSlice_argReg h
  | some f =>
    rw [hfind] at hfold
    have hf := hfolds f (List.mem_of_find?_eq_some hfind)
    have hsome := List.find?_some hfind
    have heq : f.1 = r.reg.toNat := of_decide_eq_true hsome
    rw [heq, BitVec.ofNat_toNat, BitVec.setWidth_eq, Option.map_eq_some_iff] at hf
    obtain ⟨s, hs, hcont⟩ := hf
    exact ⟨s, hs, hcont.trans hfold⟩

/-- A read of any name of an argument register reads bytes of it. -/
lemma mem_regPlaces_of_fold (h : reg ∈ argRegs) (hkind : r.kind = .reg) (hread : r.isWrite = false)
    (hfold : loomFoldReg r.reg.toNat = reg.toNat) {k : LwKey} (hk : k ∈ lwKeys r) :
    k ∈ regPlaces reg := by
  obtain ⟨s, hs, hcont⟩ := regSlice_of_fold h hfold
  obtain ⟨hsmall, hext⟩ := Dataflow.regSlice_cases hs
  rw [lwKeys, if_pos hkind, hs] at hk
  simp only [hread, Bool.false_eq_true, false_and, if_false, List.mem_map, List.mem_range] at hk
  obtain ⟨b, hb, rfl⟩ := hk
  rw [regPlaces, lwKeys, if_pos rfl, regSlice_argReg h]
  refine List.mem_map.2 ⟨s.off + b, by simp; omega, ?_⟩
  have hbase := Dataflow.containerBase_add hsmall (show s.off < 256 by omega) b
  have hbase' := Dataflow.containerBase_add (show (⟨reg.toNat, 0, 8⟩ : RegSlice).container < 256 by
    dsimp only; omega) (show 0 < 256 by omega) (s.off + b)
  rw [hbase, hbase', hcont, Nat.zero_add]

end ArgRegisters

section Seeds

variable {M : Machine β} {code : List UInt8} {base take : List (At β)} {v : ValTrace} {g : DefUse}
  {f : LoomFabric} {prov : LoomProvenance}

lemma foldl_max_eq {n : ℕ} {recs : List ValRec} (h : ∀ r ∈ recs, (r.step + 1) % 2 ^ 32 ≤ n) :
    recs.foldl (fun n r => max n ((r.step + 1) % 2 ^ 32)) n = n := by
  induction recs with
  | nil => rfl
  | cons r recs ih =>
    rw [List.forall_mem_cons] at h
    rw [List.foldl_cons, max_eq_left h.1, ih h.2]

lemma Recorded.fabricSteps (h : Recorded M code take v) (hlen : take.length < 2 ^ 32) :
    fabricSteps v = take.length := by
  rw [Loom.fabricSteps, h.stepsLen, Nat.mod_eq_of_lt hlen]
  apply foldl_max_eq
  intro r hr
  have hlt : r.step < v.stepsLen := h.stamped.lt r hr
  rw [h.stepsLen] at hlt
  exact (Nat.mod_le _ _).trans hlt

/-- The fabric of a recorded run -/
structure Woven (v : ValTrace) (g : DefUse) (l : List (At β)) (f : LoomFabric) : Prop where
  lanes : f.lanes = fabricLanes v
  reads : f.reads = fabricReads (fabricLanes v) v.recs g.edges
  steps : f.steps = l.length
  off : f.insnOff = l.map At.pc

lemma Recorded.woven (h : Recorded M code take v) (hlen : take.length < 2 ^ 32)
    (hf : loomFabricBuild v g prov = .ok f) : Woven v g take f := by
  have hsteps := h.fabricSteps hlen
  rw [loomFabricBuild] at hf
  split_ifs at hf
  cases hf
  refine ⟨rfl, rfl, hsteps, ?_⟩
  dsimp only
  rw [hsteps, h.off]
  apply List.ext_getElem?
  intro i
  rw [List.getElem?_map]
  by_cases hi : i < take.length
  · rw [List.getElem?_range hi, Option.map_some, List.getD_eq_getElem?_getD, List.getElem?_map,
      List.getElem?_eq_getElem hi]
    rfl
  · rw [List.getElem?_eq_none (by rw [List.length_range]; omega),
      List.getElem?_eq_none (by rw [List.length_map]; omega)]
    rfl

/-- A step that reads the argument and no byte of it that was written is a seed. -/
lemma mem_seed_entryArg (h : Recorded M code take v) (hlen : take.length < 2 ^ 32)
    (hlanes : (fabricLanes v).length < 2 ^ 32) (hg : defuseBuild v = some g)
    (hw : Woven v g take f) {arg : Fin 6} {bytes : LwKey → β} {i shared : ℕ} {k : LwKey}
    (hk : k ∈ regPlaces (argRegs.get arg)) (hread : ReadsAt M code take i k)
    (hfresh : ∀ k ∈ regPlaces (argRegs.get arg), ReadsAt M code take i k →
      ∀ j < i, ¬WritesAt M code take j k) :
    i ∈ takeSeed ((Edit.entryArg arg bytes).desc code) f shared := by
  obtain ⟨b, hb, hkb⟩ := hread
  have hb' : take[i]? = some b := hb
  obtain ⟨r, hr, hrd, hkr⟩ := mem_reads.1 hkb
  have harg : argRegs.get arg ∈ argRegs := List.get_mem _ _
  obtain ⟨hkind, hfold⟩ := fold_of_mem_regPlaces harg hk hkr
  have hmem : stamp i r ∈ groupAt v.recs i := by
    rw [h.group i b hb']
    exact List.mem_map_of_mem hr
  have hrec : stamp i r ∈ v.recs := (mem_groupAt hmem).1
  have hlane : laneOf (fabricLanes v) (stamp i r) ≠ kLoomNoSpan := by
    rw [laneOf]
    cases hidx : (fabricLanes v).findIdx? (onLane (stamp i r)) with
    | none =>
      obtain ⟨l, hl, hon⟩ := exists_regLane hrec hkind
      rw [List.findIdx?_eq_none_iff] at hidx
      rw [hidx l hl] at hon
      cases hon
    | some j =>
      obtain ⟨hj, -⟩ := List.findIdx?_eq_some_iff_getElem.1 hidx
      simp only [Nat.mod_eq_of_lt (hj.trans hlanes), kLoomNoSpan]
      omega
  obtain ⟨l, hl, hon⟩ := onLane_of_laneOf hlanes hlane
  obtain ⟨hlk, hlr⟩ : l.kind = .reg ∧ l.reg = (argRegs.get arg).toNat := by
    rw [onLane, if_pos (show (stamp i r).kind = .reg from hkind)] at hon
    obtain ⟨h1, h2⟩ := of_decide_eq_true hon
    exact ⟨h1, h2.trans hfold⟩
  have hproducer : (g.edges.any fun e => e.toStep = (stamp i r).step ∧
      laneOf (fabricLanes v) e.loc = laneOf (fabricLanes v) (stamp i r)) = false := by
    rw [List.any_eq_false]
    intro e he hcond
    obtain ⟨hto, hsame⟩ := of_decide_eq_true hcond
    obtain ⟨p, t, loc⟩ := e
    obtain rfl : t = i := hto
    obtain ⟨r', hr', rfl, hrd', key, hkey, hlt, hwrites, -⟩ := (h.mem_edges hlen hg hb').1 he
    -- another read of the step on the lane, with a byte that was written
    have hon' : onLane (stamp t r') l = true := by
      obtain ⟨l', hl', hon'⟩ := onLane_of_laneOf hlanes (hsame ▸ hlane)
      rw [hsame, hl, Option.some.injEq] at hl'
      rw [hl']
      exact hon'
    have hkind' : r'.kind = .reg := by
      by_contra hne
      rw [onLane, if_neg (show (stamp t r').kind ≠ .reg from hne)] at hon'
      have hband := (of_decide_eq_true hon').1
      rw [hlk] at hband
      cases hband
    rw [onLane, if_pos (show (stamp t r').kind = .reg from hkind')] at hon'
    have hfold' : loomFoldReg r'.reg.toNat = (argRegs.get arg).toNat :=
      (of_decide_eq_true hon').2.symm.trans hlr
    have hplace := mem_regPlaces_of_fold harg hkind' hrd' hfold' hkey
    exact hfresh key hplace ⟨b, hb, mem_reads.2 ⟨r', hr', hrd', hkey⟩⟩ p hlt hwrites
  have hin : (⟨i, laneOf (fabricLanes v) (stamp i r), false⟩ : LoomRead) ∈ f.reads := by
    rw [hw.reads, fabricReads]
    refine List.mem_map.2 ⟨stamp i r, List.mem_filter.2 ⟨hrec, ?_⟩, ?_⟩
    · exact decide_eq_true ⟨hrd, hlane⟩
    · rw [hproducer]
      rfl
  rw [takeSeed]
  simp only [Edit.desc, Bool.false_eq_true, if_false, List.mem_dedup, List.mem_insertionSort]
  refine List.mem_map.2 ⟨_, List.mem_filter.2 ⟨hin, ?_⟩, rfl⟩
  rw [readsArg, hw.lanes, hl]
  simp [hlk, hlr]

end Seeds

section Complete

variable {M : Machine β} {code : List UInt8} {a : At β} {base take : List (At β)} {v : ValTrace}
  {g : DefUse} {f : LoomFabric}

/-- The seeds of the view have every step that the edited fact enters. -/
lemma mem_seed {edit : Edit β} {shared i : ℕ} (h : Recorded M (edit.takeCode code) take v)
    (hlen : take.length < 2 ^ 32) (hlanes : (fabricLanes v).length < 2 ^ 32)
    (hg : defuseBuild v = some g) (hw : Woven v g take f)
    (henters : EntersAtSeeds M code base take edit) (halign : Aligned base take i)
    (hshared : i < shared)
    (hin : (∃ k, ReadsEdited M code take edit i k) ∨
      ∃ code', edit = .codePatch code' ∧ Patched M code base code' i) :
    i ∈ takeSeed (edit.desc code) f shared := by
  have hi : i < take.length := by
    obtain ⟨-, b, -, hb, -⟩ := halign i le_rfl
    exact (List.getElem?_eq_some_iff.1 hb).1
  cases edit with
  | entryArg arg bytes =>
    rcases hin with ⟨k, hread⟩ | ⟨code', heq, -⟩
    · exact mem_seed_entryArg h hlen hlanes hg hw hread.2.1 hread.1
        (henters i halign ⟨k, hread⟩)
    · cases heq
  | codePatch code' =>
    rcases hin with ⟨k, hread⟩ | ⟨code'', heq, hpatched⟩
    · exact absurd hread.2.1 List.not_mem_nil
    · cases heq
      obtain ⟨hdiff, hnone⟩ := henters i halign hpatched
      rw [takeSeed]
      simp only [Edit.desc, Bool.false_eq_true, if_false, if_true, Option.mem_toList]
      rw [hw.off, List.length_map, List.find?_range_eq_some]
      refine ⟨hdiff, List.mem_range.2 (by omega), fun j hj => ?_⟩
      rw [Bool.not_eq_true']
      exact hnone j hj
  | fromStep k places bytes rip =>
    rcases hin with hread | ⟨code', heq, -⟩
    · obtain rfl := henters i halign hread
      have hsteps : ((Edit.fromStep i places bytes rip).desc code).fromStep < f.steps := by
        rw [hw.steps]
        exact hi
      have hedit : ((Edit.fromStep i places bytes rip).desc code).fromStepEdit = true := rfl
      rw [takeSeed, if_pos hedit, if_pos hsteps]
      exact List.mem_singleton_self _
    · cases heq

lemma not_differs {code' : List UInt8} {i : ℕ} {x b : At β} (hx : base[i]? = some x)
    (hb : take[i]? = some b) (heq : (M.insn code x).effect = (M.insn code' b).effect) :
    ¬DiffersAt M code code' base take i := by
  rintro ⟨x', hx', b', hb', p, w, hw, w', hw', -, -, hne⟩
  rw [hx, Option.mem_some_iff] at hx'
  rw [hb, Option.mem_some_iff] at hb'
  have hrecs : (M.insn code x).recs = (M.insn code' b).recs := congrArg (fun e => e.out.1) heq
  rw [← hx', hrecs] at hw
  rw [← hb', Option.mem_def, Option.mem_def.1 hw, Option.some.injEq] at hw'
  exact hne (congrArg ValRec.value hw')

variable [Inhabited β]

/-- The cone covers what the edit does. -/
lemma covers_cone {edit : Edit β} {shared : ℕ} {cone : List ℕ}
    (h : Recorded M (edit.takeCode code) take v)
    (hlen : take.length < 2 ^ 32) (hlanes : (fabricLanes v).length < 2 ^ 32)
    (hg : defuseBuild v = some g) (hw : Woven v g take f)
    (henters : EntersAtSeeds M code base take edit)
    (halign : ∀ i < shared, Aligned base take i)
    (hseed : ∀ s ∈ takeSeed (edit.desc code) f shared, s < f.steps → s ∈ cone)
    (hclosed : ∀ e ∈ g.edges, e.fromStep ∈ cone → e.toStep < f.steps → e.toStep ∈ cone) :
    Influence.Covers (opAt M code base) (opAt M (edit.takeCode code) take) (storeOf take) edit.start
      edit.places shared { i | i ∈ cone } := by
  have hget : ∀ i < shared, ∃ x b, base[i]? = some x ∧ take[i]? = some b ∧ x.pc = b.pc :=
    fun i hi => halign i hi i le_rfl
  have hlt : ∀ i < shared, i < f.steps := by
    intro i hi
    obtain ⟨-, b, -, hb, -⟩ := hget i hi
    rw [hw.steps]
    exact (List.getElem?_eq_some_iff.1 hb).1
  have hwrites : ∀ i < shared, ∀ k, k ∈ Influence.writesAt (opAt M (edit.takeCode code) take)
      (storeOf take) i ↔ WritesAt M (edit.takeCode code) take i k := by
    intro i hi k
    obtain ⟨-, b, -, hb, -⟩ := hget i hi
    exact mem_writesAt hb
  constructor
  · intro i hi p hp hfeeds
    obtain ⟨-, b, -, hb, -⟩ := hget i hi
    obtain ⟨k, hk, hplt, hpw, hnone⟩ := hfeeds
    rw [opAt_eq hb] at hk
    obtain ⟨r, hr, hrd, hkr⟩ := mem_reads.1 hk
    have hedge : ⟨p, i, stamp i r⟩ ∈ g.edges := by
      refine (h.mem_edges hlen hg hb).2 ⟨r, hr, rfl, hrd, k, hkr, hplt, ?_, fun u h1 h2 hu => ?_⟩
      · exact (hwrites p (hplt.trans hi) k).1 hpw
      · exact hnone u h1 h2 ((hwrites u (h2.trans hi) k).2 hu)
    exact hclosed _ hedge hp (hlt i hi)
  · intro i hi k hk hpending
    obtain ⟨-, b, -, hb, -⟩ := hget i hi
    rw [opAt_eq hb] at hk
    obtain ⟨hmem, hstart, hnone⟩ := hpending
    refine hseed i (mem_seed h hlen hlanes hg hw henters (halign i hi) hi (.inl ⟨k, ?_⟩)) (hlt i hi)
    refine ⟨⟨b, hb, hk⟩, hmem, hstart, fun j h1 h2 hj => hnone j h1 h2 ?_⟩
    exact (hwrites j (h2.trans hi) k).2 hj
  · intro i hi hne
    obtain ⟨x, b, hx, hb, hpc⟩ := hget i hi
    have hexec : M.exec code x.pc ≠ M.exec (edit.takeCode code) x.pc := by
      intro heq
      apply hne
      funext s
      rw [opAt, opAt, pcOf, pcOf, hx, hb, Option.map_some, Option.map_some, Option.getD_some,
        Option.getD_some, ← hpc, heq]
    refine hseed i (mem_seed h hlen hlanes hg hw henters (halign i hi) hi (.inr ?_)) (hlt i hi)
    cases edit with
    | entryArg arg bytes => exact absurd rfl hexec
    | fromStep k places bytes rip => exact absurd rfl hexec
    | codePatch code' =>
      refine ⟨code', rfl, ?_⟩
      by_contra hsame
      apply hexec
      apply M.fetch
      intro j h1 h2
      by_contra hdiff
      exact hsame ⟨x, hx, j, h1, h2, hdiff⟩

/-- A step that reads a lost place is one that the edited fact enters. -/
lemma NoLostReads.readsNoneLost {edit : Edit β} {shared : ℕ}
    (h : NoLostReads M code base take edit) (halign : ∀ i < shared, Aligned base take i) :
    Influence.ReadsNoneLost (opAt M code base) (opAt M (edit.takeCode code) take) (storeOf base)
      (storeOf take) edit.start edit.places shared := by
  have hwrites : ∀ u < shared, ∀ k, k ∈ Influence.writesAt (opAt M (edit.takeCode code) take)
      (storeOf take) u ↔ WritesAt M (edit.takeCode code) take u k := by
    intro u hu k
    obtain ⟨-, b, -, hb, -⟩ := halign u hu u le_rfl
    exact mem_writesAt hb
  intro i hi k hk hlost
  obtain ⟨j, hj, hwj, hnone⟩ := hlost
  obtain ⟨-, b, -, hb, -⟩ := halign i hi i le_rfl
  obtain ⟨x, -, hx, -, -⟩ := halign i hi j hj.le
  rw [opAt_eq hb] at hk
  by_contra hpending
  have hedited : ¬ReadsEdited M code take edit i k := by
    rintro ⟨-, hmem, hstart, hfresh⟩
    exact hpending ⟨hmem, hstart, fun v h1 h2 hv =>
      hfresh v h1 h2 ((hwrites v (by omega) k).1 hv)⟩
  obtain ⟨u, hju, hui, hwu⟩ := h i (halign i hi) k ⟨b, hb, hk⟩ hedited j hj
    ((mem_writesAt hx).1 hwj)
  exact hnone u hju hui ((hwrites u (by omega) k).2 hwu)

/-- The buffers of a take -/
def kTakeSteps : ℕ := 2 ^ 16

def kTakeRecs : ℕ := 2 ^ 18

/-- The cone of an edit is complete if every step that the edited fact enters is a seed and no step
of the take reads a place that only the base wrote. -/
theorem take_cone_complete (M : Machine β) (code : List UInt8) (a : At β) (m n : ℕ)
    (edit : Edit β) (happlies : edit.Applies (M.run code m a)) {stepsCap recsCap : ℕ}
    (hcap : stepsCap < 2 ^ 32) (hbase : M.Fits code stepsCap recsCap (M.run code m a))
    (htake : M.Fits (edit.takeCode code) kTakeSteps kTakeRecs
      (edit.take M code a (M.run code m a) n)) {gb gt : DefUse}
    (hgt : defuseBuild (M.record (edit.takeCode code) kTakeSteps kTakeRecs
      (edit.take M code a (M.run code m a) n)) = some gt) {pb pt : LoomProvenance}
    {fb ft : LoomFabric}
    (hfb : loomFabricBuild (M.record code stepsCap recsCap (M.run code m a)) gb pb = .ok fb)
    (hft : loomFabricBuild (M.record (edit.takeCode code) kTakeSteps kTakeRecs
      (edit.take M code a (M.run code m a) n)) gt pt = .ok ft)
    (henters : EntersAtSeeds M code (M.run code m a) (edit.take M code a (M.run code m a) n) edit)
    (hnone : NoLostReads M code (M.run code m a) (edit.take M code a (M.run code m a) n) edit)
    (baseTruncated takeTruncated : Bool) (fault err : String) :
    ∃ view, loomTakeView fb ft baseTruncated takeTruncated gt.edges (edit.desc code) fault err =
        some view ∧
      ∀ i < view.shared, DiffersAt M code (edit.takeCode code) (M.run code m a)
        (edit.take M code a (M.run code m a) n) i → i ∈ view.cone := by
  have hedited := @edited_take β M code a edit m n happlies
  have hchain := Machine.run_chain M code m a
  generalize M.run code m a = base at *
  generalize edit.take M code a base n = take at *
  have htlen : take.length < 2 ^ 32 := by
    have := htake.1
    rw [kTakeSteps] at this
    omega
  obtain ⟨hrb, -⟩ := recorded hbase hcap
  obtain ⟨hrt, hrecs⟩ := recorded htake (by decide)
  have hblen : base.length < 2 ^ 32 := hbase.1.trans_lt hcap
  have hwb := hrb.woven hblen hfb
  have hwt := hrt.woven htlen hft
  have hlanes : (fabricLanes (M.record (edit.takeCode code) kTakeSteps kTakeRecs take)).length <
      2 ^ 32 := by
    have := length_fabricLanes_le (M.record (edit.takeCode code) kTakeSteps kTakeRecs take)
    have hk : kTakeRecs = 2 ^ 18 := rfl
    omega
  by_cases hzero : ft.steps = 0
  · rw [loomTakeView]
    dsimp only
    rw [if_pos hzero]
    exact ⟨_, rfl, fun i hi => absurd hi (Nat.not_lt_zero i)⟩
  obtain ⟨view, hview, hle, heq, hseed, hclosed⟩ := loomTakeView_spec hzero
    (by rw [hwb.off, List.length_map]; exact hblen) baseTruncated takeTruncated gt.edges
    (edit.desc code) fault err
  refine ⟨view, hview, fun i hi hdiffers => ?_⟩
  rw [hwb.off, hwt.off] at heq hle
  rw [List.length_map, List.length_map] at hle
  have halign : ∀ i < view.shared, Aligned base take i := by
    intro i hi j hj
    have hget := heq j (by omega)
    rw [List.getElem?_map, List.getElem?_map,
      List.getElem?_eq_getElem (show j < base.length by omega),
      List.getElem?_eq_getElem (show j < take.length by omega)] at hget
    exact ⟨base[j], take[j], List.getElem?_eq_getElem _, List.getElem?_eq_getElem _,
      Option.some.inj hget⟩
  have htwin := hedited.twin hchain halign (by omega)
  have hcovers := covers_cone hrt htlen hlanes hgt hwt henters halign hseed hclosed
  refine mem_of_effect_ne htwin hcovers (hnone.readsNoneLost halign) hi fun hsame => ?_
  obtain ⟨x, b, hx, hb, -⟩ := halign i hi i le_rfl
  rw [opAt_eq hx, opAt_eq hb] at hsame
  exact not_differs hx hb hsame hdiffers

end Complete

section Sample

/-- The instructions of a small machine: an immediate and a copy -/
inductive Op
  | set (dst : BitVec 32) (value : ℕ)
  | copy (dst src : BitVec 32)

/-- `mov dil, 5` and `mov rax, rdi` -/
def opOf (b : UInt8) : Option Op :=
  if b = 1 then some (.set 15 5) else if b = 2 then some (.copy 35 39) else none

def regValue (reg : BitVec 32) (s : LwKey → ℕ) : ℕ :=
  (regPlaces reg).foldr (fun k n => s k + 256 * n) 0

def regWrite (reg : BitVec 32) (value : ℕ) : ValRec :=
  { kind := .reg, reg, isWrite := true, valueValid := true, value := BitVec.ofNat 64 value }

def opInsn (next : BitVec 64) (s : LwKey → ℕ) : Option Op → Insn ℕ
  | none => ⟨[], fun _ => 0, none⟩
  | some (.set dst value) => ⟨[regWrite dst value], fun _ => value, some next⟩
  | some (.copy dst src) =>
    ⟨[{ kind := .reg, reg := src, valueValid := true, value := BitVec.ofNat 64 (regValue src s) },
        regWrite dst (regValue src s)],
      fun k => (((regPlaces dst).zip (regPlaces src)).lookup k).elim 0 s, some next⟩

lemma opInsn_congr {next : BitVec 64} {s s' : LwKey → ℕ} (op : Option Op)
    (h : ∀ k ∈ (opInsn next s op).reads, s k = s' k) : opInsn next s' op = opInsn next s op := by
  cases op with
  | none => rfl
  | some op =>
    cases op with
    | set dst value => rfl
    | copy dst src =>
      have hsrc : ∀ k ∈ regPlaces src, s k = s' k := by
        intro k hk
        refine h k (mem_reads.2 ⟨_, List.mem_cons_self, rfl, ?_⟩)
        exact hk
      have hvalue : regValue src s' = regValue src s :=
        List.foldr_ext _ _ _ fun k hk n => by rw [hsrc k hk]
      rw [opInsn, opInsn, hvalue]
      congr 1
      funext k
      cases hlook : ((regPlaces dst).zip (regPlaces src)).lookup k with
      | none => rfl
      | some k' =>
        obtain ⟨l₁, l₂, heq, -⟩ := List.lookup_eq_some_iff.1 hlook
        have hmem : (k, k') ∈ (regPlaces dst).zip (regPlaces src) := by
          rw [heq]
          simp
        exact (hsrc k' (List.of_mem_zip hmem).2).symm

def smallMachine : Machine ℕ where
  exec code pc s := opInsn (pc + 1) s (code[pc.toNat]?.bind opOf)
  length _ _ := 1
  reads_only _ _ _ _ h := congrArg Insn.effect (opInsn_congr _ h)
  fetch code code' pc h := by
    funext s
    rw [h pc.toNat le_rfl (Nat.lt_succ_self _)]

def zeroed : At ℕ :=
  ⟨0, fun _ => 0⟩

/-- `rdi := 0x0b0b…` at entry -/
def argEdit : Edit ℕ :=
  .entryArg 0 fun _ => 11

def exactProv : LoomProvenance :=
  ⟨"dataflow-emu", true⟩

/-- `mov rax, rdi` -/
def copyCode : List UInt8 :=
  [2]

/-- `mov dil, 5` and `mov rax, rdi` -/
def partialCode : List UInt8 :=
  [1, 2]

def sampleBase (code : List UInt8) : List (At ℕ) :=
  smallMachine.run code 9 zeroed

def sampleTake (code : List UInt8) : List (At ℕ) :=
  argEdit.take smallMachine code zeroed (sampleBase code) 9

def sampleTrace (code : List UInt8) (l : List (At ℕ)) : ValTrace :=
  smallMachine.record code kTakeSteps kTakeRecs l

/-- The read of `rdi` after its low byte is written -/
def partialRead : ValRec :=
  { kind := .reg, reg := 39, valueValid := true, step := 1
    value := BitVec.ofNat 64 0x0b0b0b0b0b0b0b05 }

theorem take_cone_copyCode :
    ∃ g fb ft view,
      defuseBuild (sampleTrace copyCode (sampleTake copyCode)) = some g ∧
      loomFabricBuild (sampleTrace copyCode (sampleBase copyCode)) g exactProv = .ok fb ∧
      loomFabricBuild (sampleTrace copyCode (sampleTake copyCode)) g exactProv = .ok ft ∧
      loomTakeView fb ft false false g.edges (argEdit.desc copyCode) "" "" = some view ∧
      ∀ i < view.shared, DiffersAt smallMachine copyCode copyCode (sampleBase copyCode)
        (sampleTake copyCode) i → i ∈ view.cone := by
  have hget : ∀ i k, ReadsAt smallMachine copyCode (sampleTake copyCode) i k → i = 0 := by
    rintro i k ⟨b, hb, hk⟩
    match i with
    | 0 => rfl
    | 1 =>
      cases hb
      exact absurd hk List.not_mem_nil
    | i + 2 => cases hb
  have hg : defuseBuild (sampleTrace copyCode (sampleTake copyCode)) = some ⟨[], 2⟩ := by
    decide +kernel
  have henters : EntersAtSeeds smallMachine copyCode (sampleBase copyCode) (sampleTake copyCode)
      argEdit := by
    intro i _ _ k _ hreads j hj
    rw [hget i k hreads] at hj
    exact absurd hj (Nat.not_lt_zero j)
  have hnone : NoLostReads smallMachine copyCode (sampleBase copyCode) (sampleTake copyCode)
      argEdit := by
    intro i _ k hreads _ j hj
    rw [hget i k hreads] at hj
    exact absurd hj (Nat.not_lt_zero j)
  obtain ⟨view, hview, hcone⟩ := @take_cone_complete ℕ _ smallMachine copyCode zeroed 9 9 argEdit
    trivial kTakeSteps kTakeRecs (by decide) ⟨by decide +kernel, by decide +kernel⟩
    ⟨by decide +kernel, by decide +kernel⟩ ⟨[], 2⟩ ⟨[], 2⟩ hg exactProv exactProv _ _ rfl rfl
    henters hnone false false "" ""
  exact ⟨_, _, _, view, hg, rfl, rfl, hview, hcone⟩

/-- The low byte of the argument has a producer, so the read of the whole register is no seed and
its copy is outside the cone. -/
theorem take_cone_incomplete :
    ∃ g fb ft view,
      defuseBuild (sampleTrace partialCode (sampleTake partialCode)) = some g ∧
      loomFabricBuild (sampleTrace partialCode (sampleBase partialCode)) g exactProv = .ok fb ∧
      loomFabricBuild (sampleTrace partialCode (sampleTake partialCode)) g exactProv = .ok ft ∧
      loomTakeView fb ft false false g.edges (argEdit.desc partialCode) "" "" = some view ∧
      1 < view.shared ∧
      DiffersAt smallMachine partialCode partialCode (sampleBase partialCode)
        (sampleTake partialCode) 1 ∧ 1 ∉ view.cone := by
  refine ⟨⟨[⟨0, 1, partialRead⟩], 3⟩, _, _, _, by decide +kernel, rfl, rfl, rfl,
    by decide +kernel, ?_, by decide +kernel⟩
  exact ⟨_, rfl, _, rfl, toLex (0, toLex (35, 0)), regWrite 35 5, by decide +kernel,
    regWrite 35 0x0b0b0b0b0b0b0b05, by decide +kernel, rfl, rfl, by decide +kernel⟩

end Sample

end AsmTest.Loom
