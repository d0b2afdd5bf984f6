import AsmTest.GcMove
import Mathlib.Data.List.DropRight

/-!
# Object identity over a heap snapshot

A record is keyed by the snapshot node that held its byte, found by taking each
node's address back through the moves. Allocations are taken to succeed.
-/

namespace AsmTest.Dataflow

/-- `asmtest_gcnode_t` -/
structure GcNode where
  addr : BitVec 64
  size : BitVec 64
  typeId : BitVec 64 := 0
  deriving DecidableEq, Repr

namespace GcMove

/-- The test of the inverse walk. -/
def covered (m : GcMove) (y : BitVec 64) : Bool := m.newBase ≤ y ∧ y - m.newBase < m.len

def backward (m : GcMove) (y : BitVec 64) : BitVec 64 := m.oldBase + (y - m.newBase)

end GcMove

/-- At most one inversion per batch. -/
def unrelocate (batch : List GcMove) (cur : BitVec 64) : BitVec 64 :=
  match batch.find? fun m => m.covered cur with
  | some m => m.backward cur
  | none => cur

/-- The batch loop of `asmtest_objid_locate`, from the high end, for at most `fuel` batches. -/
def locateLoop (step : ℕ) : ℕ → List GcMove → BitVec 64 → BitVec 64
  | 0, _, cur => cur
  | fuel + 1, moves, cur =>
    match moves.getLast? with
    | none => cur
    | some m =>
      let batch := moves.rtakeWhile fun k => k.step = m.step
      let rest := moves.rdropWhile fun k => k.step = m.step
      locateLoop step fuel rest (if step < m.step then unrelocate batch cur else cur)

def objidLocate (moves : List GcMove) (step : ℕ) (snapAddr : BitVec 64) : BitVec 64 :=
  locateLoop step moves.length moves snapAddr

/-- `qsort` with `objid_cmp_step_new`. -/
structure StepNewSort where
  sort : List GcMove → List GcMove
  perm : ∀ l, (sort l).Perm l
  sorted : ∀ l, (sort l).Pairwise fun a b => a.step < b.step ∨ a.step = b.step ∧ a.newBase ≤ b.newBase

/-- `(maxend, have)` after a range that ends at `fin`. -/
def raiseMax (maxend : Option (BitVec 64)) (fin : BitVec 64) : Option (BitVec 64) :=
  match maxend with
  | none => some fin
  | some e => if e < fin then some fin else some e

/-- One batch of `objid_disjointify_new`; `maxend` is the running maximum of the ends. -/
def disjointifyBatch (maxend : Option (BitVec 64)) : List GcMove → List GcMove
  | [] => []
  | m :: rest =>
    let fin := m.newBase + m.len
    -- in this order a range that meets a later one meets the one right behind it
    let bad := maxend.any (fun e => m.newBase < e) || rest.head?.any fun k => k.newBase < fin
    if bad then disjointifyBatch (raiseMax maxend fin) rest
    else m :: disjointifyBatch (raiseMax maxend fin) rest

def disjointifyLoop : ℕ → List GcMove → List GcMove
  | _, [] => []
  | 0, _ :: _ => []
  | fuel + 1, m :: moves =>
    disjointifyBatch none ((m :: moves).takeWhile fun k => k.step = m.step) ++
      disjointifyLoop fuel ((m :: moves).dropWhile fun k => k.step = m.step)

def disjointifyNew (moves : List GcMove) : List GcMove := disjointifyLoop moves.length moves

/-- `objid_owner_prepared`: the first node whose span at `step` holds the address, and the offset. -/
def ownerPrepared (nodes : List GcNode) (dj : List GcMove) (step : ℕ) (raw : BitVec 64) :
    Option (ℕ × BitVec 64) :=
  nodes.zipIdx.findSome? fun p =>
    if p.1.size = 0 then none
    else
      let base := objidLocate dj step p.1.addr
      if base ≤ raw ∧ raw - base < p.1.size then some (p.2, raw - base) else none

/-- `ASMTEST_OBJID_NOOBJ` -/
def noObj : BitVec 64 := 1#64 <<< 63

/-- The address lies in the snapshot range of a node. -/
def inNode (nodes : List GcNode) (c : BitVec 64) : Bool :=
  nodes.any fun n => n.size ≠ 0 ∧ n.addr ≤ c ∧ c - n.addr < n.size

/-- The new address of a record. -/
def objidKey (nodes : List GcNode) (full dj : List GcMove) (step : ℕ) (before : BitVec 64) : BitVec 64 :=
  match ownerPrepared nodes dj step before with
  | some (owner, offset) => (nodes.getD owner ⟨0, 0, 0⟩).addr + offset
  | none =>
    let c := gcmoveCanon full step before
    -- an address that no object had then must not be taken for one of an object
    if inNode nodes c then c ||| noObj else c

def objidRec (nodes : List GcNode) (full dj : List GcMove) :
    List ValRec × ℕ → ValRec → List ValRec × ℕ :=
  rekeyRec (objidKey nodes full dj)

def objidCanonicalize (Q : StepSort) (S : StepNewSort) (v : ValTrace) (nodes : List GcNode)
    (moves : List GcMove) : ValTrace × ℕ :=
  if nodes = [] then gcmoveCanonicalize Q true v moves
  else
    let full := S.sort moves
    let dj := disjointifyNew (S.sort moves)
    let res := v.recs.foldl (objidRec nodes full dj) ([], 0)
    ({ v with recs := res.1 }, res.2)

/-! ## After the last move nothing changes -/

lemma objidLocate_past {l : List GcMove} {step : ℕ} (h : ∀ m ∈ l, m.step ≤ step) (x : BitVec 64) :
    objidLocate l step x = x := by
  have hloop : ∀ fuel (l : List GcMove), (∀ m ∈ l, m.step ≤ step) → locateLoop step fuel l x = x := by
    intro fuel
    -- a batch at a time, each of which is skipped
    induction fuel with
    | zero => exact fun _ _ => rfl
    | succ fuel ih =>
      intro l hl
      rw [locateLoop]
      cases hm : l.getLast? with
      | none => rfl
      | some m =>
        dsimp only
        rw [if_neg (not_lt.mpr (hl m (List.mem_of_getLast? hm)))]
        exact ih _ fun a ha => hl a ((List.rdropWhile_prefix _ _).subset ha)
  exact hloop _ l h

/-- A batch has a range. -/
lemma length_dropWhile_step_le (m : GcMove) (l : List GcMove) :
    ((m :: l).dropWhile fun k => k.step = m.step).length ≤ l.length := by
  rw [List.dropWhile_cons, if_pos (decide_eq_true rfl)]
  exact (List.dropWhile_sublist _).length_le

lemma ownerPrepared_eq_some {nodes : List GcNode} {dj : List GcMove} {step i : ℕ} {raw off : BitVec 64}
    (h : ownerPrepared nodes dj step raw = some (i, off)) :
    ∃ n, nodes[i]? = some n ∧ off < n.size ∧ off = raw - objidLocate dj step n.addr := by
  obtain ⟨⟨n, j⟩, hmem, hif⟩ := List.exists_of_findSome?_eq_some h
  dsimp only at hif
  split_ifs at hif with h0 h1
  obtain ⟨rfl, rfl⟩ := Prod.mk.inj (Option.some.inj hif)
  exact ⟨n, List.mem_zipIdx_iff_getElem?.mp hmem, h1.2, rfl⟩

/-! ## The pass over a trace -/

/-- The address record `i` ends with. -/
def addrAt (v : ValTrace) (i : ℕ) : Option (BitVec 64) := v.recs[i]?.map ValRec.addr

/-- Records that end with equal object keys end with equal canonical addresses. -/
def Refines (Q : StepSort) (S : StepNewSort) (v : ValTrace) (nodes : List GcNode)
    (moves : List GcMove) : Prop :=
  ∀ i j r r', v.recs[i]? = some r → v.recs[j]? = some r' → r.kind = .memAbs → r'.kind = .memAbs →
    addrAt (objidCanonicalize Q S v nodes moves).1 i = addrAt (objidCanonicalize Q S v nodes moves).1 j →
    addrAt (gcmoveCanonicalize Q true v moves).1 i = addrAt (gcmoveCanonicalize Q true v moves).1 j

variable {Q : StepSort} {S : StepNewSort} {v : ValTrace} {nodes : List GcNode} {moves : List GcMove}

/-- The key of a byte at a step. -/
def keyOf (S : StepNewSort) (nodes : List GcNode) (moves : List GcMove) (step : ℕ) (x : BitVec 64) :
    BitVec 64 :=
  objidKey nodes (S.sort moves) (disjointifyNew (S.sort moves)) step x

lemma addrAt_gcmove {i : ℕ} {r : ValRec} (hr : v.recs[i]? = some r) (hk : r.kind = .memAbs) :
    addrAt (gcmoveCanonicalize Q true v moves).1 i = some (canonOf Q moves r.step r.addr) := by
  rw [gcmoveCanonicalize_eq, addrAt]
  simp [hr, rekeyOne, hk, canonOf]

lemma addrAt_objid (hn : nodes ≠ []) {i : ℕ} {r : ValRec} (hr : v.recs[i]? = some r)
    (hk : r.kind = .memAbs) :
    addrAt (objidCanonicalize Q S v nodes moves).1 i = some (keyOf S nodes moves r.step r.addr) := by
  rw [objidCanonicalize, if_neg hn, addrAt]
  simp [objidRec, foldl_rekeyRec, hr, rekeyOne, hk, keyOf]

lemma refines_of_nil : Refines Q S v [] moves := by
  intro i j r r' _ _ _ _ h
  rw [objidCanonicalize, if_pos rfl] at h
  exact h

lemma exists_last_step (moves : List GcMove) (s : ℕ) : ∃ T, s ≤ T ∧ ∀ m ∈ moves, m.step ≤ T := by
  obtain ⟨k, hk⟩ := exists_step_bound moves s
  exact ⟨s + k, by omega, fun m hm => (hk m hm).le⟩

/-! ## When object identity refines address identity -/

/-- `asmtest_objid_owner` -/
def objidOwner (S : StepNewSort) (nodes : List GcNode) (moves : List GcMove) (step : ℕ) (x : BitVec 64) :
    Option (ℕ × BitVec 64) :=
  ownerPrepared nodes (disjointifyNew (S.sort moves)) step x

/-- The address in the snapshot of the byte a record touched, if a node owned it -/
def ownerByte (S : StepNewSort) (nodes : List GcNode) (moves : List GcMove) (r : ValRec) :
    Option (BitVec 64) :=
  (objidOwner S nodes moves r.step r.addr).map fun p => (nodes.getD p.1 ⟨0, 0, 0⟩).addr + p.2

/-- The name of a record that no node owned -/
def floorName (S : StepNewSort) (nodes : List GcNode) (moves : List GcMove) (r : ValRec) :
    BitVec 64 :=
  let c := gcmoveCanon (S.sort moves) r.step r.addr
  if inNode nodes c then c ||| noObj else c

/-- The address the moves carry a record's byte to -/
def canonByte (Q : StepSort) (moves : List GcMove) (r : ValRec) : BitVec 64 :=
  canonOf Q moves r.step r.addr

/-- The records the pass renames -/
def ValTrace.absRecs (v : ValTrace) : List ValRec := v.recs.filter fun r => r.kind = .memAbs

/-- A record whose byte the snapshot has at an address where the moves do not carry it shares that
address only with records that are carried where it is. -/
def OwnersApart (Q : StepSort) (S : StepNewSort) (v : ValTrace) (nodes : List GcNode)
    (moves : List GcMove) : Prop :=
  ∀ r ∈ v.absRecs, ∀ r' ∈ v.absRecs, ∀ b ∈ ownerByte S nodes moves r,
    b ∈ ownerByte S nodes moves r' → canonByte Q moves r ≠ b →
      canonByte Q moves r' = canonByte Q moves r

/-- No two records of the trace that the moves keep apart meet: not in a byte of an owner, not
where one of them has none, and not where neither has one. -/
structure KeptApart (Q : StepSort) (S : StepNewSort) (v : ValTrace) (nodes : List GcNode)
    (moves : List GcMove) : Prop where
  owned : OwnersApart Q S v nodes moves
  mixed : ∀ r ∈ v.absRecs, ∀ r' ∈ v.absRecs, ownerByte S nodes moves r' = none →
    floorName S nodes moves r' ∈ ownerByte S nodes moves r →
      canonByte Q moves r' = canonByte Q moves r
  unowned : ∀ r ∈ v.absRecs, ∀ r' ∈ v.absRecs, ownerByte S nodes moves r = none →
    ownerByte S nodes moves r' = none → floorName S nodes moves r = floorName S nodes moves r' →
      canonByte Q moves r = canonByte Q moves r'

/-- An address of the lower half, where bit 63 is free. -/
def IsUser (x : BitVec 64) : Prop := x.toNat < 2 ^ 63

structure UserSpace (moves : List GcMove) (nodes : List GcNode) : Prop where
  moves_lt : ∀ m ∈ moves, m.newBase.toNat + m.len.toNat ≤ 2 ^ 63
  nodes_lt : ∀ n ∈ nodes, n.addr.toNat + n.size.toNat ≤ 2 ^ 63

def UserTrace (v : ValTrace) : Prop := ∀ r ∈ v.recs, r.kind = .memAbs → IsUser r.addr

lemma isUser_relocate {batch : List GcMove}
    (h : ∀ m ∈ batch, m.newBase.toNat + m.len.toNat ≤ 2 ^ 63) {x : BitVec 64} (hx : IsUser x) :
    IsUser (relocate batch x) := by
  unfold relocate
  cases hf : batch.find? fun m => m.covers x with
  | none => exact hx
  | some m =>
    have hm := h m (List.mem_of_find?_eq_some hf)
    have hc : m.covers x := by simpa using List.find?_some hf
    rw [GcMove.covers, decide_eq_true_eq] at hc
    have hlt : (x - m.oldBase).toNat < m.len.toNat := BitVec.lt_def.mp hc.2
    show (m.newBase + (x - m.oldBase)).toNat < 2 ^ 63
    rw [BitVec.toNat_add, Nat.mod_eq_of_lt (by omega)]
    omega

lemma isUser_canon {l : List GcMove} (h : ∀ m ∈ l, m.newBase.toNat + m.len.toNat ≤ 2 ^ 63) (s : ℕ)
    {x : BitVec 64} (hx : IsUser x) : IsUser (gcmoveCanon l s x) := by
  have hloop : ∀ fuel (l : List GcMove) (x : BitVec 64),
      (∀ m ∈ l, m.newBase.toNat + m.len.toNat ≤ 2 ^ 63) → IsUser x → IsUser (canonLoop s fuel l x) := by
    intro fuel
    induction fuel with
    | zero =>
      intro l x _ hx
      cases l <;> exact hx
    | succ fuel ih =>
      intro l x hl hx
      cases l with
      | nil => exact hx
      | cons m l =>
        rw [canonLoop]
        apply ih _ _ fun a ha => hl a ((List.dropWhile_sublist _).subset ha)
        split_ifs
        · exact isUser_relocate (fun a ha => hl a ((List.takeWhile_sublist _).subset ha)) hx
        · exact hx
  exact hloop _ l x h hx

lemma noObj_getLsbD (i : ℕ) : noObj.getLsbD i = decide (i = 63) := by
  rw [noObj, BitVec.getLsbD_shiftLeft]
  by_cases hi : i = 63
  · subst hi
    decide
  · by_cases hlt : i < 63
    · simp [hlt, hi]
    · simp [show ¬ i < 64 by omega, hi]

lemma isUser_iff_getLsbD {x : BitVec 64} : IsUser x ↔ x.getLsbD 63 = false := by
  rw [IsUser, BitVec.getLsbD, Nat.testBit_eq_decide_div_mod_eq, decide_eq_false_iff_not]
  have := x.isLt
  omega

/-- Tagged keys stay apart from addresses of the lower half and from each other. -/
lemma or_noObj_inj {a b : BitVec 64} (ha : IsUser a) (hb : IsUser b) (h : a ||| noObj = b ||| noObj) :
    a = b := by
  apply BitVec.eq_of_getLsbD_eq
  intro i _
  have hbit := congrArg (fun z => z.getLsbD i) h
  simp only [BitVec.getLsbD_or, noObj_getLsbD] at hbit
  by_cases hi : i = 63
  · rw [hi, isUser_iff_getLsbD.mp ha, isUser_iff_getLsbD.mp hb]
  · simpa [hi] using hbit

lemma or_noObj_not_user (a : BitVec 64) : ¬ IsUser (a ||| noObj) := by
  rw [isUser_iff_getLsbD, BitVec.getLsbD_or, noObj_getLsbD]
  simp

lemma StepNewSort.sorted_step (S : StepNewSort) (l : List GcMove) :
    (S.sort l).Pairwise fun a b => a.step ≤ b.step :=
  (S.sorted l).imp fun h => by omega

/-- Both arrays forward alike when the batches are disjoint. -/
lemma canon_full_eq (hd : DisjointOld moves) (s : ℕ) (x : BitVec 64) :
    gcmoveCanon (S.sort moves) s x = canonOf Q moves s x := by
  obtain ⟨h1, h2⟩ := preparedMoves_spec Q moves
  have hp := (S.perm moves).trans h1.symm
  exact gcmoveCanon_perm (hd.perm (S.perm moves).symm) hp (S.sorted_step moves) h2 s x

lemma ownerByte_user (hu : UserSpace moves nodes) {r : ValRec} {b : BitVec 64}
    (h : b ∈ ownerByte S nodes moves r) : IsUser b := by
  obtain ⟨⟨i, off⟩, howner, rfl⟩ := Option.map_eq_some_iff.mp h
  obtain ⟨n, hn, hoff, -⟩ := ownerPrepared_eq_some howner
  have hlt := hu.nodes_lt n (List.mem_of_getElem? hn)
  have hoff' : off.toNat < n.size.toNat := BitVec.lt_def.mp hoff
  dsimp only
  rw [List.getD_eq_getElem?_getD, hn, Option.getD_some, IsUser, BitVec.toNat_add,
    Nat.mod_eq_of_lt (by omega)]
  omega

/-- A byte of an owner lies in the snapshot. -/
lemma inNode_ownerByte (hu : UserSpace moves nodes) {r : ValRec} {b : BitVec 64}
    (h : b ∈ ownerByte S nodes moves r) : inNode nodes b = true := by
  obtain ⟨⟨i, off⟩, howner, rfl⟩ := Option.map_eq_some_iff.mp h
  obtain ⟨n, hn, hoff, -⟩ := ownerPrepared_eq_some howner
  have hlt := hu.nodes_lt n (List.mem_of_getElem? hn)
  dsimp only
  rw [List.getD_eq_getElem?_getD, hn, Option.getD_some, inNode, List.any_eq_true]
  refine ⟨n, List.mem_of_getElem? hn, decide_eq_true ⟨?_, ?_, ?_⟩⟩ <;> bv_omega

lemma keyOf_eq (r : ValRec) : keyOf S nodes moves r.step r.addr =
    (ownerByte S nodes moves r).getD (floorName S nodes moves r) := by
  rw [keyOf, objidKey, ownerByte, objidOwner, floorName]
  cases ownerPrepared nodes (disjointifyNew (S.sort moves)) r.step r.addr <;> rfl

lemma mem_absRecs {r : ValRec} : r ∈ v.absRecs ↔ r ∈ v.recs ∧ r.kind = .memAbs := by
  rw [ValTrace.absRecs, List.mem_filter, decide_eq_true_eq]

/-- With nodes a record ends with the byte of its owner, or with the name of a record without. -/
lemma refines_iff (hn : nodes ≠ []) : Refines Q S v nodes moves ↔
    ∀ r ∈ v.absRecs, ∀ r' ∈ v.absRecs,
      (ownerByte S nodes moves r).getD (floorName S nodes moves r) =
        (ownerByte S nodes moves r').getD (floorName S nodes moves r') →
      canonByte Q moves r = canonByte Q moves r' := by
  constructor
  · intro h r hr r' hr' he
    obtain ⟨hmem, hk⟩ := mem_absRecs.mp hr
    obtain ⟨hmem', hk'⟩ := mem_absRecs.mp hr'
    obtain ⟨i, hi⟩ := List.mem_iff_getElem?.mp hmem
    obtain ⟨j, hj⟩ := List.mem_iff_getElem?.mp hmem'
    have hij := h i j r r' hi hj hk hk'
    rw [addrAt_objid hn hi hk, addrAt_objid hn hj hk', addrAt_gcmove hi hk, addrAt_gcmove hj hk',
      Option.some_inj, Option.some_inj, keyOf_eq, keyOf_eq] at hij
    exact hij he
  · intro h i j r r' hi hj hk hk' he
    rw [addrAt_objid hn hi hk, addrAt_objid hn hj hk', Option.some_inj, keyOf_eq, keyOf_eq] at he
    have hr := mem_absRecs.mpr ⟨List.mem_of_getElem? hi, hk⟩
    have hr' := mem_absRecs.mpr ⟨List.mem_of_getElem? hj, hk'⟩
    rw [addrAt_gcmove hi hk, addrAt_gcmove hj hk', Option.some_inj]
    exact h r hr r' hr' he

lemma refines_iff_keptApart (hn : nodes ≠ []) :
    Refines Q S v nodes moves ↔ KeptApart Q S v nodes moves := by
  rw [refines_iff hn]
  constructor
  · intro h
    refine ⟨fun r hr r' hr' b hb hb' _ => ?_, fun r hr r' hr' ho' hb => ?_,
      fun r hr r' hr' ho ho' he => ?_⟩
    · refine h r' hr' r hr ?_
      rw [Option.mem_def.mp hb, Option.mem_def.mp hb']
      rfl
    · refine h r' hr' r hr ?_
      rw [ho', Option.mem_def.mp hb, Option.getD_none, Option.getD_some]
    · refine h r hr r' hr' ?_
      rw [ho, ho']
      exact he
  · intro h r hr r' hr' he
    cases ho : ownerByte S nodes moves r with
    | none =>
      rw [ho] at he
      cases ho' : ownerByte S nodes moves r' with
      | none =>
        rw [ho'] at he
        exact h.unowned r hr r' hr' ho ho' he
      | some b =>
        rw [ho'] at he
        exact h.mixed r' hr' r hr ho (Option.mem_def.mpr (ho'.trans (congrArg some he.symm)))
    | some b =>
      rw [ho] at he
      cases ho' : ownerByte S nodes moves r' with
      | none =>
        rw [ho'] at he
        exact (h.mixed r hr r' hr' ho' (Option.mem_def.mpr (ho.trans (congrArg some he)))).symm
      | some b' =>
        rw [ho', Option.getD_some, Option.getD_some] at he
        subst he
        -- if both bytes are carried to their owner's place they are carried to one place
        by_cases hr_b : canonByte Q moves r = b
        · by_cases hr'_b : canonByte Q moves r' = b
          · exact hr_b.trans hr'_b.symm
          · exact h.owned r' hr' r hr b ho' ho hr'_b
        · exact (h.owned r hr r' hr' b ho ho' hr_b).symm

section Promised

variable (hd : DisjointOld moves) (hu : UserSpace moves nodes)

include hu in
lemma isUser_canonByte {r : ValRec} (hr : IsUser r.addr) : IsUser (canonByte Q moves r) :=
  isUser_canon (fun m hm => hu.moves_lt m ((preparedMoves_spec Q moves).1.subset hm)) _ hr

include hd in
/-- With disjoint batches the name of a record without an owner is its canonical address, which is
in no node, or that address tagged. -/
lemma floorName_cases (Q : StepSort) (r : ValRec) :
    (floorName S nodes moves r = canonByte Q moves r ∧
        inNode nodes (canonByte Q moves r) = false) ∨
      floorName S nodes moves r = canonByte Q moves r ||| noObj := by
  rw [floorName, canonByte, ← canon_full_eq (Q := Q) (S := S) hd]
  cases inNode nodes (gcmoveCanon (S.sort moves) r.step r.addr) with
  | false => exact .inl ⟨rfl, rfl⟩
  | true => exact .inr rfl

include hd hu in
/-- Tagged names meet no other name, and an untagged name is no byte of an owner. -/
lemma keptApart_iff (hv : UserTrace v) : KeptApart Q S v nodes moves ↔
    OwnersApart Q S v nodes moves := by
  refine ⟨KeptApart.owned, fun h => ⟨h, fun r hr r' hr' _ hb => ?_, fun r hr r' hr' _ _ he => ?_⟩⟩
  · exfalso
    obtain ⟨hplain, hout⟩ | htagged := @floorName_cases S nodes moves hd Q r'
    · rw [hplain] at hb
      exact Bool.false_ne_true (hout.symm.trans (inNode_ownerByte hu hb))
    · rw [htagged] at hb
      exact or_noObj_not_user _ (ownerByte_user hu hb)
  · have hc : IsUser (canonByte Q moves r) :=
      isUser_canonByte hu (hv r (mem_absRecs.mp hr).1 (mem_absRecs.mp hr).2)
    have hc' : IsUser (canonByte Q moves r') :=
      isUser_canonByte hu (hv r' (mem_absRecs.mp hr').1 (mem_absRecs.mp hr').2)
    obtain ⟨h1, -⟩ | h1 := @floorName_cases S nodes moves hd Q r <;>
      obtain ⟨h2, -⟩ | h2 := @floorName_cases S nodes moves hd Q r' <;>
        rw [h1, h2] at he
    · exact he
    · exact absurd (he ▸ hc) (or_noObj_not_user _)
    · exact absurd (he ▸ hc') (or_noObj_not_user _)
    · exact or_noObj_inj hc hc' he

end Promised

/-- The order of `objid_cmp_step_new`. -/
def stepNewLe (a b : GcMove) : Prop := a.step < b.step ∨ a.step = b.step ∧ a.newBase ≤ b.newBase

instance : DecidableRel stepNewLe := fun _ _ => inferInstanceAs (Decidable (_ ∨ _))

instance : Std.Total stepNewLe := ⟨fun a b => by unfold stepNewLe; bv_omega⟩

instance : IsTrans GcMove stepNewLe := ⟨fun a b c => by unfold stepNewLe; bv_omega⟩

/-- An insertion sort is one such `qsort`. -/
def insertionStepNewSort : StepNewSort where
  sort l := l.insertionSort stepNewLe
  perm l := List.perm_insertionSort _ l
  sorted l := List.pairwise_insertionSort stepNewLe l

/-- A node was allocated where an object was moved away from at step 5. The trace touches the object
once before the move, and `after` once after it. -/
def acrossVacated (after : BitVec 64) : ValTrace :=
  appendAll (valtraceNew 8 8) [(0, [{ kind := .memAbs, addr := 100, size := 1 }]), (0, []), (0, []),
    (0, []), (0, []), (0, []), (0, [{ kind := .memAbs, addr := after, size := 1 }])]

end AsmTest.Dataflow
