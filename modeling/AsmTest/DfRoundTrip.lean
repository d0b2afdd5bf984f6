import AsmTest.NdjsonDf

/-!
# The data-flow lines are read back

The `df_step` and `df_edge` lines of a pass, written by the C writer, come out of the desktop's
decoder with what was measured.
-/

namespace AsmTest.Doc

open Lib
open Dataflow (LocKind DefUseEdge)

variable {F : Type}

section Decode

/-- What the members of an operand's object are -/
structure OpFields (r : Dataflow.ValRec) (buf : Option Bytes) (m : Members F) : Prop where
  space : member "space" m = some (.str (ascii (locSpace r.kind)))
  reg : member "reg" m = some (.int r.reg.toNat)
  addr : member "addr" m = if r.kind = .reg then none else some (.int r.addr.toNat)
  size : member "size" m = some (.int r.size)
  write : member "write" m = some (.bool r.isWrite)
  valueValid : member "value_valid" m = some (.bool r.valueValid)
  wide : member "wide" m = if r.wide then some (.bool true) else none
  value : member "value" m =
    if r.wide = false ∧ r.valueValid = true then some (.int r.value.toNat) else none
  bytes : member "bytes" m =
    if r.wide then (wideBytes r buf).map fun bs => .str (bs.flatMap hexByte) else none

lemma opFields (r : Dataflow.ValRec) (buf : Option Bytes) :
    OpFields r buf (fields ((opText r buf).value : Json F)) := by
  have hfields : fields ((opText r buf).value : Json F) =
      JText.memberValues (valueMembers r buf) (JText.memberValues
        [(ascii "size", .int r.size), (ascii "write", .bool r.isWrite),
          (ascii "value_valid", .bool r.valueValid)] (JText.memberValues (locMembers r)
          (mapInsert (ascii "space") (.str (ascii (locSpace r.kind))) []))) := by
    simp only [opText, JText.value, fields, Json.asObj, Option.getD_some, JText.memberValues,
      JText.memberValues_append]
  rw [hfields, locMembers, valueMembers]
  -- one lookup for each key, in each shape that the object can have
  by_cases hk : r.kind = .reg <;> cases hw : r.wide
  case pos.false | neg.false =>
    cases hv : r.valueValid <;> constructor <;>
      simp +decide [hk, hw, hv, member, JText.memberValues, JText.value, mapFind]
  case pos.true | neg.true =>
    cases hb : wideBytes r buf <;> constructor <;>
      simp +decide [hk, hw, hb, member, JText.memberValues, JText.value, mapFind]

lemma decodeHexPairs_hex (bs : Bytes) : decodeHexPairs (bs.flatMap hexByte) = some bs := by
  induction bs with
  | nil => rfl
  | cons b bs ih =>
    have hb := b.toNat_lt
    have hhi := hexVal_hexDigit (b.toNat / 16) (by omega)
    have hlo := hexVal_hexDigit (b.toNat % 16) (by omega)
    have hval : UInt8.ofNat (b.toNat / 16 * 16 + b.toNat % 16) = b := by
      rw [Nat.div_add_mod', UInt8.ofNat_toNat]
    simp only [List.flatMap_cons, hexByte, List.cons_append, List.nil_append, decodeHexPairs, hhi,
      hlo, ih, hval]

lemma decodeHex_hex (bs : Bytes) : decodeHex (bs.flatMap hexByte) = bs := by
  rw [decodeHex, decodeHexPairs_hex]
  rfl

/-- An operand as it comes out of the decoder -/
def decodedOp (r : Dataflow.ValRec) (buf : Option Bytes) : ValRec where
  space := ascii (locSpace r.kind)
  reg := r.reg.toNat
  addr := if r.kind = .reg then 0 else r.addr.toNat
  size := r.size
  write := r.isWrite
  valueValid := r.valueValid
  wide := r.wide
  value := if r.wide = false ∧ r.valueValid = true then r.value.toNat else 0
  bytes := if r.wide then (wideBytes r buf).getD [] else []

lemma decodeOp_opText (r : Dataflow.ValRec) (buf : Option Bytes) (hsize : r.size < 2 ^ 16) :
    decodeOp ((opText r buf).value : Json F) = decodedOp r buf := by
  have h : OpFields r buf (fields ((opText r buf).value : Json F)) := opFields r buf
  rw [decodeOp, decodedOp]
  congr 1
  · rw [getStr, strMember, h.space]
    rfl
  · exact getUint_of_some h.reg r.reg.isLt
  · split_ifs with hk
    · exact getUint_of_none (h.addr.trans (if_pos hk))
    · exact getUint_of_some (h.addr.trans (if_neg hk)) r.addr.isLt
  · exact getUint_of_some h.size (by omega)
  · rw [getBool, boolMember, h.write]
    rfl
  · rw [getBool, boolMember, h.valueValid]
    rfl
  · rw [getBool, boolMember, h.wide]
    cases r.wide <;> rfl
  · split_ifs with hv
    · exact getUint_of_some (h.value.trans (if_pos hv)) r.value.isLt
    · exact getUint_of_none (h.value.trans (if_neg hv))
  · rw [getStr, strMember, h.bytes]
    cases r.wide with
    | false => rfl
    | true =>
      cases wideBytes r buf with
      | none => rfl
      | some bs => exact decodeHex_hex bs

lemma utf8Ok_of_ascii {l : Bytes} (h : ∀ b ∈ l, b < 0x80) : utf8Ok l = true := by
  induction l with
  | nil => rfl
  | cons b l ih =>
    rw [List.forall_mem_cons] at h
    exact @utf8Ok_append [b] l (utf8Ok_singleton h.1) (ih h.2)

lemma utf8Ok_flatMap_hexByte (bs : Bytes) : utf8Ok (bs.flatMap hexByte) = true := by
  refine utf8Ok_of_ascii fun b hb => ?_
  have hdigit : ∀ n < 16, hexDigit n < 0x80 := by decide
  obtain ⟨a, -, ha⟩ := List.mem_flatMap.1 hb
  have hlt := a.toNat_lt
  simp only [hexByte, List.mem_cons, List.not_mem_nil, or_false] at ha
  rcases ha with rfl | rfl
  · exact hdigit _ (by omega)
  · exact hdigit _ (by omega)

lemma ok_opText (r : Dataflow.ValRec) (buf : Option Bytes) (hsize : r.size < 2 ^ 16) :
    (opText r buf).Ok := by
  have hscale := r.scale.toInt_lt
  have hscale' := r.scale.le_toInt
  have hdisp := r.disp.toInt_lt
  have hdisp' := r.disp.le_toInt
  have hspace : utf8Ok (ascii (locSpace r.kind)) = true := by cases r.kind <;> decide
  rw [opText, JText.Ok, JText.okMembers_iff]
  simp only [List.forall_mem_cons, List.forall_mem_append]
  refine ⟨⟨by decide, by rwa [JText.Ok]⟩, ⟨?_, ?_⟩, ?_⟩
  · rw [locMembers]
    split_ifs
    · simp only [List.forall_mem_cons, List.not_mem_nil, false_implies, implies_true, and_true]
      exact ⟨by decide, JText.ok_int_of_lt (r.reg.isLt.trans (by norm_num))⟩
    · simp only [List.forall_mem_cons, List.not_mem_nil, false_implies, implies_true, and_true]
      refine ⟨⟨by decide, JText.ok_int_of_lt (r.reg.isLt.trans (by norm_num))⟩,
        ⟨by decide, JText.ok_int_of_lt (r.base.isLt.trans (by norm_num))⟩,
        ⟨by decide, JText.ok_int_of_lt (r.index.isLt.trans (by norm_num))⟩, ⟨by decide, ?_⟩,
        ⟨by decide, ?_⟩, ⟨by decide, JText.ok_int_of_lt r.addr.isLt⟩⟩
      · rw [JText.Ok]
        norm_num at hscale hscale' ⊢
        omega
      · rw [JText.Ok]
        norm_num at hdisp hdisp' ⊢
        omega
  · simp only [List.not_mem_nil, false_implies, implies_true, and_true]
    refine ⟨⟨by decide, JText.ok_int_of_lt (by omega)⟩, ⟨by decide, ?_⟩, ⟨by decide, ?_⟩⟩ <;>
      exact (by rw [JText.Ok]; trivial)
  · rw [valueMembers]
    split_ifs
    · rw [List.forall_mem_cons]
      refine ⟨⟨by decide, by rw [JText.Ok]; trivial⟩, ?_⟩
      cases wideBytes r buf with
      | none => simp
      | some bs =>
        simp only [List.forall_mem_cons, List.not_mem_nil, false_implies, implies_true, and_true]
        exact ⟨by decide, by rw [JText.Ok]; exact utf8Ok_flatMap_hexByte bs⟩
    · simp only [List.forall_mem_cons, List.not_mem_nil, false_implies, implies_true, and_true]
      exact ⟨by decide, JText.ok_int_of_lt r.value.isLt⟩
    · simp

/-- What the members of a `df_step` line are -/
structure StepFields (a : DfStepArgs) (t : Bytes) (m : Members F) : Prop where
  step : member "step" m = some (.int a.step.toNat)
  off : member "off" m = some (.int a.off.toNat)
  rbase : member "rbase" m = if a.rbase ≠ 0 then some (.int a.rbase.toNat) else none
  when : member "when" m = if a.when ≠ 0 then some (.int a.when.toNat) else none
  disasm : member "disasm" m = if cstr a.disasm ≠ [] then some (.str t) else none
  ops : member "ops" m = some (.arr (a.recs.map fun r => (opText r a.wide).value))

lemma stepFields (a : DfStepArgs) (t : Bytes) :
    StepFields a t (fields ((stepText a t).value : Json F)) := by
  have hops : ((JText.arr (a.recs.map fun r => opText r a.wide)).value : Json F) =
      .arr (a.recs.map fun r => (opText r a.wide).value) := by
    rw [JText.value, JText.values_eq_map, List.map_map]
    rfl
  have hfields : fields ((stepText a t).value : Json F) =
      mapInsert (ascii "ops") (.arr (a.recs.map fun r => (opText r a.wide).value))
        (JText.memberValues (if cstr a.disasm ≠ [] then [(ascii "disasm", .str t)] else [])
        (JText.memberValues (if a.when ≠ 0 then [(ascii "when", .int a.when.toNat)] else [])
        (JText.memberValues (if a.rbase ≠ 0 then [(ascii "rbase", .int a.rbase.toNat)] else [])
        (mapInsert (ascii "off") (.int a.off.toNat) (mapInsert (ascii "step") (.int a.step.toNat)
        (mapInsert (ascii "k") (.str (ascii "df_step")) [])))))) := by
    simp only [stepText, JText.value, fields, Json.asObj, Option.getD_some, JText.memberValues,
      JText.memberValues_append, ← hops]
  rw [hfields]
  constructor <;>
    by_cases hr : a.rbase = 0#64 <;> by_cases hw : a.when = 0#64 <;>
      by_cases hd : cstr a.disasm = [] <;>
      simp +decide [hr, hw, hd, member, JText.memberValues, JText.value, mapFind]

/-- A step as it comes out of the decoder -/
def decodedStep (a : DfStepArgs) (t : Bytes) : DfStep where
  step := a.step.toNat
  off := a.off.toNat
  rbase := a.rbase.toNat
  when := a.when.toNat
  disasm := if cstr a.disasm ≠ [] then t else []
  ops := a.recs.map fun r => { decodedOp r a.wide with step := a.step.toNat }

variable (L : JsonLib F)

/-- A field that is left out when it is zero -/
lemma getUint_of_ite {w : ℕ} {key : String} {m : Members F} {x : BitVec w}
    (h : member key m = if x ≠ 0 then some (.int x.toNat) else none) :
    getUint w key m = x.toNat := by
  by_cases hx : x = 0
  · rw [hx]
    exact getUint_of_none (h.trans (if_neg (not_not.2 hx)))
  · exact getUint_of_some (h.trans (if_pos hx)) x.isLt

lemma decodeStep_stepText (a : DfStepArgs) (t : Bytes) (hsize : ∀ r ∈ a.recs, r.size < 2 ^ 16) :
    decodeStep L (stepText a t).value = some (decodedStep a t) := by
  have h : StepFields a t (fields ((stepText a t).value : Json F)) := stepFields a t
  rw [decodeStep, decodedStep]
  simp only [u32Member_of_some L h.step a.step.isLt, getUint_of_some h.off a.off.isLt,
    getUint_of_ite h.rbase, getUint_of_ite h.when, h.ops, Option.bind_some, Json.asArr,
    Option.getD_some, List.map_map]
  congr 2
  · rw [getStr, strMember, h.disasm]
    split_ifs <;> rfl
  · refine List.map_congr_left fun r hr => ?_
    simp only [Function.comp_apply, decodeOp_opText r a.wide (hsize r hr)]

lemma decodeEdge_edgeText (e : DefUseEdge) (hfrom : e.fromStep < 2 ^ 32) (hto : e.toStep < 2 ^ 32)
    (hsize : e.loc.size < 2 ^ 16) :
    decodeEdge L (edgeText e).value = some ((e.fromStep, e.toStep), decodedOp e.loc none) := by
  set m := fields ((edgeText e).value : Json F) with hm
  have hf : member "from" m = some (.int e.fromStep) := by
    simp +decide [hm, edgeText, member, JText.memberValues, JText.value, fields, Json.asObj]
  have ht : member "to" m = some (.int e.toStep) := by
    simp +decide [hm, edgeText, member, JText.memberValues, JText.value, fields, Json.asObj]
  have hl : member "loc" m = some (opText e.loc none).value := by
    simp +decide [hm, edgeText, member, JText.memberValues, JText.value, fields, Json.asObj]
  have hobj : objMember "loc" m = some (fields ((opText e.loc none).value : Json F)) := by
    rw [objMember, hl]
    rfl
  rw [decodeEdge, ← hm, u32Member_of_some L hf hfrom, u32Member_of_some L ht hto, hobj]
  have hop := @decodeOp_opText F e.loc none hsize
  simp only [Option.map_some, Option.getD_some]
  rw [← hop]
  rfl

lemma ok_ite {p : Prop} [Decidable p] {k : Bytes} {t : JText} (hk : utf8Ok k = true) (ht : t.Ok) :
    ∀ m ∈ if p then [(k, t)] else [], utf8Ok m.1 = true ∧ m.2.Ok := by
  split_ifs
  · exact List.forall_mem_singleton.2 ⟨hk, ht⟩
  · simp

lemma ok_stepText (a : DfStepArgs) {t : Bytes} (ht : utf8Ok t = true)
    (hsize : ∀ r ∈ a.recs, r.size < 2 ^ 16) : (stepText a t).Ok := by
  rw [stepText, JText.Ok, JText.okMembers_iff]
  simp only [List.forall_mem_cons, List.forall_mem_append, List.not_mem_nil, false_implies,
    implies_true, and_true]
  refine ⟨⟨by decide, by rw [JText.Ok]; decide⟩, ⟨⟨⟨⟨⟨by decide, ?_⟩, by decide, ?_⟩, ?_⟩, ?_⟩, ?_⟩,
    by decide, ?_⟩
  · exact JText.ok_int_of_lt (a.step.isLt.trans (by norm_num))
  · exact JText.ok_int_of_lt a.off.isLt
  · exact ok_ite (by decide) (JText.ok_int_of_lt a.rbase.isLt)
  · exact ok_ite (by decide) (JText.ok_int_of_lt a.when.isLt)
  · exact ok_ite (by decide) (by rwa [JText.Ok])
  · rw [JText.Ok, JText.okElems_iff]
    intro u hu
    obtain ⟨r, hr, rfl⟩ := List.mem_map.1 hu
    exact ok_opText r a.wide (hsize r hr)

lemma ok_edgeText (e : DefUseEdge) (hfrom : e.fromStep < 2 ^ 32) (hto : e.toStep < 2 ^ 32)
    (hsize : e.loc.size < 2 ^ 16) : (edgeText e).Ok := by
  rw [edgeText, JText.Ok, JText.okMembers_iff]
  simp only [List.forall_mem_cons, List.not_mem_nil, false_implies, implies_true, and_true]
  exact ⟨⟨by decide, by rw [JText.Ok]; decide⟩, ⟨by decide, JText.ok_int_of_lt (by omega)⟩,
    ⟨by decide, JText.ok_int_of_lt (by omega)⟩, by decide, ok_opText e.loc none hsize⟩

end Decode

section RoundTrip

variable {α : Type}

lemma getElem?_fillSteps_of_ne (f : DfStep → α) {steps : List DfStep} {i : ℕ}
    (h : ∀ s ∈ steps, s.step ≠ i) (a : List α) : (fillSteps f steps a)[i]? = a[i]? := by
  rw [fillSteps]
  induction steps generalizing a with
  | nil => rfl
  | cons s steps ih =>
    rw [List.forall_mem_cons] at h
    rw [List.foldl_cons, ih h.2, List.getElem?_set_ne h.1]

/-- Where no index comes twice, every step leaves its own entry. -/
lemma getElem?_fillSteps (f : DfStep → α) {steps : List DfStep}
    (hnodup : (steps.map DfStep.step).Nodup) {st : DfStep} (hst : st ∈ steps) {a : List α}
    (hlt : st.step < a.length) : (fillSteps f steps a)[st.step]? = some (f st) := by
  induction steps generalizing a with
  | nil => exact absurd hst List.not_mem_nil
  | cons s steps ih =>
    rw [List.map_cons, List.nodup_cons] at hnodup
    rcases List.mem_cons.1 hst with rfl | hst
    · have hne : ∀ s ∈ steps, s.step ≠ st.step := fun s hs h =>
        hnodup.1 (h ▸ List.mem_map_of_mem hs)
      exact (getElem?_fillSteps_of_ne f hne _).trans (List.getElem?_set_self hlt)
    · exact ih hnodup.2 hst (by rwa [List.length_set])

/-- The operands of a step are those that carry its index. -/
lemma filter_flatMap_ops {steps : List DfStep} (hnodup : (steps.map DfStep.step).Nodup)
    (hops : ∀ s ∈ steps, ∀ v ∈ s.ops, v.step = s.step) {st : DfStep} (hst : st ∈ steps) :
    (steps.flatMap DfStep.ops).filter (fun v => v.step = st.step) = st.ops := by
  induction steps with
  | nil => exact absurd hst List.not_mem_nil
  | cons s steps ih =>
    rw [List.map_cons, List.nodup_cons] at hnodup
    rw [List.forall_mem_cons] at hops
    rw [List.flatMap_cons, List.filter_append]
    rcases List.mem_cons.1 hst with rfl | hst
    · have hne : ∀ v ∈ steps.flatMap DfStep.ops, ¬v.step = st.step := by
        intro v hv h
        obtain ⟨s, hs, hvs⟩ := List.mem_flatMap.1 hv
        exact hnodup.1 (List.mem_map.2 ⟨s, hs, (hops.2 s hs v hvs).symm.trans h⟩)
      rw [List.filter_eq_self.2 fun v hv => decide_eq_true (hops.1 v hv),
        List.filter_eq_nil_iff.2 fun v hv => by simpa using hne v hv, List.append_nil]
    · have hne : ∀ v ∈ s.ops, ¬v.step = st.step := fun v hv h =>
        hnodup.1 (List.mem_map.2 ⟨st, hst, h.symm.trans (hops.1 v hv)⟩)
      rw [List.filter_eq_nil_iff.2 fun v hv => by simpa using hne v hv, List.nil_append,
        ih hnodup.2 hops.2 hst]

/-- What the reader needs to know of an operand is there again: the register or the address, and
the value or the bytes of a wide one where they were measured. -/
structure OpRecovered (buf : Option Bytes) (r : Dataflow.ValRec) (v : ValRec) : Prop where
  space : v.space = ascii (locSpace r.kind)
  reg : v.reg = r.reg.toNat
  addr : r.kind ≠ .reg → v.addr = r.addr.toNat
  size : v.size = r.size
  write : v.write = r.isWrite
  valueValid : v.valueValid = r.valueValid
  wide : v.wide = r.wide
  value : r.valueValid = true → r.wide = false → v.value = r.value.toNat
  bytes : r.valueValid = true → r.wide = true → ∀ bs, buf = some bs →
    r.wideOff.toNat + r.size ≤ bs.length → r.wideOff.toNat + r.size ≤ 2 ^ 32 →
    v.bytes = (bs.drop r.wideOff.toNat).take r.size

/-- A step and its operands are there again. -/
structure StepRecovered (a : DfStepArgs) (df : DataflowStream) : Prop where
  present : df.stepPresent[a.step.toNat]? = some true
  off : df.insnOff[a.step.toNat]? = some a.off.toNat
  rbase : df.insnRbase[a.step.toNat]? = some a.rbase.toNat
  when : df.insnWhen[a.step.toNat]? = some a.when.toNat
  ops : List.Forall₂ (OpRecovered a.wide) a.recs
    (df.recs.filter fun v => v.step = a.step.toNat)

lemma wideBytes_eq {r : Dataflow.ValRec} {bs : Bytes} (hv : r.valueValid = true)
    (hlen : r.wideOff.toNat + r.size ≤ bs.length) (hlt : r.wideOff.toNat + r.size ≤ 2 ^ 32) :
    (wideBytes r (some bs)).getD [] = (bs.drop r.wideOff.toNat).take r.size := by
  rw [wideBytes]
  by_cases hpos : 0 < r.size
  · rw [if_pos ⟨hv, hpos, hlen⟩, Option.getD_some]
    refine List.ext_getElem (by simp; omega) fun k hk hk' => ?_
    have hsize : k < r.size := by simpa using hk
    have hidx : (r.wideOff.toNat + k) % 2 ^ 32 = r.wideOff.toNat + k :=
      Nat.mod_eq_of_lt (by omega)
    rw [List.getElem_map, List.getElem_range, hidx, List.getElem_take, List.getElem_drop,
      List.getD_eq_getElem _ _ (by omega)]
  · rw [if_neg fun h => hpos h.2.1, Nat.eq_zero_of_not_pos hpos]
    rfl

lemma opRecovered_decodedOp (buf : Option Bytes) (r : Dataflow.ValRec) (s : ℕ) :
    OpRecovered buf r { decodedOp r buf with step := s } where
  space := rfl
  reg := rfl
  addr hk := if_neg hk
  size := rfl
  write := rfl
  valueValid := rfl
  wide := rfl
  value hv hw := if_pos ⟨hw, hv⟩
  bytes hv hw bs hbs hlen hlt := by
    subst hbs
    simpa [decodedOp, hw] using wideBytes_eq hv hlen hlt

variable {L : JsonLib F}

/-- What a stream holds of one of its steps -/
structure HoldsStep (df : DataflowStream) (st : DfStep) : Prop where
  present : df.stepPresent[st.step]? = some true
  off : df.insnOff[st.step]? = some st.off
  rbase : df.insnRbase[st.step]? = some st.rbase
  when : df.insnWhen[st.step]? = some st.when
  disasm : df.disasm[st.step]? = some st.disasm
  ops : df.recs.filter (fun v => v.step = st.step) = st.ops

lemma decodeDataflow_holdsStep {stepEvs : List (Event F)} (edgeEvs : List (Event F))
    {sts : List DfStep} (hdec : (stepEvs.map Event.body).filterMap (decodeStep L) = sts)
    (hnodup : (sts.map DfStep.step).Nodup) (hlt : ∀ s ∈ sts, s.step + 1 < 2 ^ 32)
    (hops : ∀ s ∈ sts, ∀ v ∈ s.ops, v.step = s.step) {st : DfStep} (hst : st ∈ sts) :
    HoldsStep (decodeDataflow L stepEvs edgeEvs) st := by
  set sorted := sts.insertionSort fun a b => a.step ≤ b.step with hsorted
  have hperm : sorted.Perm sts := List.perm_insertionSort _ sts
  set n := (sorted.map fun st => (st.step + 1) % 2 ^ 32).foldl max 0 with hn
  have hnodup' : (sorted.map DfStep.step).Nodup := (hperm.map _).nodup_iff.2 hnodup
  have hst' : st ∈ sorted := hperm.mem_iff.2 hst
  have hstep : st.step < n := by
    have hle := (List.max?_eq_some_iff.1 (@List.max?_cons' ℕ 0 _
      (sorted.map fun st => (st.step + 1) % 2 ^ 32))).2 _
      (List.mem_cons_of_mem 0 (List.mem_map_of_mem hst'))
    rw [Nat.mod_eq_of_lt (hlt st hst)] at hle
    exact hle
  have hfill : ∀ {α : Type} (f : DfStep → α) (d : α),
      (fillSteps f sorted (List.replicate n d))[st.step]? = some (f st) := fun f d =>
    getElem?_fillSteps f hnodup' hst' (by rwa [List.length_replicate])
  rw [decodeDataflow, hdec, ← hsorted, ← hn]
  refine ⟨hfill _ _, hfill _ _, hfill _ _, hfill _ _, ?_, ?_⟩
  · -- a step without a text leaves the entry as it was
    by_cases hd : st.disasm = []
    · have hne : ∀ s ∈ sorted.filter (fun s => s.disasm ≠ []), s.step ≠ st.step := by
        intro s hs h
        rw [List.mem_filter] at hs
        have heq := List.inj_on_of_nodup_map hnodup' hs.1 hst' h
        simp [heq, hd] at hs
      rw [getElem?_fillSteps_of_ne _ hne, List.getElem?_replicate, if_pos hstep, hd]
    · refine getElem?_fillSteps _ ?_ ?_ (by rwa [List.length_replicate])
      · exact hnodup'.sublist (List.filter_sublist.map _)
      · exact List.mem_filter.2 ⟨hst', by simpa using hd⟩
  · exact filter_flatMap_ops hnodup' (fun s hs => hops s (hperm.mem_iff.1 hs)) hst'

lemma parse_stepLine (hL : L.ReadsCompact) {cap : ℕ} {a : DfStepArgs}
    (hcap : (dfStepPieces a).flatten.length < cap) (hsize : ∀ r ∈ a.recs, r.size < 2 ^ 16)
    {t : Bytes} (ht : asmtraceEscape escCap a.disasm = escape t) (hok : utf8Ok t = true) :
    L.parse (asmtraceEmit "df_step" (asmtraceDfStepBody cap a)) = some (stepText a t).value := by
  rw [asmtraceDfStepBody, foldl_bp _ _ (by rwa [List.nil_append]), List.nil_append,
    flatten_dfStepPieces ht]
  exact hL _ (ok_stepText a hok hsize)

lemma parse_edgeLine (hL : L.ReadsCompact) {cap : ℕ} {e : DefUseEdge}
    (hcap : (dfEdgePieces e).flatten.length < cap) (hfrom : e.fromStep < 2 ^ 32)
    (hto : e.toStep < 2 ^ 32) (hsize : e.loc.size < 2 ^ 16) :
    L.parse (asmtraceEmit "df_edge" (asmtraceDfEdgeBody cap e)) = some (edgeText e).value := by
  rw [asmtraceDfEdgeBody, foldl_bp _ _ (by rwa [List.nil_append]), List.nil_append,
    flatten_dfEdgePieces]
  exact hL _ (ok_edgeText e hfrom hto hsize)

/-- The fields of a step and of an edge within the widths of their C types -/
def DfStepArgs.Sized (a : DfStepArgs) : Prop :=
  ∀ r ∈ a.recs, r.size < 2 ^ 16

def EdgeSized (e : DefUseEdge) : Prop :=
  e.fromStep < 2 ^ 32 ∧ e.toStep < 2 ^ 32 ∧ e.loc.size < 2 ^ 16

/-- The lines of a pass are read back, with every step that has an index of its own. -/
theorem decodeDataflow_recovers (hL : L.ReadsCompact) (cap : ℕ) (steps : List DfStepArgs)
    (edges : List DefUseEdge) (hsized : ∀ a ∈ steps, a.Sized) (hedges : ∀ e ∈ edges, EdgeSized e)
    (hcap : ∀ a ∈ steps, (dfStepPieces a).flatten.length < cap)
    (hcapEdges : ∀ e ∈ edges, (dfEdgePieces e).flatten.length < cap)
    (hnodup : (steps.map DfStepArgs.step).Nodup) (hlast : ∀ a ∈ steps, a.step.toNat + 1 < 2 ^ 32) :
    ∃ js es : List (Json F),
      steps.map (fun a => L.parse (asmtraceEmit "df_step" (asmtraceDfStepBody cap a))) =
        js.map some ∧
      edges.map (fun e => L.parse (asmtraceEmit "df_edge" (asmtraceDfEdgeBody cap e))) =
        es.map some ∧
      ∀ stepEvs edgeEvs : List (Event F), stepEvs.map Event.body = js →
        edgeEvs.map Event.body = es →
        (∀ a ∈ steps, StepRecovered a (decodeDataflow L stepEvs edgeEvs) ∧
          (utf8Ok (cstr a.disasm) = true → EscapeFits (cstr a.disasm) →
            (decodeDataflow L stepEvs edgeEvs).disasm[a.step.toNat]? = some (cstr a.disasm))) ∧
        (decodeDataflow L stepEvs edgeEvs).edges = edges.map (fun e => (e.fromStep, e.toStep)) ∧
        List.Forall₂ (OpRecovered none) (edges.map DefUseEdge.loc)
          (decodeDataflow L stepEvs edgeEvs).edgeLoc := by
  choose t ht hok hsame using asmtraceEscape_spec
  refine ⟨steps.map fun a => (stepText a (t a.disasm)).value,
    edges.map fun e => (edgeText e).value, ?_, ?_, ?_⟩
  · rw [List.map_map]
    exact List.map_congr_left fun a ha =>
      parse_stepLine hL (hcap a ha) (hsized a ha) (ht a.disasm) (hok a.disasm)
  · rw [List.map_map]
    exact List.map_congr_left fun e he =>
      parse_edgeLine hL (hcapEdges e he) (hedges e he).1 (hedges e he).2.1 (hedges e he).2.2
  · intro stepEvs edgeEvs hstepEvs hedgeEvs
    have hdec : (stepEvs.map Event.body).filterMap (decodeStep L) =
        steps.map fun a => decodedStep a (t a.disasm) := by
      rw [hstepEvs, List.filterMap_map]
      rw [← List.filterMap_eq_map]
      exact List.filterMap_congr fun a ha => decodeStep_stepText L a _ (hsized a ha)
    have hdecEdges : (edgeEvs.map Event.body).filterMap (decodeEdge L) =
        edges.map fun e => ((e.fromStep, e.toStep), decodedOp e.loc none) := by
      rw [hedgeEvs, List.filterMap_map, ← List.filterMap_eq_map]
      exact List.filterMap_congr fun e he =>
        decodeEdge_edgeText L e (hedges e he).1 (hedges e he).2.1 (hedges e he).2.2
    refine ⟨fun a ha => ?_, ?_, ?_⟩
    · have hholds : HoldsStep (decodeDataflow L stepEvs edgeEvs) (decodedStep a (t a.disasm)) := by
        refine decodeDataflow_holdsStep edgeEvs hdec ?_ ?_ ?_ (List.mem_map_of_mem ha)
        · have hinj : Function.Injective (BitVec.toNat : BitVec 32 → ℕ) := fun _ _ =>
            BitVec.eq_of_toNat_eq
          simpa [Function.comp_def, decodedStep] using hnodup.map hinj
        · intro s hs
          obtain ⟨a, ha, rfl⟩ := List.mem_map.1 hs
          exact hlast a ha
        · intro s hs v hv
          obtain ⟨a, -, rfl⟩ := List.mem_map.1 hs
          obtain ⟨r, -, rfl⟩ := List.mem_map.1 hv
          rfl
      refine ⟨⟨hholds.present, hholds.off, hholds.rbase, hholds.when, ?_⟩, fun hutf hfits => ?_⟩
      · have hops : (decodeDataflow L stepEvs edgeEvs).recs.filter
            (fun v => v.step = a.step.toNat) = a.recs.map fun r =>
              { decodedOp r a.wide with step := a.step.toNat } := hholds.ops
        rw [hops, List.forall₂_map_right_iff]
        exact List.forall₂_same.2 fun r _ => opRecovered_decodedOp a.wide r _
      · have htext : (decodedStep a (t a.disasm)).disasm = cstr a.disasm := by
          rw [decodedStep, hsame a.disasm hutf hfits]
          by_cases hnil : cstr a.disasm = []
          · simp [hnil]
          · simp [hnil]
        rw [← htext]
        exact hholds.disasm
    · rw [decodeDataflow, hdecEdges, List.map_map]
      rfl
    · rw [decodeDataflow, hdecEdges, List.map_map, List.forall₂_map_left_iff,
        List.forall₂_map_right_iff, List.forall₂_map_right_iff]
      refine List.forall₂_same.2 fun e _ => ?_
      exact opRecovered_decodedOp none e.loc 0

/-- A vector load and a step before it, that came in the other order -/
def loadSteps : List DfStepArgs :=
  [{ step := 1, off := 7, rbase := 0x400000, when := 3,
     disasm := ascii "movups xmm0, [rbx]",
     recs := [{ kind := .memAbs, base := 53, addr := 0x7FFF0010, size := 16, valueValid := true,
                wide := true, wideOff := 1 }],
     wide := some (List.replicate 20 0xAB) },
   { step := 0, off := 0, rbase := 0x400000, when := 0,
     disasm := ascii "inc rax",
     recs := [{ kind := .reg, reg := 35, size := 8, valueValid := true, value := 41 },
       { kind := .reg, reg := 35, size := 8, isWrite := true }],
     wide := none }]

def loadEdges : List DefUseEdge :=
  [{ fromStep := 0, toStep := 1, loc := { kind := .reg, reg := 53, size := 8 } }]

theorem decodeDataflow_recovers_load : (loadSteps.map DfStepArgs.step).Nodup ∧
    ∃ js es : List (Json Empty),
      loadSteps.map (fun a =>
        compactJson.parse (asmtraceEmit "df_step" (asmtraceDfStepBody 4096 a))) = js.map some ∧
      loadEdges.map (fun e =>
        compactJson.parse (asmtraceEmit "df_edge" (asmtraceDfEdgeBody 4096 e))) = es.map some ∧
      ∀ stepEvs edgeEvs : List (Event Empty), stepEvs.map Event.body = js →
        edgeEvs.map Event.body = es →
        ∀ a ∈ loadSteps, StepRecovered a (decodeDataflow compactJson stepEvs edgeEvs) := by
  have hsized : ∀ a ∈ loadSteps, a.Sized := by
    simp only [loadSteps, DfStepArgs.Sized]
    decide
  have hedges : ∀ e ∈ loadEdges, EdgeSized e := by
    simp only [loadEdges, EdgeSized]
    decide
  obtain ⟨js, es, hjs, hes, hrec⟩ := decodeDataflow_recovers compactJson_readsCompact 4096
    loadSteps loadEdges hsized hedges (by decide +kernel) (by decide +kernel) (by decide)
    (by decide)
  exact ⟨by decide, js, es, hjs, hes, fun stepEvs edgeEvs hs he a ha =>
    ((hrec stepEvs edgeEvs hs he).1 a ha).1⟩

/-- A text that is no UTF-8, and a wide operand that its side buffer holds in part only -/
def lossyStep : DfStepArgs where
  step := 0
  off := 0
  rbase := 0
  when := 0
  disasm := [0xFF]
  recs := [{ kind := .reg, reg := 122, size := 16, valueValid := true, wide := true }]
  wide := some (List.replicate 15 0xAB)

/-- The writer replaces the one and leaves the other out. -/
theorem lossyStep_not_recovered : ∃ j,
    compactJson.parse (asmtraceEmit "df_step" (asmtraceDfStepBody 4096 lossyStep)) = some j ∧
    (decodeDataflow compactJson [⟨ascii "df_step", j, 0⟩] []).disasm ≠ [cstr lossyStep.disasm] ∧
    (decodeDataflow compactJson [⟨ascii "df_step", j, 0⟩] []).recs.map ValRec.bytes = [[]] := by
  have hescape : asmtraceEscape escCap lossyStep.disasm = escape [0xEF, 0xBF, 0xBD] := by decide
  have hsized : ∀ r ∈ lossyStep.recs, r.size < 2 ^ 16 := by
    simp only [lossyStep]
    decide
  have hdec := decodeStep_stepText compactJson lossyStep [0xEF, 0xBF, 0xBD] hsized
  refine ⟨_, parse_stepLine compactJson_readsCompact (by decide +kernel) hsized hescape rfl, ?_⟩
  simp only [decodeDataflow, List.map_cons, List.map_nil, List.filterMap_cons, List.filterMap_nil,
    hdec]
  decide

end RoundTrip

end AsmTest.Doc
