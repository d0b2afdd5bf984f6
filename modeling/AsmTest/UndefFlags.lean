import AsmTest.Lib.FreeBits

/-!
# Undefined flags in a replayed block

An instruction may leave flag bits undefined: the tracee and the replay then hold values of their
own there. `dfb_undef_flags` says which bits, from a table by instruction; `step_block` folds the
answers into the mask of the coherence check, and `finalize_step` masks the EFLAGS write records
with the answer for the one instruction.
-/

namespace AsmTest.UndefFlags

open FreeBits

section Source

def eflagCF : BitVec 64 := 0x0001
def eflagPF : BitVec 64 := 0x0004
def eflagAF : BitVec 64 := 0x0010
def eflagZF : BitVec 64 := 0x0040
def eflagSF : BitVec 64 := 0x0080
def eflagOF : BitVec 64 := 0x0800

/-- `DFB_UNDEF_ARITH_ALL` -/
def undefArithAll : BitVec 64 :=
  eflagCF ||| eflagPF ||| eflagAF ||| eflagZF ||| eflagSF ||| eflagOF

/-- TF and RF -/
def eflagsStepBits : BitVec 64 := 0x00010100

/-- CF PF AF ZF SF DF OF -/
def eflagsArithMask : BitVec 64 := 0x00000CD5

/-- The instructions the table tells apart; `other` is its default. -/
inductive X86Ins
  | and | or | xor | test
  | mul | imul | div | idiv
  | bsf | bsr
  | shl | sal | shr | sar
  | rol | ror | rcl | rcr
  | bt | bts | btr | btc
  | lzcnt | tzcnt | popcnt
  | other
deriving DecidableEq, Repr

def X86Ins.isShift : X86Ins → Bool
  | .shl | .sal | .shr | .sar => true
  | _ => false

def X86Ins.isRotate : X86Ins → Bool
  | .rol | .ror | .rcl | .rcr => true
  | _ => false

inductive OpType
  | reg
  | imm (imm : BitVec 64)
  | mem
deriving DecidableEq, Repr

/-- `cs_x86_op` -/
structure CsX86Op where
  type : OpType
  size : ℕ
deriving DecidableEq, Repr

/-- A decoded instruction: `eflags` is the metadata of the decoder, `writesEflags` whether the
operand enumerator lists a write of EFLAGS. A shift or rotate has a destination and a count, which
is an immediate or CL. -/
structure CsInsn where
  id : X86Ins
  operands : List CsX86Op
  eflags : BitVec 64
  writesEflags : Bool
  shape : id.isShift = true ∨ id.isRotate = true →
    ∃ dst cnt, operands = [dst, cnt] ∧ cnt.type ≠ .mem ∧ dst.size ∈ [1, 2, 4, 8]
  table : id ≠ .other → writesEflags = true

/-- `struct user_regs_struct` as `regs_coherent` lists it: RAX, RBX, RCX, ..., R15, RIP -/
abbrev Gp := Fin 17 → BitVec 64

def rcx : Fin 17 := 2

/-- `*width` -/
def opWidth (dst : CsX86Op) : ℕ :=
  if dst.size ≠ 0 then dst.size * 8 else 32

/-- The bits of a count the hardware applies -/
def countMask (width : ℕ) : BitVec 64 :=
  if width = 64 then 0x3F else 0x1F

/-- `dfb_shift_rotate_count`: the count and the width of the destination, or the count is not
known -/
def dfbShiftRotateCount (x : CsInsn) (gp : Option Gp) : Option (ℕ × ℕ) :=
  if x.operands.length < 2 then none
  else match x.operands.head?, x.operands.getLast? with
  | some dst, some cnt =>
    match cnt.type, gp with
    | .imm imm, _ => some ((imm &&& 0xFF).toNat, opWidth dst)
    | .reg, some r => some ((r rcx &&& 0xFF &&& countMask (opWidth dst)).toNat, opWidth dst)
    | _, _ => none
  | _, _ => none

/-- The rows of SHL, SAL, SHR and SAR -/
def shiftFlags (id : X86Ins) : Option (ℕ × ℕ) → Write 64
  | none =>
    if id = .sar then ⟨eflagCF ||| eflagSF ||| eflagZF ||| eflagPF, eflagAF ||| eflagOF⟩
    else ⟨eflagSF ||| eflagZF ||| eflagPF, eflagAF ||| eflagOF ||| eflagCF⟩
  | some (count, width) =>
    if count = 0 then ⟨0, 0⟩
    else if count = 1 then ⟨eflagCF ||| eflagOF ||| eflagSF ||| eflagZF ||| eflagPF, eflagAF⟩
    else
      let undef := eflagAF ||| eflagOF
      let defd := eflagSF ||| eflagZF ||| eflagPF ||| eflagCF
      if id ≠ .sar ∧ width ≤ count then ⟨defd &&& ~~~eflagCF, undef ||| eflagCF⟩
      else ⟨defd, undef⟩

/-- The rows of ROL, ROR, RCL and RCR -/
def rotateFlags : Option (ℕ × ℕ) → Write 64
  | none => ⟨eflagCF, eflagOF⟩
  | some (count, _) =>
    if count = 0 then ⟨0, 0⟩
    else if count = 1 then ⟨eflagCF ||| eflagOF, 0⟩
    else ⟨eflagCF, eflagOF⟩

/-- `dfb_undef_flags`: the bits left undefined, and as `written` those of `*defined_written` -/
def dfbUndefFlags (x : CsInsn) (gp : Option Gp) : Write 64 :=
  match x.id with
  | .and | .or | .xor | .test =>
    ⟨eflagCF ||| eflagOF ||| eflagSF ||| eflagZF ||| eflagPF, eflagAF⟩
  | .mul | .imul => ⟨eflagCF ||| eflagOF, eflagSF ||| eflagZF ||| eflagAF ||| eflagPF⟩
  | .div | .idiv => ⟨0, undefArithAll⟩
  | .bsf | .bsr => ⟨eflagZF, eflagCF ||| eflagOF ||| eflagSF ||| eflagAF ||| eflagPF⟩
  | .shl | .sal | .shr | .sar => shiftFlags x.id (dfbShiftRotateCount x gp)
  | .rol | .ror | .rcl | .rcr => rotateFlags (dfbShiftRotateCount x gp)
  | .bt | .bts | .btr | .btc => ⟨eflagCF, eflagOF ||| eflagSF ||| eflagAF ||| eflagPF⟩
  | .lzcnt | .tzcnt | .popcnt => ⟨undefArithAll, 0⟩
  | .other => if x.eflags ≠ 0 then ⟨undefArithAll, 0⟩ else ⟨0, 0⟩

/-- A snapshot; of memory nothing is read here. -/
structure Snap (μ : Type) where
  gp : Gp
  eflags : BitVec 64
  mem : μ

variable {ι μ : Type}

/-- `regs_coherent` -/
def regsCoherent (uc real : Snap μ) (undefMask : BitVec 64) : Bool :=
  let mask := eflagsArithMask &&& ~~~undefMask
  decide (uc.gp = real.gp) && decide (uc.eflags &&& mask = real.eflags &&& mask)

/-- The value `finalize_step` gives the EFLAGS write record of a step, if it has one: what
`gp_value` reads in the snapshot after it, less the undefined bits -/
def finalizeEflags (x : CsInsn) (gp : Gp) (after : Snap μ) : Option (BitVec 64) :=
  if x.writesEflags = true then
    some (after.eflags &&& ~~~eflagsStepBits &&& ~~~(dfbUndefFlags x (some gp)).undef)
  else none

/-- The turn of `undef_acc` in `step_block` -/
def foldUndef (undefAcc : BitVec 64) (row : Write 64) : BitVec 64 :=
  undefAcc &&& ~~~row.written ||| row.undef

end Source

section Manual

/-- What a manual lists for one instruction in one register state -/
structure FlagRow where
  reads : BitVec 64
  effect : Write 64
deriving DecidableEq, Repr

/-- The count a shift or rotate applies: the low byte of its operand, masked by the width -/
def CsInsn.hwCount (x : CsInsn) (gp : Gp) : ℕ :=
  match x.operands.head?, x.operands.getLast? with
  | some dst, some cnt =>
    match cnt.type with
    | .imm imm => (imm &&& 0xFF &&& countMask (opWidth dst)).toNat
    | .reg => (gp rcx &&& 0xFF &&& countMask (opWidth dst)).toNat
    | .mem => 0
  | _, _ => 0

def CsInsn.dstWidth (x : CsInsn) : ℕ :=
  (x.operands.head?.map opWidth).getD 32

/-- A shift by nothing touches no flag. A shift by one leaves AF undefined, a longer one OF too, and
CF when it is not SAR and shifts the whole destination out. -/
def manualShift (id : X86Ins) (count width : ℕ) : Write 64 :=
  let undef := eflagAF ||| (if count = 1 then 0 else eflagOF) |||
    (if id ≠ .sar ∧ width ≤ count then eflagCF else 0)
  if count = 0 then ⟨0, 0⟩ else ⟨undefArithAll &&& ~~~undef, undef⟩

/-- A rotate touches CF and OF, and OF is defined for one place only. -/
def manualRotate (count : ℕ) : Write 64 :=
  if count = 0 then ⟨0, 0⟩
  else if count = 1 then ⟨eflagCF ||| eflagOF, 0⟩
  else ⟨eflagCF, eflagOF⟩

/-- The rows of the manuals; `rest` is that of an instruction the table of the source does not
list. LZCNT and TZCNT define CF and ZF only. -/
def manualRow (x : CsInsn) (gp : Gp) (rest : FlagRow) : FlagRow :=
  match x.id with
  | .and | .or | .xor | .test => ⟨0, undefArithAll &&& ~~~eflagAF, eflagAF⟩
  | .mul | .imul => ⟨0, eflagCF ||| eflagOF, eflagSF ||| eflagZF ||| eflagAF ||| eflagPF⟩
  | .div | .idiv => ⟨0, 0, undefArithAll⟩
  | .bsf | .bsr => ⟨0, eflagZF, undefArithAll &&& ~~~eflagZF⟩
  | .shl | .sal | .shr | .sar => ⟨0, manualShift x.id (x.hwCount gp) x.dstWidth⟩
  | .rol | .ror => ⟨0, manualRotate (x.hwCount gp)⟩
  | .rcl | .rcr => ⟨if x.hwCount gp = 0 then 0 else eflagCF, manualRotate (x.hwCount gp)⟩
  | .bt | .bts | .btr | .btc =>
    ⟨0, eflagCF, eflagOF ||| eflagSF ||| eflagAF ||| eflagPF⟩
  | .lzcnt | .tzcnt => ⟨0, eflagCF ||| eflagZF, eflagOF ||| eflagSF ||| eflagPF ||| eflagAF⟩
  | .popcnt => ⟨0, undefArithAll, 0⟩
  | .other => rest

end Manual

section Executions

variable (ι μ : Type)

/-- A processor: an instruction takes the registers, the memory and the flags it reads to new
registers and memory and to the flags it defines. Of an instruction that the table of the source
does not list, the manual's row is given here: only the six arithmetic flags are left undefined,
and none are touched where the decoder reports no flag. -/
structure Cpu where
  decode : ι → CsInsn
  rest : ι → Gp → FlagRow
  next : ι → Gp → μ → BitVec 64 → Gp × μ
  flags : ι → Gp → μ → BitVec 64 → BitVec 64
  rest_arith : ∀ i gp, Within (rest i gp).effect.undef undefArithAll
  rest_quiet : ∀ i gp, (decode i).eflags = 0 → (rest i gp).effect = ⟨0, 0⟩

variable {ι μ} (cpu : Cpu ι μ)

def Cpu.row (i : ι) (gp : Gp) : FlagRow :=
  manualRow (cpu.decode i) gp (cpu.rest i gp)

/-- One instruction, with `c` for the flag bits it leaves undefined -/
def Cpu.exec (c : BitVec 64) (i : ι) (s : Snap μ) : Snap μ :=
  let row := cpu.row i s.gp
  let read := s.eflags &&& row.reads
  let out := cpu.next i s.gp s.mem read
  ⟨out.1, row.effect.apply s.eflags (cpu.flags i s.gp s.mem read) c, out.2⟩

/-- What is left of a block: the last snapshot, `undef_acc`, and the EFLAGS write records -/
structure Replayed (μ : Type) where
  last : Snap μ
  undefAcc : BitVec 64
  records : List (Option (BitVec 64))

/-- `step_block` over straight-line instructions, with a choice for each of them -/
def Cpu.stepBlock : (ℕ → BitVec 64) → List ι → Snap μ → BitVec 64 → Replayed μ
  | _, [], s, undefAcc => ⟨s, undefAcc, []⟩
  | c, i :: is, s, undefAcc =>
    let after := cpu.exec (c 0) i s
    let r := Cpu.stepBlock (fun n => c (n + 1)) is after
      (foldUndef undefAcc (dfbUndefFlags (cpu.decode i) (some s.gp)))
    { r with records := finalizeEflags (cpu.decode i) s.gp after :: r.records }

variable {cpu} (c : ℕ → BitVec 64) (i : ι) (is : List ι) (s : Snap μ) (acc : BitVec 64)

lemma stepBlock_records_cons : (cpu.stepBlock c (i :: is) s acc).records =
    finalizeEflags (cpu.decode i) s.gp (cpu.exec (c 0) i s) ::
      (cpu.stepBlock (fun n => c (n + 1)) is (cpu.exec (c 0) i s)
        (foldUndef acc (dfbUndefFlags (cpu.decode i) (some s.gp)))).records :=
  rfl

lemma stepBlock_last_cons : (cpu.stepBlock c (i :: is) s acc).last =
    (cpu.stepBlock (fun n => c (n + 1)) is (cpu.exec (c 0) i s)
      (foldUndef acc (dfbUndefFlags (cpu.decode i) (some s.gp)))).last :=
  rfl

lemma stepBlock_undefAcc_cons : (cpu.stepBlock c (i :: is) s acc).undefAcc =
    (cpu.stepBlock (fun n => c (n + 1)) is (cpu.exec (c 0) i s)
      (foldUndef acc (dfbUndefFlags (cpu.decode i) (some s.gp)))).undefAcc :=
  rfl

variable (cpu)

/-- Two executions of a block agree under its mask, and so do their EFLAGS records. -/
def Replayed.Same (r r' : Replayed μ) : Prop :=
  regsCoherent r.last r'.last r.undefAcc = true ∧ r.records = r'.records

/-- No undefined bit shows, whatever two executions choose for those they come to. -/
def Cpu.NoLeak (is : List ι) (s : Snap μ) : Prop :=
  ∀ c d, (cpu.stepBlock c is s 0).Same (cpu.stepBlock d is s 0)

end Executions

section Conditions

/-- The low byte of an immediate count, zero for another -/
def CsInsn.immCount (x : CsInsn) : BitVec 64 :=
  match x.operands.getLast?.map CsX86Op.type with
  | some (.imm imm) => imm &&& 0xFF
  | _ => 0

/-- A shift or rotate by an immediate that the hardware masks to nothing: it keeps all flags, and
the table has these undefined. -/
def CsInsn.overBits (x : CsInsn) (gp : Gp) : BitVec 64 :=
  if x.immCount ≠ 0 ∧ x.hwCount gp = 0 then
    match x.id with
    | .shl | .sal | .shr => eflagAF ||| eflagOF ||| eflagCF
    | .sar => eflagAF ||| eflagOF
    | .rol | .ror | .rcl | .rcr => eflagOF
    | _ => 0
  else 0

variable {ι μ : Type} (cpu : Cpu ι μ)

/-- `t` are the bits that are undefined before the instruction. -/
structure Cpu.StepOk (i : ι) (gp : Gp) (t : BitVec 64) : Prop where
  /-- It reads none of them. -/
  reads : (cpu.row i gp).reads &&& t = 0#64
  /-- If it has an EFLAGS record or the default row, it keeps none of them. -/
  rewrites : (cpu.decode i).writesEflags = true ∨
    (cpu.decode i).id = .other ∧ (cpu.decode i).eflags ≠ 0 →
      Within t ((cpu.row i gp).effect.touched ||| (cpu.decode i).overBits gp)
  /-- It is not LZCNT or TZCNT, nor one that the table does not list and that leaves a bit
  undefined. -/
  listed : (cpu.decode i).id = .lzcnt ∨ (cpu.decode i).id = .tzcnt ∨ (cpu.decode i).id = .other →
    (cpu.row i gp).effect.undef = 0#64

/-- A condition on every step of the execution that chooses zeros; the last argument is the set of
undefined bits. -/
def Cpu.Along (P : ι → Gp → BitVec 64 → Prop) : List ι → Snap μ → BitVec 64 → Prop
  | [], _, _ => True
  | i :: is, s, t =>
    P i s.gp t ∧ Cpu.Along P is (cpu.exec 0#64 i s) ((cpu.row i s.gp).effect.free t)

/-- No instruction reads a bit that is undefined. -/
def Cpu.ReadsDefined (is : List ι) (s : Snap μ) : Prop :=
  cpu.Along (fun i gp t => (cpu.row i gp).reads &&& t = 0#64) is s 0#64

end Conditions

section Table

lemma toNat_countMask (v : BitVec 64) (width : ℕ) :
    (v &&& countMask width).toNat = v.toNat % (if width = 64 then 64 else 32) := by
  unfold countMask
  split
  · rw [BitVec.toNat_and]
    exact Nat.and_two_pow_sub_one_eq_mod v.toNat 6
  · rw [BitVec.toNat_and]
    exact Nat.and_two_pow_sub_one_eq_mod v.toNat 5

/-- What the count of the source has to do with the applied one -/
structure CountSpec (x : CsInsn) (gp : Gp) (n : ℕ) : Prop where
  code : dfbShiftRotateCount x (some gp) = some (n, x.dstWidth)
  width : 8 ≤ x.dstWidth
  le : x.hwCount gp ≤ n
  one : n = 1 → x.hwCount gp = 1
  masked : x.immCount ≠ 0 ∧ x.hwCount gp = 0 ↔ x.hwCount gp = 0 ∧ n ≠ 0
  big : x.hwCount gp = 0 → n ≠ 0 → x.dstWidth ≤ n

lemma countSpec (x : CsInsn) (gp : Gp) (h : x.id.isShift = true ∨ x.id.isRotate = true) :
    ∃ n, CountSpec x gp n := by
  obtain ⟨dst, cnt, hops, hmem, hsize⟩ := x.shape h
  have hwidth : x.dstWidth = opWidth dst := by rw [CsInsn.dstWidth, hops]; rfl
  have hdst : opWidth dst = 8 ∨ opWidth dst = 16 ∨ opWidth dst = 32 ∨ opWidth dst = 64 := by
    unfold opWidth
    simp only [List.mem_cons, List.not_mem_nil, or_false] at hsize
    rcases hsize with h | h | h | h <;> rw [h] <;> decide
  cases htype : cnt.type with
  | mem => exact absurd htype hmem
  | reg =>
    have hhw : x.hwCount gp = (gp rcx &&& 0xFF &&& countMask (opWidth dst)).toNat := by
      rw [CsInsn.hwCount, hops]
      simp only [List.head?_cons, List.getLast?_cons_cons, List.getLast?_singleton, htype]
    have himm : x.immCount = 0 := by
      rw [CsInsn.immCount, hops]
      simp only [List.getLast?_cons_cons, List.getLast?_singleton, Option.map_some, htype]
    refine ⟨x.hwCount gp, ?_, by omega, le_rfl, id, ?_, fun h0 hn => absurd h0 hn⟩
    · rw [dfbShiftRotateCount, hops, hhw, hwidth]
      simp [htype]
    · rw [himm]
      exact ⟨fun h => absurd rfl h.1, fun h => absurd h.1 h.2⟩
  | imm v =>
    have hhw : x.hwCount gp = (v &&& 0xFF &&& countMask (opWidth dst)).toNat := by
      rw [CsInsn.hwCount, hops]
      simp only [List.head?_cons, List.getLast?_cons_cons, List.getLast?_singleton, htype]
    have himm : x.immCount = v &&& 0xFF := by
      rw [CsInsn.immCount, hops]
      simp only [List.getLast?_cons_cons, List.getLast?_singleton, Option.map_some, htype]
    have hzero : x.immCount = 0 ↔ (v &&& 0xFF).toNat = 0 := by
      rw [himm, ← BitVec.toNat_inj]
      rfl
    rw [toNat_countMask] at hhw
    refine ⟨(v &&& 0xFF).toNat, ?_, by omega, ?_, ?_, ?_, ?_⟩
    · rw [dfbShiftRotateCount, hops, hwidth]
      simp [htype]
    · rw [hhw]
      exact Nat.mod_le _ _
    · intro h1
      rw [hhw, h1]
      split <;> rfl
    · rw [Ne, hzero]
      exact and_comm
    · intro h0 hn
      rw [hhw] at h0
      rw [hwidth]
      split at h0 <;> omega

/-- What the row of the source has to do with that of the manual -/
structure Covers (row manual : Write 64) (extra : BitVec 64) : Prop where
  undef : Within manual.undef row.undef
  taken : Within extra row.undef
  hidden : Within row.undef (manual.touched ||| extra)

lemma shift_covers (x : CsInsn) (gp : Gp) (h : x.id.isShift = true) :
    Covers (shiftFlags x.id (dfbShiftRotateCount x (some gp)))
      (manualShift x.id (x.hwCount gp) x.dstWidth) (x.overBits gp) := by
  obtain ⟨n, spec⟩ := countSpec x gp (.inl h)
  have hle := spec.le
  have hone := spec.one
  have hbig := spec.big
  have hwidth := spec.width
  have hover : x.overBits gp = if x.hwCount gp = 0 ∧ n ≠ 0 then
      (if x.id = .sar then eflagAF ||| eflagOF else eflagAF ||| eflagOF ||| eflagCF) else 0 := by
    rw [CsInsn.overBits]
    simp only [spec.masked]
    revert h
    cases x.id <;> simp [X86Ins.isShift]
  rw [spec.code, hover]
  clear hover spec h
  generalize x.hwCount gp = k at hle hone hbig ⊢
  generalize x.dstWidth = width at hbig hwidth ⊢
  unfold manualShift shiftFlags
  by_cases hsar : x.id = .sar
  · simp only [hsar, ne_eq, not_true_eq_false, false_and, if_false, if_true]
    split_ifs <;> first | omega | exact ⟨by decide, by decide, by decide⟩
  · simp only [hsar, ne_eq, not_false_eq_true, true_and, if_false]
    split_ifs <;> first | omega | exact ⟨by decide, by decide, by decide⟩

lemma rotate_covers (x : CsInsn) (gp : Gp) (h : x.id.isRotate = true) :
    Covers (rotateFlags (dfbShiftRotateCount x (some gp)))
      (manualRotate (x.hwCount gp)) (x.overBits gp) := by
  obtain ⟨n, spec⟩ := countSpec x gp (.inr h)
  have hle := spec.le
  have hone := spec.one
  have hover : x.overBits gp = if x.hwCount gp = 0 ∧ n ≠ 0 then eflagOF else 0 := by
    rw [CsInsn.overBits]
    simp only [spec.masked]
    revert h
    cases x.id <;> simp [X86Ins.isRotate]
  rw [spec.code, hover]
  clear hover spec h
  generalize x.hwCount gp = k at hle hone ⊢
  unfold manualRotate rotateFlags
  dsimp only
  split_ifs <;> first | omega | exact ⟨by decide, by decide, by decide⟩

/-- The rows of the table cover those of the manual, LZCNT and TZCNT apart. -/
lemma table_covers (x : CsInsn) (gp : Gp) (rest : FlagRow) (hlz : x.id ≠ .lzcnt)
    (htz : x.id ≠ .tzcnt) (hother : x.id ≠ .other) :
    Covers (dfbUndefFlags x (some gp)) (manualRow x gp rest).effect (x.overBits gp) := by
  have hshift := shift_covers x gp
  have hrotate := rotate_covers x gp
  have hover : x.id.isShift = false → x.id.isRotate = false → x.overBits gp = 0 := by
    rw [CsInsn.overBits]
    cases x.id <;> simp [X86Ins.isShift, X86Ins.isRotate]
  revert hshift hrotate hover
  unfold dfbUndefFlags manualRow
  cases hid : x.id with
  | lzcnt => exact absurd hid hlz
  | tzcnt => exact absurd hid htz
  | other => exact absurd hid hother
  | shl | sal | shr | sar =>
    intro hshift _ _
    exact hshift rfl
  | rol | ror | rcl | rcr =>
    intro _ hrotate _
    exact hrotate rfl
  | _ =>
    intro _ _ hover
    rw [hover rfl rfl]
    dsimp only
    exact ⟨by decide, by decide, by decide⟩

/-- Without a row for it, nothing is taken for undefined. -/
lemma unlisted_undef (x : CsInsn) (gp : Option Gp)
    (h : x.id = .lzcnt ∨ x.id = .tzcnt ∨ x.id = .other) : (dfbUndefFlags x gp).undef = 0#64 := by
  unfold dfbUndefFlags
  rcases h with h | h | h
  · rw [h]
    rfl
  · rw [h]
    rfl
  · rw [h]
    dsimp only
    split <;> rfl

lemma overBits_unlisted (x : CsInsn) (gp : Gp)
    (h : x.id = .lzcnt ∨ x.id = .tzcnt ∨ x.id = .other) : x.overBits gp = 0#64 := by
  unfold CsInsn.overBits
  rcases h with h | h | h <;> rw [h] <;> split <;> rfl

/-- The undefined bits of every row are arithmetic flags. -/
lemma row_arith {ι μ : Type} (cpu : Cpu ι μ) (i : ι) (gp : Gp) :
    Within (cpu.row i gp).effect.undef undefArithAll := by
  have hrest := cpu.rest_arith i gp
  unfold Cpu.row manualRow manualShift manualRotate
  cases (cpu.decode i).id with
  | other => exact hrest
  | shl | sal | shr | sar =>
    dsimp only
    split_ifs <;> decide
  | rol | ror | rcl | rcr =>
    dsimp only
    split_ifs <;> decide
  | _ =>
    dsimp only
    decide

end Table

section Steps

variable {ι μ : Type} {cpu : Cpu ι μ} {i : ι} {t acc : BitVec 64} {s s' : Snap μ}

/-- Two executions agree on the registers and the memory, and on the flags that are defined. -/
structure Twin (t : BitVec 64) (s s' : Snap μ) : Prop where
  gp : s.gp = s'.gp
  mem : s.mem = s'.mem
  eflags : AgreeOff t s.eflags s'.eflags

lemma Twin.exec (h : Twin t s s') (hreads : (cpu.row i s.gp).reads &&& t = 0#64)
    (c d : BitVec 64) :
    Twin ((cpu.row i s.gp).effect.free t) (cpu.exec c i s) (cpu.exec d i s') := by
  have hread : s.eflags &&& (cpu.row i s.gp).reads = s'.eflags &&& (cpu.row i s.gp).reads :=
    h.eflags.and_eq hreads
  unfold Cpu.exec
  dsimp only
  rw [← h.gp, ← h.mem, ← hread]
  exact ⟨rfl, rfl, h.eflags.apply⟩

lemma apart_exec (h : Apart t s.eflags s'.eflags) (htwin : Twin t s s')
    (hreads : (cpu.row i s.gp).reads &&& t = 0#64) :
    Apart ((cpu.row i s.gp).effect.free t) (cpu.exec 0#64 i s).eflags
      (cpu.exec (BitVec.allOnes 64) i s').eflags := by
  have hread : s.eflags &&& (cpu.row i s.gp).reads = s'.eflags &&& (cpu.row i s.gp).reads :=
    htwin.eflags.and_eq hreads
  unfold Cpu.exec
  dsimp only
  rw [← htwin.gp, ← htwin.mem, ← hread]
  exact h.apply

lemma covers_of_table (cpu : Cpu ι μ) (i : ι) (gp : Gp) (hlisted :
    ¬((cpu.decode i).id = .lzcnt ∨ (cpu.decode i).id = .tzcnt ∨ (cpu.decode i).id = .other)) :
    Covers (dfbUndefFlags (cpu.decode i) (some gp)) (cpu.row i gp).effect
      ((cpu.decode i).overBits gp) := by
  rw [not_or, not_or] at hlisted
  exact table_covers _ gp _ hlisted.1 hlisted.2.1 hlisted.2.2

/-- A bit the table has undefined is one the instruction touches or shifts by nothing. -/
lemma undef_hidden (cpu : Cpu ι μ) (i : ι) (gp : Gp) :
    Within (dfbUndefFlags (cpu.decode i) (some gp)).undef
      ((cpu.row i gp).effect.touched ||| (cpu.decode i).overBits gp) := by
  by_cases hid : (cpu.decode i).id = .lzcnt ∨ (cpu.decode i).id = .tzcnt ∨
      (cpu.decode i).id = .other
  · rw [unlisted_undef _ _ hid]
    exact within_zero _
  · exact (covers_of_table cpu i gp hid).hidden

/-- Where a step is as it should be, the table has every bit that is left undefined. -/
lemma Cpu.StepOk.undef (h : cpu.StepOk i s.gp t) :
    Within (cpu.row i s.gp).effect.undef (dfbUndefFlags (cpu.decode i) (some s.gp)).undef := by
  by_cases hid : (cpu.decode i).id = .lzcnt ∨ (cpu.decode i).id = .tzcnt ∨
      (cpu.decode i).id = .other
  · rw [h.listed hid]
    exact within_zero _
  · exact (covers_of_table cpu i s.gp hid).undef

lemma over_undef (cpu : Cpu ι μ) (i : ι) (gp : Gp) :
    Within ((cpu.decode i).overBits gp) (dfbUndefFlags (cpu.decode i) (some gp)).undef := by
  by_cases hid : (cpu.decode i).id = .lzcnt ∨ (cpu.decode i).id = .tzcnt ∨
      (cpu.decode i).id = .other
  · rw [overBits_unlisted _ _ hid]
    exact within_zero _
  · exact (covers_of_table cpu i gp hid).taken

/-- An instruction with an EFLAGS record or the default row keeps no undefined bit that the table
does not have. -/
lemma Cpu.StepOk.kept (h : cpu.StepOk i s.gp t) (hrec : (cpu.decode i).writesEflags = true ∨
    (cpu.decode i).id = .other ∧ (cpu.decode i).eflags ≠ 0) :
    Within (t &&& ~~~(cpu.row i s.gp).effect.touched)
      (dfbUndefFlags (cpu.decode i) (some s.gp)).undef :=
  within_and_not (h.rewrites hrec) (over_undef cpu i s.gp)

lemma Cpu.StepOk.record (h : cpu.StepOk i s.gp t)
    (hrec : (cpu.decode i).writesEflags = true) :
    Within ((cpu.row i s.gp).effect.free t) (dfbUndefFlags (cpu.decode i) (some s.gp)).undef :=
  free_within.2 ⟨h.kept (.inl hrec), h.undef⟩

/-- `undef_acc` goes on covering the undefined bits. -/
lemma Cpu.StepOk.tracks (h : cpu.StepOk i s.gp t) (hacc : Within t acc) :
    Within ((cpu.row i s.gp).effect.free t)
      (foldUndef acc (dfbUndefFlags (cpu.decode i) (some s.gp))) := by
  apply hacc.track h.undef
  by_cases hrec : (cpu.decode i).writesEflags = true ∨
      (cpu.decode i).id = .other ∧ (cpu.decode i).eflags ≠ 0
  · exact (h.kept hrec).and_left
  · -- such an instruction is not in the table and its default row is empty
    rw [not_or, not_and, not_not] at hrec
    have hother : (cpu.decode i).id = .other := by
      by_contra hne
      exact hrec.1 ((cpu.decode i).table hne)
    have hrow : (dfbUndefFlags (cpu.decode i) (some s.gp)).written = 0#64 := by
      unfold dfbUndefFlags
      rw [hother]
      dsimp only
      rw [if_neg (not_not.2 (hrec.2 hother))]
      rfl
    rw [hrow, BitVec.and_zero]
    exact within_zero _

end Steps

section Runs

variable {ι μ : Type} {cpu : Cpu ι μ} {t acc : BitVec 64}

lemma along_take {P : ι → Gp → BitVec 64 → Prop} {is : List ι} {s : Snap μ}
    (h : cpu.Along P is s t) (k : ℕ) : cpu.Along P (is.take k) s t := by
  induction is generalizing s t k with
  | nil => rw [List.take_nil]; exact h
  | cons i is ih =>
    cases k with
    | zero => exact trivial
    | succ k => exact ⟨h.1, ih h.2 k⟩

lemma regsCoherent_iff {s s' : Snap μ} {mask : BitVec 64} :
    regsCoherent s s' mask = true ↔
      s.gp = s'.gp ∧ AgreeOff (~~~eflagsArithMask ||| mask) s.eflags s'.eflags := by
  unfold regsCoherent
  dsimp only
  rw [Bool.and_eq_true, decide_eq_true_iff, decide_eq_true_iff, agreeOff_not_or]

/-- What is left of two executions is the same under the mask they both end with. -/
structure Replayed.Masked (r r' : Replayed μ) : Prop where
  gp : r.last.gp = r'.last.gp
  eflags : AgreeOff r.undefAcc r.last.eflags r'.last.eflags
  undefAcc : r.undefAcc = r'.undefAcc
  records : r.records = r'.records

lemma finalizeEflags_eq {i : ι} {gp : Gp} {s s' : Snap μ} {free : BitVec 64} (h : Twin free s s')
    (hfree : (cpu.decode i).writesEflags = true →
      Within free (dfbUndefFlags (cpu.decode i) (some gp)).undef) :
    finalizeEflags (cpu.decode i) gp s = finalizeEflags (cpu.decode i) gp s' := by
  unfold finalizeEflags
  by_cases hrec : (cpu.decode i).writesEflags = true
  · have hmask := h.eflags.mono ((hfree hrec).trans (within_or_right eflagsStepBits _))
    rw [if_pos hrec, if_pos hrec, agreeOff_or.1 hmask]
  · rw [if_neg hrec, if_neg hrec]

/-- Where every step is as it should be, every execution is masked against that of the zeros. -/
lemma run_masked {is : List ι} {z s : Snap μ} (h : cpu.Along cpu.StepOk is z t)
    (htwin : Twin t z s) (hacc : Within t acc) (d : ℕ → BitVec 64) :
    (cpu.stepBlock (fun _ => 0#64) is z acc).Masked (cpu.stepBlock d is s acc) := by
  induction is generalizing z s t acc d with
  | nil => exact ⟨htwin.gp, htwin.eflags.mono hacc, rfl, rfl⟩
  | cons i is ih =>
    obtain ⟨hok, hrest⟩ := h
    have hnext := htwin.exec hok.reads 0#64 (d 0)
    have hrun := ih hrest hnext (hok.tracks hacc) (fun n => d (n + 1))
    have hrec := finalizeEflags_eq hnext hok.record
    unfold Cpu.stepBlock
    dsimp only
    rw [← htwin.gp]
    exact ⟨hrun.gp, hrun.eflags, hrun.undefAcc, congrArg₂ List.cons hrec hrun.records⟩

lemma Replayed.Masked.same {r a b : Replayed μ} (ha : r.Masked a) (hb : r.Masked b) :
    a.Same b := by
  refine ⟨?_, ha.records.symm.trans hb.records⟩
  have hflags : AgreeOff a.undefAcc a.last.eflags b.last.eflags := by
    rw [← ha.undefAcc]
    exact ha.eflags.symm.trans hb.eflags
  rw [regsCoherent_iff]
  exact ⟨ha.gp.symm.trans hb.gp, hflags.mono (within_or_right _ _)⟩

lemma free_arith (cpu : Cpu ι μ) (i : ι) (gp : Gp) (ht : Within t undefArithAll) :
    Within ((cpu.row i gp).effect.free t) undefArithAll :=
  free_within.2 ⟨ht.and_left, row_arith cpu i gp⟩

variable {i : ι} {z s : Snap μ} {free : BitVec 64}

/-- The coherence check passes an execution of zeros and one of ones only if its mask has every
undefined bit. -/
lemma within_of_coherent {mask : BitVec 64} (hapart : Apart free z.eflags s.eflags)
    (harith : Within free undefArithAll) (h : regsCoherent z s mask = true) :
    Within free mask := by
  have hmask := hapart.within (regsCoherent_iff.1 h).2
  apply hmask.of_or
  rw [BitVec.not_not]
  exact harith.trans (by decide)

/-- Their EFLAGS records are equal only if the table has every bit that is undefined then. -/
lemma within_of_record {gp : Gp} (hapart : Apart free z.eflags s.eflags)
    (harith : Within free undefArithAll) (hrec : (cpu.decode i).writesEflags = true)
    (h : finalizeEflags (cpu.decode i) gp z = finalizeEflags (cpu.decode i) gp s) :
    Within free (dfbUndefFlags (cpu.decode i) (some gp)).undef := by
  unfold finalizeEflags at h
  rw [if_pos hrec, if_pos hrec, Option.some_inj] at h
  have hmask := hapart.within (agreeOff_or.2 h)
  exact hmask.of_or (harith.trans (by decide))

/-- With the default row of an instruction that touches flags, the mask has no arithmetic flag. -/
lemma eq_zero_of_default {gp : Gp} (harith : Within free undefArithAll)
    (hother : (cpu.decode i).id = .other) (htouch : (cpu.decode i).eflags ≠ 0)
    (h : Within free (foldUndef acc (dfbUndefFlags (cpu.decode i) (some gp)))) :
    free = 0#64 := by
  have hrow : dfbUndefFlags (cpu.decode i) (some gp) = ⟨undefArithAll, 0#64⟩ := by
    unfold dfbUndefFlags
    rw [hother]
    dsimp only
    rw [if_pos htouch]
    rfl
  rw [hrow, foldUndef, BitVec.or_zero] at h
  exact harith.eq_zero h

/-- The step of the converse: what one instruction must meet so that nothing shows after it -/
lemma stepOk_of_same (htwin : Twin t z s) (hapart : Apart t z.eflags s.eflags)
    (harith : Within t undefArithAll) (hreads : (cpu.row i z.gp).reads &&& t = 0#64)
    (h : (cpu.stepBlock (fun _ => 0#64) [i] z acc).Same
      (cpu.stepBlock (fun _ => BitVec.allOnes 64) [i] s acc)) : cpu.StepOk i z.gp t := by
  obtain ⟨hcoh, hrecs⟩ := h
  rw [stepBlock_records_cons, stepBlock_records_cons, ← htwin.gp] at hrecs
  have hnext := apart_exec hapart htwin hreads
  have hfree := free_arith cpu i z.gp harith
  have hacc := within_of_coherent hnext hfree hcoh
  have hrec := fun hw =>
    free_within.1 (within_of_record hnext hfree hw (List.cons_eq_cons.1 hrecs).1)
  have hdefault := fun hother htouch =>
    free_within.1 (within_zero_right.2 (eq_zero_of_default hfree hother htouch hacc))
  refine ⟨hreads, ?_, ?_⟩
  · rintro (hw | ⟨hother, htouch⟩)
    · exact within_of_and_not ((hrec hw).1.trans (undef_hidden cpu i z.gp))
    · exact within_of_and_not ((hdefault hother htouch).1.trans (within_zero _))
  · intro hid
    by_cases hw : (cpu.decode i).writesEflags = true
    · have hundef := (hrec hw).2
      rw [unlisted_undef _ _ hid] at hundef
      exact within_zero_right.1 hundef
    · have hother : (cpu.decode i).id = .other := by
        by_contra hne
        exact hw ((cpu.decode i).table hne)
      by_cases htouch : (cpu.decode i).eflags = 0
      · unfold Cpu.row manualRow
        rw [hother]
        dsimp only
        rw [cpu.rest_quiet i z.gp htouch]
        rfl
      · exact within_zero_right.1 (hdefault hother htouch).2

/-- Where no undefined bit is read and nothing shows at any point of the two executions that choose
zeros and ones, every step is as it should be. -/
lemma along_of_same {is : List ι} (hreads : cpu.Along
      (fun i gp t => (cpu.row i gp).reads &&& t = 0#64) is z t)
    (htwin : Twin t z s) (hapart : Apart t z.eflags s.eflags) (harith : Within t undefArithAll)
    (h : ∀ k, (cpu.stepBlock (fun _ => 0#64) (is.take k) z acc).Same
      (cpu.stepBlock (fun _ => BitVec.allOnes 64) (is.take k) s acc)) :
    cpu.Along cpu.StepOk is z t := by
  induction is generalizing z s t acc with
  | nil => exact trivial
  | cons i is ih =>
    obtain ⟨hread, hrest⟩ := hreads
    refine ⟨stepOk_of_same htwin hapart harith hread (h 1), ?_⟩
    apply ih hrest (htwin.exec hread _ _) (apart_exec hapart htwin hread)
      (free_arith cpu i z.gp harith)
    intro k
    obtain ⟨hcoh, hrecs⟩ := h (k + 1)
    rw [List.take_succ_cons] at hcoh hrecs
    rw [stepBlock_records_cons, stepBlock_records_cons, ← htwin.gp] at hrecs
    rw [stepBlock_last_cons, stepBlock_last_cons, stepBlock_undefAcc_cons, ← htwin.gp] at hcoh
    exact ⟨hcoh, (List.cons_eq_cons.1 hrecs).2⟩

/-- No undefined flag bit shows in a block or a part of it, if every instruction reads none, has its
undefined bits in the table, and keeps none of an earlier one where it has an EFLAGS record or the
default row. Of blocks that read none, these are all. -/
theorem undef_flags_contained (cpu : Cpu ι μ) (is : List ι) (s : Snap μ) :
    (cpu.Along cpu.StepOk is s 0#64 → ∀ k, cpu.NoLeak (is.take k) s) ∧
      (cpu.ReadsDefined is s → (∀ k, cpu.NoLeak (is.take k) s) →
        cpu.Along cpu.StepOk is s 0#64) := by
  have htwin : Twin 0#64 s s := ⟨rfl, rfl, agreeOff_refl _ _⟩
  constructor
  · intro h k c d
    have hrun := run_masked (along_take h k) htwin (within_zero 0#64)
    exact (hrun c).same (hrun d)
  · intro hreads h
    exact along_of_same hreads htwin (apart_zero _ _) (within_zero _) fun k => h k _ _

end Runs

section Divide

/-- `div rcx` and `inc rax` -/
inductive DivInc
  | divRcx
  | incRax
deriving DecidableEq, Repr

def DivInc.decode : DivInc → CsInsn
  | .divRcx => ⟨.div, [⟨.reg, 8⟩], 0x3F, true, fun h => absurd h (by decide), fun _ => rfl⟩
  | .incRax => ⟨.other, [⟨.reg, 8⟩], 0x3D, true, fun h => absurd h (by decide), fun _ => rfl⟩

/-- INC defines the arithmetic flags except CF, which it keeps. -/
def DivInc.rest : DivInc → FlagRow
  | .divRcx => ⟨0, 0, undefArithAll⟩
  | .incRax => ⟨0, undefArithAll &&& ~~~eflagCF, 0⟩

/-- The registers after an instruction of three bytes; RAX, RCX, RDX and RIP are the registers 0, 2,
3 and 16. -/
def DivInc.next (i : DivInc) (gp : Gp) : Gp :=
  let gp' := Function.update gp 16 (gp 16 + 3)
  match i with
  | .divRcx =>
    let dividend := (gp 3).toNat * 2 ^ 64 + (gp 0).toNat
    Function.update (Function.update gp' 0 (BitVec.ofNat 64 (dividend / (gp rcx).toNat)))
      3 (BitVec.ofNat 64 (dividend % (gp rcx).toNat))
  | .incRax => Function.update gp' 0 (gp 0 + 1)

/-- The flags of `inc rax` -/
def incFlags (rax : BitVec 64) : BitVec 64 :=
  let r := rax + 1
  (if r = 0 then eflagZF else 0) ||| (if r.msb then eflagSF else 0) |||
    (if r.msb && !rax.msb then eflagOF else 0) ||| (if r &&& 0xF = 0 then eflagAF else 0) |||
      (if ((List.range 8).filter r.getLsbD).length % 2 = 0 then eflagPF else 0)

def divInc : Cpu DivInc Unit where
  decode := DivInc.decode
  rest i _ := i.rest
  next i gp _ _ := (i.next gp, ())
  flags _ gp _ _ := incFlags (gp 0)
  rest_arith i _ := by cases i <;> decide
  rest_quiet i _ := by cases i <;> decide

/-- RAX is 6, RCX is 3 and RDX is 0. -/
def divIncStart : Snap Unit :=
  ⟨fun r => if r = 0 then 6 else if r = rcx then 3 else if r = 16 then 0x401000 else 0, 0x202, ()⟩

example : divInc.Along divInc.StepOk [.incRax, .divRcx, .divRcx] divIncStart 0#64 :=
  ⟨⟨by decide, by decide, by decide⟩, ⟨by decide, by decide, by decide⟩,
    ⟨by decide, by decide, by decide⟩, trivial⟩

/-- After `div rcx` CF is undefined, `inc rax` keeps it, and both the mask and the record take it
for defined. -/
theorem undef_flags_leak_carry :
    (let zeros := divInc.stepBlock (fun _ => 0#64) [.divRcx, .incRax] divIncStart 0
     let ones := divInc.stepBlock (fun _ => BitVec.allOnes 64) [.divRcx, .incRax] divIncStart 0
     regsCoherent zeros.last ones.last zeros.undefAcc = false ∧ zeros.records ≠ ones.records) ∧
      ¬divInc.NoLeak [.divRcx, .incRax] divIncStart := by
  have hleak : regsCoherent
      (divInc.stepBlock (fun _ => 0#64) [.divRcx, .incRax] divIncStart 0).last
      (divInc.stepBlock (fun _ => BitVec.allOnes 64) [.divRcx, .incRax] divIncStart 0).last
      (divInc.stepBlock (fun _ => 0#64) [.divRcx, .incRax] divIncStart 0).undefAcc = false := by
    decide +kernel
  refine ⟨⟨hleak, by decide +kernel⟩, fun h => ?_⟩
  have hsame := (h (fun _ => 0#64) (fun _ => BitVec.allOnes 64)).1
  rw [hleak] at hsame
  exact Bool.false_ne_true hsame

end Divide

end AsmTest.UndefFlags
