import AsmTest.EmuEntry

/-!
# Coverage-guided inputs and mutants (src/fuzz.c)

Inputs of a routine are drawn, and kept when they reach a block that none before them reached; and
a set of inputs is measured by the one-bit mutants of a routine it tells from the routine itself.
Both rest on the premise of differential testing, that a run is a function of the routine and its
argument.
-/

namespace AsmTest.Emulator

open Hwtrace (Trace Event emit emitAll)
open Selection (rngU64)

/-- `FUZZ_INSN_CAP` -/
def fuzzInsnCap : ℕ := 100000

section Cover

/-- `asmtest_rng_range`; a `long` is its word. -/
def rngRange (rng lo hi : BitVec 64) : BitVec 64 × BitVec 64 :=
  if hi.sle lo then (rng, lo)
  else
    let span := hi - lo + 1
    let (rng, z) := rngU64 rng
    if span = 0 then (rng, z) else (rng, lo + z % span)

def clamp (lo hi x : BitVec 64) : BitVec 64 :=
  let x := if x.slt lo then lo else x
  if hi.slt x then hi else x

/-- A fresh draw, or a kept input with one bit flipped or a small number added -/
def nextInput (rng lo hi : BitVec 64) (corpus : List (BitVec 64)) : BitVec 64 × BitVec 64 :=
  if corpus.length = 0 then rngRange rng lo hi
  else
    let (rng, coin) := rngU64 rng
    if coin &&& 1 ≠ 0 then rngRange rng lo hi
    else
      let (rng, z) := rngU64 rng
      let base := corpus.getD (z.toNat % corpus.length) 0
      let (rng, coin) := rngU64 rng
      if coin &&& 1 ≠ 0 then
        let (rng, z) := rngU64 rng
        (rng, clamp lo hi (base ^^^ (1#64 <<< (z.toNat % 62))))
      else
        let (rng, d) := rngRange rng (-4) 4
        (rng, clamp lo hi (base + d))

def blocksLen (t : Trace) : ℕ := (t.blocks.map List.length).getD 0

structure FuzzState (U : Type) where
  rng : BitVec 64
  corpus : List (BitVec 64)
  e : Emu U
  uni : Trace

structure EmuFuzzStat where
  blocksReached : ℕ
  corpusLen : ℕ
  iterations : ℕ
  deriving DecidableEq

variable {U C : Type} (X : Unicorn U C)

def fuzzStep (code : List UInt8) (lo hi : BitVec 64) (s : FuzzState U) : FuzzState U :=
  let (rng, x) := nextInput s.rng lo hi s.corpus
  let r := emuCallTraced X s.e code [x] fuzzInsnCap (some s.uni)
  let uni := r.2.1.getD s.uni
  { rng := rng, e := r.2.2, uni := uni
    -- an input is kept when its run added a block
    corpus := if blocksLen s.uni < blocksLen uni then s.corpus ++ [x] else s.corpus }

def fuzzLoop (code : List UInt8) (lo hi : BitVec 64) : ℕ → FuzzState U → FuzzState U
  | 0, s => s
  | n + 1, s => fuzzLoop code lo hi n (fuzzStep X code lo hi s)

def emuFuzzCover1 (e : Emu U) (code : List UInt8) (lo hi : BitVec 64) (iters : ℕ)
    (seed : BitVec 64) (uni : Trace) : Option (EmuFuzzStat × Trace × Emu U) :=
  if uni.blocks.isNone ∨ hi.slt lo then none
  else
    let s := fuzzLoop X code lo hi iters ⟨seed, [], e, uni⟩
    some (⟨blocksLen s.uni, s.corpus.length, iters⟩, s.uni, { s.e with fuzzCorpus := s.corpus })

/-- Inputs run one after another into one trace -/
def coverAll (code : List UInt8) (e : Emu U) (t : Trace) : List (BitVec 64) → Trace
  | [] => t
  | x :: xs =>
    let r := emuCallTraced X e code [x] fuzzInsnCap (some t)
    coverAll code r.2.2 (r.2.1.getD t) xs

/-- The premise: on the handles that occur, what a run reports to the trace is a function of its
argument. -/
structure Repeatable (I : Emu U → Prop) (code : List UInt8) (events : BitVec 64 → List Event) :
    Prop where
  trace : ∀ e, I e → ∀ x t,
    (emuCallTraced X e code [x] fuzzInsnCap (some t)).2.1 = some (emitAll t (events x))
  keep : ∀ e, I e → ∀ x t, I (emuCallTraced X e code [x] fuzzInsnCap (some t)).2.2

end Cover

section Blocks

/-- The blocks of a trace and the room for them -/
def blockSide (t : Trace) : Option (List ℕ) × ℕ := (t.blocks, t.blocksCap)

def addBlock (s : Option (List ℕ) × ℕ) (off : ℕ) : Option (List ℕ) × ℕ :=
  (s.1.map fun l => if off ∈ l ∨ s.2 ≤ l.length then l else l ++ [off], s.2)

lemma blockSide_insn (t : Trace) (off : ℕ) :
    blockSide (Hwtrace.traceAppendInsn t off) = blockSide t := by
  unfold Hwtrace.traceAppendInsn
  cases t.insns with
  | none => rfl
  | some l =>
    dsimp only
    split_ifs <;> rfl

lemma blockSide_block (t : Trace) (off : ℕ) :
    blockSide (Hwtrace.traceAppendBlock t off) = addBlock (blockSide t) off := by
  rw [addBlock, blockSide, blockSide]
  cases hl : t.blocks with
  | none => rw [Hwtrace.traceAppendBlock_none hl, hl, Option.map_none]
  | some l =>
    rw [Hwtrace.traceAppendBlock_some hl]
    by_cases hmem : off ∈ l
    · simp [hmem, hl]
    · by_cases hroom : l.length < t.blocksCap
      · simp [hmem, hroom, Nat.not_le.mpr hroom]
      · simp [hmem, hroom, Nat.not_lt.mp hroom, hl]

/-- What a run does to the blocks depends on the blocks only. -/
lemma blockSide_emitAll (t : Trace) (evs : List Event) :
    blockSide (emitAll t evs) = (Hwtrace.blocksOf evs).foldl addBlock (blockSide t) := by
  induction evs generalizing t with
  | nil => rfl
  | cons ev evs ih =>
    rw [Hwtrace.emitAll_cons, ih]
    cases ev with
    | insn off => exact congrArg (List.foldl addBlock · _) (blockSide_insn t off)
    | block off => exact congrArg (List.foldl addBlock · _) (blockSide_block t off)

/-- Blocks are added at the end. -/
lemma foldl_addBlock (s : Option (List ℕ) × ℕ) (offs : List ℕ) :
    (offs.foldl addBlock s).2 = s.2 ∧
      ∃ more, (offs.foldl addBlock s).1 = s.1.map (· ++ more) := by
  induction offs generalizing s with
  | nil => exact ⟨rfl, [], by simp⟩
  | cons off offs ih =>
    obtain ⟨hcap, more, hmore⟩ := ih (addBlock s off)
    refine ⟨hcap, ?_⟩
    rw [List.foldl_cons, hmore, addBlock]
    cases s.1 with
    | none => exact ⟨[], rfl⟩
    | some l =>
      rw [Option.map_some, Option.map_some]
      split_ifs
      · exact ⟨more, rfl⟩
      · exact ⟨off :: more, by simp⟩

variable {t t' : Trace}

lemma blocksLen_congr (h : blockSide t = blockSide t') : blocksLen t = blocksLen t' :=
  congrArg (fun s : Option (List ℕ) × ℕ => (s.1.map List.length).getD 0) h

/-- A run that adds no block leaves the blocks as they are. -/
lemma blockSide_emitAll_of_le {evs : List Event} (h : blocksLen (emitAll t evs) ≤ blocksLen t) :
    blockSide (emitAll t evs) = blockSide t := by
  have hside := blockSide_emitAll t evs
  obtain ⟨hcap, more, hmore⟩ := foldl_addBlock (blockSide t) (Hwtrace.blocksOf evs)
  rw [← hside] at hcap hmore
  refine Prod.ext ?_ hcap
  change (emitAll t evs).blocks = t.blocks.map (· ++ more) at hmore
  change (emitAll t evs).blocks = t.blocks
  rw [blocksLen, blocksLen, hmore] at h
  rw [hmore]
  cases hl : t.blocks with
  | none => rfl
  | some l =>
    rw [hl] at h
    have hmore : more = [] := by simpa using h
    rw [hmore, Option.map_some, List.append_nil]

end Blocks

section Distill

variable {U C : Type} {X : Unicorn U C} {I : Emu U → Prop} {code : List UInt8}
  {events : BitVec 64 → List Event}

/-- The trace of a routine's runs on inputs, by the premise -/
def eventsAll (events : BitVec 64 → List Event) (t : Trace) (xs : List (BitVec 64)) : Trace :=
  xs.foldl (fun t x => emitAll t (events x)) t

lemma Repeatable.coverAll (h : Repeatable X I code events) {e : Emu U} (he : I e) (t : Trace)
    (xs : List (BitVec 64)) : coverAll X code e t xs = eventsAll events t xs := by
  induction xs generalizing e t with
  | nil => rfl
  | cons x xs ih =>
    rw [Emulator.coverAll, h.trace e he x t, Option.getD_some]
    exact ih (h.keep e he x t) (emitAll t (events x))

lemma blockSide_eventsAll {t t' : Trace} (h : blockSide t = blockSide t')
    (xs : List (BitVec 64)) :
    blockSide (eventsAll events t xs) = blockSide (eventsAll events t' xs) := by
  induction xs generalizing t t' with
  | nil => exact h
  | cons x xs ih =>
    apply ih
    rw [blockSide_emitAll, blockSide_emitAll, h]

lemma toNat_sub_of_le {lo hi : BitVec 64} (h : lo.toInt ≤ hi.toInt) :
    ((hi - lo).toNat : ℤ) = hi.toInt - lo.toInt := by
  have hlo := lo.isLt
  have hhi := hi.isLt
  rw [BitVec.toInt_eq_toNat_cond, BitVec.toInt_eq_toNat_cond] at *
  rw [BitVec.toNat_sub]
  omega

lemma toInt_add_of_le {lo hi d : BitVec 64} (h : lo.toInt + d.toNat ≤ hi.toInt) :
    (lo + d).toInt = lo.toInt + d.toNat := by
  have hge := lo.le_toInt
  have hlt := hi.toInt_lt
  rw [BitVec.toInt_add, BitVec.toInt_eq_toNat_bmod d, Int.add_bmod_bmod]
  apply Int.bmod_eq_of_le <;> omega

lemma rngRange_mem {rng lo hi : BitVec 64} (h : lo.sle hi) :
    lo.sle (rngRange rng lo hi).2 ∧ (rngRange rng lo hi).2.sle hi := by
  rw [BitVec.sle_iff_toInt_le] at h
  have hdiff := toNat_sub_of_le h
  simp only [rngRange, BitVec.sle_iff_toInt_le]
  split_ifs with hle hspan
  · exact ⟨le_rfl, h⟩
  · -- the range is every word
    have hge := lo.le_toInt
    have hlt := hi.toInt_lt
    have hge' := (rngU64 rng).2.le_toInt
    have hlt' := (rngU64 rng).2.toInt_lt
    have hnat : ((hi - lo).toNat + 1) % 2 ^ 64 = 0 := congrArg BitVec.toNat hspan
    dsimp only
    omega
  · have hspan' : (hi - lo + 1).toNat ≠ 0 := fun hzero => hspan (BitVec.eq_of_toNat_eq hzero)
    have hmod : ((rngU64 rng).2 % (hi - lo + 1)).toNat < (hi - lo + 1).toNat := by
      rw [BitVec.toNat_umod]
      exact Nat.mod_lt _ (Nat.pos_of_ne_zero hspan')
    have hnat : (hi - lo + 1).toNat ≤ (hi - lo).toNat + 1 := Nat.mod_le _ _
    have hle : lo.toInt + ((rngU64 rng).2 % (hi - lo + 1)).toNat ≤ hi.toInt := by omega
    rw [toInt_add_of_le hle]
    exact ⟨by omega, hle⟩

lemma clamp_mem {lo hi : BitVec 64} (h : lo.sle hi) (x : BitVec 64) :
    lo.sle (clamp lo hi x) ∧ (clamp lo hi x).sle hi := by
  simp only [clamp, BitVec.slt_eq_decide, BitVec.sle_eq_decide, decide_eq_true_eq] at *
  split_ifs <;> omega

lemma nextInput_mem {lo hi : BitVec 64} (h : lo.sle hi) (rng : BitVec 64)
    (corpus : List (BitVec 64)) :
    lo.sle (nextInput rng lo hi corpus).2 ∧ (nextInput rng lo hi corpus).2.sle hi := by
  simp only [nextInput]
  split_ifs
  · exact rngRange_mem h
  · exact rngRange_mem h
  · exact clamp_mem h _
  · exact clamp_mem h _

/-- What the loop keeps: the corpus lies in the range, its members one after another reach each a
block that those before did not, and all together the blocks of all inputs so far. -/
structure FuzzState.Distilled (I : Emu U → Prop) (events : BitVec 64 → List Event)
    (lo hi : BitVec 64) (uni : Trace) (n : ℕ) (s : FuzzState U) : Prop where
  handle : I s.e
  range : ∀ x ∈ s.corpus, lo.sle x ∧ x.sle hi
  length : s.corpus.length ≤ n
  blocks : blockSide s.uni = blockSide (eventsAll events uni s.corpus)
  grows : ∀ i < s.corpus.length, blocksLen (eventsAll events uni (s.corpus.take i)) <
    blocksLen (eventsAll events uni (s.corpus.take (i + 1)))

variable {lo hi : BitVec 64} {uni : Trace} {n : ℕ} {s : FuzzState U}

lemma eventsAll_append (t : Trace) (xs ys : List (BitVec 64)) :
    eventsAll events t (xs ++ ys) = eventsAll events (eventsAll events t xs) ys :=
  List.foldl_append

lemma FuzzState.Distilled.step (hrep : Repeatable X I code events) (h : lo.sle hi)
    (hs : s.Distilled I events lo hi uni n) :
    (fuzzStep X code lo hi s).Distilled I events lo hi uni (n + 1) := by
  have hx := nextInput_mem h s.rng s.corpus
  simp only [fuzzStep]
  generalize (nextInput s.rng lo hi s.corpus).2 = x at hx ⊢
  have hkeep := hrep.keep s.e hs.handle x s.uni
  rw [hrep.trace s.e hs.handle x s.uni, Option.getD_some]
  split_ifs with hgrew
  · -- the input is kept
    have hside : blockSide (emitAll s.uni (events x)) =
        blockSide (eventsAll events uni (s.corpus ++ [x])) := by
      rw [eventsAll_append]
      exact blockSide_eventsAll hs.blocks [x]
    refine ⟨hkeep, ?_, ?_, hside, ?_⟩
    · intro y hy
      rw [List.mem_append, List.mem_singleton] at hy
      exact hy.elim (hs.range y) fun hy => hy ▸ hx
    · rw [List.length_append, List.length_singleton]
      exact Nat.add_le_add_right hs.length 1
    · intro i hi
      rw [List.length_append, List.length_singleton] at hi
      obtain hlt | rfl := Nat.lt_succ_iff_lt_or_eq.mp hi
      · dsimp only
        rw [List.take_append_of_le_length hlt.le, List.take_append_of_le_length hlt]
        exact hs.grows i hlt
      · dsimp only
        rw [List.take_left', List.take_of_length_le (by simp), ← blocksLen_congr hside,
          ← blocksLen_congr hs.blocks]
        · exact hgrew
        · rfl
  · have hside := blockSide_emitAll_of_le (not_lt.mp hgrew)
    exact ⟨hkeep, hs.range, hs.length.trans n.le_succ, hside.trans hs.blocks, hs.grows⟩

lemma FuzzState.Distilled.loop (hrep : Repeatable X I code events) (h : lo.sle hi) (m : ℕ)
    (hs : s.Distilled I events lo hi uni n) :
    (fuzzLoop X code lo hi m s).Distilled I events lo hi uni (n + m) := by
  induction m generalizing s n with
  | zero => exact hs
  | succ m ih =>
    have hnext := ih (hs.step hrep h)
    rwa [Nat.add_assoc, Nat.add_comm 1 m] at hnext

end Distill

section OneByte

open Mapped (Covered)

/-- The handle has the windows it was opened with, and nothing preloaded. -/
def Idle (e : Emu Paged) : Prop := e.uc.pages = opened.pages ∧ e.preload = []

variable {e : Emu Paged} {u : Paged}

lemma pages_memWrite (u : Paged) (a : ℕ) (data : List UInt8) :
    (paged.memWrite u a data).2.pages = u.pages := by
  simp only [paged]
  split_ifs <;> rfl

lemma pages_foldl_regWrite {α : Type} (l : List α) (r : α → Reg) (v : α → BitVec 128)
    (u : Paged) :
    (l.foldl (fun u x => paged.regWrite u (r x) (v x)) u).pages = u.pages :=
  List.foldlRecOn (motive := fun w : Paged => w.pages = u.pages) l _ rfl fun _ hw _ _ => hw

lemma pages_zeroRegs (u : Paged) : (emuX86ZeroRegs paged u).pages = u.pages := by
  have hflags : ∀ w, (paged.regWrite w .eflags 2).pages = w.pages := fun _ => rfl
  rw [emuX86ZeroRegs, hflags, pages_foldl_regWrite _ Reg.xmm, pages_foldl_regWrite _ fun r => r]

lemma pages_trapFill (fuel off : ℕ) (u : Paged) :
    (trapFill paged fuel off u).pages = u.pages := by
  induction fuel generalizing off u with
  | zero => rfl
  | succ fuel ih =>
    have hwrite := pages_memWrite u (emuCodeBase.toNat + off)
      (List.replicate (min (emuCodeSize - off) 4096) 0xCC)
    rw [trapFill]
    split_ifs
    · revert hwrite
      cases paged.memWrite u (emuCodeBase.toNat + off)
          (List.replicate (min (emuCodeSize - off) 4096) 0xCC) with
      | mk ok v =>
        intro hwrite
        cases ok with
        | false => exact hwrite
        | true => exact (ih _ v).trans hwrite
    · rfl

lemma pages_loadCode (u : Paged) (code : List UInt8) :
    (loadCode paged u code).2.pages = u.pages := by
  have hwrite := pages_memWrite u emuCodeBase.toNat (code.take emuCodeSize)
  rw [loadCode]
  revert hwrite
  cases paged.memWrite u emuCodeBase.toNat (code.take emuCodeSize) with
  | mk ok v =>
    intro hwrite
    cases ok with
    | false => exact hwrite
    | true => exact (pages_trapFill _ _ v).trans hwrite

lemma pages_setup (e : Emu Paged) (fn : List UInt8) (args : List (BitVec 64)) :
    (emuX86SetupSysv paged e fn args).2.pages = e.uc.pages := by
  have hload := pages_loadCode e.uc fn
  have hpush : ∀ (sp : BitVec 64) (l : List (BitVec 64 × ℕ)) (u : Paged),
      (l.foldl (fun u a => (paged.memWrite u (sp + 8 + 8 * BitVec.ofNat 64 a.2).toNat
        (Endian.leBytes 8 a.1.toNat)).2) u).pages = u.pages := fun sp l u =>
    List.foldlRecOn (motive := fun w : Paged => w.pages = u.pages) l _ rfl fun w hw a _ =>
      (pages_memWrite w _ _).trans hw
  have hrsp : ∀ w sp, (paged.regWrite w .rsp sp).pages = w.pages := fun _ _ => rfl
  rw [emuX86SetupSysv]
  revert hload
  cases loadCode paged e.uc fn with
  | mk ok v =>
    intro hload
    cases ok with
    | false => exact hload
    | true =>
      dsimp only
      rw [pages_foldl_regWrite _ Prod.fst, hrsp, hpush, pages_memWrite,
        pages_foldl_regWrite _ fun p : NamedReg × BitVec 64 => p.1.1, pages_zeroRegs]
      exact hload

/-- A routine of one byte at its entry -/
structure Ready (b : UInt8) (u : Paged) : Prop where
  pages : u.pages = opened.pages
  byte : (u.mem emuCodeBase.toNat).map Prod.snd = some b
  trap : (u.mem (emuCodeBase.toNat + 1)).map Prod.snd = some 0xCC
  rsp : u.file .rsp = 0x20FFF8
  ret : Mapped.bytes u.mem 0x20FFF8 8 = Endian.leBytes 8 emuRetMagic.toNat
  zero : u.file .rcx = 0 ∧ u.file .rax = 0

lemma codeImage_singleton (b : UInt8) :
    codeImage [b] = b :: 0xCC :: List.replicate (emuCodeSize - 2) 0xCC := by
  have hsize : emuCodeSize - [b].length = emuCodeSize - 2 + 1 := by
    rw [List.length_singleton]
    decide
  rw [codeImage, List.take_of_length_le (by rw [List.length_singleton]; decide), hsize,
    List.replicate_succ]
  rfl

lemma ready_setup (he : Idle e) (b : UInt8) (x : BitVec 64) :
    (emuX86SetupSysv paged e [b] [x]).1 = true ∧
      Ready b (emuX86SetupSysv paged e [b] [x]).2 := by
  have hpages := pages_setup e [b] [x]
  obtain ⟨hcode, hstack⟩ := covered_opened he.1
  have hroom : (([x] : List (BitVec 64)).length - 6) * 8 + 16 ≤ emuStackSize.toNat := by
    rw [List.length_singleton]
    decide
  obtain ⟨hok, hmem, hrsp, -, hregs⟩ := setup_spec paged_lawful hcode hstack [b] hroom
  refine ⟨hok, ?_⟩
  have hsp : entrySp [x] = 0x20FFF8 := by
    rw [entrySp, List.length_singleton]
    decide
  have hat : ∀ i c, i < emuCodeSize → (codeImage [b])[i]? = some c →
      ((emuX86SetupSysv paged e [b] [x]).2.mem (emuCodeBase.toNat + i)).map Prod.snd =
        some c :=
    fun i c => setup_code paged_lawful hcode hstack [b] hroom
  have hregs' : ∀ r, r ≠ .rsp → r ≠ .rip → r ≠ .mxcsr → r ∉ argRegs.take 1 → r ≠ .eflags →
      (emuX86SetupSysv paged e [b] [x]).2.file r = 0 := by
    intro r h1 h2 h3 h4 h5
    refine (hregs r h1 h2 h3 h4).trans ?_
    rw [he.2, latest, List.foldl_nil, if_neg h5]
  refine ⟨hpages.trans he.1, hat 0 b (by decide) (by rw [codeImage_singleton]; rfl),
    hat 1 0xCC (by decide) (by rw [codeImage_singleton]; rfl), ?_, ?_, ?_⟩
  · rw [hsp] at hrsp
    exact hrsp
  · have himageLen : (stackImage [x]).length = 8 := rfl
    have hcovered : Covered (Mapped.store e.uc.mem emuCodeBase.toNat (codeImage [b])) 0x20FFF8
        (stackImage [x]).length := by
      have hbase' : emuStackBase.toNat = 0x200000 := rfl
      have hsize' : emuStackSize.toNat = 0x10000 := rfl
      apply Covered.store
      exact fun a ha hb => hstack a (by omega) (by omega)
    have hread := Mapped.bytes_store hcovered
    rw [hmem, hsp]
    exact hread
  · exact ⟨hregs' .rcx (by decide) (by decide) (by decide) (by decide) (by decide),
      hregs' .rax (by decide) (by decide) (by decide) (by decide) (by decide)⟩

/-- The two near returns come back, and the jump leaves for where nothing can be fetched. -/
lemma emuStart_ready {b : UInt8} (h : Ready b u) (n : ℕ) :
    let start := paged.emuStart u emuCodeBase emuRetMagic n
    (start.2.2 = 0 ↔ b = 0xC3 ∨ b = 0xC2) ∧
      ((start.1.findSome? faultOf).isSome = true ↔ b = 0xE3) ∧
      traceEvents start.1 = [.block 0, .insn 0] ∧
      start.2.1.file .rax = 0 ∧ start.2.1.pages = opened.pages := by
  have hbase : emuCodeBase.toNat = 0x100000 := rfl
  have hsp : ((u.file0 emuCodeBase .rsp).setWidth 64 : BitVec 64).toNat = 0x20FFF8 := by
    rw [u.file0_of_ne _ (by decide), h.rsp]
    rfl
  have hrcx : u.file0 emuCodeBase .rcx = 0 := (u.file0_of_ne _ (by decide)).trans h.zero.1
  have hrax : u.file0 emuCodeBase .rax = 0 := (u.file0_of_ne _ (by decide)).trans h.zero.2
  have hreturns : Covered u.mem 0x20FFF8 8 := by
    have hstack : emuStackBase.toNat = 0x200000 := rfl
    have hsize : emuStackSize.toNat = 0x10000 := rfl
    exact fun a ha hb => (covered_opened h.pages).2 a (by omega) (by omega)
  have htarget : (emuCodeBase + 2 + BitVec.signExtend 64 (0xCC : UInt8).toBitVec).toNat =
      0xFFFCE := by decide
  have hnone : u.mem 0xFFFCE = none := by
    refine if_neg fun hpage => ?_
    rw [h.pages, opened, Finset.mem_union, Finset.mem_Ico, Finset.mem_Ico] at hpage
    omega
  intro start
  have hrun : runOne u.mem (u.file0 emuCodeBase) emuCodeBase emuRetMagic =
      if b = 0xC3 then afterRet (u.file0 emuCodeBase) emuRetMagic 0
      else if b = 0xC2 then afterRet (u.file0 emuCodeBase) emuRetMagic
        ((0xCC : UInt8).toNat + 256 * (((u.mem (emuCodeBase.toNat + 2)).map Prod.snd).getD 0).toNat)
      else if b = 0xE3 then
        ([.invalid .fetchUnmapped (emuCodeBase + 2 + BitVec.signExtend 64 (0xCC : UInt8).toBitVec)],
          Function.update (u.file0 emuCodeBase) .rip
            ((emuCodeBase + 2 + BitVec.signExtend 64 (0xCC : UInt8).toBitVec).setWidth 128), 8)
      else ([], u.file0 emuCodeBase, 21) := by
    simp only [runOne, Nat.add_zero, h.byte, h.trap, Option.getD_some, hsp, hreturns, h.ret, hrcx,
      htarget, hnone, and_self, and_true]
  have hstart : start = (.block emuCodeBase (u.file0 emuCodeBase) ::
      .code emuCodeBase (u.file0 emuCodeBase) ::
        (runOne u.mem (u.file0 emuCodeBase) emuCodeBase emuRetMagic).1,
      { u with file := (runOne u.mem (u.file0 emuCodeBase) emuCodeBase emuRetMagic).2.1 },
      (runOne u.mem (u.file0 emuCodeBase) emuCodeBase emuRetMagic).2.2) := rfl
  have hafter : ∀ more, (afterRet (u.file0 emuCodeBase) emuRetMagic more).2.1 .rax = 0 := by
    intro more
    dsimp only [afterRet]
    rw [Function.update_of_ne (by decide), Function.update_of_ne (by decide), hrax]
  have hzero : (emuCodeBase - emuCodeBase).toNat = 0 := rfl
  rw [hstart, hrun]
  dsimp only [List.findSome?_cons, faultOf, traceEvents]
  rw [hzero]
  -- the two returns, the jump out of the window, and every other byte
  by_cases hret : b = 0xC3
  · rw [if_pos hret]
    exact ⟨iff_of_true rfl (.inl hret), iff_of_false (fun h => Bool.false_ne_true h)
      (by rw [hret]; decide), rfl, hafter 0, h.pages⟩
  rw [if_neg hret]
  by_cases hretImm : b = 0xC2
  · rw [if_pos hretImm]
    exact ⟨iff_of_true rfl (.inr hretImm), iff_of_false (fun h => Bool.false_ne_true h)
      (by rw [hretImm]; decide), rfl, hafter _, h.pages⟩
  rw [if_neg hretImm]
  have hreturned : ¬(b = 0xC3 ∨ b = 0xC2) := not_or.mpr ⟨hret, hretImm⟩
  by_cases hjump : b = 0xE3
  · rw [if_pos hjump]
    refine ⟨iff_of_false (fun herr => absurd herr (by decide : (8 : ℤ) ≠ 0)) hreturned,
      iff_of_true rfl hjump, rfl, ?_, h.pages⟩
    dsimp only
    rw [Function.update_of_ne (by decide), hrax]
  · rw [if_neg hjump]
    exact ⟨iff_of_false (fun herr => absurd herr (by decide : (21 : ℤ) ≠ 0)) hreturned,
      iff_of_false (fun h => Bool.false_ne_true h) hjump, rfl, hrax, h.pages⟩

lemma setup_eq (he : Idle e) (b : UInt8) (x : BitVec 64) (n : ℕ) (trace : Option Trace) :
    emuCallTraced paged e [b] [x] n trace =
      emuX86Run paged e (emuX86SetupSysv paged e [b] [x]).2 n trace := by
  rw [emuCallTraced, ← Prod.mk.eta (p := emuX86SetupSysv paged e [b] [x]), (ready_setup he b x).1]

lemma idle_call (he : Idle e) (b : UInt8) (x : BitVec 64) (n : ℕ) (trace : Option Trace) :
    Idle (emuCallTraced paged e [b] [x] n trace).2.2 := by
  rw [setup_eq he]
  exact ⟨(emuStart_ready (ready_setup he b x).2 n).2.2.2.2, he.2⟩

end OneByte

section Distill

variable {U C : Type} {X : Unicorn U C} {I : Emu U → Prop} {code : List UInt8}
  {events : BitVec 64 → List Event} {lo hi : BitVec 64} {uni : Trace}

/-- Fuzzing distils: of the inputs it tried it keeps some of the range, no more than it tried, each
of which enters a block that those kept before it do not; and the inputs kept, run alone on any
handle, give the blocks that all of the inputs tried gave. -/
theorem fuzz_distills (hrep : Repeatable X I code events) {e : Emu U} (he : I e) {iters : ℕ}
    {seed : BitVec 64} {stat : EmuFuzzStat} {uni' : Trace} {e' : Emu U}
    (hrun : emuFuzzCover1 X e code lo hi iters seed uni = some (stat, uni', e')) :
    stat = ⟨blocksLen uni', e'.fuzzCorpus.length, iters⟩ ∧ e'.fuzzCorpus.length ≤ iters ∧
      (∀ x ∈ e'.fuzzCorpus, lo.sle x ∧ x.sle hi) ∧
      ∀ d, I d → (coverAll X code d uni e'.fuzzCorpus).blocks = uni'.blocks ∧
        ∀ i < e'.fuzzCorpus.length, blocksLen (coverAll X code d uni (e'.fuzzCorpus.take i)) <
          blocksLen (coverAll X code d uni (e'.fuzzCorpus.take (i + 1))) := by
  rw [emuFuzzCover1] at hrun
  split_ifs at hrun with hbad
  rw [not_or] at hbad
  have hrange : lo.sle hi := by
    have hlt := hbad.2
    rw [BitVec.slt_iff_toInt_lt, not_lt] at hlt
    exact BitVec.sle_iff_toInt_le.mpr hlt
  have hstart : FuzzState.Distilled I events lo hi uni 0 ⟨seed, [], e, uni⟩ :=
    ⟨he, fun x hx => absurd hx List.not_mem_nil, le_rfl, rfl,
      fun i hi => absurd hi (Nat.not_lt_zero i)⟩
  have hend := hstart.loop hrep hrange iters
  rw [Nat.zero_add] at hend
  generalize fuzzLoop X code lo hi iters ⟨seed, [], e, uni⟩ = s at hend hrun
  obtain ⟨rfl, rfl, rfl⟩ : _ ∧ _ ∧ _ := by simpa using hrun
  refine ⟨rfl, hend.length, hend.range, fun d hd => ⟨?_, fun i hi => ?_⟩⟩
  · rw [hrep.coverAll hd]
    exact (congrArg Prod.fst hend.blocks).symm
  · rw [hrep.coverAll hd, hrep.coverAll hd]
    exact hend.grows i hi

def emptyTrace : Trace := ⟨none, 0, 0, some [], 8, 0, false⟩

lemma repeatable_ret :
    Repeatable paged Idle [0xC3] fun _ => [.block 0, .insn 0] where
  trace e he x t := by
    rw [setup_eq he]
    simp only [emuX86Run, trace_foldl_onHook, (emuStart_ready (ready_setup he 0xC3 x).2 _).2.2.1]
    rfl
  keep e he x t := idle_call he 0xC3 x fuzzInsnCap (some t)

/-- Another handle for the second run: its memory is not that of the first. -/
theorem fuzz_distills_ret :
    ∃ stat uni e, emuFuzzCover1 paged { uc := opened } [0xC3] 0 9 3 7 emptyTrace =
        some (stat, uni, e) ∧ stat = ⟨blocksLen uni, e.fuzzCorpus.length, 3⟩ ∧
      (coverAll paged [0xC3] { uc := { opened with bytes := fun _ => 1 } } emptyTrace
        e.fuzzCorpus).blocks = uni.blocks := by
  have hidle : Idle { uc := opened } := ⟨rfl, rfl⟩
  have hidle' : Idle { uc := { opened with bytes := fun _ => 1 } } := ⟨rfl, rfl⟩
  have hsome : (emuFuzzCover1 paged { uc := opened } [0xC3] 0 9 3 7 emptyTrace).isSome = true := by
    rw [emuFuzzCover1, if_neg (by decide)]
    rfl
  obtain ⟨⟨stat, uni, e⟩, hrun⟩ := Option.isSome_iff_exists.mp hsome
  obtain ⟨hstat, -, -, hcover⟩ := fuzz_distills repeatable_ret hidle hrun
  exact ⟨stat, uni, e, hrun, hstat, (hcover _ hidle').1⟩

end Distill

section Mutants

structure RunSig where
  ok : Bool
  faulted : Bool
  ret : BitVec 64
  deriving DecidableEq

structure EmuMutationStat where
  mutants : ℕ
  killed : ℕ
  survived : ℕ
  deriving DecidableEq

variable {U C : Type} (X : Unicorn U C)

def runSig (e : Emu U) (code : List UInt8) (x : BitVec 64) : RunSig × Emu U :=
  let r := emuCall X e code [x] fuzzInsnCap
  (⟨r.1.ok, r.1.faulted, (r.1.regs.getD 0 0).setWidth 64⟩, r.2)

/-- The signatures of the routine itself -/
def baseLoop (code : List UInt8) (e : Emu U) : List (BitVec 64) → List RunSig × Emu U
  | [] => ([], e)
  | x :: xs =>
    let r := runSig X e code x
    let rest := baseLoop code r.2 xs
    (r.1 :: rest.1, rest.2)

def flipBit (code : List UInt8) (bit : ℕ) : List UInt8 :=
  code.set (bit / 8) (code.getD (bit / 8) 0 ^^^ (1 <<< UInt8.ofNat (bit % 8)))

/-- The inputs are tried until one tells the mutant from the routine. -/
def killLoop (mutant : List UInt8) (e : Emu U) : List (BitVec 64 × RunSig) → Bool × Emu U
  | [] => (false, e)
  | p :: ps =>
    let r := runSig X e mutant p.1
    if r.1 ≠ p.2 then (true, r.2) else killLoop mutant r.2 ps

/-- Every bit in turn, or bits that are drawn -/
def mutantLoop (code : List UInt8) (pairs : List (BitVec 64 × RunSig)) (sweep : Bool) :
    ℕ → ℕ → BitVec 64 → Emu U → ℕ × ℕ → (ℕ × ℕ) × Emu U
  | 0, _, _, e, counts => (counts, e)
  | n + 1, m, rng, e, counts =>
    let (rng, bit) := if sweep then (rng, m)
      else ((rngU64 rng).1, (rngU64 rng).2.toNat % (code.length * 8))
    let r := killLoop X (flipBit code bit) e pairs
    mutantLoop code pairs sweep n (m + 1) rng r.2
      (if r.1 then (counts.1 + 1, counts.2) else (counts.1, counts.2 + 1))

/-- The number of survivors, and the statistics; a limit of zero is none. -/
def emuMutationTest1 (e : Emu U) (code : List UInt8) (inputs : List (BitVec 64))
    (maxMutants : ℕ) (seed : BitVec 64) : ℕ × Option EmuMutationStat × Emu U :=
  if inputs.isEmpty ∨ code.isEmpty then (0, none, e)
  else
    let base := baseLoop X code e inputs
    let totalBits := code.length * 8
    let want := if maxMutants = 0 ∨ totalBits < maxMutants then totalBits else maxMutants
    let r := mutantLoop X code (inputs.zip base.1) (want = totalBits) want 0 seed base.2 (0, 0)
    (r.1.2, some ⟨want, r.1.1, r.1.2⟩, r.2)

/-- The bits of the mutants, in order -/
def mutantBits (total : ℕ) (sweep : Bool) : ℕ → ℕ → BitVec 64 → List ℕ
  | 0, _, _ => []
  | n + 1, m, rng =>
    if sweep then m :: mutantBits total sweep n (m + 1) rng
    else (rngU64 rng).2.toNat % total :: mutantBits total sweep n (m + 1) (rngU64 rng).1

/-- The routine and its mutants -/
def variants (code : List UInt8) : List (List UInt8) :=
  code :: (List.range (code.length * 8)).map (flipBit code)

/-- The premise, on the routine, its mutants and the inputs alone: on the handles that occur, a
signature is a function of routine and argument. -/
structure Differential (I : Emu U → Prop) (code : List UInt8) (inputs : List (BitVec 64))
    (sig : List UInt8 → BitVec 64 → RunSig) : Prop where
  sig : ∀ e, I e → ∀ c ∈ variants code, ∀ x ∈ inputs, (runSig X e c x).1 = sig c x
  keep : ∀ e, I e → ∀ c ∈ variants code, ∀ x ∈ inputs, I (runSig X e c x).2

variable {X} {I : Emu U → Prop} {sig : List UInt8 → BitVec 64 → RunSig} {e : Emu U}
  {code : List UInt8} {inputs : List (BitVec 64)}

/-- A mutant that no input tells from the routine -/
def Survives (sig : List UInt8 → BitVec 64 → RunSig) (code : List UInt8)
    (inputs : List (BitVec 64)) (bit : ℕ) : Prop :=
  ∀ x ∈ inputs, sig (flipBit code bit) x = sig code x

instance (bit : ℕ) : Decidable (Survives sig code inputs bit) :=
  inferInstanceAs (Decidable (∀ x ∈ inputs, _))

lemma mem_variants_self (code : List UInt8) : code ∈ variants code := List.mem_cons_self

lemma flipBit_mem_variants {bit : ℕ} (h : bit < code.length * 8) :
    flipBit code bit ∈ variants code :=
  List.mem_cons_of_mem _ (List.mem_map_of_mem (List.mem_range.mpr h))

lemma baseLoop_spec (hsig : Differential X I code inputs sig) (he : I e)
    {xs : List (BitVec 64)} (hxs : xs ⊆ inputs) :
    (baseLoop X code e xs).1 = xs.map (sig code) ∧ I (baseLoop X code e xs).2 := by
  induction xs generalizing e with
  | nil => exact ⟨rfl, he⟩
  | cons x xs ih =>
    rw [List.cons_subset] at hxs
    have hself := mem_variants_self code
    have hnext := ih (hsig.keep e he code hself x hxs.1) hxs.2
    exact ⟨congrArg₂ List.cons (hsig.sig e he code hself x hxs.1) hnext.1, hnext.2⟩

lemma killLoop_spec (hsig : Differential X I code inputs sig) (he : I e) {mutant : List UInt8}
    (hmutant : mutant ∈ variants code) {xs : List (BitVec 64)} (hxs : xs ⊆ inputs) :
    ((killLoop X mutant e (xs.zip (xs.map (sig code)))).1 = false ↔
        ∀ x ∈ xs, sig mutant x = sig code x) ∧
      I (killLoop X mutant e (xs.zip (xs.map (sig code)))).2 := by
  -- the loop ends at the first input that tells the mutant apart
  induction xs generalizing e with
  | nil => exact ⟨iff_of_true rfl fun x hx => absurd hx List.not_mem_nil, he⟩
  | cons x xs ih =>
    rw [List.cons_subset] at hxs
    have hkeep := hsig.keep e he mutant hmutant x hxs.1
    rw [List.map_cons, List.zip_cons_cons, killLoop, List.forall_mem_cons]
    dsimp only
    rw [hsig.sig e he mutant hmutant x hxs.1]
    split_ifs with htold
    · exact ⟨iff_of_false (by decide) fun hall => htold hall.1, hkeep⟩
    · rw [not_not] at htold
      rw [and_iff_right htold]
      exact ih hkeep hxs.2

lemma mutantLoop_spec (hsig : Differential X I code inputs sig) (he : I e) (sweep : Bool)
    {n m : ℕ} {rng : BitVec 64}
    (hbits : ∀ bit ∈ mutantBits (code.length * 8) sweep n m rng, bit < code.length * 8)
    (counts : ℕ × ℕ) :
    (mutantLoop X code (inputs.zip (inputs.map (sig code))) sweep n m rng e counts).1 =
      (counts.1 + (mutantBits (code.length * 8) sweep n m rng).countP
          (fun bit => ¬Survives sig code inputs bit),
        counts.2 + (mutantBits (code.length * 8) sweep n m rng).countP
          (fun bit => Survives sig code inputs bit)) := by
  -- `counts` are those of the mutants that were run already
  induction n generalizing m rng e counts with
  | zero => rfl
  | succ n ih =>
    have hbit : ∀ (bit : ℕ) (rng : BitVec 64) (bits : List ℕ),
        bits = mutantBits (code.length * 8) sweep n (m + 1) rng →
        (∀ b ∈ bit :: bits, b < code.length * 8) →
        (mutantLoop X code (inputs.zip (inputs.map (sig code))) sweep n (m + 1) rng
            (killLoop X (flipBit code bit) e (inputs.zip (inputs.map (sig code)))).2
            (if (killLoop X (flipBit code bit) e (inputs.zip (inputs.map (sig code)))).1 then
              (counts.1 + 1, counts.2) else (counts.1, counts.2 + 1))).1 =
          (counts.1 + (bit :: bits).countP (fun bit => ¬Survives sig code inputs bit),
            counts.2 + (bit :: bits).countP (fun bit => Survives sig code inputs bit)) := by
      rintro bit rng bits rfl hbits
      rw [List.forall_mem_cons] at hbits
      obtain ⟨hkill, hnext⟩ :=
        killLoop_spec hsig he (flipBit_mem_variants hbits.1) (List.Subset.refl inputs)
      rw [ih hnext hbits.2, List.countP_cons, List.countP_cons]
      by_cases hsurvives : Survives sig code inputs bit
      · rw [hkill.mpr hsurvives]
        simp [hsurvives]
        omega
      · have htold := mt hkill.mp hsurvives
        rw [Bool.not_eq_false] at htold
        rw [htold]
        simp [hsurvives]
        omega
    cases sweep with
    | true => exact hbit m rng _ rfl hbits
    | false => exact hbit _ _ _ rfl hbits

lemma mutantBits_sweep (total n m : ℕ) (rng : BitVec 64) :
    mutantBits total true n m rng = List.range' m n := by
  induction n generalizing m with
  | zero => rfl
  | succ n ih => exact congrArg (m :: ·) (ih (m + 1))

lemma length_mutantBits (total : ℕ) (sweep : Bool) (n m : ℕ) (rng : BitVec 64) :
    (mutantBits total sweep n m rng).length = n := by
  induction n generalizing m rng with
  | zero => rfl
  | succ n ih =>
    cases sweep with
    | true => exact congrArg (· + 1) (ih (m + 1) rng)
    | false => exact congrArg (· + 1) (ih (m + 1) _)

lemma lt_of_mem_mutantBits {total : ℕ} (htotal : 0 < total) {sweep : Bool} {n m : ℕ}
    {rng : BitVec 64} (hsweep : sweep = true → m + n ≤ total) :
    ∀ bit ∈ mutantBits total sweep n m rng, bit < total := by
  induction n generalizing m rng with
  | zero => exact fun bit hbit => absurd hbit List.not_mem_nil
  | succ n ih =>
    cases sweep with
    | true =>
      have hle := hsweep rfl
      exact List.forall_mem_cons.mpr ⟨by omega, ih fun _ => by omega⟩
    | false =>
      exact List.forall_mem_cons.mpr ⟨Nat.mod_lt _ htotal, ih fun h => absurd h Bool.false_ne_true⟩

/-- The mutation score is exact: every mutant is either killed or survives, the survivors are the
mutants that no input tells from the routine, and without a limit they are counted among the
mutants of every bit of the routine. -/
theorem mutation_exact (hsig : Differential X I code inputs sig) (he : I e) (hinputs : inputs ≠ [])
    (hcode : code ≠ []) (maxMutants : ℕ) (seed : BitVec 64) :
    let total := code.length * 8
    let want := if maxMutants = 0 ∨ total < maxMutants then total else maxMutants
    let bits := if want = total then List.range total else mutantBits total false want 0 seed
    ∃ e', emuMutationTest1 X e code inputs maxMutants seed =
        (bits.countP (fun bit => Survives sig code inputs bit),
          some ⟨want, bits.countP (fun bit => ¬Survives sig code inputs bit),
            bits.countP (fun bit => Survives sig code inputs bit)⟩, e') ∧
      bits.length = want := by
  intro total want bits
  obtain ⟨hbase, hI⟩ := baseLoop_spec hsig he (List.Subset.refl inputs)
  have hbits : mutantBits total (want = total) want 0 seed = bits := by
    by_cases hsweep : want = total
    · simp [bits, hsweep, mutantBits_sweep, List.range_eq_range']
    · simp [bits, hsweep]
  have hlt : ∀ bit ∈ mutantBits total (want = total) want 0 seed, bit < total := by
    have hpos := List.length_pos_iff.mpr hcode
    apply lt_of_mem_mutantBits (by omega)
    intro hsweep
    rw [decide_eq_true_eq] at hsweep
    omega
  have hloop : (mutantLoop X code (inputs.zip (inputs.map (sig code))) (want = total) want 0 seed
      (baseLoop X code e inputs).2 (0, 0)).1 = (_, _) :=
    mutantLoop_spec hsig hI (want = total) hlt (0, 0)
  rw [← hbase, hbits] at hloop
  simp only [Nat.zero_add] at hloop
  refine ⟨(mutantLoop X code (inputs.zip (baseLoop X code e inputs).1) (want = total) want 0 seed
    (baseLoop X code e inputs).2 (0, 0)).2, ?_, ?_⟩
  · rw [emuMutationTest1, if_neg (by simp [hinputs, hcode])]
    have hkilled := congrArg Prod.fst hloop
    have hsurvived := congrArg Prod.snd hloop
    exact Prod.ext hsurvived (Prod.ext (congrArg some
      (congrArg₂ (EmuMutationStat.mk want) hkilled hsurvived)) rfl)
  · rw [← hbits]
    exact length_mutantBits ..

def oneByteSig (c : List UInt8) : RunSig :=
  let b := c.getD 0 0
  ⟨b = 0xC3 ∨ b = 0xC2, b = 0xE3, 0⟩

lemma runSig_oneByte {e : Emu Paged} (he : Idle e) (b : UInt8) (x : BitVec 64) :
    (runSig paged e [b] x).1 = oneByteSig [b] := by
  obtain ⟨herr, hfault, -, hrax, -⟩ := emuStart_ready (ready_setup he b x).2 fuzzInsnCap
  have hshown := fr_foldl_onHook (paged.emuStart (emuX86SetupSysv paged e [b] [x]).2 emuCodeBase
    emuRetMagic fuzzInsnCap).1 (startSinks e none)
  have hfaulted : ∀ fr : FaultRec, fr.faulted = fr.shown.isSome := by
    intro fr
    rw [FaultRec.shown]
    split_ifs with h
    · exact h
    · exact Bool.eq_false_of_not_eq_true h
  have hnone : (startSinks e none).fr.shown = none := rfl
  rw [hnone, Option.none_or] at hshown
  rw [← decide_eq_true_eq (p := b = 0xE3), ← Bool.eq_iff_iff] at hfault
  rw [runSig, emuCall, setup_eq he]
  simp only [emuX86Run, hfaulted, hshown, herr, hfault]
  refine congrArg₂ (RunSig.mk · (b = 0xE3) ·) ?_ ?_
  · rw [decide_eq_decide]
    apply and_iff_left_of_imp
    rintro (rfl | rfl) <;> rfl
  · exact congrArg (BitVec.setWidth 64) hrax

lemma variants_oneByte {b : UInt8} {c : List UInt8} (h : c ∈ variants [b]) :
    ∃ b', c = [b'] := by
  obtain rfl | h := List.mem_cons.mp h
  · exact ⟨b, rfl⟩
  · obtain ⟨bit, hbit, rfl⟩ := List.mem_map.mp h
    rw [List.length_singleton, Nat.one_mul, List.mem_range] at hbit
    rw [flipBit, Nat.div_eq_of_lt hbit]
    exact ⟨_, rfl⟩

lemma differential_ret (inputs : List (BitVec 64)) :
    Differential paged Idle [0xC3] inputs fun c _ => oneByteSig c where
  sig e he c hc x _ := by
    obtain ⟨b, rfl⟩ := variants_oneByte hc
    exact runSig_oneByte he b x
  keep e he c hc x _ := by
    obtain ⟨b, rfl⟩ := variants_oneByte hc
    exact idle_call he b x fuzzInsnCap none

lemma survives_ret (bit : ℕ) (h : bit < 8) :
    Survives (fun c _ => oneByteSig c) [0xC3] [1] bit ↔ bit = 0 := by
  rw [Survives, List.forall_mem_singleton]
  interval_cases bit <;> decide

/-- Of the mutants of a return only the return that leaves more of the stack survives. -/
theorem mutation_exact_ret :
    ∃ e, emuMutationTest1 paged { uc := opened } [0xC3] [1] 0 7 = (1, some ⟨8, 7, 1⟩, e) := by
  have hidle : Idle { uc := opened } := ⟨rfl, rfl⟩
  obtain ⟨e, he, -⟩ := mutation_exact (differential_ret [1]) hidle
    (List.cons_ne_nil (1 : BitVec 64) []) (List.cons_ne_nil (0xC3 : UInt8) []) 0 7
  have hsurvived : (List.range 8).countP
      (fun bit => Survives (fun c _ => oneByteSig c) [0xC3] [1] bit) = 1 := by
    rw [List.countP_congr (p := fun bit => Survives (fun c _ => oneByteSig c) [0xC3] [1] bit)
      (q := (· = 0)) fun bit hbit => by
        rw [decide_eq_true_eq, decide_eq_true_eq, survives_ret bit (List.mem_range.mp hbit)]]
    rfl
  have hkilled : (List.range 8).countP
      (fun bit => ¬Survives (fun c _ => oneByteSig c) [0xC3] [1] bit) = 7 := by
    rw [List.countP_congr (p := fun bit => ¬Survives (fun c _ => oneByteSig c) [0xC3] [1] bit)
      (q := (· ≠ 0)) fun bit hbit => by
        rw [decide_eq_true_eq, decide_eq_true_eq, survives_ret bit (List.mem_range.mp hbit)]]
    rfl
  have hcounts : emuMutationTest1 paged { uc := opened } [0xC3] [1] 0 7 =
      ((List.range 8).countP (fun bit => Survives (fun c _ => oneByteSig c) [0xC3] [1] bit),
        some ⟨8, (List.range 8).countP
            (fun bit => ¬Survives (fun c _ => oneByteSig c) [0xC3] [1] bit),
          (List.range 8).countP (fun bit => Survives (fun c _ => oneByteSig c) [0xC3] [1] bit)⟩,
        e) := he
  rw [hsurvived, hkilled] at hcounts
  exact ⟨e, hcounts⟩

end Mutants

end AsmTest.Emulator
