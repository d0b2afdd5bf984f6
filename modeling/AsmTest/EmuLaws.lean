import AsmTest.EmuHandle
import AsmTest.Lib.Mapped
import Mathlib.Data.Finset.Sort

/-!
# What Unicorn does (src/emu.c)

The emulator leaves memory, registers and running to Unicorn. What it relies on is stated once, as
the laws that the engine's calls keep, and an engine of pages that knows a few instructions keeps
them.
-/

namespace AsmTest.Emulator

open Mapped (Memory Covered Free Listing)

section Laws

def UcRegion.size (r : UcRegion) : ℕ := r.last - r.begin + 1

def UcRegion.region (r : UcRegion) : Mapped.Region ℕ := ⟨r.begin, r.size, r.perms⟩

/-- Whole pages of the address space -/
def Pages (a n : ℕ) : Prop := a % 4096 = 0 ∧ n % 4096 = 0 ∧ 0 < n ∧ a + n ≤ 2 ^ 64

/-- `INT_MAX`: no more is read or written at once. -/
def ioMax : ℕ := 2147483647

/-- What the emulator writes to registers: words to those with a name, zero to the vectors, and
flags of which only the bit is set that always is -/
def Plain (r : Reg) (v : BitVec 128) : Prop :=
  (r ∈ gpRegs ++ [.rip] ∧ v.toNat < 2 ^ 64) ∨ ((∃ i, r = .xmm i) ∧ v = 0) ∨ (r = .eflags ∧ v = 2)

variable {U C R : Type}

/-- What Unicorn documents of its calls. The guest of an engine is its memory, its register file
and a rest that the context holds as well; of an engine whose translations were dropped nothing else
matters for a run. -/
structure Lawful (X : Unicorn U C) (mem : U → Memory ℕ UInt8) (rest : U → R)
    (Flushed : U → Prop) : Prop where
  regions : ∀ u, Listing (mem u) ((X.memRegions u).map UcRegion.region)
  pages : ∀ u, ∀ r ∈ X.memRegions u, Pages r.begin r.size
  perms : ∀ u, ∀ r ∈ X.memRegions u, r.perms ≤ protAll
  unmap : ∀ u a n, Pages a n → Covered (mem u) a n →
    (X.memUnmap u a n).1 = true ∧ mem (X.memUnmap u a n).2 = Mapped.unmap (mem u) a n
  map : ∀ u a n perms, perms ≤ protAll → Pages a n → Free (mem u) a n →
    (X.memMap u a n perms).1 = true ∧ mem (X.memMap u a n perms).2 = Mapped.map (mem u) a n perms 0
  map_error : ∀ u a n perms, ¬(Pages a n ∧ Free (mem u) a n) →
    (X.memMap u a n perms).1 = false ∧ mem (X.memMap u a n perms).2 = mem u
  map_file : ∀ u a n perms, X.regRead (X.memMap u a n perms).2 = X.regRead u
  map_rest : ∀ u a n perms, rest (X.memMap u a n perms).2 = rest u
  read : ∀ u a n, Covered (mem u) a n → n ≤ ioMax →
    X.memRead u a n = some (Mapped.bytes (mem u) a n)
  read_error : ∀ u a n, ¬(Covered (mem u) a n ∧ n ≤ ioMax) → X.memRead u a n = none
  write : ∀ u a data, Covered (mem u) a data.length → data.length ≤ ioMax →
    (X.memWrite u a data).1 = true ∧ mem (X.memWrite u a data).2 = Mapped.store (mem u) a data
  write_error : ∀ u a data, ¬(Covered (mem u) a data.length ∧ data.length ≤ ioMax) →
    (X.memWrite u a data).1 = false ∧ mem (X.memWrite u a data).2 = mem u
  write_file : ∀ u a data, X.regRead (X.memWrite u a data).2 = X.regRead u
  write_rest : ∀ u a data, rest (X.memWrite u a data).2 = rest u
  write_flushed : ∀ u a data, Flushed u → Flushed (X.memWrite u a data).2
  regWrite_file : ∀ u r v, Plain r v →
    X.regRead (X.regWrite u r v) = Function.update (X.regRead u) r v
  regWrite_mem : ∀ u r v, mem (X.regWrite u r v) = mem u
  regWrite_rest : ∀ u r v, rest (X.regWrite u r v) = rest u
  regWrite_flushed : ∀ u r v, Flushed u → Flushed (X.regWrite u r v)
  flush_mem : ∀ u, mem (X.flushTb u) = mem u
  flush_file : ∀ u, X.regRead (X.flushTb u) = X.regRead u
  flush_rest : ∀ u, rest (X.flushTb u) = rest u
  flush : ∀ u, Flushed (X.flushTb u)
  restore : ∀ u ctx u', X.contextSave u = some ctx → (X.contextRestore u' ctx).1 = true
  restore_mem : ∀ u' ctx, mem (X.contextRestore u' ctx).2 = mem u'
  restore_file : ∀ u ctx u', X.contextSave u = some ctx →
    X.regRead (X.contextRestore u' ctx).2 = X.regRead u
  restore_rest : ∀ u ctx u', X.contextSave u = some ctx → rest (X.contextRestore u' ctx).2 = rest u
  start : ∀ u u' pc last n, mem u = mem u' → (∀ r, r ≠ .rip → X.regRead u r = X.regRead u' r) →
    rest u = rest u' → Flushed u → Flushed u' →
    let run := X.emuStart u pc last n
    let run' := X.emuStart u' pc last n
    run.1 = run'.1 ∧ run.2.2 = run'.2.2 ∧ mem run.2.1 = mem run'.2.1 ∧
      X.regRead run.2.1 = X.regRead run'.2.1 ∧ rest run.2.1 = rest run'.2.1

end Laws

section Lawful

variable {U C R : Type} {X : Unicorn U C} {mem : U → Memory ℕ UInt8} {rest : U → R}
  {Flushed : U → Prop} {u : U}

lemma covered_memWrite (hX : Lawful X mem rest Flushed) {a n : ℕ} (h : Covered (mem u) a n)
    (c : ℕ) (data : List UInt8) : Covered (mem (X.memWrite u c data).2) a n := by
  by_cases hok : Covered (mem u) c data.length ∧ data.length ≤ ioMax
  · rw [(hX.write u c data hok.1 hok.2).2]
    exact h.store c data
  · rwa [(hX.write_error u c data hok).2]

lemma plain_word {r : Reg} (hr : r ∈ gpRegs ++ [.rip]) (v : BitVec 64) :
    Plain r (v.setWidth 128) := by
  refine .inl ⟨hr, ?_⟩
  rw [BitVec.toNat_setWidth_of_le (by decide)]
  exact v.isLt

lemma plain_gp {r : Reg} (hr : r ∈ gpRegs) : Plain r 0 :=
  plain_word (List.mem_append_left _ hr) 0

lemma plain_arg {args : List (BitVec 64)} {p : Reg × BitVec 64} (hp : p ∈ argRegs.zip args) :
    Plain p.1 (p.2.setWidth 128) := by
  have hsub : argRegs ⊆ gpRegs ++ [.rip] := by decide
  exact plain_word (hsub (List.of_mem_zip hp).1) p.2

end Lawful

section Paged

structure Paged where
  pages : Finset ℕ
  bounded : ∀ p ∈ pages, p < 2 ^ 52
  perms : ℕ → ℕ
  perms_le : ∀ p ∈ pages, perms p ≤ protAll
  bytes : ℕ → UInt8
  file : File

def Paged.mem (u : Paged) : Memory ℕ UInt8 :=
  fun b => if b / 4096 ∈ u.pages then some (u.perms (b / 4096), u.bytes b) else none

/-- The pages of a range of whole pages -/
def pageRange (a n : ℕ) : Finset ℕ := Finset.Ico (a / 4096) ((a + n) / 4096)

lemma mem_pageRange {a n : ℕ} (h : Pages a n) (b : ℕ) :
    b / 4096 ∈ pageRange a n ↔ a ≤ b ∧ b < a + n := by
  obtain ⟨ha, hn, -, -⟩ := h
  rw [pageRange, Finset.mem_Ico]
  omega

def Paged.file0 (u : Paged) (pc : BitVec 64) : File :=
  Function.update u.file .rip (pc.setWidth 128)

lemma Paged.file0_of_ne (u : Paged) (pc : BitVec 64) {r : Reg} (hr : r ≠ .rip) :
    u.file0 pc r = u.file r :=
  Function.update_of_ne hr _ _

/-- A return, which leaves `more` bytes of the stack as well: the hooks, the registers after it and
the error -/
def afterRet (file : File) (last : BitVec 64) (more : ℕ) : List UcHook × File × ℤ :=
  let sp : BitVec 64 := (file .rsp).setWidth 64
  let after := Function.update file .rsp ((sp + 8 + BitVec.ofNat 64 more).setWidth 128)
  ([.access false sp 8 file], Function.update after .rip (last.setWidth 128), 0)

open Classical in
/-- The engine knows the two near returns, to the address where the run ends, and a `JRCXZ` that is
taken to where nothing is mapped. All else raises an exception, `UC_ERR_EXCEPTION`. -/
noncomputable def runOne (m : Memory ℕ UInt8) (file : File) (pc last : BitVec 64) :
    List UcHook × File × ℤ :=
  let byte := fun i => ((m (pc.toNat + i)).map Prod.snd).getD 0
  let sp : BitVec 64 := (file .rsp).setWidth 64
  let returns := Covered m sp.toNat 8 ∧ Mapped.bytes m sp.toNat 8 = Endian.leBytes 8 last.toNat
  let target := pc + 2 + BitVec.signExtend 64 (byte 1).toBitVec
  if byte 0 = 0xC3 ∧ returns then afterRet file last 0
  else if byte 0 = 0xC2 ∧ returns then afterRet file last ((byte 1).toNat + 256 * (byte 2).toNat)
  else if byte 0 = 0xE3 ∧ file .rcx = 0 ∧ m target.toNat = none then
    ([.invalid .fetchUnmapped target], Function.update file .rip (target.setWidth 128), 8)
  else ([], file, 21)

open Classical in
noncomputable def paged : Unicorn Paged File where
  memRegions u := (u.pages.sort (· ≤ ·)).map fun p => ⟨4096 * p, 4096 * p + 4095, u.perms p⟩
  memMap u a n perms :=
    if h : perms ≤ protAll ∧ Pages a n ∧ Free u.mem a n then
      (true, { u with
        pages := u.pages ∪ pageRange a n
        bounded := by
          intro p hp
          rw [Finset.mem_union, pageRange, Finset.mem_Ico] at hp
          have := h.2.1.2.2.2
          exact hp.elim (u.bounded p) fun hp => by omega
        perms := fun p => if p ∈ pageRange a n then perms else u.perms p
        perms_le := by
          intro p hp
          rw [Finset.mem_union] at hp
          split_ifs with hin
          · exact h.1
          · exact u.perms_le p (hp.resolve_right hin)
        bytes := fun b => if b / 4096 ∈ pageRange a n then 0 else u.bytes b })
    else (false, u)
  memUnmap u a n :=
    if Pages a n ∧ Covered u.mem a n then
      (true, { u with
        pages := u.pages \ pageRange a n
        bounded := fun p hp => u.bounded p (Finset.mem_sdiff.mp hp).1
        perms_le := fun p hp => u.perms_le p (Finset.mem_sdiff.mp hp).1 })
    else (false, u)
  memRead u a n := if Covered u.mem a n ∧ n ≤ ioMax then some (Mapped.bytes u.mem a n) else none
  memWrite u a data :=
    if Covered u.mem a data.length ∧ data.length ≤ ioMax then
      (true, { u with bytes := fun b =>
        if a ≤ b then (data[b - a]?).getD (u.bytes b) else u.bytes b })
    else (false, u)
  regRead u := u.file
  regWrite u r v := { u with file := Function.update u.file r v }
  flushTb u := u
  contextSave u := some u.file
  contextRestore u ctx := (true, { u with file := ctx })
  emuStart u pc last _ :=
    let file := u.file0 pc
    let r := runOne u.mem file pc last
    (.block pc file :: .code pc file :: r.1, { u with file := r.2.1 }, r.2.2)

lemma paged_listing (u : Paged) :
    Listing u.mem ((paged.memRegions u).map UcRegion.region) := by
  have hmem : ∀ r, r ∈ (paged.memRegions u).map UcRegion.region ↔
      ∃ p ∈ u.pages, (⟨4096 * p, 4096, u.perms p⟩ : Mapped.Region ℕ) = r := by
    intro r
    simp [paged, UcRegion.region, UcRegion.size]
  have hhas : ∀ p b, (⟨4096 * p, 4096, u.perms p⟩ : Mapped.Region ℕ).Has b ↔ b / 4096 = p := by
    intro p b
    simp only [Mapped.Region.Has]
    omega
  have hregion : ∀ p, UcRegion.region ⟨4096 * p, 4096 * p + 4095, u.perms p⟩ =
      ⟨4096 * p, 4096, u.perms p⟩ := by
    intro p
    simp [UcRegion.region, UcRegion.size]
  constructor
  · intro b
    by_cases hb : b / 4096 ∈ u.pages
    · have hr := (hmem _).mpr ⟨b / 4096, hb, rfl⟩
      simp only [Paged.mem, if_pos hb, Option.isSome_some, true_iff]
      exact ⟨_, hr, (hhas _ b).mpr rfl⟩
    · simp only [Paged.mem, if_neg hb, Option.isSome_none, Bool.false_eq_true, false_iff]
      rintro ⟨r, hr, hhasr⟩
      obtain ⟨p, hp, rfl⟩ := (hmem r).mp hr
      rw [hhas] at hhasr
      exact hb (hhasr ▸ hp)
  · intro r hr b hb
    obtain ⟨p, hp, rfl⟩ := (hmem r).mp hr
    rw [hhas] at hb
    rw [Paged.mem, if_pos (hb ▸ hp), hb]
    rfl
  · have hsorted : (u.pages.sort (· ≤ ·)).Pairwise fun p q => p ≠ q := Finset.sort_nodup u.pages _
    simp only [paged, List.map_map]
    rw [List.pairwise_map]
    apply hsorted.imp
    intro p q hpq b hb
    simp only [Function.comp_apply, hregion] at hb
    exact hpq (((hhas p b).mp hb.1).symm.trans ((hhas q b).mp hb.2))

lemma paged_lawful : Lawful paged Paged.mem (fun _ => ()) (fun _ => True) where
  regions := paged_listing
  pages u r hr := by
    simp only [paged, List.mem_map, Finset.mem_sort] at hr
    obtain ⟨p, hp, rfl⟩ := hr
    have := u.bounded p hp
    simp only [Pages, UcRegion.size]
    omega
  perms u r hr := by
    simp only [paged, List.mem_map, Finset.mem_sort] at hr
    obtain ⟨p, hp, rfl⟩ := hr
    exact u.perms_le p hp
  unmap u a n hpages hcovered := by
    simp only [paged, if_pos (And.intro hpages hcovered), true_and]
    funext b
    simp only [Paged.mem, Mapped.unmap, Finset.mem_sdiff, mem_pageRange hpages]
    by_cases hb : a ≤ b ∧ b < a + n <;> simp [hb]
  map u a n perms hperms hpages hfree := by
    simp only [paged, dif_pos (And.intro hperms (And.intro hpages hfree)), true_and]
    funext b
    simp only [Paged.mem, Mapped.map, Finset.mem_union, mem_pageRange hpages]
    by_cases hb : a ≤ b ∧ b < a + n <;> simp [hb]
  map_error u a n perms h := by
    simp only [paged, dif_neg fun hok => h (And.right hok), and_self]
  map_file u a n perms := by
    simp only [paged]
    split_ifs <;> rfl
  map_rest u a n perms := rfl
  read u a n hcovered hn := if_pos ⟨hcovered, hn⟩
  read_error u a n h := if_neg h
  write u a data hcovered hlen := by
    simp only [paged, if_pos (And.intro hcovered hlen), true_and]
    funext b
    simp only [Paged.mem, Mapped.store]
    split_ifs with hpage hle
    · cases data[b - a]? <;> rfl
    · rfl
    · cases data[b - a]? <;> rfl
    · rfl
  write_error u a data h := by
    simp only [paged, if_neg h, and_self]
  write_file u a data := by
    simp only [paged]
    split_ifs <;> rfl
  write_rest u a data := rfl
  write_flushed _ _ _ _ := trivial
  regWrite_file u r v _ := rfl
  regWrite_mem u r v := rfl
  regWrite_rest u r v := rfl
  regWrite_flushed _ _ _ _ := trivial
  flush_mem u := rfl
  flush_file u := rfl
  flush_rest u := rfl
  flush _ := trivial
  restore u ctx u' _ := rfl
  restore_mem u' ctx := rfl
  restore_file u ctx u' h := (Option.some.inj h).symm
  restore_rest u ctx u' _ := rfl
  start u u' pc last n hmem hfile _ _ _ := by
    have hfile0 : u.file0 pc = u'.file0 pc := by
      funext r
      by_cases hr : r = .rip
      · rw [hr, Paged.file0, Paged.file0, Function.update_self, Function.update_self]
      · rw [u.file0_of_ne pc hr, u'.file0_of_ne pc hr]
        exact hfile r hr
    simp only [paged, hfile0, hmem, true_and]
    exact ⟨hmem, trivial⟩

/-- The engine of a handle that was opened -/
def opened : Paged where
  pages := Finset.Ico 256 272 ∪ Finset.Ico 512 528
  bounded p hp := by
    rw [Finset.mem_union, Finset.mem_Ico, Finset.mem_Ico] at hp
    omega
  perms p := if p < 512 then protAll else protRw
  perms_le p _ := by
    split_ifs <;> decide
  bytes _ := 0
  file _ := 0

lemma covered_opened {u : Paged} (h : u.pages = opened.pages) :
    Covered u.mem emuCodeBase.toNat emuCodeSize ∧
      Covered u.mem emuStackBase.toNat emuStackSize.toNat := by
  have hcode : emuCodeBase.toNat = 0x100000 := rfl
  have hsize : emuCodeSize = 0x10000 := rfl
  have hstack : emuStackBase.toNat = 0x200000 := rfl
  have hstackSize : emuStackSize.toNat = 0x10000 := rfl
  have hmapped : ∀ b, b / 4096 ∈ u.pages → (u.mem b).isSome = true := by
    intro b hb
    rw [Paged.mem, if_pos hb]
    rfl
  constructor <;> intro b ha hb <;> apply hmapped <;>
    rw [h, opened, Finset.mem_union, Finset.mem_Ico, Finset.mem_Ico] <;> omega

end Paged

end AsmTest.Emulator
