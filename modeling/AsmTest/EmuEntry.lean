import AsmTest.EmuLaws

/-!
# The entry of a call (src/emu.c)

What the engine holds when a routine starts: the image of the code in its window, the return
address and the arguments that do not fit in registers on the stack, the others in the registers
of the calling convention. Nothing that is called on a handle maps memory away, so every routine
that is called on a handle that was opened starts so.
-/

namespace AsmTest.Emulator

open Hwtrace (Trace)
open Mapped (Memory Covered Free)

section Latest

variable {α β γ : Type} [DecidableEq β] {reg : α → β} {v : α → γ} {l : List α} {r : β} {w c : γ}

/-- Of a row of writes to registers one register keeps the latest that is its own. -/
def latest (reg : α → β) (v : α → γ) (r : β) (l : List α) (w : γ) : γ :=
  l.foldl (fun w x => if r = reg x then v x else w) w

lemma latest_of_forall_ne (h : ∀ x ∈ l, r ≠ reg x) : latest reg v r l w = w := by
  induction l with
  | nil => rfl
  | cons x l ih =>
    rw [List.forall_mem_cons] at h
    rw [latest, List.foldl_cons, if_neg h.1]
    exact ih h.2

lemma latest_eq (h : ∃ x ∈ l, r = reg x) (hv : ∀ x ∈ l, r = reg x → v x = c) :
    latest reg v r l w = c := by
  -- what comes later counts; if nothing does, it is the first
  induction l generalizing w with
  | nil => exact absurd h (by simp)
  | cons x l ih =>
    rw [List.forall_mem_cons] at hv
    rw [latest, List.foldl_cons]
    by_cases hlater : ∃ y ∈ l, r = reg y
    · exact ih hlater hv.2
    · have hx : r = reg x := by
        obtain ⟨y, hy, hry⟩ := h
        obtain rfl | hy := List.mem_cons.mp hy
        · exact hry
        · exact absurd ⟨y, hy, hry⟩ hlater
      rw [if_pos hx, hv.1 hx]
      exact latest_of_forall_ne fun y hy hry => hlater ⟨y, hy, hry⟩

end Latest

section Entry

variable {U C R : Type} {X : Unicorn U C} {mem : U → Memory ℕ UInt8} {rest : U → R}
  {Flushed : U → Prop} {u : U}

/-- The bytes in the code window: the routine, and `INT3` behind it -/
def codeImage (code : List UInt8) : List UInt8 :=
  code.take emuCodeSize ++ List.replicate (emuCodeSize - code.length) 0xCC

/-- The bytes from the stack pointer up: the return address, and the arguments past the sixth -/
def stackImage (args : List (BitVec 64)) : List UInt8 :=
  Endian.leBytes 8 emuRetMagic.toNat ++ (args.drop 6).flatMap fun v => Endian.leBytes 8 v.toNat

/-- The stack pointer of a call -/
def entrySp (args : List (BitVec 64)) : ℕ :=
  emuStackBase.toNat + emuStackSize.toNat - 8 - ((args.length - 6) * 8 + 15) / 16 * 16

lemma mem_trapFill (hX : Lawful X mem rest Flushed) (fuel off : ℕ)
    (h : Covered (mem u) emuCodeBase.toNat emuCodeSize) (hfuel : emuCodeSize ≤ off + fuel * 4096) :
    mem (trapFill X fuel off u) =
      Mapped.store (mem u) (emuCodeBase.toNat + off) (List.replicate (emuCodeSize - off) 0xCC) := by
  -- the fuel is the number of pieces: it does not run out before the window is full
  induction fuel generalizing off u with
  | zero =>
    rw [trapFill, Nat.sub_eq_zero_of_le (by omega), List.replicate_zero, Mapped.store_nil]
  | succ fuel ih =>
    rw [trapFill]
    split_ifs with hoff
    · have hlen : (List.replicate (min (emuCodeSize - off) 4096) (0xCC : UInt8)).length =
          min (emuCodeSize - off) 4096 := List.length_replicate
      have hrange : Covered (mem u) (emuCodeBase.toNat + off)
          (List.replicate (min (emuCodeSize - off) 4096) (0xCC : UInt8)).length :=
        fun b ha hb => h b (by omega) (by omega)
      have hwrite := hX.write u _ _ hrange (by rw [hlen, ioMax]; omega)
      rw [← Prod.mk.eta (p := X.memWrite u _ _), hwrite.1]
      dsimp only
      have hwindow : Covered (mem (X.memWrite u (emuCodeBase.toNat + off)
          (List.replicate (min (emuCodeSize - off) 4096) 0xCC)).2) emuCodeBase.toNat emuCodeSize :=
        covered_memWrite hX h _ _
      rw [ih (off + 4096) hwindow (by omega), hwrite.2]
      obtain hlast | hmore := Nat.lt_or_ge emuCodeSize (off + 4096)
      · rw [Nat.sub_eq_zero_of_le hlast.le, List.replicate_zero, Mapped.store_nil,
          Nat.min_eq_left (by omega)]
      · have hsplit : emuCodeSize - off = 4096 + (emuCodeSize - (off + 4096)) := by omega
        rw [Nat.min_eq_right (by omega), hsplit, List.replicate_add, ← Mapped.store_append,
          List.length_replicate, Nat.add_assoc]
    · rw [Nat.sub_eq_zero_of_le (not_lt.mp hoff), List.replicate_zero, Mapped.store_nil]

lemma loadCode_spec (hX : Lawful X mem rest Flushed)
    (h : Covered (mem u) emuCodeBase.toNat emuCodeSize) (code : List UInt8) :
    (loadCode X u code).1 = true ∧
      mem (loadCode X u code).2 = Mapped.store (mem u) emuCodeBase.toNat (codeImage code) := by
  have hlen : (code.take emuCodeSize).length = min emuCodeSize code.length := List.length_take
  have hrange : Covered (mem u) emuCodeBase.toNat (code.take emuCodeSize).length :=
    fun b ha hb => h b ha (by omega)
  have hio : (code.take emuCodeSize).length ≤ ioMax := by
    rw [hlen]
    exact (min_le_left ..).trans (by decide)
  have hwrite := hX.write u _ _ hrange hio
  have hwindow := covered_memWrite hX h emuCodeBase.toNat (code.take emuCodeSize)
  rw [loadCode, ← Prod.mk.eta (p := X.memWrite u _ _), hwrite.1]
  refine ⟨rfl, ?_⟩
  have hfuel : emuCodeSize ≤ (code.take emuCodeSize).length + emuCodeSize / 4096 * 4096 := by
    rw [emuCodeSize]
    omega
  have hleft : emuCodeSize - (code.take emuCodeSize).length = emuCodeSize - code.length := by
    omega
  rw [hX.flush_mem, mem_trapFill hX _ _ hwindow hfuel, hwrite.2, Mapped.store_append, hleft,
    codeImage]

lemma mem_foldl_regWrite (hX : Lawful X mem rest Flushed) {α : Type} (l : List α) (r : α → Reg)
    (v : α → BitVec 128) (u : U) : mem (l.foldl (fun u x => X.regWrite u (r x) (v x)) u) = mem u :=
  List.foldlRecOn (motive := fun w => mem w = mem u) l _ rfl fun w hw x _ =>
    (hX.regWrite_mem w (r x) (v x)).trans hw

lemma mem_zeroRegs (hX : Lawful X mem rest Flushed) (u : U) : mem (emuX86ZeroRegs X u) = mem u := by
  rw [emuX86ZeroRegs, hX.regWrite_mem, mem_foldl_regWrite hX _ Reg.xmm fun _ => 0,
    mem_foldl_regWrite hX _ (fun r => r) fun _ => 0]

lemma file_foldl_memWrite (hX : Lawful X mem rest Flushed) {α : Type} (l : List α) (a : α → ℕ)
    (data : α → List UInt8) (u : U) :
    X.regRead (l.foldl (fun u x => (X.memWrite u (a x) (data x)).2) u) = X.regRead u :=
  List.foldlRecOn (motive := fun w => X.regRead w = X.regRead u) l _ rfl fun w hw x _ =>
    (hX.write_file w (a x) (data x)).trans hw

/-- The arguments past the sixth lie in the order of the call from the return address up. -/
lemma mem_pushArgs (hX : Lawful X mem rest Flushed) {sp : BitVec 64} {k : ℕ}
    {l : List (BitVec 64)} (h : Covered (mem u) (sp.toNat + 8 + 8 * k) (8 * l.length))
    (hbound : sp.toNat + 8 + 8 * (k + l.length) < 2 ^ 64) :
    mem ((l.zipIdx k).foldl (fun u a => (X.memWrite u
        (sp + 8 + 8 * BitVec.ofNat 64 a.2).toNat (Endian.leBytes 8 a.1.toNat)).2) u) =
      Mapped.store (mem u) (sp.toNat + 8 + 8 * k)
        (l.flatMap fun v => Endian.leBytes 8 v.toNat) := by
  -- each argument goes right above those before it
  induction l generalizing k u with
  | nil => exact (Mapped.store_nil _ _).symm
  | cons v l ih =>
    rw [List.length_cons] at h hbound
    have haddr : (sp + 8 + 8 * BitVec.ofNat 64 k).toNat = sp.toNat + 8 + 8 * k := by
      have height : (8 : BitVec 64).toNat = 8 := rfl
      simp only [BitVec.toNat_add, BitVec.toNat_mul, BitVec.toNat_ofNat, height]
      omega
    have hlen : (Endian.leBytes 8 v.toNat).length = 8 := Endian.length_leBytes 8 v.toNat
    have hrange : Covered (mem u) (sp.toNat + 8 + 8 * k) (Endian.leBytes 8 v.toNat).length :=
      fun b ha hb => h b ha (by omega)
    have hwrite := (hX.write u _ _ hrange (by rw [hlen]; decide)).2
    rw [List.zipIdx_cons, List.foldl_cons, haddr]
    have hnext : Covered (mem (X.memWrite u (sp.toNat + 8 + 8 * k)
        (Endian.leBytes 8 v.toNat)).2) (sp.toNat + 8 + 8 * (k + 1)) (8 * l.length) := by
      apply covered_memWrite hX
      exact fun b ha hb => h b (by omega) (by omega)
    rw [ih hnext (by omega), hwrite, List.flatMap_cons, ← Mapped.store_append, hlen]
    congr 1

lemma regRead_foldl_regWrite (hX : Lawful X mem rest Flushed) {α : Type} (l : List α)
    (reg : α → Reg) (v : α → BitVec 128) (hv : ∀ x ∈ l, Plain (reg x) (v x)) (u : U) (r : Reg) :
    X.regRead (l.foldl (fun u x => X.regWrite u (reg x) (v x)) u) r =
      latest reg v r l (X.regRead u r) := by
  induction l generalizing u with
  | nil => rfl
  | cons x l ih =>
    rw [List.forall_mem_cons] at hv
    rw [List.foldl_cons, ih hv.2, latest, latest, List.foldl_cons, hX.regWrite_file u _ _ hv.1,
      Function.update_apply]

/-- Of the flags bit 1 is set; `RSP`, `RIP` and `MXCSR` are not touched. -/
lemma regRead_zeroRegs (hX : Lawful X mem rest Flushed) (u : U) {r : Reg} (hrsp : r ≠ .rsp)
    (hrip : r ≠ .rip) (hmxcsr : r ≠ .mxcsr) :
    X.regRead (emuX86ZeroRegs X u) r = if r = .eflags then 2 else 0 := by
  have hall : (∃ i, r = .xmm i) ∨ r = .eflags ∨ r ∈ gpRegs.filter (· ≠ .rsp) := by
    cases r with
    | xmm i => exact .inl ⟨i, rfl⟩
    | eflags => exact .inr (.inl rfl)
    | rsp => exact absurd rfl hrsp
    | rip => exact absurd rfl hrip
    | mxcsr => exact absurd rfl hmxcsr
    | _ => exact .inr (.inr (by decide))
  rw [emuX86ZeroRegs, hX.regWrite_file _ _ _ (.inr (.inr ⟨rfl, rfl⟩)), Function.update_apply,
    regRead_foldl_regWrite hX _ Reg.xmm (fun _ => 0) (fun i _ => .inr (.inl ⟨⟨i, rfl⟩, rfl⟩)),
    regRead_foldl_regWrite hX _ (fun r => r) (fun _ => 0)
      fun _ hr => plain_gp (List.mem_of_mem_filter hr)]
  obtain ⟨i, rfl⟩ | rfl | hgp := hall
  · rw [if_neg (by simp), if_neg (by simp)]
    exact latest_eq ⟨i, List.mem_finRange i, rfl⟩ fun _ _ _ => rfl
  · rw [if_pos rfl, if_pos rfl]
  · have hflags : r ≠ .eflags := by
      rintro rfl
      simp [gpRegs] at hgp
    rw [if_neg hflags, if_neg hflags, latest_of_forall_ne]
    · exact latest_eq ⟨r, hgp, rfl⟩ fun _ _ _ => rfl
    · rintro i - rfl
      simp [gpRegs] at hgp

/-- What System V asks of the state at the entry of a routine. The image of the code fills the
window, the return address is at the stack pointer and the arguments past the sixth above it; the
first six are in their registers, and all other registers hold what was preloaded, or zero. -/
lemma setup_spec (hX : Lawful X mem rest Flushed) {e : Emu U}
    (hcode : Covered (mem e.uc) emuCodeBase.toNat emuCodeSize)
    (hstack : Covered (mem e.uc) emuStackBase.toNat emuStackSize.toNat) (fn : List UInt8)
    {args : List (BitVec 64)} (hroom : (args.length - 6) * 8 + 16 ≤ emuStackSize.toNat) :
    let start := emuX86SetupSysv X e fn args
    start.1 = true ∧
      mem start.2 = Mapped.store
        (Mapped.store (mem e.uc) emuCodeBase.toNat (codeImage fn)) (entrySp args)
        (stackImage args) ∧
      X.regRead start.2 .rsp = BitVec.ofNat 128 (entrySp args) ∧
      (∀ p ∈ argRegs.zip args, X.regRead start.2 p.1 = p.2.setWidth 128) ∧
      ∀ r, r ≠ .rsp → r ≠ .rip → r ≠ .mxcsr → r ∉ argRegs.take args.length →
        X.regRead start.2 r = latest (fun p => p.1.1) (fun p => p.2.setWidth 128) r e.preload
          (if r = .eflags then 2 else 0) := by
  have hbase : emuStackBase.toNat = 0x200000 := rfl
  have hsize : emuStackSize.toNat = 0x10000 := rfl
  obtain ⟨hok, hload⟩ := loadCode_spec hX hcode fn
  have hfst : (argRegs.zip args).map Prod.fst = argRegs.take args.length := by
    rw [List.zip_eq_zip_take_min, List.map_fst_zip (by simp), List.take_eq_take_iff]
    omega
  have hnodup : ((argRegs.zip args).map Prod.fst).Nodup :=
    hfst ▸ (by decide : argRegs.Nodup).sublist (List.take_sublist ..)
  have hkeys : ∀ r, (∃ p ∈ argRegs.zip args, r = p.1) → r ∈ argRegs.take args.length := by
    rintro r ⟨p, hp, rfl⟩
    exact hfst ▸ List.mem_map_of_mem hp
  rw [emuX86SetupSysv, ← Prod.mk.eta (p := loadCode X e.uc fn), hok]
  dsimp only
  set pad := ((args.length - 6) * 8 + 15) / 16 * 16 with hpad
  set sp := emuStackBase + emuStackSize - 8 - BitVec.ofNat 64 pad with hspdef
  have hsp : sp.toNat = entrySp args := by
    have htop : emuStackBase + emuStackSize - 8 = 0x20FFF8#64 := rfl
    rw [hspdef, htop, entrySp, BitVec.toNat_sub, BitVec.toNat_ofNat, BitVec.toNat_ofNat, hbase,
      hsize]
    omega
  have hentry : entrySp args = 0x20FFF8 - pad := by
    rw [entrySp, hbase, hsize]
  have hdrop : (args.drop 6).length = args.length - 6 := List.length_drop
  set v := (loadCode X e.uc fn).2
  set w := e.preload.foldl (fun u p => X.regWrite u p.1.1 (p.2.setWidth 128)) (emuX86ZeroRegs X v)
    with hwdef
  set ret := Endian.leBytes 8 emuRetMagic.toNat
  have hret8 : ret.length = 8 := Endian.length_leBytes 8 _
  have hw : mem w = Mapped.store (mem e.uc) emuCodeBase.toNat (codeImage fn) := by
    rw [hwdef, mem_foldl_regWrite hX e.preload (fun p => p.1.1) fun p => p.2.setWidth 128,
      mem_zeroRegs hX, hload]
  have hmapped : Covered (mem w) emuStackBase.toNat emuStackSize.toNat :=
    hw ▸ hstack.store _ _
  have hret := (hX.write w sp.toNat ret (fun b ha hb => hmapped b (by omega) (by omega))
    (by rw [hret8]; decide)).2
  have habove : Covered (mem (X.memWrite w sp.toNat ret).2) (sp.toNat + 8 + 8 * 0)
      (8 * (args.drop 6).length) := by
    apply covered_memWrite hX
    exact fun b ha hb => hmapped b (by omega) (by omega)
  have hpush := mem_pushArgs hX habove (by omega)
  have hfile := file_foldl_memWrite hX (args.drop 6).zipIdx
    (fun a => (sp + 8 + 8 * BitVec.ofNat 64 a.2).toNat) (fun a => Endian.leBytes 8 a.1.toNat)
    (X.memWrite w sp.toNat ret).2
  have hargs := fun u r => regRead_foldl_regWrite hX (argRegs.zip args) Prod.fst
    (fun p => p.2.setWidth 128) (fun p hp => plain_arg hp) u r
  refine ⟨rfl, ?_, ?_, fun p hp => ?_, fun r hrsp hrip hmxcsr hr => ?_⟩
  · rw [mem_foldl_regWrite hX (argRegs.zip args) Prod.fst fun p => p.2.setWidth 128,
      hX.regWrite_mem, hpush, hret, hw, Nat.mul_zero, Nat.add_zero, hsp]
    exact hret8 ▸ Mapped.store_append _ _ ret _
  · have hout : ∀ p ∈ argRegs.zip args, Reg.rsp ≠ p.1 := by
      intro p hp hrsp
      have := List.mem_of_mem_take (hkeys _ ⟨p, hp, hrsp⟩)
      exact absurd this (by decide)
    rw [hargs, latest_of_forall_ne hout, hX.regWrite_file _ _ _ (plain_word (by decide) sp),
      Function.update_self, ← hsp]
    apply BitVec.eq_of_toNat_eq
    rw [BitVec.toNat_setWidth, BitVec.toNat_ofNat]
  · rw [hargs]
    apply latest_eq ⟨p, hp, rfl⟩
    intro q hq hpq
    rw [List.inj_on_of_nodup_map hnodup hq hp hpq.symm]
  · rw [hargs, latest_of_forall_ne fun p hp hrp => hr (hkeys _ ⟨p, hp, hrp⟩),
      hX.regWrite_file _ _ _ (plain_word (by decide) sp), Function.update_of_ne hrsp, hfile,
      hX.write_file, hwdef, regRead_foldl_regWrite hX e.preload (fun p => p.1.1)
      (fun p => p.2.setWidth 128) (fun p _ => plain_word p.1.2 p.2),
      regRead_zeroRegs hX _ hrsp hrip hmxcsr]

/-- The image of the code is at the entry of the routine. -/
lemma setup_code (hX : Lawful X mem rest Flushed) {e : Emu U}
    (hcode : Covered (mem e.uc) emuCodeBase.toNat emuCodeSize)
    (hstack : Covered (mem e.uc) emuStackBase.toNat emuStackSize.toNat) (fn : List UInt8)
    {args : List (BitVec 64)} (hroom : (args.length - 6) * 8 + 16 ≤ emuStackSize.toNat) {i : ℕ}
    {b : UInt8} (hi : i < emuCodeSize) (hb : (codeImage fn)[i]? = some b) :
    (mem (emuX86SetupSysv X e fn args).2 (emuCodeBase.toNat + i)).map Prod.snd = some b := by
  obtain ⟨-, hmem, -⟩ := setup_spec hX hcode hstack fn hroom
  obtain ⟨p, hp⟩ := Option.isSome_iff_exists.mp
    (hcode (emuCodeBase.toNat + i) (by omega) (by omega))
  obtain ⟨hlt, rfl⟩ := List.getElem?_eq_some_iff.mp hb
  have hsize : emuCodeSize = 0x10000 := rfl
  have hbase : emuCodeBase.toNat = 0x100000 := rfl
  -- the stack is above the window, so nothing is pushed over the code
  have hbelow : emuCodeBase.toNat + i < entrySp args := by
    have hstackBase : emuStackBase.toNat = 0x200000 := rfl
    have hstackSize : emuStackSize.toNat = 0x10000 := rfl
    rw [entrySp]
    omega
  rw [hmem, Mapped.store_of_lt hbelow, Mapped.store_of_mem (by omega) (by omega), hp]
  simp

end Entry

section Opened

variable {U C R : Type} {X : Unicorn U C} {mem : U → Memory ℕ UInt8} {rest : U → R}
  {Flushed : U → Prop} {u v : U} {e : Emu U}

/-- What was mapped is mapped still. -/
def Keeps (mem : U → Memory ℕ UInt8) (u v : U) : Prop :=
  ∀ a n, Covered (mem u) a n → Covered (mem v) a n

lemma keeps_foldl_memWrite (hX : Lawful X mem rest Flushed) {α : Type} (l : List α) (c : α → ℕ)
    (data : α → List UInt8) (u : U) :
    Keeps mem u (l.foldl (fun u x => (X.memWrite u (c x) (data x)).2) u) :=
  fun a n h => List.foldlRecOn (motive := fun w => Covered (mem w) a n) l _ h fun _ hw x _ =>
    covered_memWrite hX hw (c x) (data x)

lemma keeps_memMap (hX : Lawful X mem rest Flushed) (u : U) (c k : ℕ) {perms : ℕ}
    (hperms : perms ≤ protAll) : Keeps mem u (X.memMap u c k perms).2 := by
  intro a n h
  by_cases hok : Pages c k ∧ Free (mem u) c k
  · rw [(hX.map u c k perms hperms hok.1 hok.2).2]
    exact h.map c k perms 0
  · rwa [(hX.map_error u c k perms hok).2]

lemma keeps_trapFill (hX : Lawful X mem rest Flushed) (fuel off : ℕ) (u : U) :
    Keeps mem u (trapFill X fuel off u) := by
  intro a n h
  induction fuel generalizing off u with
  | zero => exact h
  | succ fuel ih =>
    rw [trapFill]
    split_ifs
    · have hwrite := covered_memWrite hX h (emuCodeBase.toNat + off)
        (List.replicate (min (emuCodeSize - off) 4096) 0xCC)
      revert hwrite
      cases X.memWrite u (emuCodeBase.toNat + off)
          (List.replicate (min (emuCodeSize - off) 4096) 0xCC) with
      | mk ok v =>
        intro hwrite
        cases ok with
        | false => exact hwrite
        | true => exact ih _ v hwrite
    · exact h

lemma keeps_loadCode (hX : Lawful X mem rest Flushed) (u : U) (code : List UInt8) :
    Keeps mem u (loadCode X u code).2 := by
  intro a n h
  have hwrite := covered_memWrite hX h emuCodeBase.toNat (code.take emuCodeSize)
  rw [loadCode]
  revert hwrite
  cases X.memWrite u emuCodeBase.toNat (code.take emuCodeSize) with
  | mk ok v =>
    intro hwrite
    cases ok with
    | false => exact hwrite
    | true =>
      dsimp only
      rw [hX.flush_mem]
      exact keeps_trapFill hX _ _ v a n hwrite

lemma keeps_setup (hX : Lawful X mem rest Flushed) (e : Emu U) (fn : List UInt8)
    (args : List (BitVec 64)) : Keeps mem e.uc (emuX86SetupSysv X e fn args).2 := by
  intro a n h
  have hload := keeps_loadCode hX e.uc fn a n h
  rw [emuX86SetupSysv]
  revert hload
  cases loadCode X e.uc fn with
  | mk ok v =>
    intro hload
    cases ok with
    | false => exact hload
    | true =>
      dsimp only
      rw [mem_foldl_regWrite hX (argRegs.zip args) Prod.fst fun p => p.2.setWidth 128,
        hX.regWrite_mem]
      apply keeps_foldl_memWrite hX (args.drop 6).zipIdx _ fun a => Endian.leBytes 8 a.1.toNat
      apply covered_memWrite hX
      rw [mem_foldl_regWrite hX e.preload (fun p => p.1.1) fun p => p.2.setWidth 128,
        mem_zeroRegs hX]
      exact hload

/-- The engine maps nothing away while it runs. -/
def KeepsRun (X : Unicorn U C) (mem : U → Memory ℕ UInt8) : Prop :=
  ∀ u pc last n, Keeps mem u (X.emuStart u pc last n).2.1

lemma keeps_op (hX : Lawful X mem rest Flushed) (hrun : KeepsRun X mem) (e : Emu U) (op : EmuOp) :
    Keeps mem e.uc (emuOp X e op).2.uc := by
  intro a n h
  cases op with
  | call fn args maxInsns trace =>
    have hsetup := keeps_setup hX e fn args a n h
    simp only [emuOp, emuCallTraced]
    revert hsetup
    cases emuX86SetupSysv X e fn args with
    | mk ok v =>
      intro hsetup
      cases ok with
      | false => exact hsetup
      | true => exact hrun v _ _ _ a n hsetup
  | map addr size => exact keeps_memMap hX e.uc addr size (by decide) a n h
  | write addr data => exact covered_memWrite hX h addr data
  | setReg name value =>
    simp only [emuOp, emuSetReg]
    split
    · exact h
    · split_ifs <;> exact h
  | guardReg name want out =>
    simp only [emuOp, emuGuardReg]
    split <;> exact h
  | stepCapture cap bufOk mxcsrOk =>
    simp only [emuOp, emuStepCapture]
    split_ifs <;> exact h
  | read | clearRegs | watch | watchClear | guardRegClear | stepCaptureClear => exact h

lemma keeps_ops (hX : Lawful X mem rest Flushed) (hrun : KeepsRun X mem) (e : Emu U)
    (ops : List EmuOp) : Keeps mem e.uc (emuOps X e ops).2.uc := by
  induction ops generalizing e with
  | nil => exact fun _ _ h => h
  | cons op ops ih => exact fun a n h => ih _ a n (keeps_op hX hrun e op a n h)

lemma covered_memMap (hX : Lawful X mem rest Flushed) (u : U) (a n : ℕ) {perms : ℕ}
    (hperms : perms ≤ protAll) (h : (X.memMap u a n perms).1 = true) :
    Covered (mem (X.memMap u a n perms).2) a n := by
  by_cases hok : Pages a n ∧ Free (mem u) a n
  · rw [(hX.map u a n perms hperms hok.1 hok.2).2]
    exact Mapped.covered_map _ a n perms 0
  · rw [(hX.map_error u a n perms hok).1] at h
    cases h

/-- A handle that was opened has a window for the code and a stack. -/
lemma emuOpen_spec (hX : Lawful X mem rest Flushed) (h : emuOpen X u = some e) :
    Covered (mem e.uc) emuCodeBase.toNat emuCodeSize ∧
      Covered (mem e.uc) emuStackBase.toNat emuStackSize.toNat := by
  have hcode := covered_memMap hX u emuCodeBase.toNat emuCodeSize (le_refl protAll)
  rw [emuOpen] at h
  revert hcode h
  cases X.memMap u emuCodeBase.toNat emuCodeSize protAll with
  | mk ok v =>
    intro h hcode
    cases ok with
    | false => cases h
    | true =>
      have hrw : protRw ≤ protAll := by decide
      have hkeep := keeps_memMap hX v emuStackBase.toNat emuStackSize.toNat hrw _ _ (hcode rfl)
      have hstack := covered_memMap hX v emuStackBase.toNat emuStackSize.toNat hrw
      revert hkeep hstack h
      dsimp only
      cases X.memMap v emuStackBase.toNat emuStackSize.toNat protRw with
      | mk ok w =>
        intro h hkeep hstack
        cases ok with
        | false => cases h
        | true =>
          obtain rfl := Option.some.inj h
          exact ⟨hkeep, hstack rfl⟩

/-- Whatever was called before on a handle that was opened, the next routine is run, and it starts
in the state that System V asks for. -/
theorem sysv_entry (hX : Lawful X mem rest Flushed) (hrun : KeepsRun X mem)
    (hopen : emuOpen X u = some e) (ops : List EmuOp) (fn : List UInt8) {args : List (BitVec 64)}
    (hroom : (args.length - 6) * 8 + 16 ≤ emuStackSize.toNat) (maxInsns : ℕ)
    (trace : Option Trace) :
    let d := (emuOps X e ops).2
    let v := (emuX86SetupSysv X d fn args).2
    emuCallTraced X d fn args maxInsns trace = emuX86Run X d v maxInsns trace ∧
      mem v = Mapped.store (Mapped.store (mem d.uc) emuCodeBase.toNat (codeImage fn))
        (entrySp args) (stackImage args) ∧
      X.regRead v .rsp = BitVec.ofNat 128 (entrySp args) ∧ entrySp args % 16 = 8 ∧
      (∀ p ∈ argRegs.zip args, X.regRead v p.1 = p.2.setWidth 128) ∧
      ∀ r, r ≠ .rsp → r ≠ .rip → r ≠ .mxcsr → r ∉ argRegs.take args.length →
        X.regRead v r = latest (fun p => p.1.1) (fun p => p.2.setWidth 128) r d.preload
          (if r = .eflags then 2 else 0) := by
  intro d v
  obtain ⟨hcode, hstack⟩ := emuOpen_spec hX hopen
  have hkeeps := keeps_ops hX hrun e ops
  obtain ⟨hok, hmem, hrsp, hargs, hothers⟩ :=
    setup_spec hX (hkeeps _ _ hcode) (hkeeps _ _ hstack) fn hroom
  refine ⟨?_, hmem, hrsp, ?_, hargs, hothers⟩
  · rw [emuCallTraced, ← Prod.mk.eta (p := emuX86SetupSysv X d fn args), hok]
  · have hbase : emuStackBase.toNat = 0x200000 := rfl
    have hsize : emuStackSize.toNat = 0x10000 := rfl
    rw [entrySp, hbase, hsize]
    omega

/-- An engine in which nothing is mapped -/
def blank : Paged := ⟨∅, by simp, fun _ => 0, by simp, fun _ => 0, fun _ => 0⟩

lemma exists_emuOpen : ∃ e, emuOpen paged blank = some e := by
  have hcode := paged_lawful.map blank emuCodeBase.toNat emuCodeSize protAll le_rfl
    (by unfold Pages; decide) fun b _ _ => if_neg (Finset.notMem_empty _)
  have hstack := paged_lawful.map (paged.memMap blank emuCodeBase.toNat emuCodeSize protAll).2
    emuStackBase.toNat emuStackSize.toNat protRw (by decide) (by unfold Pages; decide)
    fun b ha _ => by
      have hbase : emuCodeBase.toNat + emuCodeSize ≤ emuStackBase.toNat := by decide
      rw [hcode.2, Mapped.map, if_neg (by omega)]
      exact if_neg (Finset.notMem_empty _)
  refine ⟨{ uc := (paged.memMap (paged.memMap blank emuCodeBase.toNat emuCodeSize protAll).2
    emuStackBase.toNat emuStackSize.toNat protRw).2 }, ?_⟩
  rw [emuOpen, ← Prod.mk.eta (p := paged.memMap blank _ _ _), hcode.1]
  dsimp only
  rw [← Prod.mk.eta (p := paged.memMap _ emuStackBase.toNat _ _), hstack.1]

theorem sysv_entry_seventh :
    ∃ e, emuOpen paged blank = some e ∧
      let d := (emuOps paged e [.setReg "rax" 9, .call [0xC3] [37] 0 none]).2
      let v := (emuX86SetupSysv paged d [0xC3] [1, 2, 3, 4, 5, 6, 7]).2
      v.mem = Mapped.store (Mapped.store d.uc.mem emuCodeBase.toNat (codeImage [0xC3]))
          0x20FFE8 (stackImage [1, 2, 3, 4, 5, 6, 7]) ∧
        paged.regRead v .rsp = 0x20FFE8 := by
  obtain ⟨e, he⟩ := exists_emuOpen
  have hrun : KeepsRun paged Paged.mem := fun _ _ _ _ _ _ h => h
  have hroom : (([1, 2, 3, 4, 5, 6, 7] : List (BitVec 64)).length - 6) * 8 + 16 ≤
      emuStackSize.toNat := by decide
  have hentry := sysv_entry paged_lawful hrun he [.setReg "rax" 9, .call [0xC3] [37] 0 none] [0xC3]
    hroom 0 none
  exact ⟨e, he, hentry.2.1, hentry.2.2.1⟩

end Opened

end AsmTest.Emulator
