import AsmTest.EmuEntry

/-!
# Forking a guest (src/emu.c)

A snapshot of the handle keeps the guest's mapped regions and its register file, and restoring it
puts them back whatever the engine was used for in between. By the laws of Unicorn's calls a
restored handle cannot be told from the one that was snapshotted, and a call on a used handle
reports what it reports on a new one.
-/

namespace AsmTest.Emulator

open Hwtrace (Trace)
open Mapped (Memory Covered Free Listing)

section Snapshot

structure SnapRegion where
  begin : ℕ
  size : ℕ
  perms : ℕ
  bytes : List UInt8

structure EmuSnapshot (C : Type) where
  ctx : C
  regions : List SnapRegion

variable {U C : Type} (X : Unicorn U C)

def snapRegions (u : U) : List UcRegion → Option (List SnapRegion)
  | [] => some []
  | r :: rs =>
    match X.memRead u r.begin r.size with
    | none => none
    | some bytes => (snapRegions u rs).map (⟨r.begin, r.size, r.perms, bytes⟩ :: ·)

def emuSnapshot (e : Emu U) : Option (EmuSnapshot C) :=
  match X.contextSave e.uc with
  | none => none
  | some ctx => (snapRegions X e.uc (X.memRegions e.uc)).map fun regions => ⟨ctx, regions⟩

def unmapAll (u : U) : List UcRegion → Bool × U
  | [] => (true, u)
  | r :: rs =>
    match X.memUnmap u r.begin r.size with
    | (false, u) => (false, u)
    | (true, u) => unmapAll u rs

def mapAll (u : U) : List SnapRegion → Bool × U
  | [] => (true, u)
  | r :: rs =>
    match X.memMap u r.begin r.size r.perms with
    | (false, u) => (false, u)
    | (true, u) =>
      match X.memWrite u r.begin r.bytes with
      | (false, u) => (false, u)
      | (true, u) => mapAll u rs

def emuRestore (e : Emu U) (s : EmuSnapshot C) : Bool × Emu U :=
  match unmapAll X e.uc (X.memRegions e.uc) with
  | (false, u) => (false, { e with uc := u })
  | (true, u) =>
    match mapAll X u s.regions with
    | (false, u) => (false, { e with uc := u })
    | (true, u) =>
      let r := X.contextRestore u s.ctx
      (r.1, { e with uc := r.2 })

end Snapshot

section Restore

variable {U C R : Type} {X : Unicorn U C} {mem : U → Memory ℕ UInt8} {rest : U → R}
  {Flushed : U → Prop} {u : U} {rs : List UcRegion}

lemma unmapAll_spec (hX : Lawful X mem rest Flushed)
    (h : Listing (mem u) (rs.map UcRegion.region)) (hpages : ∀ r ∈ rs, Pages r.begin r.size) :
    (unmapAll X u rs).1 = true ∧ mem (unmapAll X u rs).2 = fun _ => none := by
  -- without its first region the listing is one of the memory that is left
  induction rs generalizing u with
  | nil => exact ⟨rfl, h.eq_none⟩
  | cons r rs ih =>
    have hunmap := hX.unmap u r.begin r.size (hpages r List.mem_cons_self)
      (h.covered (r := r.region) List.mem_cons_self)
    rw [unmapAll, ← Prod.mk.eta (p := X.memUnmap u r.begin r.size), hunmap.1]
    apply ih
    · rw [hunmap.2]
      exact Listing.unmap (r := r.region) h
    · exact fun r' hr' => hpages r' (List.mem_cons_of_mem r hr')

/-- What a snapshot keeps of a region can be written back at once: it was read so. -/
lemma snapRegions_cons (hX : Lawful X mem rest Flushed) {r : UcRegion}
    (hcovered : Covered (mem u) r.begin r.size) {regions : List SnapRegion}
    (h : snapRegions X u (r :: rs) = some regions) :
    r.size ≤ ioMax ∧ ∃ regions', snapRegions X u rs = some regions' ∧
      regions = ⟨r.begin, r.size, r.perms, Mapped.bytes (mem u) r.begin r.size⟩ :: regions' := by
  by_cases hsize : r.size ≤ ioMax
  · rw [snapRegions, hX.read u r.begin r.size hcovered hsize] at h
    obtain ⟨regions', hregions', rfl⟩ := Option.map_eq_some_iff.mp h
    exact ⟨hsize, regions', hregions', rfl⟩
  · rw [snapRegions, hX.read_error u r.begin r.size fun hbad => hsize hbad.2] at h
    cases h

lemma mapAll_spec (hX : Lawful X mem rest Flushed) {v : U} {done : List (Mapped.Region ℕ)}
    {regions : List SnapRegion} (h : Listing (mem u) (done ++ rs.map UcRegion.region))
    (hpages : ∀ r ∈ rs, Pages r.begin r.size) (hperms : ∀ r ∈ rs, r.perms ≤ protAll)
    (hregions : snapRegions X u rs = some regions) (hv : mem v = Mapped.within (mem u) done) :
    (mapAll X v regions).1 = true ∧ mem (mapAll X v regions).2 = mem u := by
  -- `done` is mapped again: there the memory is the old one, and nowhere else is any
  induction rs generalizing v done regions with
  | nil =>
    obtain rfl : [] = regions := Option.some.inj hregions
    rw [List.map_nil, List.append_nil] at h
    exact ⟨rfl, hv.trans h.within⟩
  | cons r rs ih =>
    have hcovered : Covered (mem u) r.begin r.size := h.covered (r := r.region) (by simp)
    obtain ⟨hsize, regions', hregions', rfl⟩ := snapRegions_cons hX hcovered hregions
    have hfree : Free (mem v) r.begin r.size := by
      rw [hv]
      exact h.free (r := r.region)
    have hmap := hX.map v r.begin r.size r.perms (hperms r List.mem_cons_self)
      (hpages r List.mem_cons_self) hfree
    have hlen := Mapped.length_bytes hcovered
    have hwrite := hX.write (X.memMap v r.begin r.size r.perms).2 r.begin
      (Mapped.bytes (mem u) r.begin r.size)
    rw [hlen, hmap.2] at hwrite
    have hwrite := hwrite (fun b ha hb => by rw [Mapped.map, if_pos ⟨ha, hb⟩]; rfl) hsize
    rw [mapAll, ← Prod.mk.eta (p := X.memMap v r.begin r.size r.perms), hmap.1]
    dsimp only
    rw [← Prod.mk.eta (p := X.memWrite _ r.begin _), hwrite.1]
    have hdone : mem (X.memWrite (X.memMap v r.begin r.size r.perms).2 r.begin
        (Mapped.bytes (mem u) r.begin r.size)).2 = Mapped.within (mem u) (done ++ [r.region]) := by
      rw [hwrite.2, hv]
      exact h.store_map (r := r.region) 0
    rw [List.map_cons, List.append_cons] at h
    exact ih h (fun r' hr' => hpages r' (List.mem_cons_of_mem r hr'))
      (fun r' hr' => hperms r' (List.mem_cons_of_mem r hr')) hregions' hdone

/-- Restoring puts the mapped regions, their permissions and bytes and the registers back; what is
armed on the handle stays. -/
lemma emuRestore_spec (hX : Lawful X mem rest Flushed) {e e' : Emu U} {s : EmuSnapshot C}
    (hs : emuSnapshot X e = some s) :
    ∃ v, emuRestore X e' s = (true, { e' with uc := v }) ∧ mem v = mem e.uc ∧
      X.regRead v = X.regRead e.uc ∧ rest v = rest e.uc := by
  rw [emuSnapshot] at hs
  cases hctx : X.contextSave e.uc with
  | none =>
    rw [hctx] at hs
    cases hs
  | some ctx =>
    rw [hctx] at hs
    obtain ⟨regions, hregions, rfl⟩ := Option.map_eq_some_iff.mp hs
    have hunmap := unmapAll_spec hX (hX.regions e'.uc) (hX.pages e'.uc)
    have hnone : mem (unmapAll X e'.uc (X.memRegions e'.uc)).2 = Mapped.within (mem e.uc) [] := by
      rw [hunmap.2]
      funext b
      simp [Mapped.within]
    have hlisting : Listing (mem e.uc) ([] ++ (X.memRegions e.uc).map UcRegion.region) :=
      hX.regions e.uc
    have hmap := mapAll_spec hX hlisting (hX.pages e.uc) (hX.perms e.uc) hregions hnone
    refine ⟨(X.contextRestore (mapAll X (unmapAll X e'.uc (X.memRegions e'.uc)).2 regions).2 ctx).2,
      ?_, ?_, hX.restore_file _ ctx _ hctx, hX.restore_rest _ ctx _ hctx⟩
    · rw [emuRestore, ← Prod.mk.eta (p := unmapAll X e'.uc _), hunmap.1]
      dsimp only
      rw [← Prod.mk.eta (p := mapAll X _ regions), hmap.1]
      dsimp only
      rw [hX.restore _ ctx _ hctx]
    · rw [hX.restore_mem, hmap.2]

end Restore

section Like

variable {U C R : Type}

/-- Two engines with one guest, but for the bytes at some addresses and for some registers -/
structure Like (X : Unicorn U C) (mem : U → Memory ℕ UInt8) (rest : U → R) (W : Set ℕ)
    (S : Set Reg) (u u' : U) : Prop where
  perms : ∀ b, (mem u b).map Prod.fst = (mem u' b).map Prod.fst
  bytes : ∀ b, b ∉ W → mem u b = mem u' b
  regs : ∀ r, r ∉ S → X.regRead u r = X.regRead u' r
  rest : rest u = rest u'

variable {X : Unicorn U C} {mem : U → Memory ℕ UInt8} {rest : U → R} {Flushed : U → Prop}
  {W V : Set ℕ} {S T : Set Reg} {u u' : U}

lemma Like.mono (h : Like X mem rest W S u u') (hW : W ⊆ V) (hS : S ⊆ T) :
    Like X mem rest V T u u' :=
  ⟨h.perms, fun b hb => h.bytes b fun hbW => hb (hW hbW),
    fun r hr => h.regs r fun hrS => hr (hS hrS), h.rest⟩

lemma Like.covered (h : Like X mem rest W S u u') (a n : ℕ) :
    Covered (mem u) a n ↔ Covered (mem u') a n := by
  have hsome : ∀ b, (mem u b).isSome = (mem u' b).isSome := by
    intro b
    rw [← Option.isSome_map, h.perms, Option.isSome_map]
  simp only [Covered, hsome]

/-- The same write succeeds or fails on both engines, and where it succeeds they no longer
differ. -/
lemma Like.memWrite (hX : Lawful X mem rest Flushed) (h : Like X mem rest W S u u') (a : ℕ)
    (data : List UInt8) :
    (X.memWrite u a data).1 = (X.memWrite u' a data).1 ∧
      Like X mem rest W S (X.memWrite u a data).2 (X.memWrite u' a data).2 ∧
      ((X.memWrite u a data).1 = true →
        Like X mem rest (W \ {b | a ≤ b ∧ b < a + data.length}) S (X.memWrite u a data).2
          (X.memWrite u' a data).2) := by
  by_cases hok : Covered (mem u) a data.length ∧ data.length ≤ ioMax
  · have hw := hX.write u a data hok.1 hok.2
    have hw' := hX.write u' a data ((h.covered a _).mp hok.1) hok.2
    have hlike : Like X mem rest (W \ {b | a ≤ b ∧ b < a + data.length}) S
        (X.memWrite u a data).2 (X.memWrite u' a data).2 := by
      refine ⟨fun b => ?_, fun b hb => ?_, fun r hr => ?_, ?_⟩
      · rw [hw.2, hw'.2, Mapped.map_fst_store, Mapped.map_fst_store]
        exact h.perms b
      · rw [hw.2, hw'.2]
        by_cases hin : a ≤ b ∧ b < a + data.length
        · have hlt : b - a < data.length := by omega
          have hbyte : ∀ m : Memory ℕ UInt8, Mapped.store m a data b =
              ((m b).map Prod.fst).map fun p => (p, data[b - a]) := by
            intro m
            rw [Mapped.store_of_mem hin.1 hlt, Option.map_map]
            rfl
          rw [hbyte, hbyte, h.perms]
        · have hkeep : ∀ m : Memory ℕ UInt8, Mapped.store m a data b = m b := by
            intro m
            obtain hlt | hle := Nat.lt_or_ge b a
            · exact Mapped.store_of_lt hlt
            · exact Mapped.store_of_le (not_lt.mp fun hlt => hin ⟨hle, hlt⟩)
          rw [hkeep, hkeep]
          exact h.bytes b fun hbW => hb ⟨hbW, hin⟩
      · rw [hX.write_file, hX.write_file]
        exact h.regs r hr
      · rw [hX.write_rest, hX.write_rest]
        exact h.rest
    exact ⟨hw.1.trans hw'.1.symm, hlike.mono Set.sdiff_subset subset_rfl, fun _ => hlike⟩
  · have hw := hX.write_error u a data hok
    have hw' := hX.write_error u' a data fun hok' => hok ⟨(h.covered a _).mpr hok'.1, hok'.2⟩
    refine ⟨hw.1.trans hw'.1.symm, ⟨fun b => ?_, fun b hb => ?_, fun r hr => ?_, ?_⟩,
      fun htrue => absurd htrue (by rw [hw.1]; decide)⟩
    · rw [hw.2, hw'.2]
      exact h.perms b
    · rw [hw.2, hw'.2]
      exact h.bytes b hb
    · rw [hX.write_file, hX.write_file]
      exact h.regs r hr
    · rw [hX.write_rest, hX.write_rest]
      exact h.rest

lemma Like.foldl_memWrite (hX : Lawful X mem rest Flushed) {α : Type} (l : List α) (a : α → ℕ)
    (data : α → List UInt8) (h : Like X mem rest W S u u') :
    Like X mem rest W S (l.foldl (fun u x => (X.memWrite u (a x) (data x)).2) u)
      (l.foldl (fun u x => (X.memWrite u (a x) (data x)).2) u') := by
  induction l generalizing u u' with
  | nil => exact h
  | cons x l ih => exact ih (h.memWrite hX (a x) (data x)).2.1

lemma Like.regWrite (hX : Lawful X mem rest Flushed) (h : Like X mem rest W S u u') {r : Reg}
    {v : BitVec 128} (hv : Plain r v) :
    Like X mem rest W (S \ {r}) (X.regWrite u r v) (X.regWrite u' r v) := by
  refine ⟨fun b => ?_, fun b hb => ?_, fun q hq => ?_, ?_⟩
  · rw [hX.regWrite_mem, hX.regWrite_mem]
    exact h.perms b
  · rw [hX.regWrite_mem, hX.regWrite_mem]
    exact h.bytes b hb
  · rw [hX.regWrite_file u r v hv, hX.regWrite_file u' r v hv]
    by_cases hqr : q = r
    · rw [hqr, Function.update_self, Function.update_self]
    · rw [Function.update_of_ne hqr, Function.update_of_ne hqr]
      exact h.regs q fun hqS => hq ⟨hqS, hqr⟩
  · rw [hX.regWrite_rest, hX.regWrite_rest]
    exact h.rest

lemma Like.foldl_regWrite (hX : Lawful X mem rest Flushed) {α : Type} (l : List α) (r : α → Reg)
    (v : α → BitVec 128) (hv : ∀ x ∈ l, Plain (r x) (v x)) (h : Like X mem rest W S u u') :
    Like X mem rest W (S \ {q | q ∈ l.map r}) (l.foldl (fun u x => X.regWrite u (r x) (v x)) u)
      (l.foldl (fun u x => X.regWrite u (r x) (v x)) u') := by
  -- a register that both wrote is no longer one in which they differ
  induction l generalizing u u' S with
  | nil => exact h.mono subset_rfl fun q hq => ⟨hq, List.not_mem_nil⟩
  | cons x l ih =>
    rw [List.forall_mem_cons] at hv
    apply (ih hv.2 (h.regWrite hX hv.1)).mono subset_rfl
    rintro q ⟨⟨hqS, hqr⟩, hql⟩
    refine ⟨hqS, fun hq => ?_⟩
    rw [Set.mem_ofPred_eq, List.map_cons, List.mem_cons] at hq
    exact hq.elim hqr hql

/-- The window for the code -/
def codeWindow : Set ℕ := {b | emuCodeBase.toNat ≤ b ∧ b < emuCodeBase.toNat + emuCodeSize}

/-- The traps replace every byte of the window from the offset on. -/
lemma Like.trapFill (hX : Lawful X mem rest Flushed) (h : Like X mem rest W S u u')
    (fuel off : ℕ) :
    Like X mem rest W S (Emulator.trapFill X fuel off u) (Emulator.trapFill X fuel off u') ∧
      (Covered (mem u) emuCodeBase.toNat emuCodeSize → emuCodeSize ≤ off + fuel * 4096 →
        W ⊆ {b | emuCodeBase.toNat + off ≤ b ∧ b < emuCodeBase.toNat + emuCodeSize} →
        Like X mem rest ∅ S (Emulator.trapFill X fuel off u)
          (Emulator.trapFill X fuel off u')) := by
  -- each piece takes its bytes out of those in which the two may differ
  induction fuel generalizing off u u' W with
  | zero =>
    refine ⟨h, fun _ hfuel hW => h.mono (fun b hb => ?_) subset_rfl⟩
    have := hW hb
    rw [Set.mem_ofPred_eq] at this
    omega
  | succ fuel ih =>
    rw [Emulator.trapFill, Emulator.trapFill]
    split_ifs with hoff
    · have hn : (List.replicate (min (emuCodeSize - off) 4096) (0xCC : UInt8)).length =
          min (emuCodeSize - off) 4096 := List.length_replicate
      have hwrite := h.memWrite hX (emuCodeBase.toNat + off)
        (List.replicate (min (emuCodeSize - off) 4096) 0xCC)
      have hcovered := covered_memWrite hX (u := u) (a := emuCodeBase.toNat) (n := emuCodeSize)
      have hok : Covered (mem u) emuCodeBase.toNat emuCodeSize →
          (X.memWrite u (emuCodeBase.toNat + off)
            (List.replicate (min (emuCodeSize - off) 4096) 0xCC)).1 = true := by
        intro hwindow
        have hrange : Covered (mem u) (emuCodeBase.toNat + off)
            (List.replicate (min (emuCodeSize - off) 4096) (0xCC : UInt8)).length :=
          fun b ha hb => hwindow b (by omega) (by omega)
        exact (hX.write u _ _ hrange (by rw [hn, ioMax]; omega)).1
      revert hwrite hok
      cases hu : X.memWrite u (emuCodeBase.toNat + off)
        (List.replicate (min (emuCodeSize - off) 4096) 0xCC) with
      | mk ok v =>
        cases hu' : X.memWrite u' (emuCodeBase.toNat + off)
          (List.replicate (min (emuCodeSize - off) 4096) 0xCC) with
        | mk ok' v' =>
          rintro ⟨hsame, hlike, hshrink⟩ hok
          dsimp only at hsame hlike hshrink hok
          subst hsame
          cases ok with
          | false => exact ⟨hlike, fun hwindow => absurd (hok hwindow) (by decide)⟩
          | true =>
            refine ⟨(ih hlike _).1, fun hwindow hfuel hW => (ih (hshrink rfl) _).2 ?_ ?_ ?_⟩
            · have := hcovered hwindow (emuCodeBase.toNat + off)
                (List.replicate (min (emuCodeSize - off) 4096) 0xCC)
              rwa [hu] at this
            · omega
            · rintro b ⟨hbW, hb⟩
              have := hW hbW
              rw [Set.mem_ofPred_eq] at this hb ⊢
              omega
    · refine ⟨h, fun _ _ hW => h.mono (fun b hb => ?_) subset_rfl⟩
      have := hW hb
      rw [Set.mem_ofPred_eq] at this
      omega

/-- The bytes that may differ are those a call overwrites. -/
def Overwritten (mem : U → Memory ℕ UInt8) (u : U) (W : Set ℕ) : Prop :=
  W = ∅ ∨ (W ⊆ codeWindow ∧ Covered (mem u) emuCodeBase.toNat emuCodeSize)

lemma Like.flushTb (hX : Lawful X mem rest Flushed) (h : Like X mem rest W S u u') :
    Like X mem rest W S (X.flushTb u) (X.flushTb u') := by
  constructor
  · simpa only [hX.flush_mem] using h.perms
  · simpa only [hX.flush_mem] using h.bytes
  · simpa only [hX.flush_file] using h.regs
  · simpa only [hX.flush_rest] using h.rest

/-- Loading a routine leaves nothing of the one before. -/
lemma Like.loadCode (hX : Lawful X mem rest Flushed) (h : Like X mem rest W S u u')
    (hW : Overwritten mem u W) (code : List UInt8) :
    (Emulator.loadCode X u code).1 = (Emulator.loadCode X u' code).1 ∧
      Like X mem rest W S (Emulator.loadCode X u code).2 (Emulator.loadCode X u' code).2 ∧
      ((Emulator.loadCode X u code).1 = true →
        Like X mem rest ∅ S (Emulator.loadCode X u code).2 (Emulator.loadCode X u' code).2 ∧
        Flushed (Emulator.loadCode X u code).2 ∧ Flushed (Emulator.loadCode X u' code).2) := by
  have hlen : (code.take emuCodeSize).length ≤ emuCodeSize := List.length_take_le ..
  have hwrite := h.memWrite hX emuCodeBase.toNat (code.take emuCodeSize)
  have hcovered := covered_memWrite hX (u := u) (a := emuCodeBase.toNat) (n := emuCodeSize)
  rw [Emulator.loadCode, Emulator.loadCode]
  revert hwrite
  cases hu : X.memWrite u emuCodeBase.toNat (code.take emuCodeSize) with
  | mk ok v =>
    cases hu' : X.memWrite u' emuCodeBase.toNat (code.take emuCodeSize) with
    | mk ok' v' =>
      rintro ⟨hsame, hlike, hshrink⟩
      dsimp only at hsame hlike hshrink
      subst hsame
      cases ok with
      | false => exact ⟨rfl, hlike, fun hok => absurd hok Bool.false_ne_true⟩
      | true =>
        have hfill := hlike.trapFill hX (emuCodeSize / 4096) (code.take emuCodeSize).length
        refine ⟨rfl, hfill.1.flushTb hX, fun _ => ⟨?_, hX.flush _, hX.flush _⟩⟩
        apply Like.flushTb hX
        obtain rfl | ⟨hwindow, hmapped⟩ := hW
        · exact hfill.1
        · apply ((hshrink rfl).trapFill hX _ _).2
          · have := hcovered hmapped emuCodeBase.toNat (code.take emuCodeSize)
            rwa [hu] at this
          · rw [emuCodeSize]
            omega
          · rintro b ⟨hbW, hb⟩
            have := hwindow hbW
            rw [codeWindow, Set.mem_ofPred_eq] at this
            rw [Set.mem_ofPred_eq] at hb ⊢
            omega

/-- Of what the last call left in the registers only `MXCSR` is there at the start of the next. -/
lemma Like.zeroRegs (hX : Lawful X mem rest Flushed) (h : Like X mem rest W S u u')
    (hS : .mxcsr ∉ S) :
    Like X mem rest W (S ∩ {.rsp, .rip}) (emuX86ZeroRegs X u) (emuX86ZeroRegs X u') := by
  have hgp := h.foldl_regWrite hX (gpRegs.filter (· ≠ .rsp)) (fun r => r) (fun _ => 0)
    fun _ hr => plain_gp (List.mem_of_mem_filter hr)
  have hxmm := hgp.foldl_regWrite hX (List.finRange 16) Reg.xmm (fun _ => 0)
    fun i _ => .inr (.inl ⟨⟨i, rfl⟩, rfl⟩)
  have hset := hxmm.regWrite hX (r := .eflags) (v := 2) (.inr (.inr ⟨rfl, rfl⟩))
  apply hset.mono subset_rfl
  rintro q ⟨⟨⟨hqS, hgp⟩, hxmm⟩, hflags⟩
  refine ⟨hqS, ?_⟩
  cases q with
  | xmm i => exact absurd (List.mem_map_of_mem (List.mem_finRange i)) hxmm
  | mxcsr => exact absurd hqS hS
  | eflags => exact absurd rfl hflags
  | rsp => exact .inl rfl
  | rip => exact .inr rfl
  | _ => exact absurd (by decide) hgp

lemma flushed_foldl {α : Type} (l : List α) (f : U → α → U)
    (hf : ∀ u x, Flushed u → Flushed (f u x)) (h : Flushed u) : Flushed (l.foldl f u) :=
  List.foldlRecOn l f h fun u hu x _ => hf u x hu

lemma flushed_zeroRegs (hX : Lawful X mem rest Flushed) (h : Flushed u) :
    Flushed (emuX86ZeroRegs X u) := by
  apply hX.regWrite_flushed
  apply flushed_foldl _ _ fun u x => hX.regWrite_flushed u _ _
  exact flushed_foldl _ _ (fun u x => hX.regWrite_flushed u _ _) h

/-- Once a call is set up, two engines can be told apart by their `RIP` at most. -/
lemma setup_like (hX : Lawful X mem rest Flushed) {e e' : Emu U}
    (h : Like X mem rest W S e.uc e'.uc) (hpreload : e.preload = e'.preload)
    (hW : Overwritten mem e.uc W) (hS : .mxcsr ∉ S) (fn : List UInt8)
    (args : List (BitVec 64)) :
    (emuX86SetupSysv X e fn args).1 = (emuX86SetupSysv X e' fn args).1 ∧
      Like X mem rest W S (emuX86SetupSysv X e fn args).2 (emuX86SetupSysv X e' fn args).2 ∧
      ((emuX86SetupSysv X e fn args).1 = true →
        Like X mem rest ∅ {.rip} (emuX86SetupSysv X e fn args).2
          (emuX86SetupSysv X e' fn args).2 ∧
        Flushed (emuX86SetupSysv X e fn args).2 ∧ Flushed (emuX86SetupSysv X e' fn args).2) := by
  have hload := h.loadCode hX hW fn
  rw [emuX86SetupSysv, emuX86SetupSysv]
  revert hload
  cases loadCode X e.uc fn with
  | mk ok v =>
    cases loadCode X e'.uc fn with
    | mk ok' v' =>
      rintro ⟨hsame, hlike, hclean⟩
      dsimp only at hsame hlike hclean
      subst hsame
      cases ok with
      | false => exact ⟨rfl, hlike, fun hok => absurd hok Bool.false_ne_true⟩
      | true =>
        obtain ⟨hclean, hflushed, hflushed'⟩ := hclean rfl
        have hzero := hclean.zeroRegs hX hS
        have hpre := hzero.foldl_regWrite hX e.preload (fun p => p.1.1) (fun p => p.2.setWidth 128)
          fun p _ => plain_word p.1.2 p.2
        dsimp only
        rw [← hpreload]
        set sp := emuStackBase + emuStackSize - 8 -
          BitVec.ofNat 64 (((args.length - 6) * 8 + 15) / 16 * 16)
        have hret := (hpre.memWrite hX sp.toNat (Endian.leBytes 8 emuRetMagic.toNat)).2.1
        have hstack := hret.foldl_memWrite hX (args.drop 6).zipIdx
          (fun a => (sp + 8 + 8 * BitVec.ofNat 64 a.2).toNat) (fun a => Endian.leBytes 8 a.1.toNat)
        have hsp := hstack.regWrite hX (r := .rsp) (plain_word (by decide) sp)
        have hargs := hsp.foldl_regWrite hX (argRegs.zip args) Prod.fst
          (fun a => a.2.setWidth 128) fun a ha => plain_arg ha
        have hset : ∀ w : U, Flushed w → Flushed ((argRegs.zip args).foldl
            (fun u a => X.regWrite u a.1 (a.2.setWidth 128)) (X.regWrite
              ((args.drop 6).zipIdx.foldl (fun u a => (X.memWrite u
                (sp + 8 + 8 * BitVec.ofNat 64 a.2).toNat (Endian.leBytes 8 a.1.toNat)).2)
                (X.memWrite (e.preload.foldl (fun u p => X.regWrite u p.1.1 (p.2.setWidth 128))
                  (emuX86ZeroRegs X w)) sp.toNat (Endian.leBytes 8 emuRetMagic.toNat)).2)
              .rsp (sp.setWidth 128))) := by
          intro w hw
          apply flushed_foldl _ _ fun u x => hX.regWrite_flushed u _ _
          apply hX.regWrite_flushed
          apply flushed_foldl _ _ fun u x => hX.write_flushed u _ _
          apply hX.write_flushed
          apply flushed_foldl _ _ fun u x => hX.regWrite_flushed u _ _
          exact flushed_zeroRegs hX hw
        refine ⟨rfl, hargs.mono (Set.empty_subset W) ?_, fun _ => ⟨hargs.mono subset_rfl ?_,
          hset v hflushed, hset v' hflushed'⟩⟩
        · rintro q ⟨⟨⟨⟨hqS, -⟩, -⟩, -⟩, -⟩
          exact hqS
        · rintro q ⟨⟨⟨⟨-, hq⟩, -⟩, hsp⟩, -⟩
          exact hq.resolve_left hsp

/-- Handles with one thing armed on both, on engines that are alike -/
structure HandlesLike (X : Unicorn U C) (mem : U → Memory ℕ UInt8) (rest : U → R) (W : Set ℕ)
    (S : Set Reg) (e e' : Emu U) : Prop where
  uc : Like X mem rest W S e.uc e'.uc
  armed : e' = { e with uc := e'.uc }

variable {e e' : Emu U}

lemma HandlesLike.refl (e : Emu U) : HandlesLike X mem rest W S e e :=
  ⟨⟨fun _ => rfl, fun _ _ => rfl, fun _ _ => rfl, rfl⟩, rfl⟩

lemma HandlesLike.of_uc {W' : Set ℕ} {S' : Set Reg} (h : HandlesLike X mem rest W S e e') {v v' : U}
    (hv : Like X mem rest W' S' v v') :
    HandlesLike X mem rest W' S' { e with uc := v } { e' with uc := v' } :=
  ⟨hv, by rw [h.armed]⟩

lemma run_like (hX : Lawful X mem rest Flushed) (h : HandlesLike X mem rest W S e e') {v v' : U}
    (hv : Like X mem rest ∅ {.rip} v v') (hflushed : Flushed v) (hflushed' : Flushed v')
    (maxInsns : ℕ) (trace : Option Trace) :
    (emuX86Run X e v maxInsns trace).1 = (emuX86Run X e' v' maxInsns trace).1 ∧
      (emuX86Run X e v maxInsns trace).2.1 = (emuX86Run X e' v' maxInsns trace).2.1 ∧
      HandlesLike X mem rest ∅ ∅ (emuX86Run X e v maxInsns trace).2.2
        (emuX86Run X e' v' maxInsns trace).2.2 := by
  obtain ⟨hhooks, herr, hmem, hfile, hrest⟩ := hX.start v v' emuCodeBase emuRetMagic maxInsns
    (funext fun b => hv.bytes b (Set.notMem_empty b)) (fun r hr => hv.regs r hr) hv.rest hflushed
    hflushed'
  have hsinks : startSinks e' trace = startSinks e trace := by rw [h.armed]; rfl
  simp only [emuX86Run, hsinks, ← hhooks, ← herr, ← hfile, true_and]
  refine ⟨⟨fun b => ?_, fun b _ => congrFun hmem b, fun r _ => congrFun hfile r, hrest⟩, ?_⟩
  · rw [hmem]
  · rw [h.armed]

/-- A call reports on both handles the same, and if it was set up no difference is left. -/
lemma call_like (hX : Lawful X mem rest Flushed) (h : HandlesLike X mem rest W S e e')
    (hW : Overwritten mem e.uc W) (hS : .mxcsr ∉ S) (fn : List UInt8) (args : List (BitVec 64))
    (maxInsns : ℕ) (trace : Option Trace) :
    let r := emuCallTraced X e fn args maxInsns trace
    let r' := emuCallTraced X e' fn args maxInsns trace
    r.1 = r'.1 ∧ r.2.1 = r'.2.1 ∧ HandlesLike X mem rest W S r.2.2 r'.2.2 ∧
      ((emuX86SetupSysv X e fn args).1 = true → HandlesLike X mem rest ∅ ∅ r.2.2 r'.2.2) := by
  have hsetup := setup_like hX h.uc (by rw [h.armed]) hW hS fn args
  simp only [emuCallTraced]
  revert hsetup
  cases emuX86SetupSysv X e fn args with
  | mk ok v =>
    cases emuX86SetupSysv X e' fn args with
    | mk ok' v' =>
      rintro ⟨hsame, hlike, hclean⟩
      dsimp only at hsame hlike hclean
      subst hsame
      cases ok with
      | false => exact ⟨rfl, rfl, h.of_uc hlike, fun hok => absurd hok Bool.false_ne_true⟩
      | true =>
        obtain ⟨hclean, hflushed, hflushed'⟩ := hclean rfl
        obtain ⟨hresult, htrace, hend⟩ := run_like hX h hclean hflushed hflushed' maxInsns trace
        exact ⟨hresult, htrace, ⟨hend.uc.mono (Set.empty_subset W) (Set.empty_subset S),
          hend.armed⟩, fun _ => hend⟩

lemma Like.mem_eq (h : Like X mem rest ∅ ∅ u u') : mem u = mem u' :=
  funext fun b => h.bytes b (Set.notMem_empty b)

lemma Like.memMap (hX : Lawful X mem rest Flushed) (h : Like X mem rest ∅ ∅ u u')
    (a n : ℕ) {perms : ℕ} (hperms : perms ≤ protAll) :
    (X.memMap u a n perms).1 = (X.memMap u' a n perms).1 ∧
      Like X mem rest ∅ ∅ (X.memMap u a n perms).2 (X.memMap u' a n perms).2 := by
  have hmem := h.mem_eq
  have hboth : (X.memMap u a n perms).1 = (X.memMap u' a n perms).1 ∧
      mem (X.memMap u a n perms).2 = mem (X.memMap u' a n perms).2 := by
    by_cases hok : Pages a n ∧ Free (mem u) a n
    · have hm := hX.map u a n perms hperms hok.1 hok.2
      rw [hmem] at hok
      have hm' := hX.map u' a n perms hperms hok.1 hok.2
      rw [hm.1, hm'.1, hm.2, hm'.2, hmem]
      exact ⟨rfl, rfl⟩
    · have hm := hX.map_error u a n perms hok
      rw [hmem] at hok
      have hm' := hX.map_error u' a n perms hok
      rw [hm.1, hm'.1, hm.2, hm'.2]
      exact ⟨rfl, hmem⟩
  refine ⟨hboth.1, fun b => by rw [hboth.2], fun b _ => by rw [hboth.2], fun r hr => ?_, ?_⟩
  · rw [hX.map_file, hX.map_file]
    exact h.regs r hr
  · rw [hX.map_rest, hX.map_rest]
    exact h.rest

lemma Like.memRead (hX : Lawful X mem rest Flushed) (h : Like X mem rest ∅ ∅ u u') (a n : ℕ) :
    X.memRead u a n = X.memRead u' a n := by
  by_cases hok : Covered (mem u) a n ∧ n ≤ ioMax
  · rw [hX.read u a n hok.1 hok.2, h.mem_eq]
    rw [h.mem_eq] at hok
    exact (hX.read u' a n hok.1 hok.2).symm
  · rw [hX.read_error u a n hok]
    rw [h.mem_eq] at hok
    exact (hX.read_error u' a n hok).symm

/-- No call of the interface tells handles apart that are alike. -/
lemma op_like (hX : Lawful X mem rest Flushed) (h : HandlesLike X mem rest ∅ ∅ e e')
    (op : EmuOp) :
    (emuOp X e op).1 = (emuOp X e' op).1 ∧
      HandlesLike X mem rest ∅ ∅ (emuOp X e op).2 (emuOp X e' op).2 := by
  cases op with
  | call fn args maxInsns trace =>
    obtain ⟨hresult, htrace, hend, -⟩ := call_like hX h (.inl rfl) (Set.notMem_empty _) fn args
      maxInsns trace
    exact ⟨congrArg₂ EmuOutput.result hresult htrace, hend⟩
  | map addr size =>
    have hmap := h.uc.memMap hX addr size (by decide : protRw ≤ protAll)
    exact ⟨congrArg EmuOutput.flag hmap.1, h.of_uc hmap.2⟩
  | write addr data =>
    have hwrite := h.uc.memWrite hX addr data
    exact ⟨congrArg EmuOutput.flag hwrite.1, h.of_uc hwrite.2.1⟩
  | read addr len => exact ⟨congrArg EmuOutput.bytes (h.uc.memRead hX addr len), h⟩
  | setReg name value =>
    rw [h.armed]
    simp only [emuOp, emuSetReg]
    split
    · exact ⟨rfl, h.uc, rfl⟩
    · split_ifs <;> exact ⟨rfl, h.uc, rfl⟩
  | guardReg name want out =>
    rw [h.armed]
    simp only [emuOp, emuGuardReg]
    split <;> exact ⟨rfl, h.uc, rfl⟩
  | stepCapture cap bufOk mxcsrOk =>
    rw [h.armed]
    simp only [emuOp, emuStepCapture]
    split_ifs <;> exact ⟨rfl, h.uc, rfl⟩
  | clearRegs | watch | watchClear | guardRegClear | stepCaptureClear =>
    rw [h.armed]
    exact ⟨rfl, h.uc, rfl⟩

end Like

section Fork

variable {U C R : Type} {X : Unicorn U C} {mem : U → Memory ℕ UInt8} {rest : U → R}
  {Flushed : U → Prop} {e e' : Emu U}

lemma ops_like (hX : Lawful X mem rest Flushed) (h : HandlesLike X mem rest ∅ ∅ e e')
    (ops : List EmuOp) : (emuOps X e ops).1 = (emuOps X e' ops).1 := by
  -- the handles stay alike, so the next call returns the same again
  induction ops generalizing e e' with
  | nil => rfl
  | cons op ops ih =>
    obtain ⟨hout, hnext⟩ := op_like hX h op
    exact congrArg₂ List.cons hout (ih hnext)

/-- A fork runs as the original would have. Whatever was done with the engine since the snapshot,
the restored handle has its memory and registers back; what is armed on it stays armed, and every
sequence of calls on it returns what it would have returned on the engine of the snapshot. If the
same is armed on both handles, that is what the snapshotted one would have returned at once. -/
theorem fork_replays (hX : Lawful X mem rest Flushed) {s : EmuSnapshot C}
    (hs : emuSnapshot X e = some s) (e' : Emu U) (ops : List EmuOp) :
    ∃ v, emuRestore X e' s = (true, { e' with uc := v }) ∧
      mem v = mem e.uc ∧ X.regRead v = X.regRead e.uc ∧
      (emuOps X { e' with uc := v } ops).1 = (emuOps X { e' with uc := e.uc } ops).1 ∧
      (e' = { e with uc := e'.uc } →
        (emuOps X { e' with uc := v } ops).1 = (emuOps X e ops).1) := by
  obtain ⟨v, hrestore, hmem, hfile, hrest⟩ :
      ∃ v, emuRestore X e' s = (true, { e' with uc := v }) ∧ _ := emuRestore_spec hX hs
  have huc : Like X mem rest ∅ ∅ v e.uc :=
    ⟨fun b => by rw [hmem], fun b _ => by rw [hmem], fun r _ => by rw [hfile], hrest⟩
  refine ⟨v, hrestore, hmem, hfile, ops_like hX ⟨huc, rfl⟩ ops, fun harmed => ?_⟩
  rw [harmed]
  exact ops_like hX ⟨huc, rfl⟩ ops

/-- With the code window mapped, a routine of any length can be loaded. -/
lemma setup_ok (hX : Lawful X mem rest Flushed)
    (h : Covered (mem e.uc) emuCodeBase.toNat emuCodeSize) (fn : List UInt8)
    (args : List (BitVec 64)) : (emuX86SetupSysv X e fn args).1 = true := by
  rw [emuX86SetupSysv, ← Prod.mk.eta (p := loadCode X e.uc fn), (loadCode_spec hX h fn).1]

/-- A call forgets what ran before it: on two engines whose guests differ only in what is left of
the last routine in the code window and in the registers other than `MXCSR`, it returns the same,
and so does everything after it. -/
theorem call_forgets (hX : Lawful X mem rest Flushed) {u u' : U}
    (hwindow : Covered (mem u) emuCodeBase.toNat emuCodeSize)
    (hperms : ∀ b, (mem u b).map Prod.fst = (mem u' b).map Prod.fst)
    (hbytes : ∀ b, b ∉ codeWindow → mem u b = mem u' b)
    (hmxcsr : X.regRead u .mxcsr = X.regRead u' .mxcsr) (hrest : rest u = rest u') (e : Emu U)
    (fn : List UInt8) (args : List (BitVec 64)) (maxInsns : ℕ) (trace : Option Trace)
    (ops : List EmuOp) :
    (emuOps X { e with uc := u } (.call fn args maxInsns trace :: ops)).1 =
      (emuOps X { e with uc := u' } (.call fn args maxInsns trace :: ops)).1 := by
  have hregs : ∀ r, r ∉ ({.mxcsr}ᶜ : Set Reg) → X.regRead u r = X.regRead u' r := by
    intro r hr
    obtain rfl : r = .mxcsr := Set.notMem_compl_iff.mp hr
    exact hmxcsr
  have hlike : HandlesLike X mem rest codeWindow {.mxcsr}ᶜ { e with uc := u }
      { e with uc := u' } := ⟨⟨hperms, hbytes, hregs, hrest⟩, rfl⟩
  obtain ⟨hresult, htrace, -, hend⟩ := call_like hX hlike (.inr ⟨subset_rfl, hwindow⟩)
    (fun hmem => hmem rfl) fn args maxInsns trace
  have hset := setup_ok hX (e := { e with uc := u }) hwindow fn args
  exact congrArg₂ List.cons (congrArg₂ EmuOutput.result hresult htrace)
    (ops_like hX (hend hset) ops)

end Fork

section Paged

lemma exists_snapRegions (u : Paged) (rs : List UcRegion)
    (h : ∀ r ∈ rs, Covered u.mem r.begin r.size ∧ r.size ≤ ioMax) :
    ∃ regions, snapRegions paged u rs = some regions := by
  induction rs with
  | nil => exact ⟨[], rfl⟩
  | cons r rs ih =>
    rw [List.forall_mem_cons] at h
    obtain ⟨regions, hregions⟩ := ih h.2
    have hread : paged.memRead u r.begin r.size = some (Mapped.bytes u.mem r.begin r.size) :=
      if_pos h.1
    rw [snapRegions, hread, hregions]
    exact ⟨_, rfl⟩

lemma exists_emuSnapshot (e : Emu Paged) : ∃ s, emuSnapshot paged e = some s := by
  obtain ⟨regions, hregions⟩ := exists_snapRegions e.uc (paged.memRegions e.uc) fun r hr => by
    refine ⟨(paged_listing e.uc).covered (List.mem_map_of_mem hr), ?_⟩
    simp only [paged, List.mem_map] at hr
    obtain ⟨p, -, rfl⟩ := hr
    simp [UcRegion.size, ioMax]
  exact ⟨⟨e.uc.file, regions⟩, by rw [emuSnapshot, hregions]; rfl⟩

/-- The handle after a page was mapped and a routine was run -/
noncomputable def used : Emu Paged :=
  (emuOps paged { uc := opened } [.map 0x300000 4096, .call [0xC3] [37] 0 none]).2

lemma unarmed_foldl_onHook (hooks : List UcHook) {s : Sinks} (hwatch : s.watch.armed = false)
    (hreg : s.reg.armed = false) (hring : s.stepRing.armed = false) :
    (hooks.foldl onHook s).watch = s.watch ∧ (hooks.foldl onHook s).reg = s.reg ∧
      (hooks.foldl onHook s).stepRing = s.stepRing := by
  induction hooks generalizing s with
  | nil => exact ⟨rfl, rfl, rfl⟩
  | cons hook hooks ih =>
    have hstep : (onHook s hook).watch = s.watch ∧ (onHook s hook).reg = s.reg ∧
        (onHook s hook).stepRing = s.stepRing := by
      cases hook <;> simp [onHook, hwatch, hreg, hring]
    obtain ⟨h1, h2, h3⟩ := hstep
    rw [← h1, ← h2, ← h3]
    exact ih (by rw [h1, hwatch]) (by rw [h2, hreg]) (by rw [h3, hring])

/-- A call arms nothing on the handle. -/
lemma unarmed_call (u : Paged) (fn : List UInt8) (args : List (BitVec 64)) (maxInsns : ℕ)
    (trace : Option Trace) : ∃ v, (emuCallTraced paged { uc := u } fn args maxInsns trace).2.2 =
      { uc := v } := by
  rw [emuCallTraced]
  cases emuX86SetupSysv paged { uc := u } fn args with
  | mk ok w =>
    cases ok with
    | false => exact ⟨w, rfl⟩
    | true =>
      obtain ⟨hwatch, hreg, hring⟩ := unarmed_foldl_onHook
        (paged.emuStart w emuCodeBase emuRetMagic maxInsns).1
        (s := startSinks ({ uc := u } : Emu Paged) trace) rfl rfl rfl
      refine ⟨(paged.emuStart w emuCodeBase emuRetMagic maxInsns).2.1, ?_⟩
      simp only [emuX86Run, hwatch, hreg, hring]
      rfl

lemma unarmed_used : used = { uc := used.uc } := by
  obtain ⟨v, hv⟩ := unarmed_call (emuMap paged { uc := opened } 0x300000 4096).2.uc [0xC3] [37] 0
    none
  have hused : used = { uc := v } := hv
  rw [hused]

theorem fork_replays_used :
    ∃ s, emuSnapshot paged { uc := opened } = some s ∧
      ∃ v, emuRestore paged used s = (true, { used with uc := v }) ∧
        v.mem = opened.mem ∧ paged.regRead v = opened.file ∧
        (emuOps paged { used with uc := v } [.read 0x300000 1, .call [0xC3] [2] 0 none]).1 =
          (emuOps paged { uc := opened } [.read 0x300000 1, .call [0xC3] [2] 0 none]).1 := by
  obtain ⟨s, hs⟩ := exists_emuSnapshot { uc := opened }
  obtain ⟨v, hrestore, hmem, hfile, -, hsame⟩ := fork_replays paged_lawful hs used
    [.read 0x300000 1, .call [0xC3] [2] 0 none]
  exact ⟨s, hs, v, hrestore, hmem, hfile, hsame unarmed_used⟩

/-- The engine with another routine and other registers left in it -/
def leftover : Paged :=
  { opened with
    bytes := fun b => if b / 4096 < 272 then 0x90 else 0
    file := fun r => if r = .mxcsr then 0 else 7 }

theorem call_forgets_leftover :
    (emuOps paged { uc := opened } [.call [0xC3] [37] 0 none, .read 0x100000 2]).1 =
      (emuOps paged { uc := leftover } [.call [0xC3] [37] 0 none, .read 0x100000 2]).1 := by
  have hbase : emuCodeBase.toNat = 0x100000 := rfl
  have hsize : emuCodeSize = 0x10000 := rfl
  have hwindow := (covered_opened (u := opened) rfl).1
  have hperms : ∀ b, (opened.mem b).map Prod.fst = (leftover.mem b).map Prod.fst := by
    intro b
    by_cases hpage : b / 4096 ∈ opened.pages <;> simp [Paged.mem, leftover, hpage]
  have hbytes : ∀ b, b ∉ codeWindow → opened.mem b = leftover.mem b := by
    intro b hb
    by_cases hpage : b / 4096 ∈ opened.pages
    · have hcode : ¬b / 4096 < 272 := by
        intro hlt
        apply hb
        rw [opened, Finset.mem_union, Finset.mem_Ico, Finset.mem_Ico] at hpage
        rw [codeWindow, Set.mem_ofPred_eq]
        omega
      simp [Paged.mem, leftover, hcode, opened]
    · simp [Paged.mem, leftover, hpage]
  have hmxcsr : paged.regRead opened .mxcsr = paged.regRead leftover .mxcsr := rfl
  exact call_forgets paged_lawful hwindow hperms hbytes hmxcsr rfl { uc := opened } _ _ _ _ _

end Paged

end AsmTest.Emulator
