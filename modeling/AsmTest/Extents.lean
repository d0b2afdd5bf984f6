import Mathlib.Data.BitVec
import Mathlib.Data.List.Chain
import Mathlib.Tactic

/-!
# The extents of a block-step capture

`asmtest_dataflow_blockstep_run` checks the caller's extents before it scans them. The check adds
an offset and a length in 64 bits and takes the sum as the next lower bound.
-/

namespace AsmTest.Blockstep

section Source

/-- `asmtest_blockstep_extent_t` -/
structure Extent where
  off : BitVec 64
  len : BitVec 64
deriving DecidableEq, Repr

/-- The end of an extent as the check computes it -/
def Extent.fin (e : Extent) : BitVec 64 :=
  e.off + e.len

/-- `opts.extents` with `opts.nextents` -/
inductive ExtentArg
  | null (nextents : ℕ)
  | array (extents : List Extent)
deriving DecidableEq, Repr

/-- What the run reads before its first scan; a pointer is whether it is given. -/
structure RunArgs where
  vt : Bool
  code : Bool
  codeLen : BitVec 64
  args : Bool
  nargs : ℤ
  regionOff : BitVec 64
  extents : ExtentArg
deriving DecidableEq, Repr

/-- What comes of a run up to its scans: the ranges handed to `region_scan_extent` -/
inductive Scanned
  | einval
  | etrace
  | ranges (calls : List (BitVec 64 × BitVec 64))
deriving DecidableEq, Repr

/-- The loop over `o.extents` -/
def extentsOk (codeLen : BitVec 64) : BitVec 64 → List Extent → Bool
  | _, [] => true
  | prevEnd, e :: rest =>
    if e.len = 0 ∨ e.off < prevEnd ∨ codeLen < e.fin then false
    else extentsOk codeLen e.fin rest

/-- The calls of `region_scan`; without a decoder there are none. -/
def regionScan (csOpen : Bool) (len : BitVec 64) (extents : List Extent) :
    List (BitVec 64 × BitVec 64) :=
  if csOpen = false then []
  else if extents = [] then [(0, len)]
  else extents.map fun e => (e.off, e.len)

/-- `asmtest_dataflow_blockstep_run` up to the scan of the region -/
def blockstepScan (malloc csOpen : Bool) (a : RunArgs) : Scanned :=
  if a.vt = false ∨ a.code = false ∨ a.codeLen = 0 ∨ a.nargs < 0 ∨ 6 < a.nargs ∨
      0 < a.nargs ∧ a.args = false then .einval
  else if a.codeLen ≤ a.regionOff then .einval
  else match a.extents with
  | .null nextents =>
    if 0 < nextents then .einval
    else .ranges (regionScan csOpen (a.codeLen - a.regionOff) [])
  | .array [] => .ranges (regionScan csOpen (a.codeLen - a.regionOff) [])
  | .array extents =>
    if extentsOk a.codeLen a.regionOff extents = false then .einval
    else if malloc = false then .etrace
    else .ranges (regionScan csOpen (a.codeLen - a.regionOff)
      (extents.map fun e => ⟨e.off - a.regionOff, e.len⟩))

end Source

section Spec

/-- The arguments pass what is checked before the extents. -/
structure RunArgs.Valid (a : RunArgs) : Prop where
  vt : a.vt = true
  code : a.code = true
  nargs : 0 ≤ a.nargs ∧ a.nargs ≤ 6
  args : 0 < a.nargs → a.args = true
  regionOff : a.regionOff < a.codeLen

/-- Over the integers: every extent is non-empty and in the region, and starts at or after the end
of the one before. -/
structure Placed (regionOff codeLen : ℕ) (extents : List Extent) : Prop where
  nonempty : ∀ e ∈ extents, e.len ≠ 0
  inside : ∀ e ∈ extents, regionOff ≤ e.off.toNat ∧ e.off.toNat + e.len.toNat ≤ codeLen
  ordered : extents.IsChain fun a b => a.off.toNat + a.len.toNat ≤ b.off.toNat

/-- The ranges of the scans lie in a buffer. -/
def Scanned.Inside (len : ℕ) : Scanned → Prop
  | .ranges calls => ∀ c ∈ calls, c.1.toNat + c.2.toNat ≤ len
  | _ => True

/-- The run takes the extents exactly when they are placed, and then scans the region only. -/
def ExactExtents (malloc csOpen : Bool) (a : RunArgs) (extents : List Extent) : Prop :=
  let run := blockstepScan malloc csOpen { a with extents := .array extents }
  (run ≠ .einval ↔ Placed a.regionOff.toNat a.codeLen.toNat extents) ∧
    run.Inside (a.codeLen.toNat - a.regionOff.toNat)

/-- No extent ends past 64 bits, or another test of the loop fails with the ends as they wrap: an
extent is empty or ends past the code, the first one starts before the region, or one starts before
the end of the one before. -/
def NoWrapPasses (regionOff codeLen : BitVec 64) (extents : List Extent) : Prop :=
  (∀ e ∈ extents, e.off.toNat + e.len.toNat < 2 ^ 64) ∨
    (∃ e ∈ extents, e.len = 0 ∨ codeLen < e.fin) ∨
    (∃ e ∈ extents.head?, e.off < regionOff) ∨
    ¬extents.IsChain fun a b => a.fin ≤ b.off

end Spec

section Check

/-- The loop takes a list whose extents are non-empty, in the code and in order, as they wrap. -/
lemma extentsOk_iff (codeLen prevEnd : BitVec 64) (extents : List Extent) :
    extentsOk codeLen prevEnd extents = true ↔
      (∀ e ∈ extents, e.len ≠ 0 ∧ e.fin ≤ codeLen) ∧ (∀ e ∈ extents.head?, prevEnd ≤ e.off) ∧
        extents.IsChain fun a b => a.fin ≤ b.off := by
  induction extents generalizing prevEnd with
  | nil => simp [extentsOk]
  | cons e rest ih =>
    rw [extentsOk, List.isChain_cons, List.forall_mem_cons]
    by_cases hbad : e.len = 0 ∨ e.off < prevEnd ∨ codeLen < e.fin
    · rw [if_pos hbad]
      simp only [List.head?_cons, Option.mem_def, Option.some.injEq, forall_eq', Bool.false_eq_true,
        false_iff]
      rintro ⟨⟨⟨hlen, hfin⟩, -⟩, hoff, -⟩
      rcases hbad with h | h | h
      · exact hlen h
      · exact BitVec.not_le.2 h hoff
      · exact BitVec.not_le.2 h hfin
    · rw [if_neg hbad, ih e.fin]
      obtain ⟨hlen, hoff, hfin⟩ : e.len ≠ 0 ∧ prevEnd ≤ e.off ∧ e.fin ≤ codeLen := by
        simpa only [not_or, BitVec.not_lt] using hbad
      simp only [List.head?_cons, Option.mem_def, Option.some.injEq, forall_eq', hoff, hfin]
      tauto

/-- With the other arguments valid, the loop decides, and the scans are those of the extents moved
to the region. -/
lemma blockstepScan_array {a : RunArgs} (h : a.Valid) (malloc csOpen : Bool)
    (extents : List Extent) :
    blockstepScan malloc csOpen { a with extents := .array extents } =
      if extentsOk a.codeLen a.regionOff extents = false then .einval
      else if extents ≠ [] ∧ malloc = false then .etrace
      else .ranges (regionScan csOpen (a.codeLen - a.regionOff)
        (extents.map fun e => ⟨e.off - a.regionOff, e.len⟩)) := by
  have hcode : a.codeLen ≠ 0 := by
    intro h0
    have hlt := h.regionOff
    rw [h0] at hlt
    exact BitVec.not_lt_zero hlt
  have hargs : ¬(a.vt = false ∨ a.code = false ∨ a.codeLen = 0 ∨ a.nargs < 0 ∨ 6 < a.nargs ∨
      0 < a.nargs ∧ a.args = false) := by
    have hnargs := h.nargs
    rw [h.vt, h.code]
    rintro (h' | h' | h' | h' | h' | ⟨h', hnull⟩)
    · cases h'
    · cases h'
    · exact hcode h'
    · omega
    · omega
    · rw [h.args h'] at hnull
      cases hnull
  rw [blockstepScan, if_neg hargs, if_neg (BitVec.not_le.2 h.regionOff)]
  cases extents with
  | nil => rfl
  | cons e rest =>
    simp only [ne_eq, reduceCtorEq, not_false_eq_true, true_and]

lemma blockstepScan_ne_einval {a : RunArgs} (h : a.Valid) (malloc csOpen : Bool)
    (extents : List Extent) :
    blockstepScan malloc csOpen { a with extents := .array extents } ≠ .einval ↔
      extentsOk a.codeLen a.regionOff extents = true := by
  rw [blockstepScan_array h]
  split_ifs with hok hmalloc
  · simp [hok]
  · simpa using hok
  · simpa using hok

end Check

section Exact

variable {a : RunArgs} {extents : List Extent}

/-- An end that does not wrap is the sum. -/
lemma Extent.fin_toNat {e : Extent} (h : e.off.toNat + e.len.toNat < 2 ^ 64) :
    e.fin.toNat = e.off.toNat + e.len.toNat := by
  rw [Extent.fin, BitVec.toNat_add, Nat.mod_eq_of_lt h]

lemma Placed.lt (h : Placed a.regionOff.toNat a.codeLen.toNat extents) :
    ∀ e ∈ extents, e.off.toNat + e.len.toNat < 2 ^ 64 := fun e he =>
  (h.inside e he).2.trans_lt a.codeLen.isLt

/-- In order and with none before the region, none is before the region. -/
lemma off_ge_of_chain {n : ℕ} (hne : ∀ e ∈ extents.head?, n ≤ e.off.toNat)
    (hchain : extents.IsChain fun a b => a.off.toNat + a.len.toNat ≤ b.off.toNat) :
    ∀ e ∈ extents, n ≤ e.off.toNat := by
  induction extents with
  | nil => exact fun e he => nomatch he
  | cons e rest ih =>
    obtain ⟨hnext, hchain⟩ := List.isChain_cons.1 hchain
    have he : n ≤ e.off.toNat := hne e rfl
    refine List.forall_mem_cons.2 ⟨he, ih (fun b hb => ?_) hchain⟩
    exact he.trans (Nat.le_of_add_right_le (hnext b hb))

/-- Without a wrap the loop takes exactly the placed extents. -/
lemma extentsOk_iff_placed (h : ∀ e ∈ extents, e.off.toNat + e.len.toNat < 2 ^ 64) :
    extentsOk a.codeLen a.regionOff extents = true ↔
      Placed a.regionOff.toNat a.codeLen.toNat extents := by
  have hchain : (extents.IsChain fun a b => a.fin ≤ b.off) ↔
      extents.IsChain fun a b => a.off.toNat + a.len.toNat ≤ b.off.toNat := by
    refine List.IsChain.iff_of_mem_imp fun x y hx _ => ?_
    rw [BitVec.le_def, Extent.fin_toNat (h x hx)]
  rw [extentsOk_iff, hchain]
  constructor
  · rintro ⟨hall, hhead, hchain⟩
    refine ⟨fun e he => (hall e he).1, fun e he => ⟨off_ge_of_chain hhead hchain e he, ?_⟩, hchain⟩
    rw [← Extent.fin_toNat (h e he)]
    exact (hall e he).2
  · intro hplaced
    refine ⟨fun e he => ⟨hplaced.nonempty e he, ?_⟩, fun e he => ?_, hplaced.ordered⟩
    · rw [BitVec.le_def, Extent.fin_toNat (h e he)]
      exact (hplaced.inside e he).2
    · exact (hplaced.inside e (List.mem_of_mem_head? he)).1

/-- A placed extent stays in the region when it is moved there. -/
lemma inside_of_placed (h : a.Valid) (hplaced : Placed a.regionOff.toNat a.codeLen.toNat extents)
    (malloc csOpen : Bool) :
    (blockstepScan malloc csOpen { a with extents := .array extents }).Inside
      (a.codeLen.toNat - a.regionOff.toNat) := by
  have hregion := h.regionOff
  have hlt := a.codeLen.isLt
  rw [BitVec.lt_def] at hregion
  rw [blockstepScan_array h]
  split_ifs
  · trivial
  · trivial
  · intro c hc
    rw [regionScan] at hc
    split_ifs at hc with hopen hnil
    · cases hc
    · rw [List.mem_singleton.1 hc]
      have hzero : (0 : BitVec 64).toNat = 0 := rfl
      dsimp only
      rw [hzero, BitVec.toNat_sub]
      omega
    · rw [List.map_map, List.mem_map] at hc
      obtain ⟨e, he, rfl⟩ := hc
      have hin := hplaced.inside e he
      simp only [Function.comp_apply, BitVec.toNat_sub]
      omega

/-- The check is exact, and the scans stay in the region, exactly when no extent that wraps comes
through. -/
theorem extent_check_exact_iff (h : a.Valid) (malloc csOpen : Bool) (extents : List Extent) :
    ExactExtents malloc csOpen a extents ↔ NoWrapPasses a.regionOff a.codeLen extents := by
  constructor
  · rintro ⟨hexact, -⟩
    by_contra hpass
    obtain ⟨hwrap, hall, hhead, hchain⟩ := not_or.1 hpass |>.imp_right fun hrest => by
      simpa only [not_or, not_exists, not_and, not_not, BitVec.not_lt] using hrest
    have hok : extentsOk a.codeLen a.regionOff extents = true :=
      (extentsOk_iff _ _ _).2 ⟨hall, hhead, hchain⟩
    exact hwrap (hexact.1 ((blockstepScan_ne_einval h malloc csOpen extents).2 hok)).lt
  · intro hpass
    have hiff : extentsOk a.codeLen a.regionOff extents = true ↔
        Placed a.regionOff.toNat a.codeLen.toNat extents := by
      rcases hpass with hwrap | hfail
      · exact extentsOk_iff_placed hwrap
      · have hbad : ¬extentsOk a.codeLen a.regionOff extents = true := by
          rw [extentsOk_iff]
          rintro ⟨hall, hhead, hchain⟩
          rcases hfail with ⟨e, he, hlen | hfin⟩ | ⟨e, he, hoff⟩ | hbroken
          · exact (hall e he).1 hlen
          · exact BitVec.not_le.2 hfin (hall e he).2
          · exact BitVec.not_le.2 hoff (hhead e he)
          · exact hbroken hchain
        exact iff_of_false hbad fun hplaced => hbad ((extentsOk_iff_placed hplaced.lt).2 hplaced)
    refine ⟨(blockstepScan_ne_einval h malloc csOpen extents).trans hiff, ?_⟩
    by_cases hplaced : Placed a.regionOff.toNat a.codeLen.toNat extents
    · exact inside_of_placed h hplaced malloc csOpen
    · rw [blockstepScan_array h, if_pos (Bool.eq_false_iff.2 fun hok => hplaced (hiff.1 hok))]
      trivial

end Exact

section Wrap

/-- A region of `0x40` bytes without arguments -/
def regionArgs : RunArgs :=
  ⟨true, true, 0x40, false, 0, 0, .null 0⟩

lemma regionArgs_valid : regionArgs.Valid :=
  ⟨rfl, rfl, by decide, by decide, by decide⟩

/-- The first half and the second half of the region are taken and scanned as they are. -/
theorem extent_check_exact_halves :
    ExactExtents true true regionArgs [⟨0, 0x20⟩, ⟨0x20, 0x20⟩] :=
  (extent_check_exact_iff regionArgs_valid true true _).2 (Or.inl (by decide))

/-- An extent that ends `0x10` past the address space is taken, and scanned far behind the code. -/
theorem extent_check_wraps :
    ¬ExactExtents true true regionArgs [⟨0x20, 0xfffffffffffffff0⟩] := by
  rintro ⟨-, hinside⟩
  have hrange := hinside (0x20, 0xfffffffffffffff0) (by decide)
  exact absurd hrange (by decide)

end Wrap

end AsmTest.Blockstep
