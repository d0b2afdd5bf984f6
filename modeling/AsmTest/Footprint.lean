import AsmTest.DefUse

/-!
# What a def-use edge means

Records are read as sets of cells: a raw register id, one byte of a 64-bit
container, or one memory byte in its address space.  An edge stands for a cell
of a read whose most recent writer is the producing step.
-/

namespace AsmTest.Dataflow

open LastWriter

inductive Cell
  | rawReg (id : BitVec 32)
  | regByte (container off : ℕ)
  | mem (space : LocKind) (addr : BitVec 64)
  deriving DecidableEq, Repr

/-- The bytes a record covers.  A 32-bit register write defines its whole container;
every other register record covers its own bytes; memory covers 1 to 64 bytes. -/
def footprint (r : ValRec) : List Cell :=
  if r.kind = .reg then
    match regSlice r.reg with
    | some s =>
      (List.range (if r.isWrite ∧ s.len = 4 then 8 else s.len)).map fun b =>
        .regByte s.container (s.off + b)
    | none => [.rawReg r.reg]
  else (List.range (max 1 (min r.size 64))).map fun b => .mem r.kind (r.addr + BitVec.ofNat 64 b)

/-- The names of one general-purpose register share its container. -/
lemma regSlice_container {row : ℕ × List ℕ} (hrow : row ∈ containerCases) {reg : BitVec 32}
    (hreg : reg.toNat ∈ row.2) : ∃ s, regSlice reg = some s ∧ s.container = row.1 := by
  have hall : ∀ row ∈ containerCases, ∀ n ∈ row.2,
      (regSlice (BitVec.ofNat 32 n)).map RegSlice.container = some row.1 := by decide
  have h := hall row hrow _ hreg
  rw [BitVec.ofNat_toNat, BitVec.setWidth_eq] at h
  exact Option.map_eq_some_iff.1 h

/-- The names that do not start at the low byte are `ah`, `bh`, `ch` and `dh`. -/
lemma regSlice_off_eq_one {reg : BitVec 32} :
    (∃ s, regSlice reg = some s ∧ s.off = 1) ↔ reg.toNat ∈ [1, 4, 9, 13] := by
  constructor
  · rintro ⟨s, hs, hoff⟩
    simp only [regSlice, Option.bind_eq_bind, Option.bind_eq_some_iff, Option.pure_def,
      Option.some.injEq] at hs
    obtain ⟨c, -, ⟨o, l⟩, hol, rfl⟩ := hs
    obtain ⟨row, hrow, hext⟩ := Option.map_eq_some_iff.1 hol
    have hnames : ∀ row ∈ extentCases, row.1.1 = 1 → row.2 = [1, 4, 9, 13] := by decide
    have hmem := List.find?_some hrow
    rw [decide_eq_true_eq] at hmem
    rwa [hnames row (List.mem_of_find?_eq_some hrow) (by rw [hext]; exact hoff)] at hmem
  · have hall : ∀ n ∈ [1, 4, 9, 13], (regSlice (BitVec.ofNat 32 n)).map RegSlice.off = some 1 := by
      decide
    intro hreg
    have h := hall _ hreg
    rw [BitVec.ofNat_toNat, BitVec.setWidth_eq] at h
    exact Option.map_eq_some_iff.1 h

/-- A record of `ah`, `bh`, `ch` or `dh` covers the second byte alone. -/
lemma footprint_high {r : ValRec} (hk : r.kind = .reg) (hreg : r.reg.toNat ∈ [1, 4, 9, 13]) :
    ∃ s, regSlice r.reg = some s ∧ footprint r = [.regByte s.container 1] := by
  obtain ⟨s, hs, hoff⟩ := regSlice_off_eq_one.2 hreg
  have hlen : s.len = 1 := by
    have := regSlice_cases hs
    omega
  refine ⟨s, hs, ?_⟩
  rw [footprint, if_pos hk, hs]
  simp [hoff, hlen]

/-- A write of 32 or 64 bits covers the eight bytes of the container. -/
lemma footprint_wide_write {r : ValRec} (hk : r.kind = .reg) (hw : r.isWrite = true) {s : RegSlice}
    (hs : regSlice r.reg = some s) (hlen : s.len = 4 ∨ s.len = 8) :
    footprint r = (List.range 8).map (.regByte s.container) := by
  have hoff : s.off = 0 := by
    have := regSlice_cases hs
    omega
  have hbytes : (if r.isWrite = true ∧ s.len = 4 then 8 else s.len) = 8 := by
    rcases hlen with hlen | hlen
    · rw [if_pos ⟨hw, hlen⟩]
    · rw [hlen, if_neg (by omega)]
  rw [footprint, if_pos hk, hs]
  dsimp only
  rw [hbytes, hoff]
  simp only [Nat.zero_add]

/-- A read, or a write of 8 or 16 bits, covers its own bytes. -/
lemma footprint_own {r : ValRec} (hk : r.kind = .reg) {s : RegSlice} (hs : regSlice r.reg = some s)
    (h : r.isWrite = false ∨ s.len ≠ 4) :
    footprint r = (List.range s.len).map fun b => .regByte s.container (s.off + b) := by
  have hnot : ¬(r.isWrite = true ∧ s.len = 4) := by
    rintro ⟨hw, hlen⟩
    rcases h with h | h
    · rw [h] at hw
      cases hw
    · exact h hlen
  rw [footprint, if_pos hk, hs]
  dsimp only
  rw [if_neg hnot]

def WritesCell (v : ValTrace) (s : ℕ) (c : Cell) : Prop :=
  ∃ w ∈ v.stepRecs s, w.isWrite = true ∧ c ∈ footprint w

/-- `s` is the most recent step before `t` to have written the cell. -/
def LastWriterOf (v : ValTrace) (t : ℕ) (c : Cell) (s : ℕ) : Prop :=
  s < t ∧ WritesCell v s c ∧ ∀ u, s < u → u < t → ¬ WritesCell v u c

/-- All memory records live in one address space. -/
def OneSpace (v : ValTrace) : Prop := ∃ space, ∀ r ∈ v.recs, r.kind ≠ .reg → r.kind = space

/-! ## Cells and map keys -/

/-- The key under which the map files a cell; the address space is not part of it. -/
def cellKey : Cell → LwKey
  | .rawReg id => ⟨0#8, id.setWidth 64⟩
  | .regByte container off => ⟨2#8, BitVec.ofNat 64 (container * 256 + off)⟩
  | .mem _ addr => ⟨1#8, addr⟩

lemma recBytes_eq_clamp (r : ValRec) : recBytes r = max 1 (min r.size 64) := by
  unfold recBytes
  dsimp only
  split_ifs <;> omega

lemma containerBase_add {s : RegSlice} (hc : s.container < 256) (ho : s.off < 256) (b : ℕ) :
    containerBase s + BitVec.ofNat 64 b = BitVec.ofNat 64 (s.container * 256 + (s.off + b)) := by
  have hshift : s.container <<< 8 = s.container * 256 := by rw [Nat.shiftLeft_eq]
  have hor : containerBase s = BitVec.ofNat 64 (s.container * 256 + s.off) := by
    apply BitVec.eq_of_toNat_eq
    have h := Nat.shiftLeft_add_eq_or_of_lt (show s.off < 2 ^ 8 from ho) s.container
    rw [hshift] at h
    simp only [containerBase, BitVec.toNat_or, BitVec.toNat_shiftLeft, BitVec.toNat_ofNat]
    rw [Nat.mod_eq_of_lt (show s.container < 2 ^ 64 by omega),
      Nat.mod_eq_of_lt (show s.off < 2 ^ 64 by omega), hshift,
      Nat.mod_eq_of_lt (show s.container * 256 < 2 ^ 64 by omega), ← h,
      Nat.mod_eq_of_lt (show s.container * 256 + s.off < 2 ^ 64 by omega)]
  rw [hor, ← BitVec.ofNat_add, Nat.add_assoc]

lemma lwKeys_eq_map (r : ValRec) : lwKeys r = (footprint r).map cellKey := by
  unfold lwKeys footprint
  by_cases hk : r.kind = .reg
  · rw [if_pos hk, if_pos hk]
    cases hs : regSlice r.reg with
    | none => rfl
    | some s =>
      have hb := regSlice_cases hs
      simp only [List.map_map]
      apply List.map_congr_left
      intro b _
      simp only [Function.comp, cellKey]
      rw [containerBase_add hb.1 (by omega)]
  · rw [if_neg hk, if_neg hk, recBytes_eq_clamp, List.map_map]
    rfl

/-- A container byte as `reg_slice` produces them. -/
def Cell.Small : Cell → Prop
  | .regByte container off => container < 256 ∧ off < 256
  | _ => True

lemma footprint_small {r : ValRec} {c : Cell} (h : c ∈ footprint r) : c.Small := by
  unfold footprint at h
  split_ifs at h with hk
  · cases hs : regSlice r.reg with
    | none =>
      rw [hs] at h
      simp only [List.mem_singleton] at h
      subst h
      trivial
    | some s =>
      have hb := regSlice_cases hs
      rw [hs] at h
      simp only [List.mem_map, List.mem_range] at h
      obtain ⟨b, hbl, rfl⟩ := h
      have hlen : (if r.isWrite = true ∧ s.len = 4 then 8 else s.len) ≤ 8 := by split_ifs <;> omega
      exact ⟨hb.1, by omega⟩
  · simp only [List.mem_map, List.mem_range] at h
    obtain ⟨b, -, rfl⟩ := h
    trivial

/-- Keys separate cells up to the address space. -/
lemma cellKey_inj {c c' : Cell} (hc : c.Small) (hc' : c'.Small) (h : cellKey c = cellKey c') :
    c = c' ∨ ∃ sp sp' a, c = .mem sp a ∧ c' = .mem sp' a := by
  cases c <;> cases c' <;> simp only [cellKey, LwKey.mk.injEq] at h
  case rawReg.rawReg i j =>
    left
    have hn := congrArg BitVec.toNat h.2
    have hi := i.isLt
    have hj := j.isLt
    simp only [BitVec.toNat_setWidth] at hn
    rw [BitVec.eq_of_toNat_eq (show i.toNat = j.toNat by omega)]
  case regByte.regByte k o k' o' =>
    left
    obtain ⟨h1, h2⟩ := hc
    obtain ⟨h3, h4⟩ := hc'
    have hn := congrArg BitVec.toNat h.2
    simp only [BitVec.toNat_ofNat] at hn
    rw [Nat.mod_eq_of_lt (by omega), Nat.mod_eq_of_lt (by omega)] at hn
    rw [show k = k' by omega, show o = o' by omega]
  case mem.mem sp a sp' a' => exact Or.inr ⟨sp, sp', a, rfl, by rw [h.2]⟩
  all_goals exact absurd h.1 (by decide)

lemma kind_of_mem_footprint {r : ValRec} {sp : LocKind} {a : BitVec 64}
    (h : Cell.mem sp a ∈ footprint r) : r.kind = sp ∧ r.kind ≠ .reg := by
  unfold footprint at h
  split_ifs at h with hk
  · cases hs : regSlice r.reg <;> simp [hs] at h
  · simp only [List.mem_map, Cell.mem.injEq] at h
    obtain ⟨-, -, hsp, -⟩ := h
    exact ⟨hsp, hk⟩

/-! ## Exactness over one address space -/

section OneSpace

variable {v : ValTrace} (hv : Stamped v)

lemma stepRecs_subset {t : ℕ} {r : ValRec} (h : r ∈ v.stepRecs t) : r ∈ v.recs :=
  List.mem_of_mem_filter h

/-- With one address space a cell and its key are written by the same steps. -/
lemma cellKey_mem_writes_iff (hone : OneSpace v) {r : ValRec} (hr : r ∈ v.recs) {c : Cell}
    (hc : c ∈ footprint r) (u : ℕ) :
    cellKey c ∈ writesOf ValRec.isWrite lwKeys v.stepRecs u ↔ WritesCell v u c := by
  obtain ⟨space, hspace⟩ := hone
  simp only [writesOf, List.mem_flatMap, List.mem_filter, lwKeys_eq_map, List.mem_map]
  constructor
  · rintro ⟨w, ⟨hw, hwr⟩, c', hc', hkey⟩
    refine ⟨w, hw, hwr, ?_⟩
    rcases cellKey_inj (footprint_small hc') (footprint_small hc) hkey with
      rfl | ⟨sp, sp', a, rfl, rfl⟩
    · exact hc'
    · obtain ⟨h1, h2⟩ := kind_of_mem_footprint hc'
      obtain ⟨h3, h4⟩ := kind_of_mem_footprint hc
      have hsp : sp = sp' := by
        rw [← h1, ← h3, hspace w (stepRecs_subset hw) h2, hspace r hr h4]
      exact hsp ▸ hc'
  · rintro ⟨w, hw, hwr, hcw⟩
    exact ⟨w, ⟨hw, hwr⟩, c, hcw, rfl⟩

lemma isLast_cellKey_iff (hone : OneSpace v) {r : ValRec} (hr : r ∈ v.recs) {c : Cell}
    (hc : c ∈ footprint r) (t s : ℕ) :
    IsLast (writesOf ValRec.isWrite lwKeys v.stepRecs) t (cellKey c) s ↔ LastWriterOf v t c s := by
  simp only [IsLast, LastWriterOf, cellKey_mem_writes_iff hone hr hc]

end OneSpace

/-- The steps whose writes feed read `r` of step `t`, each once. -/
def ProducersOf (v : ValTrace) (t : ℕ) (r : ValRec) (prod : List ℕ) : Prop :=
  prod.Nodup ∧ ∀ s, s ∈ prod ↔ ∃ c ∈ footprint r, LastWriterOf v t c s

lemma defuseBuild_exact_of_stamped {v : ValTrace} (hv : Stamped v) (hone : OneSpace v)
    (hlt : v.stepsLen < 2 ^ 32) :
    ∃ prod : ℕ → ValRec → List ℕ,
      defuseBuild v = some ⟨(List.range v.stepsLen).flatMap fun t =>
        ((v.stepRecs t).filter fun r => !r.isWrite).flatMap fun r =>
          (prod t r).map fun s => ⟨s, t, r⟩, v.stepsLen⟩ ∧
      ∀ t, ∀ r ∈ v.stepRecs t, r.isWrite = false → ProducersOf v t r (prod t r) := by
  have hlog : groupAt v.recs = v.stepRecs := funext (groupAt_eq_stepRecs hv)
  refine ⟨fun t r => producers (writesOf ValRec.isWrite lwKeys v.stepRecs) t (lwKeys r), ?_, ?_⟩
  · rw [defuseBuild_eq, hlog, Nat.mod_eq_of_lt hlt]
    simp [edges, stepEdges, List.map_flatMap, toEdge, Function.comp_def]
  · intro t r hr _
    refine ⟨nodup_distinct _, fun s => ?_⟩
    simp only [mem_producers, lwKeys_eq_map, List.mem_map, exists_exists_and_eq_and]
    constructor
    · rintro ⟨c, hc, hlast⟩
      exact ⟨c, hc, (isLast_cellKey_iff hone (stepRecs_subset hr) hc t s).mp hlast⟩
    · rintro ⟨c, hc, hlast⟩
      exact ⟨c, hc, (isLast_cellKey_iff hone (stepRecs_subset hr) hc t s).mpr hlast⟩

/-- The edge list of an appended trace is exact: for each step in order and each of its
reads in record order, one edge per distinct step that is the most recent to have
written a byte of the read, and no other edge. -/
theorem defuse_build_exact (stepsCap recsCap : ℕ) (calls : List (BitVec 64 × List ValRec))
    (hone : OneSpace (appendAll (valtraceNew stepsCap recsCap) calls))
    (hlt : (appendAll (valtraceNew stepsCap recsCap) calls).stepsLen < 2 ^ 32) :
    let v := appendAll (valtraceNew stepsCap recsCap) calls
    ∃ prod : ℕ → ValRec → List ℕ,
      defuseBuild v = some ⟨(List.range v.stepsLen).flatMap fun t =>
        ((v.stepRecs t).filter fun r => !r.isWrite).flatMap fun r =>
          (prod t r).map fun s => ⟨s, t, r⟩, v.stepsLen⟩ ∧
      ∀ t, ∀ r ∈ v.stepRecs t, r.isWrite = false → ProducersOf v t r (prod t r) :=
  defuseBuild_exact_of_stamped (stamped_appendAll stepsCap recsCap calls hlt) hone hlt

/-- `mov eax, ..; mov al, ..; add .., rax`: the read of `rax` has two producers. -/
theorem defuse_build_exact_partial_write :
    let calls : List (BitVec 64 × List ValRec) :=
      [(0, [{ kind := .reg, reg := 19, isWrite := true }]),
       (5, [{ kind := .reg, reg := 2, isWrite := true }]),
       (7, [{ kind := .reg, reg := 35 }, { kind := .memAbs, addr := 0x1000, size := 8 }])]
    let v := appendAll (valtraceNew 8 8) calls
    OneSpace v ∧ v.stepsLen < 2 ^ 32 ∧ ∃ prod : ℕ → ValRec → List ℕ,
      defuseBuild v = some ⟨(List.range v.stepsLen).flatMap fun t =>
        ((v.stepRecs t).filter fun r => !r.isWrite).flatMap fun r =>
          (prod t r).map fun s => ⟨s, t, r⟩, v.stepsLen⟩ ∧
      ∀ t, ∀ r ∈ v.stepRecs t, r.isWrite = false → ProducersOf v t r (prod t r) := by
  intro calls v
  have hone : OneSpace v := ⟨.memAbs, by decide⟩
  have hlt : v.stepsLen < 2 ^ 32 := by decide
  exact ⟨hone, hlt, defuse_build_exact 8 8 calls hone hlt⟩

/-! ## Address spaces

The map files a memory byte under its address alone, so a read may be linked to a
write of the other space. -/

/-- The byte addresses of a memory record. -/
def byteAddrs (r : ValRec) : List (BitVec 64) :=
  (List.range (max 1 (min r.size 64))).map fun b => r.addr + BitVec.ofNat 64 b

/-- Step `s` has a write of `r`'s own space that overlaps `r`. -/
def SameSpaceWrite (v : ValTrace) (s : ℕ) (r : ValRec) : Prop :=
  ∃ w ∈ v.stepRecs s, w.isWrite = true ∧ w.kind = r.kind ∧ ∃ a ∈ byteAddrs w, a ∈ byteAddrs r

/-- Step `s` writes address `a`, in whatever space. -/
def WritesAddr (v : ValTrace) (s : ℕ) (a : BitVec 64) : Prop :=
  ∃ w ∈ groupAt v.recs s, w.isWrite = true ∧ w.kind ≠ .reg ∧ a ∈ byteAddrs w

/-- For every byte address of a memory read, the most recent step to have written that
address, in whatever space, also has a write of the read's own space that overlaps
the read. -/
def SpaceConsistent (v : ValTrace) : Prop :=
  ∀ t < v.stepsLen % 2 ^ 32, ∀ r ∈ groupAt v.recs t, r.isWrite = false → r.kind ≠ .reg →
    ∀ a ∈ byteAddrs r, ∀ s < t, WritesAddr v s a →
      (∀ u, s < u → u < t → ¬ WritesAddr v u a) → SameSpaceWrite v s r

lemma lwKeys_of_mem {r : ValRec} (hk : r.kind ≠ .reg) :
    lwKeys r = (byteAddrs r).map fun a => ⟨1#8, a⟩ := by
  rw [lwKeys, if_neg hk, byteAddrs, recBytes_eq_clamp, List.map_map]
  rfl

lemma kind_of_memKey {r : ValRec} {a : BitVec 64} (h : (⟨1#8, a⟩ : LwKey) ∈ lwKeys r) :
    r.kind ≠ .reg := by
  intro hk
  rw [lwKeys, if_pos hk] at h
  cases hs : regSlice r.reg <;> simp [hs] at h

lemma memKey_mem_writes_iff (v : ValTrace) (s : ℕ) (a : BitVec 64) :
    (⟨1#8, a⟩ : LwKey) ∈ writesOf ValRec.isWrite lwKeys (groupAt v.recs) s ↔ WritesAddr v s a := by
  simp only [writesOf, List.mem_flatMap, List.mem_filter]
  constructor
  · rintro ⟨w, ⟨hw, hwr⟩, hkey⟩
    have hk := kind_of_memKey hkey
    rw [lwKeys_of_mem hk] at hkey
    exact ⟨w, hw, hwr, hk, by simpa using hkey⟩
  · rintro ⟨w, hw, hwr, hk, ha⟩
    exact ⟨w, ⟨hw, hwr⟩, by rw [lwKeys_of_mem hk]; simpa using ha⟩

/-- Every memory edge has a producer of its own space exactly when no read's last-written
byte belongs to a step that wrote it through the other space only. -/
theorem edges_respect_spaces_iff (v : ValTrace) :
    (∃ g, defuseBuild v = some g ∧
      ∀ e ∈ g.edges, e.loc.kind ≠ .reg → SameSpaceWrite v e.fromStep e.loc) ↔
    SpaceConsistent v := by
  constructor
  · rintro ⟨g, hg, hedges⟩ t ht r hr hread hk a ha s hst hs hlast
    rw [defuseBuild_eq, Option.some.injEq] at hg
    have hmem : (s, t, r) ∈ edges ValRec.isWrite lwKeys (groupAt v.recs) (v.stepsLen % 2 ^ 32) := by
      rw [mem_edges]
      refine ⟨ht, hr, hread, ⟨1#8, a⟩, by rw [lwKeys_of_mem hk]; simpa using ha, hst, ?_⟩
      simp only [memKey_mem_writes_iff]
      exact ⟨hs, hlast⟩
    exact hedges (toEdge (s, t, r)) (by rw [← hg]; exact List.mem_map_of_mem hmem) hk
  · intro hcons
    refine ⟨_, defuseBuild_eq v, ?_⟩
    intro e he hk
    obtain ⟨⟨s, t, r⟩, hmem, rfl⟩ := List.mem_map.mp he
    replace hk : r.kind ≠ .reg := hk
    obtain ⟨ht, hr, hread, key, hkey, hst, hlast⟩ := (mem_edges _ _).mp hmem
    rw [lwKeys_of_mem hk, List.mem_map] at hkey
    obtain ⟨a, ha, rfl⟩ := hkey
    simp only [memKey_mem_writes_iff] at hlast
    exact hcons t ht r hr hread hk a ha s hst hlast.1 hlast.2

/-- A region-relative store at offset 0x1000 is reported as the producer of an absolute
load from 0x1000. -/
theorem edges_cross_spaces :
    let v := appendAll (valtraceNew 2 2)
      [(0, [{ kind := .memOff, addr := 0x1000, size := 8, isWrite := true }]),
       (4, [{ kind := .memAbs, addr := 0x1000, size := 8 }])]
    ¬ ∃ g, defuseBuild v = some g ∧
      ∀ e ∈ g.edges, e.loc.kind ≠ .reg → SameSpaceWrite v e.fromStep e.loc := by
  intro v ⟨g, hg, hedges⟩
  have hbuild : defuseBuild v =
      some ⟨[⟨0, 1, { kind := .memAbs, addr := 0x1000, size := 8, step := 1 }⟩], 2⟩ := by
    decide +kernel
  rw [hbuild, Option.some.injEq] at hg
  have h := hedges ⟨0, 1, { kind := .memAbs, addr := 0x1000, size := 8, step := 1 }⟩
    (by simp [← hg]) (by decide)
  unfold SameSpaceWrite at h
  revert h
  decide

end AsmTest.Dataflow
