import AsmTest.Footprint

/-!
# Vector registers in the def-use graph

XMMn, YMMn and ZMMn are the low 16, 32 and 64 bytes of one register. The last-writer map knows no
container for them and files each name under its own id, so a read sees the writes of its own name
only.
-/

namespace AsmTest.Dataflow

open LastWriter

/-- `X86_REG_XMM0` -/
def xmm0 : ℕ := 122

/-- `X86_REG_YMM0` -/
def ymm0 : ℕ := 154

/-- `X86_REG_ZMM0` -/
def zmm0 : ℕ := 186

/-- `vec_reg_info`: the number of a vector register and the width of the name. -/
def vecRegInfo (reg : BitVec 32) : Option (ℕ × ℕ) :=
  if xmm0 ≤ reg.toNat ∧ reg.toNat ≤ xmm0 + 31 then some (reg.toNat - xmm0, 16)
  else if ymm0 ≤ reg.toNat ∧ reg.toNat ≤ ymm0 + 31 then some (reg.toNat - ymm0, 32)
  else if zmm0 ≤ reg.toNat ∧ reg.toNat ≤ zmm0 + 31 then some (reg.toNat - zmm0, 64)
  else none

/-- The bytes of vector registers that a record covers: register and byte. -/
def vecBytes (r : ValRec) : List (ℕ × ℕ) :=
  if r.kind = .reg then
    match vecRegInfo r.reg with
    | some (n, width) => (List.range width).map fun b => (n, b)
    | none => []
  else []

section Spec

variable (v : ValTrace)

/-- The step writes the vector register that `r` names, through whatever name. -/
def WritesVec (s : ℕ) (r : ValRec) : Prop :=
  ∃ w ∈ v.stepRecs s, w.isWrite = true ∧ ∃ c ∈ vecBytes w, c ∈ vecBytes r

/-- The step writes the register through the name that `r` uses. -/
def WritesName (s : ℕ) (r : ValRec) : Prop :=
  ∃ w ∈ v.stepRecs s, w.isWrite = true ∧ w.kind = .reg ∧ w.reg = r.reg

/-- The most recent step before `t` to have written a byte that `r` covers -/
def LastVecWriter (t : ℕ) (r : ValRec) (s : ℕ) : Prop :=
  s < t ∧ WritesVec v s r ∧ ∀ u, s < u → u < t → ¬WritesVec v u r

/-- Every byte of the register that step `s` wrote is overwritten before `t` through a name that
`r` does not use. -/
def Overwritten (s t : ℕ) (r : ValRec) : Prop :=
  ∀ w ∈ v.stepRecs s, w.isWrite = true → (∃ c ∈ vecBytes w, c ∈ vecBytes r) →
    ∀ c ∈ vecBytes w, ∃ u, s < u ∧ u < t ∧
      ∃ w' ∈ v.stepRecs u, w'.isWrite = true ∧ w'.reg ≠ r.reg ∧ c ∈ vecBytes w'

/-- The reads of vector registers have an edge from their last writer, and none from a step whose
bytes are gone. -/
def VecAliasing (g : DefUse) : Prop :=
  ∀ t < v.stepsLen, ∀ r ∈ v.stepRecs t, r.isWrite = false → vecBytes r ≠ [] →
    (∀ s, LastVecWriter v t r s → ⟨s, t, r⟩ ∈ g.edges) ∧
      ∀ s, ⟨s, t, r⟩ ∈ g.edges → ¬Overwritten v s t r

/-- What a vector read finds was written through the name it uses. -/
def ReadAsWritten : Prop :=
  ∀ t < v.stepsLen, ∀ r ∈ v.stepRecs t, r.isWrite = false → vecBytes r ≠ [] →
    ∀ s, LastVecWriter v t r s → WritesName v s r

end Spec

section Names

variable {r w : ValRec}

theorem vecRegInfo_pos {reg : BitVec 32} {n width : ℕ} (h : vecRegInfo reg = some (n, width)) :
    0 < width ∧ xmm0 ≤ reg.toNat ∧ reg.toNat ≤ zmm0 + 31 := by
  rw [vecRegInfo] at h
  by_cases hx : xmm0 ≤ reg.toNat ∧ reg.toNat ≤ xmm0 + 31
  · rw [if_pos hx] at h
    obtain ⟨-, rfl⟩ := Prod.mk.inj (Option.some.inj h)
    simp only [xmm0, zmm0] at hx ⊢
    omega
  rw [if_neg hx] at h
  by_cases hy : ymm0 ≤ reg.toNat ∧ reg.toNat ≤ ymm0 + 31
  · rw [if_pos hy] at h
    obtain ⟨-, rfl⟩ := Prod.mk.inj (Option.some.inj h)
    simp only [xmm0, ymm0, zmm0] at hy ⊢
    omega
  rw [if_neg hy] at h
  by_cases hz : zmm0 ≤ reg.toNat ∧ reg.toNat ≤ zmm0 + 31
  · rw [if_pos hz] at h
    obtain ⟨-, rfl⟩ := Prod.mk.inj (Option.some.inj h)
    simp only [xmm0, zmm0] at hz ⊢
    omega
  · rw [if_neg hz] at h
    cases h

/-- A vector register has no container. -/
theorem regSlice_vec {reg : BitVec 32} {n width : ℕ} (h : vecRegInfo reg = some (n, width)) :
    regSlice reg = none := by
  obtain ⟨-, hlo, hhi⟩ := vecRegInfo_pos h
  have hcases : ∀ c ∈ containerCases, ∀ m ∈ c.2, m < xmm0 ∨ zmm0 + 31 < m := by decide
  have hnone : switchOn containerCases reg.toNat = none := by
    rw [switchOn, Option.map_eq_none_iff, List.find?_eq_none]
    intro c hc hmem
    have hout := hcases c hc reg.toNat (by simpa using hmem)
    omega
  rw [regSlice, hnone]
  rfl

/-- A record of a vector register: its name covers the register from the lowest byte on. -/
theorem vecBytes_ne_nil (h : vecBytes r ≠ []) : r.kind = .reg ∧ ∃ n width,
    vecRegInfo r.reg = some (n, width) ∧ ∀ c, c ∈ vecBytes r ↔ c.1 = n ∧ c.2 < width := by
  have hk : r.kind = .reg := by
    by_contra hk
    exact h (if_neg hk)
  refine ⟨hk, ?_⟩
  rw [vecBytes, if_pos hk] at h
  rcases hinfo : vecRegInfo r.reg with _ | ⟨n, width⟩
  · rw [hinfo] at h
    exact absurd rfl h
  · refine ⟨n, width, rfl, ?_⟩
    rintro ⟨m, b⟩
    rw [vecBytes, if_pos hk, hinfo]
    simp only [List.mem_map, List.mem_range, Prod.mk.injEq]
    constructor
    · rintro ⟨b', hb, rfl, rfl⟩
      exact ⟨rfl, hb⟩
    · rintro ⟨rfl, hb⟩
      exact ⟨b, hb, rfl, rfl⟩

theorem lwKeys_vec (h : vecBytes r ≠ []) : lwKeys r = [⟨0#8, r.reg.setWidth 64⟩] := by
  obtain ⟨hk, n, width, hinfo, -⟩ := vecBytes_ne_nil h
  rw [lwKeys, if_pos hk, regSlice_vec hinfo]

/-- Records of one name cover the same bytes. -/
theorem vecBytes_congr (hw : w.kind = .reg) (hr : r.kind = .reg) (h : w.reg = r.reg) :
    vecBytes w = vecBytes r := by
  rw [vecBytes, vecBytes, if_pos hw, if_pos hr, h]

/-- The key of a raw id is written by the records of that id. -/
theorem rawKey_mem_lwKeys {reg : BitVec 32} (hreg : regSlice reg = none) :
    (⟨0#8, reg.setWidth 64⟩ : LwKey) ∈ lwKeys w ↔ w.kind = .reg ∧ w.reg = reg := by
  unfold lwKeys
  by_cases hk : w.kind = .reg
  · rw [if_pos hk]
    cases hs : regSlice w.reg with
    | some s =>
      have hne : w.reg ≠ reg := by
        rintro rfl
        rw [hreg] at hs
        cases hs
      simp [hne]
    | none =>
      simp only [List.mem_singleton, LwKey.mk.injEq, true_and, hk]
      constructor
      · intro h
        have hnat := congrArg BitVec.toNat h
        rw [BitVec.toNat_setWidth, BitVec.toNat_setWidth] at hnat
        have h1 := reg.isLt
        have h2 := w.reg.isLt
        apply BitVec.eq_of_toNat_eq
        omega
      · rintro rfl
        rfl
  · rw [if_neg hk]
    simp [hk]

end Names

section Edges

variable {v : ValTrace} {t s : ℕ} {r : ValRec}

/-- An edge into a vector read comes from the last step that wrote its name. -/
theorem mem_edges_vec (hv : Stamped v) (ht : t < v.stepsLen) (hr : r ∈ v.stepRecs t)
    (hread : r.isWrite = false) (hvec : vecBytes r ≠ []) :
    (s, t, r) ∈ edges ValRec.isWrite lwKeys (groupAt v.recs) v.stepsLen ↔
      s < t ∧ WritesName v s r ∧ ∀ u, s < u → u < t → ¬WritesName v u r := by
  obtain ⟨hk, n, width, hinfo, -⟩ := vecBytes_ne_nil hvec
  have hlog : groupAt v.recs = v.stepRecs := funext (groupAt_eq_stepRecs hv)
  have hwrites : ∀ u, (⟨0#8, r.reg.setWidth 64⟩ : LwKey) ∈
      writesOf ValRec.isWrite lwKeys v.stepRecs u ↔ WritesName v u r := by
    intro u
    simp only [writesOf, List.mem_flatMap, List.mem_filter, WritesName,
      rawKey_mem_lwKeys (regSlice_vec hinfo)]
    constructor
    · rintro ⟨w, ⟨hw, hwr⟩, hwk, hwreg⟩
      exact ⟨w, hw, hwr, hwk, hwreg⟩
    · rintro ⟨w, hw, hwr, hwk, hwreg⟩
      exact ⟨w, ⟨hw, hwr⟩, hwk, hwreg⟩
  rw [mem_edges, hlog, lwKeys_vec hvec]
  simp only [List.mem_singleton, exists_eq_left, IsLast, hwrites, ht, hr, hread, true_and]

theorem WritesName.writesVec (h : WritesName v s r) (hvec : vecBytes r ≠ []) :
    WritesVec v s r := by
  obtain ⟨w, hw, hwr, hwk, hwreg⟩ := h
  obtain ⟨hk, -⟩ := vecBytes_ne_nil hvec
  obtain ⟨c, hc⟩ := List.exists_mem_of_ne_nil _ hvec
  refine ⟨w, hw, hwr, c, ?_, hc⟩
  rw [vecBytes_congr hwk hk hwreg]
  exact hc

/-- Any two names of one register share its lowest byte. -/
theorem writesVec_of_byte {u : ℕ} {w w' : ValRec} {c : ℕ × ℕ} (hw : c ∈ vecBytes w)
    (hshare : ∃ c ∈ vecBytes w, c ∈ vecBytes r) (hw' : w' ∈ v.stepRecs u)
    (hwr' : w'.isWrite = true) (hc' : c ∈ vecBytes w') : WritesVec v u r := by
  obtain ⟨d, hd, hdr⟩ := hshare
  obtain ⟨-, n, width, -, hn⟩ := vecBytes_ne_nil (List.ne_nil_of_mem hw)
  obtain ⟨-, n', width', -, hn'⟩ := vecBytes_ne_nil (List.ne_nil_of_mem hc')
  obtain ⟨-, m, width'', -, hm⟩ := vecBytes_ne_nil (List.ne_nil_of_mem hdr)
  have h1 := (hn c).1 hw
  have h2 := (hn' c).1 hc'
  have h3 := (hn d).1 hd
  have h4 := (hm d).1 hdr
  exact ⟨w', hw', hwr', (n', 0), (hn' _).2 ⟨rfl, by omega⟩, (hm _).2 ⟨by omega, by omega⟩⟩

theorem exists_lastVecWriter {u : ℕ} (hut : u < t) (hu : WritesVec v u r) :
    ∃ s, u ≤ s ∧ LastVecWriter v t r s := by
  induction t with
  | zero => omega
  | succ t ih =>
    by_cases ht : WritesVec v t r
    · exact ⟨t, by omega, by omega, ht, fun u' h1 h2 => by omega⟩
    · have hne : u ≠ t := by
        rintro rfl
        exact ht hu
      obtain ⟨s, hle, hst, hs, hlater⟩ := ih (by omega)
      refine ⟨s, hle, by omega, hs, fun u' h1 h2 hu' => ?_⟩
      rcases Nat.lt_succ_iff_lt_or_eq.1 h2 with h2 | rfl
      · exact hlater u' h1 h2 hu'
      · exact ht hu'

end Edges

/-- The graph of an appended trace respects the aliasing of vector registers exactly if every
vector read finds what was last written to its register under the name it uses itself. -/
theorem defuse_vec_aliasing_iff (stepsCap recsCap : ℕ) (calls : List (BitVec 64 × List ValRec))
    (hlt : (appendAll (valtraceNew stepsCap recsCap) calls).stepsLen < 2 ^ 32) :
    let v := appendAll (valtraceNew stepsCap recsCap) calls
    (∃ g, defuseBuild v = some g ∧ VecAliasing v g) ↔ ReadAsWritten v := by
  intro v
  have hv : Stamped v := stamped_appendAll stepsCap recsCap calls hlt
  have hbuild := @defuseBuild_of_lt v hlt
  have hmem : ∀ {s t : ℕ} {r : ValRec}, (⟨s, t, r⟩ : DefUseEdge) ∈
      (edges ValRec.isWrite lwKeys (groupAt v.recs) v.stepsLen).map toEdge ↔
      (s, t, r) ∈ edges ValRec.isWrite lwKeys (groupAt v.recs) v.stepsLen := by
    intro s t r
    rw [List.mem_map]
    constructor
    · rintro ⟨⟨s', t', r'⟩, hmem, heq⟩
      cases heq
      exact hmem
    · exact fun h => ⟨_, h, rfl⟩
  constructor
  · rintro ⟨g, hg, hal⟩ t ht r hr hread hvec s hlast
    rw [hbuild, Option.some.injEq] at hg
    have hedge := (hal t ht r hr hread hvec).1 s hlast
    rw [← hg] at hedge
    exact ((mem_edges_vec hv ht hr hread hvec).1 (hmem.1 hedge)).2.1
  · intro hsame
    refine ⟨_, hbuild, fun t ht r hr hread hvec => ⟨fun s hlast => ?_, fun s hedge hgone => ?_⟩⟩
    · refine hmem.2 ((mem_edges_vec hv ht hr hread hvec).2 ⟨hlast.1, ?_, fun u hsu hut hu => ?_⟩)
      · exact hsame t ht r hr hread hvec s hlast
      · exact hlast.2.2 u hsu hut (hu.writesVec hvec)
    · obtain ⟨hst, hname, hlater⟩ := (mem_edges_vec hv ht hr hread hvec).1 (hmem.1 hedge)
      -- a later write through another name would be the last one, and not through this name
      have hquiet : ∀ u, s < u → u < t → ¬WritesVec v u r := by
        intro u hsu hut hu
        obtain ⟨last, hle, hlast⟩ := exists_lastVecWriter hut hu
        exact hlater last (by omega) hlast.1 (hsame t ht r hr hread hvec last hlast)
      obtain ⟨w, hw, hwr, c, hcw, hcr⟩ := hname.writesVec hvec
      obtain ⟨u, hsu, hut, w', hw', hwr', -, hc'⟩ := hgone w hw hwr ⟨c, hcw, hcr⟩ c hcw
      exact hquiet u hsu hut (writesVec_of_byte hcw ⟨c, hcw, hcr⟩ hw' hwr' hc')

/-- A record of `ymm0` or `xmm0` -/
def vecRec (reg : BitVec 32) (size : ℕ) (isWrite : Bool) (step : ℕ) : ValRec :=
  { kind := .reg, reg, size, isWrite, step }

/-- `vmovdqu ymm0, [rdi]; vmovd eax, xmm0` -/
def wideThenLow : ValTrace :=
  appendAll (valtraceNew 4 4) [(0, [vecRec 154 32 true 0]), (4, [vecRec 122 16 false 0])]

/-- The same after a write of `xmm0` -/
def lowWideLow : ValTrace :=
  appendAll (valtraceNew 4 4) [(0, [vecRec 122 16 true 0]), (4, [vecRec 154 32 true 0]),
    (8, [vecRec 122 16 false 0])]

/-- The read of `xmm0` does not see the write of `ymm0`: it has no producer, or one whose bytes are
gone. -/
theorem defuse_vec_names :
    (¬∃ g, defuseBuild wideThenLow = some g ∧ VecAliasing wideThenLow g) ∧
      defuseBuild lowWideLow = some ⟨[⟨0, 2, vecRec 122 16 false 2⟩], 3⟩ ∧
      Overwritten lowWideLow 0 2 (vecRec 122 16 false 2) := by
  refine ⟨?_, by decide +kernel, ?_⟩
  · rintro ⟨g, hg, hal⟩
    have hbuild : defuseBuild wideThenLow = some ⟨[], 2⟩ := by
      decide +kernel
    rw [hbuild, Option.some.injEq] at hg
    have hlast : LastVecWriter wideThenLow 1 (vecRec 122 16 false 1) 0 :=
      ⟨by decide, ⟨vecRec 154 32 true 0, by decide, rfl, (0, 0), by decide, by decide⟩,
        (fun u h1 h2 => by omega)⟩
    have hedge := (hal 1 (by decide) (vecRec 122 16 false 1) (by decide) rfl (by decide)).1 0 hlast
    rw [← hg] at hedge
    cases hedge
  · intro w hw hwr hshare c hc
    have hfirst : ∀ w ∈ lowWideLow.stepRecs 0, w = vecRec 122 16 true 0 := by decide
    have hall : ∀ c ∈ vecBytes (vecRec 122 16 true 0), c ∈ vecBytes (vecRec 154 32 true 1) := by
      decide
    rw [hfirst w hw] at hc
    exact ⟨1, by decide, by decide, vecRec 154 32 true 1, by decide, rfl, by decide, hall c hc⟩

theorem defuse_vec_aliasing_iff_ymm :
    let calls : List (BitVec 64 × List ValRec) :=
      [(0, [{ kind := .reg, reg := 154, isWrite := true }]), (4, [{ kind := .reg, reg := 154 }])]
    let v := appendAll (valtraceNew 4 4) calls
    v.stepsLen < 2 ^ 32 ∧
      ((∃ g, defuseBuild v = some g ∧ VecAliasing v g) ↔ ReadAsWritten v) := by
  intro calls v
  have hlt : v.stepsLen < 2 ^ 32 := by decide
  exact ⟨hlt, defuse_vec_aliasing_iff 4 4 calls hlt⟩

end AsmTest.Dataflow
