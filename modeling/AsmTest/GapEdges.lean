import AsmTest.GapCourses

/-!
# Edges across gaps

An edge of the def-use graph should come from the step whose value is read, whatever the code in the
gaps has done. Names of one vector register are filed apart, and only there can it be otherwise.
-/

namespace AsmTest.Dataflow.Gap

open LastWriter

section Spec

namespace Course

variable (course : Course)

/-- Some byte of the read was last written by `s` among the recorded steps, and at `t` it is what
`s` left there. -/
def TrueRead (s t : ℕ) (r : ValRec) : Prop :=
  ∃ b ∈ bytesOf r, course.cap.WritesByte s b ∧
    (∀ u, s < u → u < t → course.cap.Recorded u → ¬course.cap.WritesByte u b) ∧
      ∃ m left held m', course.Takes s m left ∧ course.Takes t held m' ∧
        held.byte b = left.byte b

/-- The builder yields an edge from a recorded step only if the read is true. -/
def EdgesTrue : Prop :=
  ∀ s t r, course.cap.Recorded s →
    (∃ g, defuseBuild course.cap.vt = some g ∧ ⟨s, t, r⟩ ∈ g.edges) → course.TrueRead s t r

/-- A vector register that step `s` was the last recorded one to write under the name of the read,
and that no excursion in between changed, keeps a byte from `s`: the recorded steps in between do
not overwrite all of it through its other names. -/
def Unmasked : Prop :=
  ∀ s t r n width, course.cap.Recorded s → r ∈ course.cap.vt.stepRecs t → r.isWrite = false →
    r.kind = .reg → vecRegInfo r.reg = some (n, width) → s < t → WritesName course.cap.vt s r →
    (∀ u, s < u → u < t → course.cap.Recorded u → ¬WritesName course.cap.vt u r) →
    (∀ e ∈ course.cap.gaps, s < e.pos → e.pos ≤ t → ∀ b < width, e.pre.vec n b = e.post.vec n b) →
    ∃ b < width, ∀ u, s < u → u < t → course.cap.Recorded u →
      ¬course.cap.WritesByte u (.vec n b)

end Course

end Spec

section Bytes

variable {c : Cap} {u : ℕ} {r w : ValRec} {sl : RegSlice} {k : LwKey} {b : Byte}

/-- How many bytes from its first one a record of a name is filed under -/
def span (r : ValRec) (sl : RegSlice) : ℕ :=
  if r.isWrite ∧ sl.len = 4 then 8 else sl.len

lemma lwKeys_of_slice (hk : r.kind = .reg) (hs : regSlice r.reg = some sl) :
    lwKeys r = (List.range (span r sl)).map
      fun b => ⟨2#8, BitVec.ofNat 64 (sl.container * 256 + (sl.off + b))⟩ := by
  have hcases := regSlice_cases hs
  rw [lwKeys, if_pos hk, hs]
  exact List.map_congr_left fun b _ => by
    rw [containerBase_add hcases.1 (by omega)]

lemma keyBytes_gp {container i : ℕ} (hc : container < 256) (hi : i < 256) :
    keyBytes ⟨2#8, BitVec.ofNat 64 (container * 256 + i)⟩ = [.gp container i] := by
  have hnat : (BitVec.ofNat 64 (container * 256 + i)).toNat = container * 256 + i := by
    rw [BitVec.toNat_ofNat, Nat.mod_eq_of_lt (by omega)]
  unfold keyBytes
  dsimp only
  rw [if_neg (by decide : ¬2#8 = 0#8), if_neg (by decide : ¬2#8 = 1#8), hnat,
    show (container * 256 + i) / 256 = container by omega,
    show (container * 256 + i) % 256 = i by omega]

lemma keyBytes_raw (reg : BitVec 32) : keyBytes ⟨0#8, reg.setWidth 64⟩ = rawBytes reg := by
  have hreg : (reg.setWidth 64).setWidth 32 = reg := by
    apply BitVec.eq_of_toNat_eq
    have := reg.isLt
    rw [BitVec.toNat_setWidth, BitVec.toNat_setWidth]
    omega
  unfold keyBytes
  dsimp only
  rw [if_pos rfl, hreg]

/-- A container has a name of its own, so no name without a container has its id. -/
lemma regSlice_ne_none_of_container {reg reg' : BitVec 32} (hs : regSlice reg = some sl)
    (heq : reg'.toNat = sl.container) : regSlice reg' ≠ none := by
  have hall : ∀ c ∈ containerCases.map Prod.fst,
      switchOn containerCases c ≠ none ∧ switchOn extentCases c ≠ none := by decide
  simp only [regSlice, Option.bind_eq_bind, Option.bind_eq_some_iff, Option.pure_def,
    Option.some.injEq] at hs
  obtain ⟨container, hcontainer, ext, -, rfl⟩ := hs
  obtain ⟨hcont, hext⟩ := hall _ (switchOn_mem hcontainer)
  obtain ⟨x, hx⟩ := Option.ne_none_iff_exists'.mp hcont
  obtain ⟨y, hy⟩ := Option.ne_none_iff_exists'.mp hext
  rw [regSlice, heq, hx]
  change (switchOn extentCases container).bind _ ≠ none
  rw [hy]
  exact Option.some_ne_none _

/-- The records that touch a byte of a register: those of a name of its container that reach it, or
those of its own id. -/
lemma mem_bytesOf_gp {container i : ℕ} (h : .gp container i ∈ bytesOf w) : w.kind = .reg ∧
    ((∃ sl, regSlice w.reg = some sl ∧ sl.container = container ∧ sl.off ≤ i ∧
      i < sl.off + span w sl) ∨
    regSlice w.reg = none ∧ vecRegInfo w.reg = none ∧ w.reg.toNat = container) := by
  obtain ⟨k, hk, hb⟩ := List.mem_flatMap.mp h
  have hkind : w.kind = .reg := by
    by_contra hne
    obtain ⟨kind, a⟩ := k
    obtain rfl : kind = 1#8 := (kind_of_mem_lwKeys hk).mpr hne
    cases List.mem_singleton.mp hb
  refine ⟨hkind, ?_⟩
  cases hs : regSlice w.reg with
  | some sl =>
    have hcases := regSlice_cases hs
    rw [lwKeys_of_slice hkind hs] at hk
    obtain ⟨j, hj, rfl⟩ := List.mem_map.mp hk
    have hj := List.mem_range.mp hj
    have hspan : span w sl ≤ 8 := by
      unfold span
      split_ifs <;> omega
    rw [keyBytes_gp hcases.1 (by omega), List.mem_singleton] at hb
    cases hb
    exact .inl ⟨sl, rfl, rfl, by omega, by omega⟩
  | none =>
    rw [lwKeys, if_pos hkind, hs, List.mem_singleton] at hk
    rw [hk, keyBytes_raw, rawBytes] at hb
    cases hinfo : vecRegInfo w.reg with
    | some info =>
      rw [hinfo] at hb
      obtain ⟨j, -, hj⟩ := List.mem_map.mp hb
      cases hj
    | none =>
      rw [hinfo] at hb
      obtain ⟨j, -, hj⟩ := List.mem_map.mp hb
      cases hj
      exact .inr ⟨rfl, rfl, rfl⟩

lemma mem_bytesOf_slice (hk : r.kind = .reg) (hs : regSlice r.reg = some sl) {i : ℕ}
    (hlo : sl.off ≤ i) (hhi : i < sl.off + span r sl) : .gp sl.container i ∈ bytesOf r := by
  have hcases := regSlice_cases hs
  have hspan : span r sl ≤ 8 := by
    unfold span
    split_ifs <;> omega
  refine List.mem_flatMap.mpr ⟨⟨2#8, BitVec.ofNat 64 (sl.container * 256 + i)⟩, ?_, ?_⟩
  · rw [lwKeys_of_slice hk hs]
    refine List.mem_map.mpr ⟨i - sl.off, List.mem_range.mpr (by omega), ?_⟩
    rw [Nat.add_sub_cancel' hlo]
  · rw [keyBytes_gp hcases.1 (by omega)]
    exact List.mem_singleton_self _

lemma Cap.WritesKey.byte (h : c.WritesKey u k) (hb : b ∈ keyBytes k) : c.WritesByte u b := by
  obtain ⟨w, hw, hwrite, hk⟩ := h
  exact ⟨w, hw, hwrite, List.mem_flatMap.mpr ⟨k, hk, hb⟩⟩

/-- A write of a byte of a container is filed under the byte. -/
lemma Cap.WritesByte.key_gp {reg : BitVec 32} {i : ℕ} (hs : regSlice reg = some sl)
    (h : c.WritesByte u (.gp sl.container i)) :
    c.WritesKey u ⟨2#8, BitVec.ofNat 64 (sl.container * 256 + i)⟩ := by
  obtain ⟨w, hw, hwrite, hb⟩ := h
  obtain ⟨hk, ⟨sl', hs', hcont, hlo, hhi⟩ | ⟨hnone, -, heq⟩⟩ := mem_bytesOf_gp hb
  · refine ⟨w, hw, hwrite, ?_⟩
    rw [lwKeys_of_slice hk hs', hcont]
    refine List.mem_map.mpr ⟨i - sl'.off, List.mem_range.mpr (by omega), ?_⟩
    rw [Nat.add_sub_cancel' hlo]
  · exact absurd hnone (regSlice_ne_none_of_container hs heq)

/-- A write of a register that has no container and is no vector is filed under its id. -/
lemma Cap.WritesByte.key_raw {reg : BitVec 32} {i : ℕ} (hs : regSlice reg = none)
    (h : c.WritesByte u (.gp reg.toNat i)) : c.WritesKey u ⟨0#8, reg.setWidth 64⟩ := by
  obtain ⟨w, hw, hwrite, hb⟩ := h
  obtain ⟨hk, ⟨sl', hs', hcont, -, -⟩ | ⟨hnone, -, heq⟩⟩ := mem_bytesOf_gp hb
  · exact absurd hs (regSlice_ne_none_of_container hs' hcont.symm)
  · obtain rfl := BitVec.eq_of_toNat_eq heq
    refine ⟨w, hw, hwrite, ?_⟩
    rw [lwKeys, if_pos hk, hnone]
    exact List.mem_singleton_self _

end Bytes

section True

variable {c : Cap} {win : Bool} {s t : ℕ} {r w : ValRec} {k : LwKey} {e : Excursion}

/-- An edge is into a read. -/
lemma read_of_edge (hstored : c.Stored) (hlt : c.calls.length < 2 ^ 32)
    (h : ∃ g, defuseBuild c.vt = some g ∧ ⟨s, t, r⟩ ∈ g.edges) :
    r ∈ c.vt.stepRecs t ∧ r.isWrite = false := by
  have hlen := hstored.len
  have hlog : groupAt c.vt.recs = c.vt.stepRecs := funext (groupAt_eq_stepRecs hstored.stamped)
  rw [defuseBuild_of_lt (by omega), hlog] at h
  simp only [Option.some.injEq, exists_eq_left', List.mem_map, Prod.exists, toEdge,
    DefUseEdge.mk.injEq] at h
  obtain ⟨s, t, r, hmem, rfl, rfl, rfl⟩ := h
  obtain ⟨-, hr, hread, -⟩ := (mem_edges _ _).1 hmem
  exact ⟨hr, hread⟩

/-- A step that reads is no barrier. -/
lemma recorded_of_read (hstored : c.Stored) (hbarred : c.Barred) (hr : r ∈ c.vt.stepRecs t)
    (hread : r.isWrite = false) : c.Recorded t := by
  obtain ⟨call, hcall, w, hw, rfl⟩ := hstored.exists_call hr
  refine ⟨call, hcall, ?_⟩
  by_contra hgap
  obtain ⟨e, he⟩ := Option.ne_none_iff_exists'.mp hgap
  obtain ⟨-, -, hbatch, -⟩ := hbarred.mark t call e hcall he
  exact absurd ((hbatch w hw).1.symm.trans hread) (by decide)

/-- What a stored write of a recorded step is to the capture -/
lemma wrote_of_mem (hstored : c.Stored) (hs : c.Recorded s) (hw : w ∈ c.vt.stepRecs s)
    (hwrite : w.isWrite = true) : ∃ w', c.Wrote s w' ∧ w = stamp s w' := by
  obtain ⟨call, hcall, w', hw', rfl⟩ := hstored.exists_call hw
  obtain ⟨call', hcall', hgap⟩ := hs
  rw [hcall] at hcall'
  obtain rfl := Option.some.inj hcall'
  exact ⟨w', ⟨call, hcall, hgap, hw', hwrite⟩, rfl⟩

/-- A name whose last writer comes before an excursion and after which no barrier writes it was the
same at both ends. -/
lemma same_of_last (hstored : c.Stored) (hbarred : c.Barred) (hg : c.Guarded win)
    (ht : c.Recorded t) (hr : r ∈ c.vt.stepRecs t) (hw : c.Wrote s w) (hk : w.kind = .reg)
    (hkey : k ∈ nameKeys w.reg) (hlast : ∀ u, s < u → u < t → ¬c.WritesKey u k) (he : e ∈ c.gaps)
    (hse : s < e.pos) (het : e.pos ≤ t) : gapReg e.pre e.post e.stash w.reg = .same := by
  obtain ⟨hreg, hdecided⟩ := hg.names e he s w hse hw hk
  cases hv : gapReg e.pre e.post e.stash w.reg with
  | undecided => exact absurd hv hdecided
  | same => rfl
  | changed r' =>
    have hchange : e.Changes w.reg := (gapReg_changed_iff e.pos e.regs).mp ⟨r', hv⟩
    obtain ⟨hpos, hwrites⟩ := barrier_of_hits hstored hbarred ht hr he het hreg hchange hkey
    exact absurd hwrites (hlast e.pos hse hpos)

/-- So it is for a byte of memory. -/
lemma mem_same_of_last (hstored : c.Stored) (hbarred : c.Barred) (hg : c.Guarded win)
    (ht : c.Recorded t) (hr : r ∈ c.vt.stepRecs t) (hw : c.Wrote s w) {a : BitVec 64}
    (ha : ⟨1#8, a⟩ ∈ lwKeys w) (hlast : ∀ u, s < u → u < t → ¬c.WritesKey u ⟨1#8, a⟩)
    (he : e ∈ c.gaps) (hse : s < e.pos) (het : e.pos ≤ t) : e.pre.mem a = e.post.mem a := by
  rcases hg.bytes e he s w hse hw a ha with heq | ⟨j, call, hcall, hgap, w', hw', hwrite, hkeys⟩
  · exact heq
  · obtain ⟨-, hpos, -, hbetween⟩ := hbarred.mark j call e hcall hgap
    have hjt : j < t := by
      by_contra hle
      exact hbetween t het (Nat.le_of_not_lt hle) ht
    refine absurd ⟨stamp j w', hstored.mem_of_later hr hjt hcall hw', hwrite, ?_⟩
      (hlast j (by omega) hjt)
    rw [lwKeys_stamp, hkeys]
    exact List.mem_singleton_self _

/-- What is known of an edge in a capture that is not truncated: the key it comes from, and a write
record of the step for it -/
structure EdgeVia (c : Cap) (s t : ℕ) (r : ValRec) (k : LwKey) (w : ValRec) : Prop where
  lt : s < t
  read : r ∈ c.vt.stepRecs t ∧ r.isWrite = false ∧ k ∈ lwKeys r
  reader : c.Recorded t
  write : c.Wrote s w ∧ k ∈ lwKeys w
  writes : c.WritesKey s k
  last : ∀ u, s < u → u < t → ¬c.WritesKey u k

lemma exists_edgeVia (hstored : c.Stored) (hbarred : c.Barred) (hlt : c.calls.length < 2 ^ 32)
    (hs : c.Recorded s) (h : ∃ g, defuseBuild c.vt = some g ∧ ⟨s, t, r⟩ ∈ g.edges) :
    ∃ k w, EdgeVia c s t r k w := by
  obtain ⟨hr, hread⟩ := read_of_edge hstored hlt h
  obtain ⟨k, hk, hst, hwrites, hlast⟩ := (edge_iff hstored hlt hr hread).mp h
  obtain ⟨w, hw, hwrite, hkw⟩ := id hwrites
  obtain ⟨w', hwrote, rfl⟩ := wrote_of_mem hstored hs hw hwrite
  exact ⟨k, w', hst, ⟨hr, hread, hk⟩, recorded_of_read hstored hbarred hr hread,
    ⟨hwrote, hkw⟩, hwrites, hlast⟩

lemma nameKeys_of_wrote (hw : c.Wrote s w) (hk : w.kind = .reg) : lwKeys w = nameKeys w.reg := by
  obtain ⟨call, -, -, -, hwrite⟩ := hw
  rw [nameKeys, lwKeys, lwKeys, if_pos hk, if_pos rfl, hwrite]

variable {course : Course}

/-- A byte of the read that the edge's step was the last to write, and that the excursions leave
alone -/
lemma Course.trueRead_of_byte {b : Byte} (hs : course.cap.Recorded s) (ht : course.cap.Recorded t)
    (hst : s < t) (hr : r ∈ course.cap.vt.stepRecs t) (hb : b ∈ bytesOf r)
    (hwrites : course.cap.WritesByte s b)
    (hsteps : ∀ u, s < u → u < t → course.cap.Recorded u → ¬course.cap.WritesByte u b)
    (hgaps : ∀ e ∈ course.cap.gaps, s < e.pos → e.pos ≤ t → e.pre.byte b = e.post.byte b) :
    course.TrueRead s t r := by
  obtain ⟨before, off, recs, m, left, after, hevents, hlen⟩ := exists_event_of_recorded hs
  obtain ⟨before', off', recs', held, m', after', hevents', hlen'⟩ := exists_event_of_recorded ht
  have htakes : course.Takes s m left := ⟨before, off, recs, after, hevents, hlen⟩
  have htakes' : course.Takes t held m' := ⟨before', off', recs', after', hevents', hlen'⟩
  exact ⟨b, hb, hwrites, hsteps, m, left, held, m', htakes, htakes',
    Course.byte_held htakes htakes' hst hr hsteps hgaps⟩

end True

section Cases

variable {course : Course} {s t : ℕ} {r w : ValRec} {k : LwKey}

/-- Memory is filed byte by byte. -/
lemma Course.trueRead_mem (htrunc : course.cap.vt.truncated = false) (hs : course.cap.Recorded s)
    (h : EdgeVia course.cap s t r k w) (hk : r.kind ≠ .reg) : course.TrueRead s t r := by
  obtain ⟨hstored, hbarred, hlt⟩ :=
    @capOf_sound course.win course.stepsCap course.recsCap _ course.bounded
  have hg := @capOf_guarded course.win course.stepsCap course.recsCap _ course.bounded htrunc
  obtain ⟨hr, -, hkr⟩ := h.read
  obtain ⟨kind, a⟩ := k
  obtain rfl : kind = 1#8 := (kind_of_mem_lwKeys hkr).mpr hk
  refine course.trueRead_of_byte hs h.reader h.lt hr
    (List.mem_flatMap.mpr ⟨_, hkr, List.mem_singleton_self _⟩) (writesByte_mem_iff.mpr h.writes)
    (fun u hsu hut _ hu => h.last u hsu hut (writesByte_mem_iff.mp hu)) ?_
  exact fun e he hse het =>
    mem_same_of_last hstored hbarred hg h.reader hr h.write.1 h.write.2 h.last he hse het

/-- A read of a name with a container. A 32-bit write is filed under all eight bytes, and only its
own four are compared; a read of one of the others is one of all eight. -/
lemma Course.trueRead_slice (htrunc : course.cap.vt.truncated = false)
    (hs : course.cap.Recorded s) (h : EdgeVia course.cap s t r k w) (hk : r.kind = .reg)
    {sl : RegSlice} (hsl : regSlice r.reg = some sl) : course.TrueRead s t r := by
  obtain ⟨hstored, hbarred, hlt⟩ :=
    @capOf_sound course.win course.stepsCap course.recsCap _ course.bounded
  have hg := @capOf_guarded course.win course.stepsCap course.recsCap _ course.bounded htrunc
  obtain ⟨hr, hread, hkr⟩ := h.read
  have hspan : span r sl = sl.len := if_neg fun hw => absurd (hread.symm.trans hw.1) (by decide)
  obtain ⟨i, hlo, hhi, hki⟩ : ∃ i, sl.off ≤ i ∧ i < sl.off + sl.len ∧
      k = ⟨2#8, BitVec.ofNat 64 (sl.container * 256 + i)⟩ := by
    rw [lwKeys_of_slice hk hsl, hspan] at hkr
    obtain ⟨j, hj, rfl⟩ := List.mem_map.mp hkr
    exact ⟨sl.off + j, by omega, by have := List.mem_range.mp hj; omega, rfl⟩
  have hcases := regSlice_cases hsl
  have hbyte : Byte.gp sl.container i ∈ bytesOf w := by
    refine List.mem_flatMap.mpr ⟨k, h.write.2, ?_⟩
    rw [hki, keyBytes_gp hcases.1 (by omega)]
    exact List.mem_singleton_self _
  obtain ⟨hkw, ⟨sl', hsl', hcont, hlo', hhi'⟩ | ⟨hnone, -, heq⟩⟩ := mem_bytesOf_gp hbyte
  · have hcases' := regSlice_cases hsl'
    have hsame : ∀ e ∈ course.cap.gaps, s < e.pos → e.pos ≤ t →
        ∀ b ∈ ownBytes w.reg, e.pre.byte b = e.post.byte b := fun e he hse het =>
      (keeps_of_same (same_of_last hstored hbarred hg h.reader hr h.write.1 hkw
        (nameKeys_of_wrote h.write.1 hkw ▸ h.write.2) h.last he hse het)).1
    have hown : ∀ j, sl'.off ≤ j → j < sl'.off + sl'.len →
        Byte.gp sl.container j ∈ ownBytes w.reg := by
      intro j hj hj'
      rw [ownBytes, hsl', ← hcont]
      exact List.mem_map.mpr ⟨j - sl'.off, List.mem_range.mpr (by omega), by
        rw [Nat.add_sub_cancel' hj]⟩
    by_cases hin : i < sl'.off + sl'.len
    · -- the byte of the key is one of the written name
      refine course.trueRead_of_byte hs h.reader h.lt hr
        (mem_bytesOf_slice hk hsl hlo (by rw [hspan]; exact hhi)) ?_ ?_ ?_
      · exact h.writes.byte (by
          rw [hki, keyBytes_gp hcases.1 (by omega)]
          exact List.mem_singleton_self _)
      · intro u hsu hut _ hu
        apply h.last u hsu hut
        rw [hki]
        exact hu.key_gp hsl
      · exact fun e he hse het => hsame e he hse het _ (hown i hlo' hin)
    · -- the upper half of a 32-bit write: byte 2 was written along with it
      obtain ⟨hlen, hoff⟩ : sl'.len = 4 ∧ sl'.off = 0 := by
        unfold span at hhi'
        split_ifs at hhi' with hwide
        · exact ⟨hwide.2, by omega⟩
        · omega
      have hwhole : sl.len = 8 ∧ sl.off = 0 := by omega
      have htwo : ∀ u, course.cap.WritesByte u (.gp sl.container 2) → course.cap.WritesKey u k := by
        rintro u ⟨w', hw', hwrite', hb'⟩
        have hspan' : Byte.gp sl.container i ∈ bytesOf w' := by
          obtain ⟨hkw', ⟨sl'', hsl'', hcont'', hlo'', hhi''⟩ | ⟨hnone, -, heq⟩⟩ :=
            mem_bytesOf_gp hb'
          · have hcases'' := regSlice_cases hsl''
            rw [← hcont'']
            have : span w' sl'' = 8 := by
              unfold span at hhi'' ⊢
              split_ifs at hhi'' ⊢ with hwide
              · rfl
              · have : ¬sl''.len = 4 := fun h4 => hwide ⟨hwrite', h4⟩
                omega
            exact mem_bytesOf_slice hkw' hsl'' (by omega) (by omega)
          · exact absurd hnone (regSlice_ne_none_of_container hsl heq)
        rw [hki]
        exact Cap.WritesByte.key_gp hsl ⟨w', hw', hwrite', hspan'⟩
      refine course.trueRead_of_byte hs h.reader h.lt hr
        (mem_bytesOf_slice hk hsl (show sl.off ≤ 2 by omega) (by omega)) ?_ ?_ ?_
      · obtain ⟨call, hcall, -, hw, hwrite⟩ := h.write.1
        refine ⟨stamp s w, hstored.mem_of_later hr h.lt hcall hw, hwrite, ?_⟩
        rw [← hcont]
        exact mem_bytesOf_slice (r := stamp s w) hkw hsl' (by omega) (by
          change 2 < sl'.off + span w sl'
          omega)
      · exact fun u hsu hut _ hu => h.last u hsu hut (htwo u hu)
      · exact fun e he hse het => hsame e he hse het _ (hown 2 (by omega) (by omega))
  · exact absurd hnone (regSlice_ne_none_of_container hsl heq)

/-- A read of a name without a container comes from a write of the same name, whose bytes every
excursion in between left alone. -/
lemma Course.same_raw (htrunc : course.cap.vt.truncated = false)
    (h : EdgeVia course.cap s t r k w) (hk : r.kind = .reg) (hsl : regSlice r.reg = none) :
    k = ⟨0#8, r.reg.setWidth 64⟩ ∧ w.kind = .reg ∧ w.reg = r.reg ∧
      ∀ e ∈ course.cap.gaps, s < e.pos → e.pos ≤ t →
        ∀ b ∈ rawBytes r.reg, e.pre.byte b = e.post.byte b := by
  obtain ⟨hstored, hbarred, hlt⟩ :=
    @capOf_sound course.win course.stepsCap course.recsCap _ course.bounded
  have hg := @capOf_guarded course.win course.stepsCap course.recsCap _ course.bounded htrunc
  obtain ⟨hr, -, hkr⟩ := h.read
  obtain rfl : k = ⟨0#8, r.reg.setWidth 64⟩ := by
    rw [lwKeys, if_pos hk, hsl] at hkr
    exact List.mem_singleton.mp hkr
  obtain ⟨hkw, hreg⟩ := (rawKey_mem_lwKeys hsl).mp h.write.2
  refine ⟨rfl, hkw, hreg, fun e he hse het b hb => ?_⟩
  obtain ⟨hkeep, hraw⟩ := keeps_of_same (same_of_last hstored hbarred hg h.reader hr h.write.1 hkw
    (nameKeys_of_wrote h.write.1 hkw ▸ h.write.2) h.last he hse het)
  rw [hreg] at hkeep hraw
  rw [hraw hsl] at hkeep
  exact hkeep b hb

lemma Course.trueRead_raw (htrunc : course.cap.vt.truncated = false)
    (hs : course.cap.Recorded s) (h : EdgeVia course.cap s t r k w) (hk : r.kind = .reg)
    (hsl : regSlice r.reg = none) (hvec : vecRegInfo r.reg = none) : course.TrueRead s t r := by
  obtain ⟨rfl, -, -, hkeep⟩ := course.same_raw htrunc h hk hsl
  have hraw : Byte.gp r.reg.toNat 0 ∈ rawBytes r.reg := by
    rw [rawBytes, hvec]
    exact List.mem_map_of_mem (List.mem_range.mpr (by decide))
  have hkey : Byte.gp r.reg.toNat 0 ∈ keyBytes ⟨0#8, r.reg.setWidth 64⟩ := by
    rw [keyBytes_raw]
    exact hraw
  exact course.trueRead_of_byte hs h.reader h.lt h.read.1
    (List.mem_flatMap.mpr ⟨_, h.read.2.2, hkey⟩) (h.writes.byte hkey)
    (fun u hsu hut _ hu => h.last u hsu hut (hu.key_raw hsl))
    fun e he hse het => hkeep e he hse het _ hraw

lemma ownBytes_subset {reg : BitVec 32} (hsl : regSlice reg = none) :
    ownBytes reg ⊆ rawBytes reg := by
  rw [ownBytes, hsl]
  dsimp only
  split_ifs
  · exact List.Subset.refl _
  · exact List.nil_subset _

lemma writesName_iff {c : Cap} {u : ℕ} (hsl : regSlice r.reg = none) :
    WritesName c.vt u r ↔ c.WritesKey u ⟨0#8, r.reg.setWidth 64⟩ := by
  unfold WritesName Cap.WritesKey
  simp only [rawKey_mem_lwKeys hsl]

lemma mem_rawBytes_vec {reg : BitVec 32} {n width : ℕ} (hinfo : vecRegInfo reg = some (n, width))
    {b : Byte} : b ∈ rawBytes reg ↔ ∃ i < width, b = .vec n i := by
  rw [rawBytes, hinfo]
  simp only [List.mem_map, List.mem_range, eq_comm]

/-- A vector register: whether a byte is left of what the step wrote is the condition. -/
lemma Course.trueRead_vec (htrunc : course.cap.vt.truncated = false) (hun : course.Unmasked)
    (hs : course.cap.Recorded s) (h : EdgeVia course.cap s t r k w) (hk : r.kind = .reg)
    {n width : ℕ} (hinfo : vecRegInfo r.reg = some (n, width)) : course.TrueRead s t r := by
  have hsl := regSlice_vec hinfo
  obtain ⟨rfl, -, -, hkeep⟩ := course.same_raw htrunc h hk hsl
  have hvec : ∀ e ∈ course.cap.gaps, s < e.pos → e.pos ≤ t → ∀ i < width,
      e.pre.byte (.vec n i) = e.post.byte (.vec n i) := fun e he hse het i hi =>
    hkeep e he hse het _ ((mem_rawBytes_vec hinfo).mpr ⟨i, hi, rfl⟩)
  obtain ⟨i, hi, hleft⟩ := hun s t r n width hs h.read.1 h.read.2.1 hk hinfo h.lt
    ((writesName_iff hsl).mpr h.writes)
    (fun u hsu hut _ hu => h.last u hsu hut ((writesName_iff hsl).mp hu))
    (fun e he hse het i hi => Option.some.inj (hvec e he hse het i hi))
  have hkey : Byte.vec n i ∈ keyBytes ⟨0#8, r.reg.setWidth 64⟩ := by
    rw [keyBytes_raw]
    exact (mem_rawBytes_vec hinfo).mpr ⟨i, hi, rfl⟩
  exact course.trueRead_of_byte hs h.reader h.lt h.read.1
    (List.mem_flatMap.mpr ⟨_, h.read.2.2, hkey⟩) (h.writes.byte hkey) hleft
    fun e he hse het => hvec e he hse het i hi

end Cases

section Concrete

/-- A write of RAX, a callee that changes it, and a read -/
def calleeCourse : Course where
  win := false
  stepsCap := 8
  recsCap := 8
  events := [.step 0 [{ kind := .reg, reg := 35, isWrite := true }] (raxMachine 0x1122)
      (raxMachine 0x1122),
    .gap 0x9000 (raxMachine 0x1122) (raxMachine 0x3344) fun _ => none,
    .step 7 [{ kind := .reg, reg := 35 }] (raxMachine 0x3344) (raxMachine 0x3344)]
  first := raxMachine 0x1122
  last := raxMachine 0x3344
  runs := ⟨rfl, rfl, rfl, rfl⟩
  reported := by
    simp only [List.forall_mem_cons, List.not_mem_nil, false_implies, implies_true, and_true]
    exact ⟨fun b hne => absurd rfl hne, trivial, fun b hne => absurd rfl hne⟩
  bounded := by decide

/-- Writes of XMM0 and of YMM0, and a read of XMM0 -/
def maskedCourse : Course where
  win := true
  stepsCap := 8
  recsCap := 8
  events := [.step 0 [{ kind := .reg, reg := 122, isWrite := true }] (raxMachine 0) (raxMachine 0),
    .step 4 [{ kind := .reg, reg := 154, isWrite := true }] (raxMachine 0) (raxMachine 0),
    .step 9 [{ kind := .reg, reg := 122 }] (raxMachine 0) (raxMachine 0)]
  first := raxMachine 0
  last := raxMachine 0
  runs := ⟨rfl, rfl, rfl, rfl⟩
  reported := by
    simp only [List.forall_mem_cons, List.not_mem_nil, false_implies, implies_true, and_true]
    exact ⟨fun b hne => absurd rfl hne, fun b hne => absurd rfl hne, fun b hne => absurd rfl hne⟩
  bounded := by decide

end Concrete

end AsmTest.Dataflow.Gap
