import AsmTest.GapBarrier

/-!
# Captures with the tracee at each stop

Steps that are recorded change what their operands name; an excursion changes whatever it likes. In
a capture that is not truncated all that was written before an excursion was compared across it.
-/

namespace AsmTest.Dataflow.Gap

open LastWriter

section Courses

/-- A step of the capture with the tracee before and after it, or an excursion -/
inductive Event where
  | step (off : BitVec 64) (recs : List ValRec) (pre post : Machine)
  | gap (pc : BitVec 64) (pre post : Machine) (stash : BitVec 32 → Option (BitVec 32))

namespace Event

def pre : Event → Machine
  | step _ _ pre _ => pre
  | gap _ pre _ _ => pre

def post : Event → Machine
  | step _ _ _ post => post
  | gap _ _ post _ => post

def act : Event → Act
  | step off recs _ _ => .step off recs
  | gap pc pre post stash => .gap pc pre post stash

end Event

/-- Every byte that changes is one that a write record names. -/
def Reported (recs : List ValRec) (pre post : Machine) : Prop :=
  ∀ b, pre.byte b ≠ post.byte b → ∃ w ∈ recs, w.isWrite = true ∧ b ∈ bytesOf w

/-- The operands of a step are all of what it writes. -/
def Event.Reported : Event → Prop
  | .step _ recs pre post => Gap.Reported recs pre post
  | .gap .. => True

/-- Each event starts where the one before it ended. -/
def Runs (m : Machine) : List Event → Machine → Prop
  | [], m' => m = m'
  | ev :: events, m' => ev.pre = m ∧ Runs ev.post events m'

/-- What was captured after some events -/
def capOf (win : Bool) (stepsCap recsCap : ℕ) (events : List Event) : Cap :=
  (events.map Event.act).foldl (Cap.act win) { vt := valtraceNew stepsCap recsCap }

/-- A run of a loop with the tracee at each stop -/
structure Course where
  win : Bool
  stepsCap : ℕ
  recsCap : ℕ
  events : List Event
  first : Machine
  last : Machine
  runs : Runs first events last
  reported : ∀ ev ∈ events, ev.Reported
  bounded : events.length < 2 ^ 31

namespace Course

variable (course : Course)

def cap : Cap := capOf course.win course.stepsCap course.recsCap course.events

/-- Step `u` is recorded; it takes the tracee from `m` to `m'`. -/
def Takes (u : ℕ) (m m' : Machine) : Prop :=
  ∃ before off recs after, course.events = before ++ .step off recs m m' :: after ∧
    (capOf course.win course.stepsCap course.recsCap before).calls.length = u

end Course

end Courses

section Risk

variable {win : Bool} {risk : Risk} {recs : List ValRec}

/-- What a write names is compared at the end of an excursion. -/
structure InRisk (risk : Risk) (w : ValRec) : Prop where
  reg : w.kind = .reg → w.reg ∈ risk.regs
  mem : ∀ a, ⟨1#8, a⟩ ∈ lwKeys w → a ∈ risk.addrs

lemma InRisk.mono {risk' : Risk} {w : ValRec} (h : InRisk risk w)
    (hregs : risk.regs ⊆ risk'.regs) (haddrs : risk.addrs ⊆ risk'.addrs) : InRisk risk' w :=
  ⟨fun hk => hregs (h.reg hk), fun a ha => haddrs (h.mem a ha)⟩

lemma riskAddBytes_cons (addrs : List (BitVec 64)) (a : BitVec 64) (rest : List (BitVec 64)) :
    riskAddBytes addrs (a :: rest) =
      if a ∈ addrs then riskAddBytes addrs rest
      else if addrs.length = winRiskBytes then (addrs, true)
      else riskAddBytes (addrs.orderedInsert (· ≤ ·) a) rest :=
  rfl

/-- Unless it says that it is full, the set has all the bytes. -/
lemma riskAddBytes_spec (addrs l : List (BitVec 64)) :
    addrs ⊆ (riskAddBytes addrs l).1 ∧
      ((riskAddBytes addrs l).2 = false → l ⊆ (riskAddBytes addrs l).1) := by
  induction l generalizing addrs with
  | nil => exact ⟨List.Subset.refl _, fun _ => List.nil_subset _⟩
  | cons a rest ih =>
    rw [riskAddBytes_cons]
    split_ifs with hmem hfull
    · obtain ⟨hsub, hall⟩ := ih addrs
      exact ⟨hsub, fun h => List.cons_subset.mpr ⟨hsub hmem, hall h⟩⟩
    · exact ⟨List.Subset.refl _, fun h => h.elim⟩
    · obtain ⟨hsub, hall⟩ := ih (addrs.orderedInsert (· ≤ ·) a)
      have ha : a ∈ addrs.orderedInsert (· ≤ ·) a := (List.mem_orderedInsert _).mpr (.inl rfl)
      exact ⟨fun x hx => hsub ((List.mem_orderedInsert _).mpr (.inr hx)),
        fun h => List.cons_subset.mpr ⟨hsub ha, hall h⟩⟩

/-- Nothing leaves the set, a write goes in unless the set overflows, and an overflow stays. -/
lemma riskAdd_spec (win : Bool) (risk : Risk) (w : ValRec) :
    risk.regs ⊆ (riskAdd win risk w).regs ∧ risk.addrs ⊆ (riskAdd win risk w).addrs ∧
      ((riskAdd win risk w).overflow = false →
        risk.overflow = false ∧ (w.isWrite = true → InRisk (riskAdd win risk w) w)) := by
  have hmemKeys : w.kind = .reg → ∀ a, (⟨1#8, a⟩ : LwKey) ∉ lwKeys w := fun hk a ha =>
    (kind_of_mem_lwKeys ha).1 rfl hk
  unfold riskAdd
  split_ifs with hread hk hmem hfull hsize
  · exact ⟨List.Subset.refl _, List.Subset.refl _,
      fun h => ⟨h, fun hw => absurd (hw.symm.trans hread) Bool.noConfusion⟩⟩
  · exact ⟨List.Subset.refl _, List.Subset.refl _,
      fun h => ⟨h, fun _ => ⟨fun _ => hmem, fun a ha => absurd ha (hmemKeys hk a)⟩⟩⟩
  · exact ⟨List.Subset.refl _, List.Subset.refl _, fun h => Bool.noConfusion h⟩
  · exact ⟨List.subset_append_left _ _, List.Subset.refl _, fun h => ⟨h, fun _ =>
      ⟨fun _ => List.mem_append_right _ (List.mem_singleton_self _),
        fun a ha => absurd ha (hmemKeys hk a)⟩⟩⟩
  · exact ⟨List.Subset.refl _, List.Subset.refl _, fun h => Bool.noConfusion h⟩
  · obtain ⟨hsub, hall⟩ := riskAddBytes_spec risk.addrs
      ((List.range w.size).map fun b => w.addr + BitVec.ofNat 64 b)
    dsimp only
    split_ifs with hover
    · exact ⟨List.Subset.refl _, hsub, fun h => Bool.noConfusion h⟩
    · refine ⟨List.Subset.refl _, hsub, fun h => ⟨h, fun _ => ⟨fun hreg => absurd hreg hk, ?_⟩⟩⟩
      intro a ha
      apply hall (Bool.eq_false_iff.mpr hover)
      have hbytes : recBytes w = w.size := by
        unfold recBytes
        dsimp only
        rw [if_pos (show w.size ≠ 0 by omega), if_neg (show ¬w.size > 64 by omega)]
      rw [lwKeys, if_neg hk, hbytes] at ha
      obtain ⟨b, hb, heq⟩ := List.mem_map.mp ha
      obtain ⟨-, rfl⟩ := LwKey.mk.inj heq
      exact List.mem_map_of_mem hb

lemma foldl_riskAdd_spec (win : Bool) (recs : List ValRec) (risk : Risk) :
    risk.regs ⊆ (recs.foldl (riskAdd win) risk).regs ∧
      risk.addrs ⊆ (recs.foldl (riskAdd win) risk).addrs ∧
      ((recs.foldl (riskAdd win) risk).overflow = false → risk.overflow = false ∧
        ∀ w ∈ recs, w.isWrite = true → InRisk (recs.foldl (riskAdd win) risk) w) := by
  induction recs generalizing risk with
  | nil =>
    exact ⟨List.Subset.refl _, List.Subset.refl _,
      fun h => ⟨h, fun w hw => absurd hw List.not_mem_nil⟩⟩
  | cons w recs ih =>
    obtain ⟨hregs, haddrs, hin⟩ := riskAdd_spec win risk w
    obtain ⟨hregs', haddrs', hin'⟩ := ih (riskAdd win risk w)
    refine ⟨List.Subset.trans hregs hregs', List.Subset.trans haddrs haddrs', fun h => ?_⟩
    obtain ⟨hover, hall⟩ := hin' h
    obtain ⟨hover', hw⟩ := hin hover
    exact ⟨hover', List.forall_mem_cons.mpr ⟨fun hwrite => (hw hwrite).mono hregs' haddrs', hall⟩⟩

/-- The scoped loop has still to disclose an overflow at the next excursion. -/
lemma foldl_riskAdd_pending (recs : List ValRec) (h : risk.overflow = true → risk.pending = true)
    (hfull : (recs.foldl (riskAdd false) risk).overflow = true) :
    (recs.foldl (riskAdd false) risk).pending = true := by
  induction recs generalizing risk with
  | nil => exact h hfull
  | cons w recs ih =>
    refine ih ?_ hfull
    unfold riskAdd
    split_ifs
    · exact h
    · exact h
    · exact fun _ => Bool.or_true _
    · exact h
    · exact fun _ => Bool.or_true _
    · dsimp only
      split_ifs
      · exact fun _ => Bool.or_true _
      · exact h

end Risk

section Decided

variable {pre post : Machine} {stash : BitVec 32 → Option (BitVec 32)} {reg : BitVec 32}

/-- If every name is decided, the loop says so of each. -/
lemma gapRegs_decided {verdict : BitVec 32 → Verdict} {regs : List (BitVec 32)} {n : ℕ}
    (hlen : n + regs.length ≤ winRiskRegs) (h : (gapRegs verdict regs n).1 = false) :
    ∀ reg ∈ regs, verdict reg ≠ .undecided := by
  induction regs generalizing n with
  | nil => exact fun reg hreg => absurd hreg List.not_mem_nil
  | cons reg rest ih =>
    rw [List.length_cons] at hlen
    rw [gapRegs, if_neg (by omega)] at h
    cases hv : verdict reg with
    | undecided =>
      rw [hv] at h
      cases h
    | same =>
      rw [hv] at h
      refine List.forall_mem_cons.mpr ⟨?_, ih (n := n) (by omega) h⟩
      rw [hv]
      exact Verdict.noConfusion
    | changed r =>
      rw [hv] at h
      refine List.forall_mem_cons.mpr ⟨?_, ih (n := n + 1) (by omega) h⟩
      rw [hv]
      exact Verdict.noConfusion

/-- If every byte is decided and there was room, those that changed have their records. -/
lemma gapMems_decided {verdict : BitVec 64 → Verdict} {addrs : List (BitVec 64)} {n mn : ℕ}
    (h : (gapMems verdict addrs n mn).1 = false) :
    ∀ a ∈ addrs, verdict a = .same ∨ ∃ r, verdict a = .changed r ∧
      (r ∈ (gapMems verdict addrs n mn).2.1 ∨ r ∈ (gapMems verdict addrs n mn).2.2) := by
  induction addrs generalizing n mn with
  | nil => exact fun a ha => absurd ha List.not_mem_nil
  | cons a rest ih =>
    rw [gapMems] at h ⊢
    cases hv : verdict a with
    | undecided =>
      rw [hv] at h
      cases h
    | same =>
      rw [hv] at h
      exact List.forall_mem_cons.mpr ⟨.inl hv, ih h⟩
    | changed r =>
      rw [hv] at h
      dsimp only at h ⊢
      split_ifs at h ⊢ with hn hmn
      · refine List.forall_mem_cons.mpr ⟨.inr ⟨r, hv, .inl List.mem_cons_self⟩, fun b hb => ?_⟩
        rcases ih h b hb with hsame | ⟨r', hr', hmem⟩
        · exact .inl hsame
        · exact .inr ⟨r', hr', hmem.imp_left (List.mem_cons_of_mem r)⟩
      · refine List.forall_mem_cons.mpr ⟨.inr ⟨r, hv, .inr List.mem_cons_self⟩, fun b hb => ?_⟩
        rcases ih h b hb with hsame | ⟨r', hr', hmem⟩
        · exact .inl hsame
        · exact .inr ⟨r', hr', hmem.imp_right (List.mem_cons_of_mem r)⟩

/-- A name that is the same has the same bytes, and a name of no container that could be compared is
one whose bytes are known. -/
lemma keeps_of_same (h : gapReg pre post stash reg = .same) :
    (∀ b ∈ ownBytes reg, pre.byte b = post.byte b) ∧
      (regSlice reg = none → ownBytes reg = rawBytes reg) := by
  rcases vecWidth_eq reg with hw | ⟨hinfo, -⟩
  · have hinfo : vecRegInfo reg = none := by
      cases hinfo : vecRegInfo reg with
      | none => rfl
      | some info =>
        have hlo : 122 ≤ reg.toNat := (@vecRegInfo_pos reg info.1 info.2 hinfo).2.1
        rw [gapReg_of_width_zero hw, sliceOf_toNat, regSlice_vec hinfo] at h
        dsimp only at h
        rw [if_neg (by omega)] at h
        cases h
    constructor
    · intro b hb
      by_contra hne
      have hchange : (⟨0, [], pre, post, stash⟩ : Excursion).Changes reg := by
        refine ⟨⟨b, hb, hne⟩, fun n width hvec => ?_⟩
        rw [hinfo] at hvec
        cases hvec
      obtain ⟨r, hr⟩ := (gapReg_changed_iff 0 []).mpr hchange
      rw [h] at hr
      cases hr
    · intro hs
      rw [ownBytes, hs]
      dsimp only
      rw [if_pos]
      right
      by_contra hno
      rw [gapReg_of_width_zero hw, sliceOf_toNat, hs] at h
      dsimp only at h
      rw [if_neg hno] at h
      cases h
  · have hpos := (vecRegInfo_pos hinfo).1
    have hown : ownBytes reg = rawBytes reg := by
      rw [ownBytes, regSlice_vec hinfo]
      exact if_pos (.inl hpos.ne')
    refine ⟨fun b hb => ?_, fun _ => hown⟩
    rw [hown, rawBytes, hinfo] at hb
    obtain ⟨i, hi, rfl⟩ := List.mem_map.mp hb
    rw [gapReg, if_neg hpos.ne'] at h
    split_ifs at h with hunread hsame
    · exact congrArg some (hsame i (List.mem_range.mp hi))
    · cases hst : stash reg with
      | none =>
        rw [hst] at h
        cases h
      | some off =>
        rw [hst] at h
        cases h

lemma eq_of_gapMem_same {a : BitVec 64} (h : gapMem pre post a = .same) :
    pre.mem a = post.mem a := by
  unfold gapMem at h
  split at h
  next x now hpre hpost =>
    split_ifs at h with heq
    rw [hpre, hpost, heq]
  next => cases h

/-- When nothing is left undecided, every name at risk was compared, and every byte at risk that
changed has its record. -/
lemma dfpEmitGap_decided {risk : Risk} (hrisk : risk.regs.length ≤ winRiskRegs)
    (h : (dfpEmitGap risk pre post stash).1 = false) :
    (∀ reg ∈ risk.regs, gapReg pre post stash reg ≠ .undecided) ∧
      ∀ a ∈ risk.addrs, pre.mem a = post.mem a ∨
        ∃ recs ∈ (dfpEmitGap risk pre post stash).2, ∃ r ∈ recs, r.isWrite = true ∧
          lwKeys r = [⟨1#8, a⟩] := by
  obtain ⟨hregs, hmems⟩ := Bool.or_eq_false_iff.mp h
  refine ⟨gapRegs_decided (by omega) hregs, fun a ha => ?_⟩
  rcases gapMems_decided hmems a ha with hsame | ⟨r, hv, hr⟩
  · exact .inl (eq_of_gapMem_same hsame)
  · right
    obtain ⟨hwrite, hkeys, -⟩ := gapMem_rec hv
    unfold dfpEmitGap
    dsimp only
    rcases hr with hr | hr
    · have hmem := List.mem_append_right (gapRegs (gapReg pre post stash) risk.regs 0).2 hr
      rw [if_neg fun hnil => List.ne_nil_of_mem hmem hnil.1]
      split_ifs
      · exact ⟨_, List.mem_singleton_self _, r, hmem, hwrite, hkeys⟩
      · exact ⟨_, List.mem_cons_self, r, hmem, hwrite, hkeys⟩
    · have hne := List.ne_nil_of_mem hr
      rw [if_neg fun hnil => hne hnil.2, if_neg hne]
      exact ⟨_, List.mem_cons_of_mem _ (List.mem_singleton_self _), r, hr, hwrite, hkeys⟩

end Decided

section Guard

variable {win : Bool} {c : Cap}

/-- A write record of recorded step `u` -/
def Cap.Wrote (c : Cap) (u : ℕ) (w : ValRec) : Prop :=
  ∃ call, c.calls[u]? = some call ∧ call.gap = none ∧ w ∈ call.recs ∧ w.isWrite = true

/-- What holds of a capture that is not truncated: the set at risk has all the recorded writes, and
at each excursion all that came before it was compared. -/
structure Cap.Guarded (win : Bool) (c : Cap) : Prop where
  full : c.risk.overflow = true → win = false ∧ c.risk.pending = true
  atRisk : c.risk.overflow = false → ∀ u w, c.Wrote u w → InRisk c.risk w
  pos : ∀ e ∈ c.gaps, e.pos ≤ c.calls.length
  names : ∀ e ∈ c.gaps, ∀ u w, u < e.pos → c.Wrote u w → w.kind = .reg →
    w.reg ∈ e.regs ∧ gapReg e.pre e.post e.stash w.reg ≠ .undecided
  bytes : ∀ e ∈ c.gaps, ∀ u w, u < e.pos → c.Wrote u w → ∀ a, ⟨1#8, a⟩ ∈ lwKeys w →
    e.pre.mem a = e.post.mem a ∨ ∃ (j : ℕ) (call : Call), c.calls[j]? = some call ∧
      call.gap = some e ∧ ∃ r ∈ call.recs, r.isWrite = true ∧ lwKeys r = [⟨1#8, a⟩]

/-- What a step wrote does not change later. -/
lemma wrote_of_append {calls : List Call} {c' : Cap} (h : c'.calls = c.calls ++ calls) {u : ℕ}
    (hu : u < c.calls.length) (w : ValRec) : c'.Wrote u w ↔ c.Wrote u w := by
  unfold Cap.Wrote
  rw [h, List.getElem?_append_left hu]

lemma truncated_valtraceAppend {v : ValTrace} {off : BitVec 64} {recs : List ValRec}
    (h : (valtraceAppend v off recs).truncated = false) : v.truncated = false := by
  have hpush : ∀ (recs : List ValRec) (i : ℕ) (v : ValTrace),
      (recs.foldl (pushRec i) v).truncated = false → v.truncated = false := by
    intro recs i
    induction recs with
    | nil => exact fun _ h => h
    | cons r recs ih =>
      intro v h
      have := ih _ h
      unfold pushRec at this
      split_ifs at this
      exact this
  unfold valtraceAppend at h
  dsimp only at h
  split_ifs at h
  have := hpush recs _ _ h
  exact this

lemma truncated_foldl_append {pc : BitVec 64} {e : Excursion} (batches : List (List ValRec))
    (h : (batches.foldl (fun c recs => c.append ⟨pc, recs, some e⟩) c).vt.truncated = false) :
    c.vt.truncated = false := by
  induction batches generalizing c with
  | nil => exact h
  | cons recs batches ih => exact truncated_valtraceAppend (ih h)

lemma Cap.Guarded.step (hg : c.Guarded win) (off : BitVec 64) (recs : List ValRec)
    (h : (c.finalizeStep win off recs).vt.truncated = false) :
    (c.finalizeStep win off recs).Guarded win := by
  have htrunc := truncated_valtraceAppend h
  have hover : (win && (recs.foldl (riskAdd win) c.risk).overflow) = false :=
    (Bool.or_eq_false_iff.mp htrunc).2
  obtain ⟨hregs, haddrs, hin⟩ := foldl_riskAdd_spec win recs c.risk
  have hcalls : (c.finalizeStep win off recs).calls = c.calls ++ [⟨off, recs, none⟩] := rfl
  have hold : ∀ u, u < c.calls.length → ∀ w,
      (c.finalizeStep win off recs).Wrote u w ↔ c.Wrote u w := fun u hu =>
    wrote_of_append hcalls hu
  refine ⟨?_, ?_, ?_, ?_, ?_⟩
  · intro hfull
    have hwin : win = false := by
      cases win with
      | false => rfl
      | true => exact absurd (hfull.symm.trans hover) (by decide)
    subst hwin
    exact ⟨rfl, foldl_riskAdd_pending recs (fun h => (hg.full h).2) hfull⟩
  · intro hfull u w hw
    obtain ⟨hfull', hall⟩ := hin hfull
    rcases Nat.lt_or_ge u c.calls.length with hu | hu
    · exact (hg.atRisk hfull' u w ((hold u hu w).mp hw)).mono hregs haddrs
    · obtain ⟨call, hcall, -, hmem, hwrite⟩ := hw
      rw [hcalls, List.getElem?_append_right hu, List.getElem?_singleton] at hcall
      split_ifs at hcall
      obtain rfl := Option.some.inj hcall
      exact hall w hmem hwrite
  · intro e he
    have := hg.pos e he
    rw [hcalls, List.length_append]
    omega
  · intro e he u w hu hw
    exact hg.names e he u w hu ((hold u (hu.trans_le (hg.pos e he)) w).mp hw)
  · intro e he u w hu hw a ha
    rcases hg.bytes e he u w hu ((hold u (hu.trans_le (hg.pos e he)) w).mp hw) a ha with
      heq | ⟨j, call, hcall, hrest⟩
    · exact .inl heq
    · refine .inr ⟨j, call, ?_, hrest⟩
      rw [hcalls, List.getElem?_append_left (List.getElem?_eq_some_iff.mp hcall).1, hcall]

lemma Cap.Guarded.gap (hg : c.Guarded win) (hrisk : c.risk.regs.length ≤ winRiskRegs)
    (pc : BitVec 64) (pre post : Machine) (stash : BitVec 32 → Option (BitVec 32))
    (h : (c.emitGap win pc pre post stash).vt.truncated = false) :
    (c.emitGap win pc pre post stash).Guarded win := by
  obtain ⟨htrunc, hpending⟩ := Bool.or_eq_false_iff.mp (truncated_foldl_append _ h)
  obtain ⟨-, hdecided⟩ := Bool.or_eq_false_iff.mp htrunc
  have hroom : c.risk.overflow = false := by
    by_contra hfull
    obtain ⟨rfl, hpend⟩ := hg.full (Bool.eq_true_of_not_eq_false hfull)
    rw [hpend] at hpending
    cases hpending
  obtain ⟨hregs, hmems⟩ := dfpEmitGap_decided hrisk hdecided
  have hcalls := emitGap_calls win pc pre post stash c
  have hgaps := emitGap_gaps win pc pre post stash c
  have hrisk' : (c.emitGap win pc pre post stash).risk =
      { c.risk with pending := c.risk.pending && win } := (foldl_append_calls _ _).2.2
  have hold : ∀ u, u < c.calls.length → ∀ w,
      (c.emitGap win pc pre post stash).Wrote u w ↔ c.Wrote u w := fun u hu =>
    wrote_of_append hcalls hu
  -- a barrier writes nothing that is recorded
  have hbefore : ∀ u w, (c.emitGap win pc pre post stash).Wrote u w → c.Wrote u w := by
    intro u w hw
    rcases Nat.lt_or_ge u c.calls.length with hu | hu
    · exact (hold u hu w).mp hw
    · obtain ⟨call, hcall, hnone, -⟩ := hw
      rw [hcalls, List.getElem?_append_right hu, List.getElem?_map,
        Option.map_eq_some_iff] at hcall
      obtain ⟨recs, -, rfl⟩ := hcall
      cases hnone
  refine ⟨?_, ?_, ?_, ?_, ?_⟩
  · intro hfull
    rw [hrisk'] at hfull
    exact absurd (hfull.symm.trans hroom) (by decide)
  · intro _ u w hw
    rw [hrisk']
    exact (hg.atRisk hroom u w (hbefore u w hw)).mono (List.Subset.refl _) (List.Subset.refl _)
  · intro e he
    rw [hgaps, List.mem_append, List.mem_singleton] at he
    rw [hcalls, List.length_append]
    rcases he with he | rfl
    · have := hg.pos e he
      omega
    · exact Nat.le_add_right _ _
  · intro e he u w hu hw hk
    rw [hgaps, List.mem_append, List.mem_singleton] at he
    rcases he with he | rfl
    · exact hg.names e he u w hu (hbefore u w hw) hk
    · have hin := (hg.atRisk hroom u w (hbefore u w hw)).reg hk
      exact ⟨hin, hregs _ hin⟩
  · intro e he u w hu hw a ha
    rw [hgaps, List.mem_append, List.mem_singleton] at he
    rcases he with he | rfl
    · rcases hg.bytes e he u w hu (hbefore u w hw) a ha with heq | ⟨j, call, hcall, hrest⟩
      · exact .inl heq
      · refine .inr ⟨j, call, ?_, hrest⟩
        rw [hcalls, List.getElem?_append_left (List.getElem?_eq_some_iff.mp hcall).1, hcall]
    · rcases hmems a ((hg.atRisk hroom u w (hbefore u w hw)).mem a ha) with
        heq | ⟨recs, hrecs, hrec⟩
      · exact .inl heq
      · obtain ⟨i, hi, rfl⟩ := List.mem_iff_getElem.mp hrecs
        refine .inr ⟨c.calls.length + i, ⟨pc, _, some (c.excursion pre post stash)⟩, ?_, rfl, hrec⟩
        rw [hcalls, List.getElem?_append_right (Nat.le_add_right _ _), Nat.add_sub_cancel_left,
          List.getElem?_map, List.getElem?_eq_getElem hi]
        rfl

/-- An event of a capture that is not truncated -/
lemma Cap.Guarded.event (hg : c.Guarded win) (hrisk : c.risk.regs.length ≤ winRiskRegs) (ev : Event)
    (h : (c.act win ev.act).vt.truncated = false) : (c.act win ev.act).Guarded win := by
  cases ev with
  | step off recs pre post => exact hg.step off recs h
  | gap pc pre post stash => exact hg.gap hrisk pc pre post stash h

lemma truncated_event (ev : Event) (h : (c.act win ev.act).vt.truncated = false) :
    c.vt.truncated = false := by
  cases ev with
  | step off recs pre post => exact (Bool.or_eq_false_iff.mp (truncated_valtraceAppend h)).1
  | gap pc pre post stash =>
    exact (Bool.or_eq_false_iff.mp (Bool.or_eq_false_iff.mp (truncated_foldl_append _ h)).1).1

lemma capOf_concat (stepsCap recsCap : ℕ) (events : List Event) (ev : Event) :
    capOf win stepsCap recsCap (events ++ [ev]) =
      (capOf win stepsCap recsCap events).act win ev.act := by
  rw [capOf, List.map_append, List.foldl_append]
  rfl

lemma capOf_sound (stepsCap recsCap : ℕ) {events : List Event} (hbound : events.length < 2 ^ 31) :
    (capOf win stepsCap recsCap events).Stored ∧ (capOf win stepsCap recsCap events).Barred ∧
      (capOf win stepsCap recsCap events).calls.length < 2 ^ 32 :=
  run_sound ⟨win, stepsCap, recsCap, events.map Event.act, by rwa [List.length_map]⟩

lemma capOf_guarded (stepsCap recsCap : ℕ) {events : List Event} (hbound : events.length < 2 ^ 31)
    (h : (capOf win stepsCap recsCap events).vt.truncated = false) :
    (capOf win stepsCap recsCap events).Guarded win := by
  induction events using List.reverseRecOn with
  | nil =>
    refine ⟨fun h => Bool.noConfusion h, ?_, ?_, ?_, ?_⟩
    · rintro - u w ⟨call, hcall, -⟩
      cases hcall
    · exact fun e he => absurd he List.not_mem_nil
    · exact fun e he => absurd he List.not_mem_nil
    · exact fun e he => absurd he List.not_mem_nil
  | append_singleton events ev ih =>
    rw [List.length_append, List.length_singleton] at hbound
    obtain ⟨-, hbarred, -⟩ := @capOf_sound win stepsCap recsCap events (by omega)
    rw [capOf_concat] at h ⊢
    exact (ih (by omega) (truncated_event ev h)).event hbarred.risk ev h

end Guard

section Positions

variable {win : Bool} {stepsCap recsCap : ℕ}

lemma step_calls (win : Bool) (c : Cap) (off : BitVec 64) (recs : List ValRec) (m m' : Machine) :
    (c.act win (Event.step off recs m m').act).calls = c.calls ++ [⟨off, recs, none⟩] := rfl

lemma event_calls (win : Bool) (c : Cap) (ev : Event) :
    ∃ calls, (c.act win ev.act).calls = c.calls ++ calls ∧
      ∃ gaps, (c.act win ev.act).gaps = c.gaps ++ gaps := by
  cases ev with
  | step off recs pre post => exact ⟨_, rfl, [], (List.append_nil _).symm⟩
  | gap pc pre post stash => exact ⟨_, emitGap_calls .., _, emitGap_gaps ..⟩

/-- What was appended stays. -/
lemma capOf_append_calls (win : Bool) (stepsCap recsCap : ℕ) (events later : List Event) :
    (∃ calls, (capOf win stepsCap recsCap (events ++ later)).calls =
      (capOf win stepsCap recsCap events).calls ++ calls) ∧
    ∃ gaps, (capOf win stepsCap recsCap (events ++ later)).gaps =
      (capOf win stepsCap recsCap events).gaps ++ gaps := by
  induction later using List.reverseRecOn with
  | nil =>
    rw [List.append_nil]
    exact ⟨⟨[], (List.append_nil _).symm⟩, [], (List.append_nil _).symm⟩
  | append_singleton later ev ih =>
    obtain ⟨⟨calls, hcalls⟩, gaps, hgaps⟩ := ih
    rw [← List.append_assoc, capOf_concat]
    obtain ⟨calls', hcalls', gaps', hgaps'⟩ :=
      event_calls win (capOf win stepsCap recsCap (events ++ later)) ev
    exact ⟨⟨calls ++ calls', by rw [hcalls', hcalls, List.append_assoc]⟩, gaps ++ gaps',
      by rw [hgaps', hgaps, List.append_assoc]⟩

/-- A step event is the call of its number. -/
lemma getElem?_calls_of_step (win : Bool) (stepsCap recsCap : ℕ) {events before after : List Event}
    {off : BitVec 64} {recs : List ValRec} {m m' : Machine}
    (h : events = before ++ .step off recs m m' :: after) :
    (capOf win stepsCap recsCap events).calls[(capOf win stepsCap recsCap before).calls.length]? =
      some ⟨off, recs, none⟩ := by
  obtain ⟨⟨calls, hcalls⟩, -⟩ :=
    capOf_append_calls win stepsCap recsCap (before ++ [.step off recs m m']) after
  rw [h, List.append_cons, hcalls, capOf_concat, step_calls, List.append_assoc,
    List.getElem?_append_right le_rfl, Nat.sub_self]
  rfl

/-- Every recorded step is that of an event. -/
lemma exists_event_of_recorded {events : List Event} {u : ℕ}
    (h : (capOf win stepsCap recsCap events).Recorded u) :
    ∃ before off recs m m' after, events = before ++ .step off recs m m' :: after ∧
      (capOf win stepsCap recsCap before).calls.length = u := by
  induction events using List.reverseRecOn with
  | nil =>
    obtain ⟨call, hcall, -⟩ := h
    cases hcall
  | append_singleton events ev ih =>
    rw [capOf_concat] at h
    obtain ⟨call, hcall, hgap⟩ := h
    rcases Nat.lt_or_ge u (capOf win stepsCap recsCap events).calls.length with hu | hu
    · obtain ⟨calls, hcalls, -⟩ := event_calls win (capOf win stepsCap recsCap events) ev
      rw [hcalls, List.getElem?_append_left hu] at hcall
      obtain ⟨before, off, recs, m, m', after, rfl, hlen⟩ := ih ⟨call, hcall, hgap⟩
      exact ⟨before, off, recs, m, m', after ++ [ev], by simp, hlen⟩
    · cases ev with
      | step off recs m m' =>
        refine ⟨events, off, recs, m, m', [], rfl, ?_⟩
        have := (List.getElem?_eq_some_iff.mp hcall).1
        rw [step_calls, List.length_append, List.length_singleton] at this
        omega
      | gap pc pre post stash =>
        change (Cap.emitGap ..).calls[u]? = _ at hcall
        rw [emitGap_calls, List.getElem?_append_right hu, List.getElem?_map,
          Option.map_eq_some_iff] at hcall
        obtain ⟨recs, -, rfl⟩ := hcall
        cases hgap

lemma capOf_length_mono (win : Bool) (stepsCap recsCap : ℕ) (events later : List Event) :
    (capOf win stepsCap recsCap events).calls.length ≤
      (capOf win stepsCap recsCap (events ++ later)).calls.length := by
  obtain ⟨⟨calls, hcalls⟩, -⟩ := capOf_append_calls win stepsCap recsCap events later
  rw [hcalls, List.length_append]
  exact Nat.le_add_right _ _

lemma capOf_length_step (win : Bool) (stepsCap recsCap : ℕ) (before later : List Event)
    (off : BitVec 64) (recs : List ValRec) (m m' : Machine) :
    (capOf win stepsCap recsCap before).calls.length <
      (capOf win stepsCap recsCap (before ++ .step off recs m m' :: later)).calls.length := by
  have := capOf_length_mono win stepsCap recsCap (before ++ [.step off recs m m']) later
  rw [capOf_concat, step_calls, List.length_append, List.length_singleton, ← List.append_cons]
    at this
  omega

/-- The excursion of a gap event is among those of the capture. -/
lemma mem_gaps_of_gap (win : Bool) (stepsCap recsCap : ℕ) (before after : List Event)
    (pc : BitVec 64) (pre post : Machine) (stash : BitVec 32 → Option (BitVec 32)) :
    (capOf win stepsCap recsCap before).excursion pre post stash ∈
      (capOf win stepsCap recsCap (before ++ .gap pc pre post stash :: after)).gaps := by
  obtain ⟨-, gaps, hgaps⟩ :=
    capOf_append_calls win stepsCap recsCap (before ++ [.gap pc pre post stash]) after
  rw [List.append_cons, hgaps, capOf_concat]
  apply List.mem_append_left
  change _ ∈ (Cap.emitGap ..).gaps
  rw [emitGap_gaps]
  exact List.mem_append_right _ (List.mem_singleton_self _)

lemma runs_append {m m' : Machine} {events later : List Event} :
    Runs m (events ++ later) m' ↔ ∃ n, Runs m events n ∧ Runs n later m' := by
  induction events generalizing m with
  | nil => simp [Runs]
  | cons ev events ih =>
    rw [List.cons_append, Runs, ih]
    constructor
    · rintro ⟨hpre, n, hrun, hlater⟩
      exact ⟨n, ⟨hpre, hrun⟩, hlater⟩
    · rintro ⟨n, ⟨hpre, hrun⟩, hlater⟩
      exact ⟨hpre, n, hrun, hlater⟩

/-- A byte that no event changes is what it was. -/
lemma Runs.keeps {m m' : Machine} {events : List Event} (h : Runs m events m') {b : Byte}
    (hkeep : ∀ ev ∈ events, ev.pre.byte b = ev.post.byte b) : m'.byte b = m.byte b := by
  induction events generalizing m with
  | nil => rw [Runs.eq_1] at h; rw [h]
  | cons ev events ih =>
    obtain ⟨hpre, hrun⟩ := h
    rw [List.forall_mem_cons] at hkeep
    rw [ih hrun hkeep.2, ← hkeep.1, hpre]

end Positions

section Values

variable {course : Course} {s t : ℕ} {r : ValRec} {b : Byte} {m m' left held : Machine}

/-- A byte that the recorded steps and the excursions in between leave alone holds its value. -/
lemma Course.byte_held (hs : course.Takes s m left) (ht : course.Takes t held m') (hst : s < t)
    (hr : r ∈ course.cap.vt.stepRecs t)
    (hsteps : ∀ u, s < u → u < t → course.cap.Recorded u → ¬course.cap.WritesByte u b)
    (hgaps : ∀ e ∈ course.cap.gaps, s < e.pos → e.pos ≤ t → e.pre.byte b = e.post.byte b) :
    held.byte b = left.byte b := by
  obtain ⟨before, off, recs, after, hevents, hslen⟩ := hs
  obtain ⟨before', off', recs', after', hevents', htlen⟩ := ht
  -- the events between the two steps
  obtain ⟨mid, hmid, hrest⟩ : ∃ mid, before' = before ++ .step off recs m left :: mid ∧
      after = mid ++ .step off' recs' held m' :: after' := by
    rcases List.append_eq_append_iff.mp (hevents.symm.trans hevents') with
      ⟨mid, hmid, hrest⟩ | ⟨mid, hmid, hrest⟩
    · cases mid with
      | nil =>
        rw [List.append_nil] at hmid
        rw [hmid] at htlen
        omega
      | cons ev mid =>
        obtain ⟨rfl, htail⟩ := List.cons.inj hrest
        exact ⟨mid, hmid, htail⟩
    · have := capOf_length_mono course.win course.stepsCap course.recsCap before' mid
      rw [← hmid] at this
      omega
  have hrun : Runs left mid held := by
    have hruns := course.runs
    rw [hevents, hrest, runs_append] at hruns
    obtain ⟨n, -, hpre, hruns⟩ := hruns
    obtain ⟨n', hrun, hpre', -⟩ := runs_append.mp hruns
    cases hpre'
    exact hrun
  obtain ⟨hstored, -, -⟩ := @capOf_sound course.win course.stepsCap course.recsCap _ course.bounded
  refine hrun.keeps fun ev hev => ?_
  obtain ⟨mid1, mid2, rfl⟩ := List.append_of_mem hev
  set u := (capOf course.win course.stepsCap course.recsCap
    (before ++ .step off recs m left :: mid1)).calls.length with hu
  have hsu : s < u := by
    rw [← hslen, hu]
    exact capOf_length_step ..
  have hsplit : course.events = (before ++ .step off recs m left :: mid1) ++ ev ::
      (mid2 ++ .step off' recs' held m' :: after') := by
    rw [hevents, hrest]
    simp
  have ht' : t = (capOf course.win course.stepsCap course.recsCap
      ((before ++ .step off recs m left :: mid1) ++ ev :: mid2)).calls.length := by
    rw [← htlen, hmid]
    simp
  cases ev with
  | step off'' recs'' pre post =>
    by_contra hne
    have hcall := getElem?_calls_of_step course.win course.stepsCap course.recsCap hsplit
    have hut : u < t := by
      rw [ht', hu]
      exact capOf_length_step ..
    have hmem : Event.step off'' recs'' pre post ∈ course.events := by
      rw [hsplit]
      exact List.mem_append_right _ List.mem_cons_self
    obtain ⟨w, hw, hwrite, hb⟩ := course.reported _ hmem b hne
    exact hsteps u hsu hut ⟨_, hcall, rfl⟩
      ⟨stamp u w, hstored.mem_of_later hr hut hcall hw, hwrite, hb⟩
  | gap pc pre post stash =>
    refine hgaps ((capOf course.win course.stepsCap course.recsCap
      (before ++ .step off recs m left :: mid1)).excursion pre post stash) ?_ hsu ?_
    · rw [Course.cap, hsplit]
      exact mem_gaps_of_gap ..
    · rw [ht']
      exact capOf_length_mono ..

end Values

end AsmTest.Dataflow.Gap
