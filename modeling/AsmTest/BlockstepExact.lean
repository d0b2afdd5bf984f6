import AsmTest.PtraceStep

/-!
# Block-stepping refines single-stepping

An execution of the routine is cut at its taken branches into blocks. The block stepper gives a
block back whole or marks the capture; so an unmarked capture is what the single stepper records,
except for a block that is still open when the tracee dies.
-/

namespace AsmTest.Hwtrace

open Code

variable {c : Code} {isRep : ℕ → Bool} {base : ℕ}

/-! ### Executed blocks -/

section

variable (c : Code) (isRep : ℕ → Bool) (base : ℕ)

/-- An instruction of the routine as the decoder knows it: one that decodes falls through, is
taken, or is a `rep` string instruction that goes round once more. -/
structure RegionStep (s : Step) : Prop where
  inRegion : c.InRegion base s.pc
  falls : c.Decodes (s.pc - base) → s.taken = false →
    (s.next = s.pc + (c.disasProbe (s.pc - base)).len ∧
      (c.disasProbe (s.pc - base)).isCall = false ∧
      (c.disasIsBranch (s.pc - base) = true → c.Conditional base (s.pc - base))) ∨
    (s.next = s.pc ∧ isRep (s.pc - base) = true ∧ c.disasIsBranch (s.pc - base) = false)
  jumps : c.Decodes (s.pc - base) → s.taken = true → c.disasIsBranch (s.pc - base) = true ∧
    ∀ tgt ∈ c.disasBranchTarget base (s.pc - base), s.next = tgt

/-- An instruction that decodes falls through. -/
structure FallsThrough (x : Step) : Prop where
  inRegion : c.InRegion base x.pc
  decodes : c.Decodes (x.pc - base)
  taken : x.taken = false
  next : x.next = x.pc + (c.disasProbe (x.pc - base)).len
  soft : c.disasIsBranch (x.pc - base) = true → c.Conditional base (x.pc - base)

/-- A `rep` string instruction goes round once more. -/
structure GoesRound (x : Step) : Prop where
  inRegion : c.InRegion base x.pc
  taken : x.taken = false
  next : x.next = x.pc
  isRep : isRep (x.pc - base) = true
  plain : c.disasIsBranch (x.pc - base) = false

/-- The open block: instructions from its start that decode and are not taken branches. -/
inductive Straight : ℕ → List Step → ℕ → Prop
  | nil (pc : ℕ) : Straight pc [] pc
  | fall {x : Step} {q : List Step} {pc : ℕ} : FallsThrough c base x →
      Straight x.next q pc → Straight x.pc (x :: q) pc
  | again {x : Step} {q : List Step} {pc : ℕ} : GoesRound c isRep base x →
      Straight x.pc q pc → Straight x.pc (x :: q) pc

end

/-- The offsets of the instructions of a block. -/
def offsOf (base : ℕ) (q : List Step) : List ℕ := q.map fun x => x.pc - base

namespace Straight

variable {pc₀ pc : ℕ} {q : List Step}

lemma append {pc' : ℕ} {q' : List Step} (h : Straight c isRep base pc₀ q pc)
    (h' : Straight c isRep base pc q' pc') : Straight c isRep base pc₀ (q ++ q') pc' := by
  induction h with
  | nil => exact h'
  | fall hx _ ih => exact .fall hx (ih h')
  | again hx _ ih => exact .again hx (ih h')

lemma inRegion (h : Straight c isRep base pc₀ q pc) (hpc : c.InRegion base pc) :
    c.InRegion base pc₀ := by
  cases h with
  | nil => exact hpc
  | fall hx _ => exact hx.inRegion
  | again hx _ => exact hx.inRegion

/-- Closed by a taken branch the block is a run, in which a `rep` string instruction that went
round more than once stands once. -/
lemma run {s : Step} (h : Straight c isRep base pc₀ q s.pc) (hin : c.InRegion base s.pc)
    (hs : s.taken = true) (hok : StepOk c base s) :
    ∃ q', Run c base pc₀ q' s ∧ q' ⊆ q ∧ (q' = q ∨ ∃ x ∈ q', isRep (x.pc - base) = true) := by
  generalize hpc : s.pc = pc at h
  induction h with
  | nil =>
    subst hpc
    exact ⟨[], .last hin hs hok, by simp, .inl rfl⟩
  | @fall x q pc hx hrest ih =>
    obtain ⟨q', hrun, hsub, hcase⟩ := ih hpc
    have hnext : c.InRegion base x.next := hrest.inRegion (hpc ▸ hin)
    have hokx : StepOk c base x := by
      refine ⟨fun _ => hx.decodes, fun _ _ => ⟨hx.next, hnext, hx.soft⟩, ?_, ?_⟩
      · intro _ ht
        rw [hx.taken] at ht
        cases ht
      · intro hout
        exact absurd hx.inRegion hout
    refine ⟨x :: q', .cons hx.inRegion hx.taken hokx hrun, List.cons_subset_cons x hsub, ?_⟩
    obtain rfl | ⟨y, hy, hrep⟩ := hcase
    · exact .inl rfl
    · exact .inr ⟨y, List.mem_cons_of_mem x hy, hrep⟩
  | @again x q pc hx _ ih =>
    obtain ⟨q', hrun, hsub, -⟩ := ih hpc
    have hb := hx.plain
    have hrep := hx.isRep
    refine ⟨q', hrun, fun y hy => List.mem_cons_of_mem x (hsub hy), .inr ?_⟩
    -- the run starts at `x`, which is no branch
    cases hq : q' with
    | nil =>
      rw [hq] at hrun
      generalize hstart : x.pc = a at hrun
      cases hrun with
      | last hin hs hok =>
        rw [hstart] at hb
        rw [(hok.jumps hin hs).1] at hb
        cases hb
    | cons y ys =>
      rw [hq] at hrun
      generalize hstart : x.pc = a at hrun
      cases hrun with
      | cons _ _ _ _ => exact ⟨y, List.mem_cons_self, hstart ▸ hrep⟩

end Straight

/-- Recording a run up to the branch that ended it gives its instructions, each once. -/
lemma bsRecordRun_run {pc : ℕ} {q : List Step} {s : Step} (hrun : Run c base pc q s)
    {guard : ℕ} {out : BlockOut} {rep : Bool}
    (h : (bsRecordRun c isRep (s.pc - base) guard (pc - base) out rep).1 = true) :
    (bsRecordRun c isRep (s.pc - base) guard (pc - base) out rep).2.1 =
        ⟨out.stream ++ offsOf base q ++ [s.pc - base], s.pc - base⟩ ∧
      out.stream.length + q.length + 1 ≤ ptraceStreamCap ∧
      ((bsRecordRun c isRep (s.pc - base) guard (pc - base) out rep).2.2 = false →
        rep = false ∧ ∀ x ∈ q, isRep (x.pc - base) = false) := by
  induction hrun generalizing guard out rep with
  | @last s hin hs hok =>
    cases guard with
    | zero => cases h
    | succ guard =>
      rw [bsRecordRun] at h ⊢
      split_ifs at h ⊢ with h1 h2 h3 h4
      · refine ⟨by simp [offsOf], ?_, fun hrep => ⟨(Bool.or_eq_false_iff.mp hrep).1, by simp⟩⟩
        simp only [List.length_nil]
        omega
      · exact absurd rfl h4
  | @cons x s q hin hx hok hrun ih =>
    cases guard with
    | zero => cases h
    | succ guard =>
      have hd : (c.disasProbe (x.pc - base)).len ≠ 0 := hok.decodes hin
      have hne : x.pc - base ≠ s.pc - base := by
        have hle := hrun.le
        have hlo := hin.1
        have hnext := (hok.falls hin hx).1
        omega
      rw [bsRecordRun] at h ⊢
      split_ifs at h ⊢ with h1 h2
      · simp only [hok.off_next hin hx] at h ⊢
        obtain ⟨hout, hroom, hrep⟩ := ih h
        refine ⟨?_, ?_, fun hr => ?_⟩
        · rw [hout]
          simp [offsOf]
        · simp only [List.length_append, List.length_cons, List.length_nil] at hroom ⊢
          omega
        · obtain ⟨hr', hq⟩ := hrep hr
          obtain ⟨hr0, hrx⟩ := Bool.or_eq_false_iff.mp hr'
          exact ⟨hr0, List.forall_mem_cons.mpr ⟨hrx, hq⟩⟩

lemma reconVerdict_ok {r : BsStatus} {done : Bool × BlockOut × Bool} {o : BlockOut}
    (h : reconVerdict r done = (.ok, o)) :
    r = .ok ∧ done.1 = true ∧ done.2.1 = o ∧ done.2.2 = false := by
  unfold reconVerdict at h
  split_ifs at h with h1 h2
  · cases h
  · obtain ⟨hr, ho⟩ := Prod.ext_iff.mp h
    have hr' : r = .ok := hr
    refine ⟨hr', h1, ho, ?_⟩
    by_contra hrep
    exact h2 ⟨by simpa using hrep, hr'⟩
  · cases h

section Cached

variable {pc : ℕ} {q : List Step} {s : Step} {guard : ℕ}

lemma pcKind_falls {x : Step} (hin : c.InRegion base x.pc) (hx : x.taken = false)
    (hok : StepOk c base x) : ¬((pcKind c base (x.pc - base)).1 = .hardUnknown ∨
      (pcKind c base (x.pc - base)).1 = .uncond) := by
  obtain ⟨-, -, hcond⟩ := hok.falls hin hx
  cases hb : c.disasIsBranch (x.pc - base) with
  | false => simp [pcKind, hb]
  | true =>
    obtain ⟨hdirect, hcall, hjump⟩ := hcond hb
    obtain ⟨tgt, ht⟩ := Option.isSome_iff_exists.mp hdirect
    have hret : (c.disasProbe (x.pc - base)).isRet = false := by
      by_contra hret
      rw [c.ret_indirect base _ (by simpa using hret)] at ht
      cases ht
    simp [pcKind, hb, hret, ht, hcall, hjump]

/-- The branch that ended a run stands in the cached run. -/
lemma mem_pcWalk_run (hrun : Run c base pc q s) (hguard : c.len < guard + (pc - base)) :
    pcInsn c isRep base (s.pc - base) ∈ pcWalk c isRep base guard (pc - base) := by
  induction hrun generalizing guard with
  | @last s hin hs hok =>
    have hd := hok.decodes hin
    cases guard with
    | zero =>
      have hlt := hd.lt
      omega
    | succ guard =>
      rw [pcWalk_succ hd]
      split_ifs <;> exact List.mem_cons_self
  | @cons x s q hin hx hok hrun ih =>
    have hd := hok.decodes hin
    cases guard with
    | zero =>
      have hlt := hd.lt
      omega
    | succ guard =>
      have hpos : (c.disasProbe (x.pc - base)).len ≠ 0 := hd
      have hoff := hok.off_next hin hx
      rw [pcWalk_succ hd, if_neg (pcKind_falls hin hx hok), hoff]
      exact List.mem_cons_of_mem _ (ih (by omega))

/-- In a loose run the branch that ended it is a conditional to the next stop. -/
lemma candidate_of_loose (hrun : Run c base pc q s)
    (hloose : (pcInsn c isRep base (s.pc - base)).kind ≠ .hardUnknown ∧
      (pcInsn c isRep base (s.pc - base)).kind ≠ .uncond) :
    (pcInsn c isRep base (s.pc - base)).candidate s.next := by
  obtain ⟨hin, hok⟩ := hrun.stepOk
  obtain ⟨hb, htgt⟩ := hok.jumps hin hrun.taken
  have hkind : (pcInsn c isRep base (s.pc - base)).kind = (pcKind c base (s.pc - base)).1 := rfl
  have htarget : (pcInsn c isRep base (s.pc - base)).target = (pcKind c base (s.pc - base)).2 := rfl
  rw [hkind] at hloose
  rw [PcInsn.candidate, hkind, htarget, decide_eq_true_iff]
  cases ht : c.disasBranchTarget base (s.pc - base) with
  | none => simp [pcKind, hb, ht] at hloose
  | some tgt =>
    have hnext := htgt tgt ht
    have hret : (c.disasProbe (s.pc - base)).isRet = false := by
      by_contra hret
      rw [c.ret_indirect base _ (by simpa using hret)] at ht
      cases ht
    by_cases hhard : (c.disasProbe (s.pc - base)).isCall ∨ c.disasIsUncondJump (s.pc - base)
    · simp [pcKind, hb, hret, ht, hhard] at hloose
    · simp [pcKind, hb, hret, ht, hhard, hnext]

/-- On a real run the cached scan too answers with the branch that ended it, or not at all. -/
lemma precoverScan_run {term : Option ℕ} (hrun : Run c base pc q s)
    (hres : c.disasBranchTarget base (s.pc - base) = none →
      ∀ x ∈ q, c.disasBranchTarget base (x.pc - base) ≠ some s.next)
    (h : precoverScan s.next (pcWalk c isRep base (c.len + 1) (pc - base)) 0 0 = (.ok, term)) :
    term = some (s.pc - base) := by
  have hscan := @scanLoop_pcWalk c base s.next (c.len + 1) (pc - base) isRep 0 0
  by_cases hloose : Loose (pcWalk c isRep base (c.len + 1) (pc - base))
  · have hmem := @mem_pcWalk_run c isRep base pc q s (c.len + 1) hrun (by omega)
    have hcand := candidate_of_loose hrun (hloose _ hmem)
    have hfilter := List.mem_filter.mpr ⟨hmem, hcand⟩
    rw [precoverScan_loose hloose] at h
    obtain ⟨hone, hterm⟩ := scanDecided_ok h
    rw [tally] at hone hterm
    simp only [Nat.zero_add] at hone
    -- there is one candidate, and this is it
    obtain ⟨e, he⟩ := List.length_eq_one_iff.mp hone
    rw [he, List.mem_singleton] at hfilter
    rw [hterm, he, ← hfilter]
    rfl
  · rw [if_neg hloose, h] at hscan
    exact scanLoop_run hrun (fun hind => ⟨rfl, hres hind⟩) hscan

end Cached

/-- What is installed: no table, or one built for this region. -/
def Installed (c : Code) (isRep : ℕ → Bool) (base : ℕ) (table : Option (List PcRun)) : Prop :=
  table = none ∨ ∃ covered : List ℕ, covered.Pairwise (· ≤ ·) ∧
    table = bsPrecoverBuild c isRep base covered

/-- An exact verdict gives back the block that was executed, and it held no `rep` string
instruction. -/
lemma blockstepReconstruct_ok {table : Option (List PcRun)} (htable : Installed c isRep base table)
    {pc : ℕ} {q : List Step} {s : Step} (hrun : Run c base pc q s)
    (hres : c.disasBranchTarget base (s.pc - base) = none →
      ∀ x ∈ q, c.disasBranchTarget base (x.pc - base) ≠ some s.next)
    {out o : BlockOut}
    (h : blockstepReconstruct c isRep base s.next table (pc - base) out = (.ok, o)) :
    o = ⟨out.stream ++ offsOf base q ++ [s.pc - base], s.pc - base⟩ ∧
      out.stream.length + q.length + 1 ≤ ptraceStreamCap ∧
      ∀ x ∈ q, isRep (x.pc - base) = false := by
  have hfresh : reconstructFresh c isRep base s.next (pc - base) out = (.ok, o) →
      o = ⟨out.stream ++ offsOf base q ++ [s.pc - base], s.pc - base⟩ ∧
        out.stream.length + q.length + 1 ≤ ptraceStreamCap ∧
        ∀ x ∈ q, isRep (x.pc - base) = false := by
    intro h
    rw [reconstructFresh] at h
    rcases hscan : bsScanTerminator c base s.next (pc - base) with ⟨r, _ | term⟩
    · rw [hscan] at h
      cases h
    · rw [hscan] at h
      obtain ⟨rfl, hdone, ho, hrep⟩ := reconVerdict_ok h
      have hterm := scanLoop_run hrun (fun hind => ⟨rfl, hres hind⟩) hscan
      cases hterm
      obtain ⟨hout, hroom, hq⟩ := bsRecordRun_run hrun hdone
      exact ⟨ho.symm.trans hout, hroom, (hq hrep).2⟩
  rw [blockstepReconstruct] at h
  obtain rfl | ⟨covered, hasc, rfl⟩ := htable
  · exact hfresh h
  · rw [bsPrecoverFind_build hasc] at h
    by_cases hcov : pc - base ∈ covered ∧ pcWalk c isRep base (c.len + 1) (pc - base) ≠ []
    · rw [if_pos hcov] at h
      dsimp only at h
      rw [reconstructPrecover] at h
      dsimp only at h
      rcases hscan : precoverScan s.next (pcWalk c isRep base (c.len + 1) (pc - base)) 0 0 with
        ⟨r, _ | term⟩
      · rw [hscan] at h
        cases h
      · rw [hscan] at h
        obtain ⟨rfl, hdone, ho, hrep⟩ := reconVerdict_ok h
        have hterm := precoverScan_run hrun hres hscan
        cases hterm
        have hmem : ∃ e ∈ pcWalk c isRep base (c.len + 1) (pc - base), e.off = s.pc - base :=
          ⟨_, mem_pcWalk_run hrun (by omega), rfl⟩
        rw [← bsRecordRun_eq_emit hmem] at hdone ho hrep
        obtain ⟨hout, hroom, hq⟩ := bsRecordRun_run hrun hdone
        exact ⟨ho.symm.trans hout, hroom, (hq hrep).2⟩
    · rw [if_neg hcov] at h
      exact hfresh h

/-- A block that runs into bytes that do not decode, or off the end of the region, is not settled
by the scan, whatever the next stop is. -/
lemma scanLoop_blind {pc₀ pc : ℕ} {q : List Step} (h : Straight c isRep base pc₀ q pc)
    (hd : ¬c.Decodes (pc - base)) (nextPc guard first n : ℕ) (term : Option ℕ) :
    scanLoop c base nextPc guard (pc₀ - base) first n ≠ (.ok, term) := by
  induction h generalizing guard first n with
  | nil =>
    rw [scanLoop_of_not_decodes hd]
    exact scanFellOut_not_ok
  | @fall x q pc hx hrest ih =>
    cases guard with
    | zero => exact scanFellOut_not_ok
    | succ guard =>
      have hoff : x.pc - base + (c.disasProbe (x.pc - base)).len = x.next - base := by
        have hlo := hx.inRegion.1
        have hnext := hx.next
        omega
      rw [scanLoop_succ hx.decodes, hoff]
      obtain hk | hk | ⟨hk, -⟩ := classifyBranch_soft nextPc hx.decodes hx.soft
      · simp only [hk]
        exact ih hd _ _ _
      · simp only [hk]
        exact ih hd _ _ _
      · simp only [hk]
        exact ih hd _ _ _
  | again _ _ ih => exact ih hd guard first n

lemma reconstructFresh_blind {pc₀ pc : ℕ} {q : List Step} (h : Straight c isRep base pc₀ q pc)
    (hd : ¬c.Decodes (pc - base)) (nextPc : ℕ) (out o : BlockOut) :
    reconstructFresh c isRep base nextPc (pc₀ - base) out ≠ (.ok, o) := by
  rw [reconstructFresh]
  rcases hscan : bsScanTerminator c base nextPc (pc₀ - base) with ⟨r, _ | term⟩
  · intro h
    cases h
  · intro hok
    obtain ⟨rfl, -⟩ := reconVerdict_ok hok
    exact scanLoop_blind h hd nextPc _ _ _ _ hscan

/-! ### Executions of a routine -/

/-- What the tracee does from an instruction of the routine on. -/
inductive Trail where
  /-- The tracee exits or is killed. -/
  | exits
  | fault (after : List Ev)
  | appTrap (pc : ℕ) (after : List Ev)
  | signal (rest : Trail)
  /-- An instruction after which control is still in the region. -/
  | step (s : Step) (sp : ℕ) (rest : Trail)
  /-- A call out of the region, the callee, and its return with `back`. -/
  | callOut (s : Step) (sp : ℕ) (native : List Ev) (back : Step) (rest : Trail)
  /-- A call out of the region that never comes back. -/
  | lost (s : Step) (sp : ℕ) (native : List Ev)
  /-- Control leaves the region in any other way. -/
  | leave (s : Step) (sp : ℕ) (after : List Ev)
deriving DecidableEq, Repr

/-- The event neither stops the block stepper for good nor ends a block. -/
def Ev.quiet : Ev → Bool
  | .retire s _ => !s.taken
  | .signal => true
  | .fault => false
  | .appTrap _ => false

namespace Trail

def events : Trail → List Ev
  | .exits => []
  | .fault after => .fault :: after
  | .appTrap pc after => .appTrap pc :: after
  | .signal rest => .signal :: rest.events
  | .step s sp rest => .retire s sp :: rest.events
  | .callOut s sp native back rest =>
    .retire s sp :: (native ++ .retire back (sp + 8) :: rest.events)
  | .lost s sp native => .retire s sp :: native
  | .leave s sp after => .retire s sp :: after

/-- The instructions of the routine. -/
def steps : Trail → List Step
  | .exits => []
  | .fault _ => []
  | .appTrap _ _ => []
  | .signal rest => rest.steps
  | .step s _ rest => s :: rest.steps
  | .callOut s _ _ _ rest => s :: rest.steps
  | .lost s _ _ => [s]
  | .leave s _ _ => [s]

/-- The tracee dies while a block is open: no taken branch ends the block the routine is in. -/
def openEnd : Trail → Bool
  | .exits => true
  | .fault _ => false
  | .appTrap _ _ => false
  | .signal rest => rest.openEnd
  | .step _ _ rest => rest.openEnd
  | .callOut _ _ _ _ rest => rest.openEnd
  | .lost _ _ _ => false
  | .leave s _ after => !s.taken && after.all Ev.quiet

/-- The number of instructions in closed blocks, after `k` in closed blocks and `n` in the open
one. -/
def closed : ℕ → ℕ → Trail → ℕ
  | k, n, .signal rest => rest.closed k n
  | k, n, .step s _ rest => if s.taken then rest.closed (k + n + 1) 0 else rest.closed k (n + 1)
  | k, n, .callOut _ _ _ _ rest => rest.closed (k + n + 1) 0
  | k, n, .leave s _ _ => if s.taken then k + n + 1 else k
  | k, _, _ => k

section

variable (c : Code) (isRep : ℕ → Bool) (base : ℕ)

/-- The trail starts at `pc` and each of its steps is one the decoder allows. -/
def Ok : ℕ → Trail → Prop
  | pc, .signal rest => rest.Ok pc
  | pc, .step s _ rest =>
    s.pc = pc ∧ RegionStep c isRep base s ∧ c.InRegion base s.next ∧ rest.Ok s.next
  | pc, .callOut s sp native back rest =>
    s.pc = pc ∧ RegionStep c isRep base s ∧ ¬c.InRegion base s.next ∧ IsCallOut c (pc - base) ∧
      runUntilSp (pc + (c.disasProbe (pc - base)).len) (sp + 8) native = none ∧
      back.next = pc + (c.disasProbe (pc - base)).len ∧ rest.Ok back.next
  | pc, .lost s sp native =>
    s.pc = pc ∧ RegionStep c isRep base s ∧ ¬c.InRegion base s.next ∧ IsCallOut c (pc - base) ∧
      runUntilSp (pc + (c.disasProbe (pc - base)).len) (sp + 8) native = none
  | pc, .leave s _ _ =>
    s.pc = pc ∧ RegionStep c isRep base s ∧ ¬c.InRegion base s.next ∧ ¬IsCallOut c (pc - base)
  | _, _ => True

/-- Every instruction decodes and the routine does not run off the end of its region. -/
def Sighted : Trail → Prop
  | .signal rest => rest.Sighted
  | .step s _ rest => c.Decodes (s.pc - base) ∧ rest.Sighted
  | .callOut _ _ _ _ rest => rest.Sighted
  | .leave s _ _ => c.Decodes (s.pc - base) ∧ s.taken = true
  | _ => True

end

end Trail

/-! ### The loops -/

/-- The second stream goes on from the first, and is longer unless the buffer is full. -/
def Ahead (a b : List ℕ) : Prop :=
  a <+: b ∧ (a.length < ptraceStreamCap → a.length < b.length)

lemma Ahead.trans {a b b' : List ℕ} (h : Ahead a b) (h' : b <+: b') : Ahead a b' :=
  ⟨h.1.trans h', fun hlt => (h.2 hlt).trans_le h'.length_le⟩

lemma streamPush_spec (out : List ℕ × Bool) (off : ℕ) : out.1 <+: (streamPush out off).1 ∧
    (out.1.length ≤ ptraceStreamCap → (streamPush out off).1.length ≤ ptraceStreamCap) := by
  unfold streamPush
  split_ifs with h
  · refine ⟨List.prefix_append _ _, fun _ => ?_⟩
    simp only [List.length_append, List.length_singleton]
    omega
  · exact ⟨List.prefix_refl _, id⟩

/-- Pushing on a clipped stream clips the longer one. -/
lemma streamPush_take (l : List ℕ) (o : Bool) (off : ℕ) :
    (streamPush (l.take ptraceStreamCap, o) off).1 = (l ++ [off]).take ptraceStreamCap := by
  unfold streamPush
  dsimp only
  by_cases h : l.length < ptraceStreamCap
  · rw [List.take_of_length_le h.le, if_pos h, List.take_of_length_le (by simp; omega)]
  · rw [if_neg (by rw [List.length_take]; omega), List.take_append_of_le_length (by omega)]

lemma runUntilSp_back {target sp : ℕ} {native : List Ev} (h : runUntilSp target sp native = none)
    {back : Step} (hb : back.next = target) (rest : List Ev) :
    runUntilSp target sp (native ++ .retire back sp :: rest) = some rest := by
  induction native with
  | nil => simp [runUntilSp, hb]
  | cons e native ih =>
    cases e with
    | retire s sp' =>
      rw [runUntilSp] at h
      rw [List.cons_append, runUntilSp]
      split_ifs at h ⊢
      exact ih h
    | signal => exact ih h
    | fault => exact ih h
    | appTrap pc => exact ih h

/-- A round of the single stepper at a retired instruction. -/
lemma singleStepLoop_retire (fuel : ℕ) (out : List ℕ × Bool) (entered : Bool) (s : Step) (sp : ℕ)
    (rest : List Ev) :
    singleStepLoop c base (fuel + 1) out entered (.retire s sp :: rest) =
      if c.InRegion base s.next then
        singleStepLoop c base fuel (streamPush out (s.next - base)) true rest
      else if entered then
        match classifyRegionExit c base (out.1.getLast?.getD 0) sp rest with
        | .resumed off rest => singleStepLoop c base fuel (streamPush out off) true rest
        | .lost => (out.1, true)
        | .returned => out
      else singleStepLoop c base fuel out entered rest := rfl

/-- The single stepper only adds to its stream, as far as the buffer goes. -/
lemma singleStepLoop_spec (fuel : ℕ) (out : List ℕ × Bool) (entered : Bool) (evs : List Ev) :
    out.1 <+: (singleStepLoop c base fuel out entered evs).1 ∧
      (out.1.length ≤ ptraceStreamCap →
        (singleStepLoop c base fuel out entered evs).1.length ≤ ptraceStreamCap) := by
  induction fuel generalizing out entered evs with
  | zero => exact ⟨List.prefix_refl _, id⟩
  | succ fuel ih =>
    have hnext : ∀ off rest, out.1 <+:
          (singleStepLoop c base fuel (streamPush out off) true rest).1 ∧
        (out.1.length ≤ ptraceStreamCap →
          (singleStepLoop c base fuel (streamPush out off) true rest).1.length ≤
            ptraceStreamCap) := by
      intro off rest
      obtain ⟨h1, h2⟩ := streamPush_spec out off
      obtain ⟨h3, h4⟩ := ih (streamPush out off) true rest
      exact ⟨h1.trans h3, fun h => h4 (h2 h)⟩
    cases evs with
    | nil => exact ⟨List.prefix_refl _, id⟩
    | cons e rest =>
      cases e with
      | signal => exact ih _ _ _
      | fault => exact ⟨List.prefix_refl _, id⟩
      | appTrap pc => exact ⟨List.prefix_refl _, id⟩
      | retire s sp =>
        rw [singleStepLoop_retire]
        split_ifs
        · exact hnext _ _
        · cases classifyRegionExit c base (out.1.getLast?.getD 0) sp rest with
          | resumed off rest => exact hnext _ _
          | lost => exact ⟨List.prefix_refl _, id⟩
          | returned => exact ⟨List.prefix_refl _, id⟩
        · exact ih _ _ _

section BlockLoop

variable {table : Option (List PcRun)}

/-- A round of the block stepper at a taken branch that ends the open block. -/
lemma blockStepLoop_taken (fuel : ℕ) (out : List ℕ × Bool) (off : ℕ) {s : Step}
    (hs : s.taken = true) (sp : ℕ) (rest : List Ev) :
    blockStepLoop c isRep base table (fuel + 1) out (some off) (.retire s sp :: rest) =
      match blockstepReconstruct c isRep base s.next table off ⟨out.1, 0⟩ with
      | (.fail, o) => (o.stream, true)
      | (.ambiguous, o) =>
        if c.InRegion base s.next then
          blockStepLoop c isRep base table fuel (o.stream, true) (some (s.next - base)) rest
        else (o.stream, true)
      | (.ok, o) =>
        if c.InRegion base s.next then
          blockStepLoop c isRep base table fuel (o.stream, out.2) (some (s.next - base)) rest
        else
          match classifyRegionExit c base o.lastOff sp rest with
          | .resumed off rest =>
            blockStepLoop c isRep base table fuel (o.stream, out.2) (some off) rest
          | .lost => (o.stream, true)
          | .returned => (o.stream, out.2) := by
  rw [blockStepLoop]
  exact if_neg (by simp [hs])

lemma blockStepLoop_falls (fuel : ℕ) (out : List ℕ × Bool) (prevOff : Option ℕ) {s : Step}
    (hs : s.taken = false) (sp : ℕ) (rest : List Ev) :
    blockStepLoop c isRep base table (fuel + 1) out prevOff (.retire s sp :: rest) =
      blockStepLoop c isRep base table fuel out prevOff rest := by
  cases prevOff with
  | none => rw [blockStepLoop, if_pos hs]
  | some off => rw [blockStepLoop, if_pos hs]

/-- A capture that is marked stays marked. -/
lemma blockStepLoop_overflow (fuel : ℕ) (stream : List ℕ) (prevOff : Option ℕ) (evs : List Ev) :
    (blockStepLoop c isRep base table fuel (stream, true) prevOff evs).2 = true := by
  induction fuel generalizing stream prevOff evs with
  | zero => rfl
  | succ fuel ih =>
    cases evs with
    | nil => rfl
    | cons e rest =>
      cases e with
      | signal => exact ih _ _ _
      | fault => rfl
      | appTrap pc => cases prevOff <;> rfl
      | retire s sp =>
        cases hs : s.taken with
        | false =>
          rw [blockStepLoop_falls _ _ _ hs]
          exact ih _ _ _
        | true =>
          cases prevOff with
          | none =>
            rw [blockStepLoop, if_neg (by simp [hs])]
            exact ih _ _ _
          | some off =>
            rw [blockStepLoop_taken _ _ _ hs]
            rcases blockstepReconstruct c isRep base s.next table off ⟨stream, 0⟩ with ⟨r, o⟩
            cases r with
            | fail => rfl
            | ambiguous =>
              dsimp only
              split_ifs
              · exact ih _ _ _
              · rfl
            | ok =>
              dsimp only
              split_ifs
              · exact ih _ _ _
              · cases classifyRegionExit c base o.lastOff sp rest with
                | resumed off rest => exact ih _ _ _
                | lost => rfl
                | returned => rfl

/-- A block that no stop settles is given up at the next taken branch: the capture is marked, or
nothing ends the block. -/
lemma blockStepLoop_blind {off : ℕ} (hblind : ∀ nextPc out o,
      blockstepReconstruct c isRep base nextPc table off out ≠ (.ok, o))
    {fuel : ℕ} {evs : List Ev} (hfuel : evs.length < fuel) (stream : List ℕ)
    (h : (blockStepLoop c isRep base table fuel (stream, false) (some off) evs).2 = false) :
    (blockStepLoop c isRep base table fuel (stream, false) (some off) evs).1 = stream ∧
      evs.all Ev.quiet = true := by
  induction evs generalizing fuel with
  | nil =>
    cases fuel with
    | zero => cases hfuel
    | succ fuel => exact ⟨rfl, rfl⟩
  | cons e rest ih =>
    cases fuel with
    | zero => cases hfuel
    | succ fuel =>
      rw [List.length_cons] at hfuel
      cases e with
      | signal => exact ih (by omega) h
      | fault => cases h
      | appTrap pc => cases h
      | retire s sp =>
        cases hs : s.taken with
        | false =>
          rw [blockStepLoop_falls _ _ _ hs] at h ⊢
          obtain ⟨h1, h2⟩ := ih (by omega) h
          exact ⟨h1, by simp [Ev.quiet, hs, h2]⟩
        | true =>
          rw [blockStepLoop_taken _ _ _ hs] at h
          rcases hrec : blockstepReconstruct c isRep base s.next table off ⟨stream, 0⟩ with ⟨r, o⟩
          rw [hrec] at h
          cases r with
          | fail => cases h
          | ambiguous =>
            dsimp only at h
            split_ifs at h
            rw [blockStepLoop_overflow] at h
            cases h
          | ok => exact absurd hrec (hblind _ _ _)

end BlockLoop

/-! ### From the entry on -/

/-- What the two streams have to do with each other once both loops are done. -/
def Agrees (ss bs : List ℕ × Bool) (openEnd : Bool) (closed : ℕ) : Prop :=
  bs.2 = false → if openEnd then Ahead bs.1 ss.1 ∧ bs.1.length = closed else ss.1 = bs.1

/-- The static targets of the open block. -/
def targetsOf (c : Code) (base : ℕ) (q : List Step) : List ℕ :=
  q.flatMap fun x => (c.disasBranchTarget base (x.pc - base)).toList

lemma agrees_of_overflow {ss bs : List ℕ × Bool} (h : bs.2 = true) (openEnd : Bool) (closed : ℕ) :
    Agrees ss bs openEnd closed := by
  intro hfalse
  rw [h] at hfalse
  cases hfalse

section Follow

variable {table : Option (List PcRun)} {pc₀ pc : ℕ} {q : List Step} {S : List ℕ} {s : Step}

/-- The single stepper's stream when the block stepper's is `S`: the open block follows, up to and
with the instruction at `pc`, clipped at the buffer's end. -/
def tracked (base : ℕ) (S : List ℕ) (q : List Step) (pc : ℕ) : List ℕ :=
  (S ++ offsOf base q ++ [pc - base]).take ptraceStreamCap

lemma ahead_tracked (hS : S.length ≤ ptraceStreamCap) (q : List Step) (pc : ℕ) :
    Ahead S (tracked base S q pc) := by
  rw [Ahead, tracked, List.append_assoc, List.take_append, List.take_of_length_le hS]
  refine ⟨List.prefix_append _ _, fun hlt => ?_⟩
  simp only [List.length_append, List.length_take, List.length_singleton]
  omega

lemma streamPush_tracked (S : List ℕ) (q : List Step) (o : Bool) (s : Step) :
    (streamPush (tracked base S q s.pc, o) (s.next - base)).1 =
      tracked base S (q ++ [s]) s.next := by
  rw [tracked, streamPush_take, tracked]
  simp [offsOf]

lemma tracked_of_room (h : S.length + q.length + 1 ≤ ptraceStreamCap) :
    tracked base S q pc = S ++ offsOf base q ++ [pc - base] := by
  rw [tracked, List.take_of_length_le]
  simp only [offsOf, List.length_append, List.length_map, List.length_singleton]
  omega

/-- A new block opens behind a stream that fits. -/
lemma streamPush_opens (h : S.length ≤ ptraceStreamCap) (o : Bool) (pc : ℕ) :
    (streamPush (S, o) (pc - base)).1 = tracked base S [] pc := by
  have htake := streamPush_take S o (pc - base)
  rw [List.take_of_length_le h] at htake
  simpa [tracked, offsOf] using htake

lemma block_length (S : List ℕ) (q : List Step) (off : ℕ) :
    (S ++ offsOf base q ++ [off]).length = S.length + q.length + 1 := by
  simp [offsOf, Nat.add_assoc]

/-- A region step that decodes is a step of the execution model. -/
lemma RegionStep.stepOk (h : RegionStep c isRep base s) (hd : c.Decodes (s.pc - base))
    (hs : s.taken = true) : StepOk c base s := by
  refine ⟨fun _ => hd, ?_, fun _ _ => h.jumps hd hs, ?_⟩
  · intro _ hfalse
    rw [hs] at hfalse
    cases hfalse
  · intro hout
    exact absurd h.inRegion hout

/-- A step that decodes and is not taken goes on in the open block, or off the region's end. -/
lemma Straight.snoc (h : Straight c isRep base pc₀ q s.pc) (hstep : RegionStep c isRep base s)
    (hd : c.Decodes (s.pc - base)) (hs : s.taken = false) :
    Straight c isRep base pc₀ (q ++ [s]) s.next := by
  refine h.append ?_
  obtain ⟨hnext, -, hsoft⟩ | ⟨hnext, hrep, hplain⟩ := hstep.falls hd hs
  · exact .fall ⟨hstep.inRegion, hd, hs, hnext, hsoft⟩ (.nil _)
  · refine .again ⟨hstep.inRegion, hs, hnext, hrep, hplain⟩ ?_
    rw [hnext]
    exact .nil _

/-- An exact verdict at the end of the open block appends the block. -/
lemma reconstruct_closes (htable : Installed c isRep base table)
    (h : Straight c isRep base pc₀ q s.pc) (hstep : RegionStep c isRep base s)
    (hd : c.Decodes (s.pc - base)) (hs : s.taken = true)
    (hres : c.disasBranchTarget base (s.pc - base) = none → s.next ∉ targetsOf c base q)
    {o : BlockOut}
    (hok : blockstepReconstruct c isRep base s.next table (pc₀ - base) ⟨S, 0⟩ = (.ok, o)) :
    o = ⟨S ++ offsOf base q ++ [s.pc - base], s.pc - base⟩ ∧
      S.length + q.length + 1 ≤ ptraceStreamCap := by
  obtain ⟨q', hrun, hsub, hcase⟩ := h.run hstep.inRegion hs (hstep.stepOk hd hs)
  obtain ⟨ho, hroom, hplain⟩ := blockstepReconstruct_ok htable hrun (fun hind x hx ht => by
    refine hres hind (List.mem_flatMap.mpr ⟨x, hsub hx, ?_⟩)
    rw [ht]
    exact List.mem_cons_self) hok
  obtain rfl | ⟨x, hx, hrep⟩ := hcase
  · exact ⟨ho, hroom⟩
  · rw [hplain x hx] at hrep
    cases hrep

/-- A call that leaves the region is a taken branch. -/
lemma RegionStep.call_taken (h : RegionStep c isRep base s) (hout : ¬c.InRegion base s.next)
    (hcall : IsCallOut c (s.pc - base)) : c.Decodes (s.pc - base) ∧ s.taken = true := by
  obtain ⟨-, hisCall, hlen, -⟩ := hcall
  refine ⟨hlen, ?_⟩
  by_contra hs
  obtain ⟨-, hnot, -⟩ | ⟨hnext, -⟩ := h.falls hlen (by simpa using hs)
  · rw [hnot] at hisCall
    cases hisCall
  · exact hout (hnext ▸ h.inRegion)

/-- When nothing ends the open block, the tracee dies in it. -/
lemma Trail.openEnd_of_quiet {x : Trail} {pc : ℕ} (hx : x.Ok c isRep base pc)
    (hq : x.events.all Ev.quiet = true) (k n : ℕ) : x.openEnd = true ∧ x.closed k n = k := by
  induction x generalizing pc n with
  | exits => exact ⟨rfl, rfl⟩
  | fault after => cases hq
  | appTrap pc' after => cases hq
  | signal rest ih => exact ih hx hq n
  | step s sp rest ih =>
    simp only [events, List.all_cons, Ev.quiet, Bool.and_eq_true, Bool.not_eq_true'] at hq
    rw [openEnd, closed, if_neg (by simp [hq.1])]
    exact ih hx.2.2.2 hq.2 _
  | callOut s sp native back rest ih =>
    obtain ⟨rfl, hstep, hout, hcall, -⟩ := hx
    simp only [events, List.all_cons, Ev.quiet, Bool.and_eq_true, Bool.not_eq_true'] at hq
    rw [(hstep.call_taken hout hcall).2] at hq
    cases hq.1
  | lost s sp native =>
    obtain ⟨rfl, hstep, hout, hcall, -⟩ := hx
    simp only [events, List.all_cons, Ev.quiet, Bool.and_eq_true, Bool.not_eq_true'] at hq
    rw [(hstep.call_taken hout hcall).2] at hq
    cases hq.1
  | leave s sp after =>
    simp only [events, List.all_cons, Ev.quiet, Bool.and_eq_true, Bool.not_eq_true'] at hq
    rw [openEnd, closed, if_neg (by simp [hq.1]), hq.1, hq.2]
    exact ⟨rfl, rfl⟩

/-- A trail from inside a block that cannot be settled ends marked or open. -/
lemma agrees_blind {x : Trail} (hx : x.Ok c isRep base pc) (hblind : ∀ nextPc out o,
      blockstepReconstruct c isRep base nextPc table (pc₀ - base) out ≠ (.ok, o))
    {fuel fuel' : ℕ} (hfuel : x.events.length < fuel) {out : List ℕ × Bool}
    (hahead : Ahead S out.1) (n : ℕ) :
    Agrees (singleStepLoop c base fuel' out true x.events)
      (blockStepLoop c isRep base table fuel (S, false) (some (pc₀ - base)) x.events)
      x.openEnd (x.closed S.length n) := by
  intro hfalse
  obtain ⟨hstream, hquiet⟩ := blockStepLoop_blind hblind hfuel S hfalse
  obtain ⟨hopen, hclosed⟩ := Trail.openEnd_of_quiet hx hquiet S.length n
  rw [hopen, hclosed, hstream]
  exact ⟨hahead.trans (singleStepLoop_spec _ _ _ _).1, rfl⟩

lemma blind_of_not_decodes (hnone : table = none) (h : Straight c isRep base pc₀ q pc)
    (hd : ¬c.Decodes (pc - base)) (nextPc : ℕ) (out o : BlockOut) :
    blockstepReconstruct c isRep base nextPc table (pc₀ - base) out ≠ (.ok, o) := by
  rw [hnone]
  exact reconstructFresh_blind h hd nextPc out o

/-- A step that ends no block: the single stepper records where control goes on. -/
lemma singleStepLoop_inside {fuel : ℕ} {out : List ℕ × Bool} {sp : ℕ} {rest : List Ev}
    (hin : c.InRegion base s.next) :
    singleStepLoop c base (fuel + 1) out true (.retire s sp :: rest) =
      singleStepLoop c base fuel (streamPush out (s.next - base)) true rest := by
  rw [singleStepLoop_retire, if_pos hin]

lemma singleStepLoop_leaves {fuel : ℕ} {S' : List ℕ} {o : Bool} {off sp : ℕ} {rest : List Ev}
    (hout : ¬c.InRegion base s.next) :
    singleStepLoop c base (fuel + 1) (S' ++ [off], o) true (.retire s sp :: rest) =
      match classifyRegionExit c base off sp rest with
      | .resumed off' rest =>
        singleStepLoop c base fuel (streamPush (S' ++ [off], o) off') true rest
      | .lost => (S' ++ [off], true)
      | .returned => (S' ++ [off], o) := by
  rw [singleStepLoop_retire, if_neg hout, if_pos rfl]
  simp only [List.getLast?_concat, Option.getD_some]

lemma classify_resumed {sp : ℕ} {native : List Ev} {back : Step} (hin : c.InRegion base pc)
    (hcall : IsCallOut c (pc - base))
    (hnative : runUntilSp (pc + (c.disasProbe (pc - base)).len) (sp + 8) native = none)
    (hback : back.next = pc + (c.disasProbe (pc - base)).len) (rest : List Ev) :
    classifyRegionExit c base (pc - base) sp (native ++ .retire back (sp + 8) :: rest) =
      .resumed (back.next - base) rest := by
  have hlo := hin.1
  have htarget : base + (pc - base + (c.disasProbe (pc - base)).len) =
      pc + (c.disasProbe (pc - base)).len := by omega
  rw [classifyRegionExit, if_pos hcall]
  dsimp only
  rw [htarget, runUntilSp_back hnative hback, hback]
  dsimp only
  congr 1
  omega

lemma classify_lost {sp : ℕ} {native : List Ev} (hin : c.InRegion base pc)
    (hcall : IsCallOut c (pc - base))
    (hnative : runUntilSp (pc + (c.disasProbe (pc - base)).len) (sp + 8) native = none) :
    classifyRegionExit c base (pc - base) sp native = .lost := by
  have hlo := hin.1
  have htarget : base + (pc - base + (c.disasProbe (pc - base)).len) =
      pc + (c.disasProbe (pc - base)).len := by omega
  rw [classifyRegionExit, if_pos hcall]
  dsimp only
  rw [htarget, hnative]

/-- The round in which a taken branch ends the open block: the capture is marked, or the block is
appended and both loops go on alike. -/
lemma agrees_taken (htable : Installed c isRep base table)
    (hstraight : Straight c isRep base pc₀ q s.pc) (hstep : RegionStep c isRep base s)
    (hd : c.Decodes (s.pc - base)) (hs : s.taken = true)
    (hres : c.disasBranchTarget base (s.pc - base) = none → s.next ∉ targetsOf c base q)
    {fuel sp : ℕ} {rest : List Ev} {ss : List ℕ × Bool} {openEnd : Bool} {closed : ℕ}
    (hok : S.length + q.length + 1 ≤ ptraceStreamCap →
      Agrees ss
        (if c.InRegion base s.next then
          blockStepLoop c isRep base table fuel (S ++ offsOf base q ++ [s.pc - base], false)
            (some (s.next - base)) rest
        else
          match classifyRegionExit c base (s.pc - base) sp rest with
          | .resumed off rest =>
            blockStepLoop c isRep base table fuel (S ++ offsOf base q ++ [s.pc - base], false)
              (some off) rest
          | .lost => (S ++ offsOf base q ++ [s.pc - base], true)
          | .returned => (S ++ offsOf base q ++ [s.pc - base], false)) openEnd closed) :
    Agrees ss (blockStepLoop c isRep base table (fuel + 1) (S, false) (some (pc₀ - base))
      (.retire s sp :: rest)) openEnd closed := by
  rw [blockStepLoop_taken _ _ _ hs]
  rcases hrec : blockstepReconstruct c isRep base s.next table (pc₀ - base) ⟨S, 0⟩ with ⟨r, o⟩
  cases r with
  | fail => exact agrees_of_overflow rfl _ _
  | ambiguous =>
    dsimp only
    split_ifs
    · exact agrees_of_overflow (blockStepLoop_overflow _ _ _ _) _ _
    · exact agrees_of_overflow rfl _ _
  | ok =>
    obtain ⟨rfl, hroom⟩ := reconstruct_closes htable hstraight hstep hd hs hres hrec
    exact hok hroom

/-- From any instruction of the routine on: by induction on the trail, with the block stepper at
the start of the open block and the single stepper ahead of it by that block. -/
lemma agrees_trail (htable : Installed c isRep base table) {x : Trail}
    (hx : x.Ok c isRep base pc) (hsight : table = none ∨ x.Sighted c base)
    (hstraight : Straight c isRep base pc₀ q pc) (hin : c.InRegion base pc)
    (hres : NoResidual c base (targetsOf c base q) x.steps) (hS : S.length ≤ ptraceStreamCap)
    {out : List ℕ × Bool} (hout : out.1 = tracked base S q pc) {fuel fuel' : ℕ}
    (hf : x.events.length < fuel) (hf' : x.events.length < fuel') :
    Agrees (singleStepLoop c base fuel' out true x.events)
      (blockStepLoop c isRep base table fuel (S, false) (some (pc₀ - base)) x.events)
      x.openEnd (x.closed S.length q.length) := by
  have hahead : Ahead S out.1 := hout ▸ ahead_tracked hS q pc
  induction x generalizing pc₀ pc q S out fuel fuel' with
  | exits =>
    cases fuel with
    | zero => cases hf
    | succ fuel =>
      intro _
      exact ⟨hahead.trans (singleStepLoop_spec _ _ _ _).1, rfl⟩
  | fault after =>
    cases fuel with
    | zero => cases hf
    | succ fuel => exact agrees_of_overflow rfl _ _
  | appTrap pc' after =>
    cases fuel with
    | zero => cases hf
    | succ fuel => exact agrees_of_overflow rfl _ _
  | signal rest ih =>
    rw [Trail.events, List.length_cons] at hf hf'
    cases fuel with
    | zero => omega
    | succ fuel =>
      cases fuel' with
      | zero => omega
      | succ fuel' => exact ih hx hsight hstraight hin hres hS hout (by omega) (by omega) hahead
  | step s sp rest ih =>
    have hx' := hx
    obtain ⟨rfl, hstep, hnext, hrest⟩ := hx
    rw [Trail.events, List.length_cons] at hf hf'
    cases fuel with
    | zero => omega
    | succ fuel =>
      cases fuel' with
      | zero => omega
      | succ fuel' =>
        by_cases hd : c.Decodes (s.pc - base)
        · have hsight' : table = none ∨ rest.Sighted c base := hsight.imp_right And.right
          rw [Trail.events, singleStepLoop_inside hnext]
          cases hs : s.taken with
          | false =>
            have hpush : (streamPush out (s.next - base)).1 = tracked base S (q ++ [s]) s.next := by
              rw [← streamPush_tracked S q out.2 s, ← hout]
            have htargets : targetsOf c base (q ++ [s]) = targetsOf c base q ++
                (c.disasBranchTarget base (s.pc - base)).toList := by
              simp [targetsOf]
            rw [blockStepLoop_falls _ _ _ hs, Trail.openEnd, Trail.closed, if_neg (by simp [hs])]
            have hih := ih hrest hsight' (hstraight.snoc hstep hd hs) hnext
              (by rw [htargets]; exact hres.2 hs) hS hpush
              (show _ < fuel by omega) (show _ < fuel' by omega)
              (hpush ▸ ahead_tracked hS _ _)
            rwa [List.length_append, List.length_singleton] at hih
          | true =>
            obtain ⟨hind, hres'⟩ := hres.1 hs
            refine agrees_taken htable hstraight hstep hd hs hind fun hroom => ?_
            rw [tracked_of_room hroom] at hout
            have hlen := @block_length base S q (s.pc - base)
            have hpush := @streamPush_opens base (S ++ offsOf base q ++ [s.pc - base])
              (by omega) out.2 s.next
            rw [← hout] at hpush
            rw [if_pos hnext, Trail.openEnd, Trail.closed, if_pos hs, ← hlen, ← hout]
            exact ih hrest hsight' (.nil _) hnext hres' (by rw [hout]; omega) hpush (by omega)
              (by omega) (hpush ▸ ahead_tracked (by rw [hout]; omega) _ _)
        · have hnone : table = none := hsight.resolve_right fun h => hd h.1
          exact agrees_blind hx' (blind_of_not_decodes hnone hstraight hd)
            (by rw [Trail.events, List.length_cons]; omega) hahead _
  | callOut s sp native back rest ih =>
    obtain ⟨rfl, hstep, hleft, hcall, hnative, hback, hrest⟩ := hx
    obtain ⟨hd, hs⟩ := hstep.call_taken hleft hcall
    simp only [Trail.events, List.length_cons, List.length_append] at hf hf'
    cases fuel with
    | zero => omega
    | succ fuel =>
      cases fuel' with
      | zero => omega
      | succ fuel' =>
        obtain ⟨hind, hres'⟩ := hres.1 hs
        refine agrees_taken htable hstraight hstep hd hs hind fun hroom => ?_
        rw [tracked_of_room hroom] at hout
        have hlen := @block_length base S q (s.pc - base)
        have hin' : c.InRegion base back.next := by
          obtain ⟨-, -, -, hlt⟩ := hcall
          have hlo := hin.1
          rw [hback]
          exact ⟨by omega, by omega⟩
        obtain ⟨stream, o⟩ := out
        dsimp only at hout
        subst hout
        have hpush := @streamPush_opens base (S ++ offsOf base q ++ [s.pc - base]) (by omega) o
          back.next
        rw [Trail.events, singleStepLoop_leaves hleft, if_neg hleft,
          classify_resumed hin hcall hnative hback, Trail.openEnd, Trail.closed, ← hlen]
        exact ih hrest hsight (.nil _) hin' hres' (by omega) hpush (by omega) (by omega)
          (hpush ▸ ahead_tracked (by omega) _ _)
  | lost s sp native =>
    obtain ⟨rfl, hstep, hleft, hcall, hnative⟩ := hx
    obtain ⟨hd, hs⟩ := hstep.call_taken hleft hcall
    cases fuel with
    | zero => cases hf
    | succ fuel =>
      obtain ⟨hind, -⟩ := hres.1 hs
      refine agrees_taken htable hstraight hstep hd hs hind fun _ => ?_
      rw [if_neg hleft, classify_lost hin hcall hnative]
      exact agrees_of_overflow rfl _ _
  | leave s sp after =>
    have hx' := hx
    obtain ⟨rfl, hstep, hleft, hcall⟩ := hx
    by_cases hd : c.Decodes (s.pc - base)
    · cases hs : s.taken with
      | false =>
        -- control ran off the end of the region
        have hnone : table = none := by
          refine hsight.resolve_right fun h => ?_
          rw [h.2] at hs
          cases hs
        have hoff : ¬c.Decodes (s.next - base) := by
          intro hd'
          have hlt := hd'.lt
          have hlo := hin.1
          obtain ⟨hnext, -⟩ | ⟨hnext, -⟩ := hstep.falls hd hs
          · exact hleft ⟨by omega, by omega⟩
          · exact hleft (hnext ▸ hin)
        exact agrees_blind hx' (blind_of_not_decodes hnone (hstraight.snoc hstep hd hs) hoff) hf
          hahead _
      | true =>
        cases fuel with
        | zero => cases hf
        | succ fuel =>
          cases fuel' with
          | zero => cases hf'
          | succ fuel' =>
            obtain ⟨hind, -⟩ := hres.1 hs
            refine agrees_taken htable hstraight hstep hd hs hind fun hroom => ?_
            rw [tracked_of_room hroom] at hout
            obtain ⟨stream, o⟩ := out
            dsimp only at hout
            subst hout
            rw [Trail.events, singleStepLoop_leaves hleft, if_neg hleft, classifyRegionExit,
              if_neg hcall, Trail.openEnd, hs]
            intro _
            rfl
    · have hnone : table = none := hsight.resolve_right fun h => hd h.1
      exact agrees_blind hx' (blind_of_not_decodes hnone hstraight hd) hf hahead _

end Follow

/-! ### The whole tracee -/

/-- A run of the tracee: the code that calls the routine, and the routine if it is reached. -/
inductive TraceeRun where
  | never (glue : List Ev)
  | enters (glue : List Ev) (call : Step) (sp : ℕ) (routine : Trail)
deriving DecidableEq, Repr

namespace TraceeRun

def events : TraceeRun → List Ev
  | .never glue => glue
  | .enters glue call sp routine => glue ++ .retire call sp :: routine.events

/-- The event does not bring control into the region. -/
def Outside (c : Code) (base : ℕ) : Ev → Prop
  | .retire s _ => ¬c.InRegion base s.next
  | _ => True

/-- The glue stays outside the region, which is entered by a call after which the routine runs. -/
def Ok (c : Code) (isRep : ℕ → Bool) (base : ℕ) : TraceeRun → Prop
  | .never glue => ∀ e ∈ glue, Outside c base e
  | .enters glue call _ routine =>
    (∀ e ∈ glue, Outside c base e ∧ e ≠ .fault ∧ ∀ pc, e ≠ .appTrap pc) ∧ call.taken = true ∧
      c.InRegion base call.next ∧ routine.Ok c isRep base call.next

def steps : TraceeRun → List Step
  | .never _ => []
  | .enters _ _ _ routine => routine.steps

def Sighted (c : Code) (base : ℕ) : TraceeRun → Prop
  | .never _ => True
  | .enters _ _ _ routine => routine.Sighted c base

/-- The tracee exits or is killed while a block of the routine is open. -/
def openEnd : TraceeRun → Bool
  | .never _ => false
  | .enters _ _ _ routine => routine.openEnd

/-- The number of instructions in the routine's closed blocks. -/
def closed : TraceeRun → ℕ
  | .never _ => 0
  | .enters _ _ _ routine => routine.closed 0 0

end TraceeRun

section Whole

variable {table : Option (List PcRun)}

/-- A tracee that never reaches the routine leaves both streams empty. -/
lemma loops_never {glue : List Ev} (h : ∀ e ∈ glue, TraceeRun.Outside c base e) (fuel : ℕ) :
    (singleStepLoop c base fuel ([], false) false glue).1 = [] ∧
      (blockStepLoop c isRep base table fuel ([], false) none glue).1 = [] := by
  induction glue generalizing fuel with
  | nil =>
    cases fuel with
    | zero => exact ⟨rfl, rfl⟩
    | succ fuel => exact ⟨rfl, rfl⟩
  | cons e glue ih =>
    obtain ⟨he, hglue⟩ := List.forall_mem_cons.mp h
    cases fuel with
    | zero => exact ⟨rfl, rfl⟩
    | succ fuel =>
      cases e with
      | signal => exact ih hglue fuel
      | fault => exact ⟨rfl, rfl⟩
      | appTrap pc => exact ⟨rfl, rfl⟩
      | retire s sp =>
        have hout : ¬c.InRegion base s.next := he
        rw [singleStepLoop_retire, if_neg hout, if_neg (by simp)]
        cases hs : s.taken with
        | false =>
          rw [blockStepLoop_falls _ _ _ hs]
          exact ih hglue fuel
        | true =>
          rw [blockStepLoop, if_neg (by simp [hs]), if_neg hout]
          exact ih hglue fuel

/-- Both loops pass the glue and stand at the routine's entry. -/
lemma loops_enter {glue : List Ev} (h : ∀ e ∈ glue, TraceeRun.Outside c base e ∧ e ≠ .fault ∧
      ∀ pc, e ≠ .appTrap pc) {call : Step} (hcall : call.taken = true)
    (hin : c.InRegion base call.next) (sp : ℕ) (rest : List Ev) {fuel : ℕ}
    (hfuel : (glue ++ .retire call sp :: rest).length < fuel) :
    ∃ fuel', rest.length < fuel' ∧
      singleStepLoop c base fuel ([], false) false (glue ++ .retire call sp :: rest) =
        singleStepLoop c base fuel' ([call.next - base], false) true rest ∧
      blockStepLoop c isRep base table fuel ([], false) none (glue ++ .retire call sp :: rest) =
        blockStepLoop c isRep base table fuel' ([], false) (some (call.next - base)) rest := by
  induction glue generalizing fuel with
  | nil =>
    cases fuel with
    | zero => cases hfuel
    | succ fuel =>
      rw [List.nil_append, List.length_cons] at hfuel
      have hpush : streamPush ([], false) (call.next - base) = ([call.next - base], false) := by
        rw [streamPush, if_pos (by decide)]
        rfl
      refine ⟨fuel, by omega, ?_, ?_⟩
      · rw [List.nil_append, singleStepLoop_retire, if_pos hin, hpush]
      · rw [List.nil_append, blockStepLoop, if_neg (by simp [hcall]), if_pos hin]
  | cons e glue ih =>
    obtain ⟨⟨he, hfault, htrap⟩, hglue⟩ := List.forall_mem_cons.mp h
    cases fuel with
    | zero => cases hfuel
    | succ fuel =>
      rw [List.cons_append, List.length_cons] at hfuel
      obtain ⟨fuel', hlt, hss, hbs⟩ := @ih hglue fuel (by omega)
      refine ⟨fuel', hlt, ?_, ?_⟩
      · rw [List.cons_append, ← hss]
        cases e with
        | signal => rfl
        | fault => exact absurd rfl hfault
        | appTrap pc => exact absurd rfl (htrap pc)
        | retire s sp' =>
          have hout : ¬c.InRegion base s.next := he
          rw [singleStepLoop_retire, if_neg hout, if_neg (by simp)]
      · rw [List.cons_append, ← hbs]
        cases e with
        | signal => rfl
        | fault => exact absurd rfl hfault
        | appTrap pc => exact absurd rfl (htrap pc)
        | retire s sp' =>
          have hout : ¬c.InRegion base s.next := he
          cases hs : s.taken with
          | false => rw [blockStepLoop_falls _ _ _ hs]
          | true => rw [blockStepLoop, if_neg (by simp [hs]), if_neg hout]

lemma agrees_run (htable : Installed c isRep base table) {x : TraceeRun}
    (hx : x.Ok c isRep base) (hsight : table = none ∨ x.Sighted c base)
    (hres : NoResidual c base [] x.steps) :
    Agrees (singleStepLoop c base (x.events.length + 1) ([], false) false x.events)
      (blockStepLoop c isRep base table (x.events.length + 1) ([], false) none x.events)
      x.openEnd x.closed := by
  cases x with
  | never glue =>
    obtain ⟨hss, hbs⟩ := @loops_never c isRep base table glue hx (glue.length + 1)
    intro _
    exact hss.trans hbs.symm
  | enters glue call sp routine =>
    obtain ⟨hglue, hcall, hin, hroutine⟩ := hx
    obtain ⟨fuel', hlt, hss, hbs⟩ := @loops_enter c isRep base table glue hglue call hcall hin sp
      routine.events _ (Nat.lt_succ_self _)
    rw [TraceeRun.events, hss, hbs]
    refine agrees_trail htable hroutine hsight (.nil _) hin hres (Nat.zero_le _) ?_ hlt hlt
    rw [tracked_of_room (show _ ≤ ptraceStreamCap by decide)]
    rfl

end Whole

/-! ### The traces -/

section Normalize

/-- What a trace keeps of the instruction stream: the buffer and the number of instructions. -/
def streamOf (t : Trace) : Option (List ℕ) × ℕ := (t.insns, t.insnsTotal)

/-- One round of `normalize`, its fill of the trace. -/
def fillOne (t : Trace) (newBlock : Bool) (off : ℕ) : Trace :=
  traceAppendInsn (if newBlock then traceAppendBlock t off else t) off

lemma normalizeLoop_cons (t : Trace) (seq : Descent.BlockSeq) (ov : Bool) (off : ℕ) (S : List ℕ) :
    normalizeLoop c t seq ov (off :: S) =
      if (c.disasProbe off).len = 0 then
        (fillOne t (Descent.blockseqBoundary seq off (c.disasProbe off).len).1 off).markTruncated
      else
        normalizeLoop c (fillOne t (Descent.blockseqBoundary seq off (c.disasProbe off).len).1 off)
          (Descent.blockseqBoundary seq off (c.disasProbe off).len).2 ov S := rfl

lemma insnsTotal_fillOne (t : Trace) (newBlock : Bool) (off : ℕ) :
    (fillOne t newBlock off).insnsTotal = t.insnsTotal + 1 := by
  have hblock : (traceAppendBlock t off).insnsTotal = t.insnsTotal := by
    unfold traceAppendBlock
    dsimp only
    split
    · rfl
    · split_ifs <;> rfl
  cases newBlock with
  | false => rfl
  | true => exact congrArg (· + 1) hblock

/-- The flag of the stream does not change what is filled in. -/
lemma normalizeLoop_streamOf (t : Trace) (seq : Descent.BlockSeq) (ov ov' : Bool) (S : List ℕ) :
    streamOf (normalizeLoop c t seq ov S) = streamOf (normalizeLoop c t seq ov' S) := by
  induction S generalizing t seq with
  | nil => cases ov <;> cases ov' <;> rfl
  | cons off S ih =>
    rw [normalizeLoop_cons, normalizeLoop_cons]
    by_cases hl : (c.disasProbe off).len = 0
    · rw [if_pos hl, if_pos hl]
    · rw [if_neg hl, if_neg hl]
      exact ih _ _

/-- A trace that is not marked took its whole stream, and the stream was not marked. -/
lemma normalizeLoop_unmarked {t : Trace} {seq : Descent.BlockSeq} {ov : Bool} {S : List ℕ}
    (h : (normalizeLoop c t seq ov S).truncated = false) :
    ov = false ∧ (normalizeLoop c t seq ov S).insnsTotal = t.insnsTotal + S.length ∧
      ∀ off ∈ S, c.Decodes off := by
  induction S generalizing t seq with
  | nil =>
    cases ov with
    | false => exact ⟨rfl, rfl, by simp⟩
    | true => cases h
  | cons off S ih =>
    rw [normalizeLoop_cons] at h ⊢
    by_cases hl : (c.disasProbe off).len = 0
    · rw [if_pos hl] at h
      cases h
    · rw [if_neg hl] at h ⊢
      obtain ⟨hov, htotal, hS⟩ := ih h
      refine ⟨hov, ?_, List.forall_mem_cons.mpr ⟨hl, hS⟩⟩
      rw [htotal, insnsTotal_fillOne, List.length_cons]
      omega

/-- Past instructions that decode, a longer stream is counted further. -/
lemma lt_insnsTotal_normalizeLoop {S : List ℕ} (hS : ∀ off ∈ S, c.Decodes off) (t : Trace)
    (seq : Descent.BlockSeq) (ov : Bool) (off : ℕ) (S' : List ℕ) :
    t.insnsTotal + S.length < (normalizeLoop c t seq ov (S ++ off :: S')).insnsTotal := by
  have hle : ∀ (S' : List ℕ) (t : Trace) (seq : Descent.BlockSeq),
      t.insnsTotal ≤ (normalizeLoop c t seq ov S').insnsTotal := by
    intro S'
    induction S' with
    | nil =>
      intro t seq
      cases ov <;> exact le_rfl
    | cons off S' ih =>
      intro t seq
      rw [normalizeLoop_cons]
      have hfill := insnsTotal_fillOne t (Descent.blockseqBoundary seq off (c.disasProbe off).len).1
        off
      by_cases hl : (c.disasProbe off).len = 0
      · rw [if_pos hl]
        exact (Nat.le_succ _).trans hfill.ge
      · rw [if_neg hl]
        exact ((Nat.le_succ _).trans hfill.ge).trans (ih _ _)
  induction S generalizing t seq with
  | nil =>
    rw [List.nil_append, normalizeLoop_cons]
    have hfill := insnsTotal_fillOne t (Descent.blockseqBoundary seq off (c.disasProbe off).len).1
      off
    by_cases hl : (c.disasProbe off).len = 0
    · rw [if_pos hl]
      exact (Nat.lt_succ_self _).trans_le hfill.ge
    · rw [if_neg hl]
      exact ((Nat.lt_succ_self _).trans_le hfill.ge).trans_le (hle _ _ _)
  | cons x S ih =>
    obtain ⟨hx, hS'⟩ := List.forall_mem_cons.mp hS
    have hl : (c.disasProbe x).len ≠ 0 := hx
    have hih := ih hS' (fillOne t (Descent.blockseqBoundary seq x (c.disasProbe x).len).1 x)
      (Descent.blockseqBoundary seq x (c.disasProbe x).len).2
    rw [insnsTotal_fillOne] at hih
    rw [List.cons_append, normalizeLoop_cons, if_neg hl, List.length_cons]
    omega

end Normalize

/-- An empty trace with room. -/
def roomyTrace : Trace := ⟨some [], 16, 0, some [], 16, 0, false⟩

/-- A conditional that falls through, a call to a helper, and the return. -/
def helperCode : Code := unitCode 100 [.jcc 103, .call 500, .plain, .ret]

def helperRun : TraceeRun :=
  .enters [.retire ⟨50, 60, false⟩ 1008, .signal] ⟨60, 100, true⟩ 1000 <|
    .step ⟨100, 101, false⟩ 1000 <|
    .callOut ⟨101, 500, true⟩ 992 [.retire ⟨500, 501, false⟩ 992] ⟨501, 102, true⟩ <|
    .step ⟨102, 103, false⟩ 1000 <|
    .leave ⟨103, 61, true⟩ 1008 []

/-- The tracee is killed after the first instruction of the routine. -/
def killedRun : TraceeRun :=
  .enters [] ⟨60, 100, true⟩ 1000 (.step ⟨100, 101, false⟩ 1000 .exits)

end AsmTest.Hwtrace
