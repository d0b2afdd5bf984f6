import Mathlib.Tactic
import Mathlib.Data.List.Basic
import AsmTest.Execution

/-!
# The terminator scan

A block-step stop is the target of a taken branch; the scan looks for the branch that took
control there, from the start of the run on. It answers only when one candidate is left.
-/

namespace AsmTest.Hwtrace

open Code

/-- `br_kind_t` -/
inductive BrKind where
  | none
  | condMiss
  | condHit
  | hardHit
  | hardMiss
  | hardUnknown
deriving DecidableEq, Repr

/-- `ASMTEST_BS_*` -/
inductive BsStatus where
  | fail
  | ok
  | ambiguous
deriving DecidableEq, Repr

section Model

variable (c : Code) (base nextPc : ℕ)

/-- The kind of an instruction and its length, 0 where it does not decode. -/
def classifyBranch (off : ℕ) : BrKind × ℕ :=
  let p := c.disasProbe off
  if p.len = 0 then (.none, p.len)
  else if c.disasIsBranch off = false then (.none, p.len)
  else if p.isRet then (.hardUnknown, p.len)
  else
    match c.disasBranchTarget base off with
    | none => (.hardUnknown, p.len)
    | some target =>
      -- a direct call and a direct jmp are always taken
      if p.isCall ∨ c.disasIsUncondJump off then
        (if target = nextPc then .hardHit else .hardMiss, p.len)
      else (if target = nextPc then .condHit else .condMiss, p.len)

/-- The label `decided`: nothing past this point can run. -/
def scanDecided (firstCand ncand : ℕ) : BsStatus × Option ℕ :=
  if ncand = 0 then (.fail, none)
  else (if ncand = 1 then .ok else .ambiguous, some firstCand)

/-- The end of the loop: off the region, undecodable, or the ceiling. -/
def scanFellOut (firstCand ncand : ℕ) : BsStatus × Option ℕ :=
  if ncand = 0 then (.fail, none) else (.ambiguous, some firstCand)

/-- The scan loop; the second part is `*term_out`, where it is written. -/
def scanLoop : ℕ → ℕ → ℕ → ℕ → BsStatus × Option ℕ
  | 0, _, firstCand, ncand => scanFellOut firstCand ncand
  | guard + 1, walk, firstCand, ncand =>
    if c.len ≤ walk then scanFellOut firstCand ncand
    else
      let k := classifyBranch c base nextPc walk
      if k.2 = 0 then scanFellOut firstCand ncand
      else
        match k.1 with
        | .condHit =>
          scanLoop guard (walk + k.2) (if ncand = 0 then walk else firstCand) (ncand + 1)
        | .hardHit => scanDecided (if ncand = 0 then walk else firstCand) (ncand + 1)
        | .hardUnknown => if ncand = 0 then (.ok, some walk) else scanDecided firstCand ncand
        | .hardMiss => scanDecided firstCand ncand
        | .none => scanLoop guard (walk + k.2) firstCand ncand
        | .condMiss => scanLoop guard (walk + k.2) firstCand ncand

def bsScanTerminator (fromOff : ℕ) : BsStatus × Option ℕ :=
  scanLoop c base nextPc (c.len + 1) fromOff 0 0

end Model

variable {c : Code} {base nextPc : ℕ}

section Classify

variable {off : ℕ}

lemma classifyBranch_plain (hd : c.Decodes off) (hb : c.disasIsBranch off = false) :
    classifyBranch c base nextPc off = (.none, (c.disasProbe off).len) := by
  rw [classifyBranch, if_neg hd, if_pos hb]

lemma classifyBranch_indirect (hd : c.Decodes off) (hb : c.disasIsBranch off = true)
    (ht : c.disasBranchTarget base off = none) :
    classifyBranch c base nextPc off = (.hardUnknown, (c.disasProbe off).len) := by
  rw [classifyBranch, if_neg hd, if_neg (by simp [hb]), ht]
  split_ifs <;> rfl

/-- A direct branch is hard or conditional, and hits when its target is the next stop. -/
lemma classifyBranch_direct {tgt : ℕ} (hd : c.Decodes off) (hb : c.disasIsBranch off = true)
    (ht : c.disasBranchTarget base off = some tgt) :
    classifyBranch c base nextPc off =
      (if (c.disasProbe off).isCall ∨ c.disasIsUncondJump off then
        if tgt = nextPc then .hardHit else .hardMiss
      else if tgt = nextPc then .condHit else .condMiss, (c.disasProbe off).len) := by
  have hret : ¬(c.disasProbe off).isRet = true := fun h => by
    rw [c.ret_indirect base off h] at ht
    cases ht
  rw [classifyBranch, if_neg hd, if_neg (by simp [hb]), if_neg hret, ht]
  dsimp only
  split_ifs <;> rfl

end Classify

lemma classifyBranch_len (off : ℕ) :
    (classifyBranch c base nextPc off).2 = (c.disasProbe off).len := by
  unfold classifyBranch
  dsimp only
  cases c.disasBranchTarget base off <;> dsimp only <;> split_ifs <;> rfl

lemma scanLoop_of_not_decodes {walk : ℕ} (h : ¬c.Decodes walk) (guard first n : ℕ) :
    scanLoop c base nextPc guard walk first n = scanFellOut first n := by
  cases guard with
  | zero => rfl
  | succ guard =>
    have hlen : (classifyBranch c base nextPc walk).2 = 0 := by
      rw [classifyBranch_len]
      exact not_not.mp h
    rw [scanLoop]
    by_cases hend : c.len ≤ walk
    · rw [if_pos hend]
    · rw [if_neg hend]
      dsimp only
      rw [if_pos hlen]

/-- One round of the scan at an instruction that decodes. -/
lemma scanLoop_succ {walk : ℕ} (hd : c.Decodes walk) (guard first n : ℕ) :
    scanLoop c base nextPc (guard + 1) walk first n =
      match (classifyBranch c base nextPc walk).1 with
      | .condHit => scanLoop c base nextPc guard (walk + (c.disasProbe walk).len)
          (if n = 0 then walk else first) (n + 1)
      | .hardHit => scanDecided (if n = 0 then walk else first) (n + 1)
      | .hardUnknown => if n = 0 then (.ok, some walk) else scanDecided first n
      | .hardMiss => scanDecided first n
      | .none => scanLoop c base nextPc guard (walk + (c.disasProbe walk).len) first n
      | .condMiss => scanLoop c base nextPc guard (walk + (c.disasProbe walk).len) first n := by
  have hlen : (classifyBranch c base nextPc walk).2 = _ := classifyBranch_len walk
  have hpos : (c.disasProbe walk).len ≠ 0 := hd
  rw [scanLoop, if_neg (Nat.not_le.mpr hd.lt)]
  dsimp only
  rw [hlen, if_neg hpos]

lemma scanDecided_ok {first n : ℕ} {term : Option ℕ} (h : scanDecided first n = (.ok, term)) :
    n = 1 ∧ term = some first := by
  unfold scanDecided at h
  by_cases h0 : n = 0
  · rw [if_pos h0] at h
    cases h
  · rw [if_neg h0] at h
    obtain ⟨hst, hterm⟩ := Prod.ext_iff.mp h
    refine ⟨?_, hterm.symm⟩
    by_contra h1
    rw [if_neg h1] at hst
    cases hst

lemma scanFellOut_not_ok {first n : ℕ} {term : Option ℕ} :
    scanFellOut first n ≠ (.ok, term) := by
  unfold scanFellOut
  split_ifs <;> simp

/-- Once there is a candidate, the scan can only answer with the first one, and only if no
other follows. -/
lemma scanLoop_ok_of_cand {guard walk first n : ℕ} {term : Option ℕ} (hn : 0 < n)
    (h : scanLoop c base nextPc guard walk first n = (.ok, term)) : n = 1 ∧ term = some first := by
  induction guard generalizing walk n with
  | zero => exact absurd h scanFellOut_not_ok
  | succ guard ih =>
    by_cases hd : c.Decodes walk
    · rw [scanLoop_succ hd] at h
      have hn0 : n ≠ 0 := by omega
      cases hk : (classifyBranch c base nextPc walk).1 with
      | condHit =>
        simp only [hk, if_neg hn0] at h
        have hone := (ih (by omega) h).1
        omega
      | hardHit =>
        simp only [hk] at h
        have hone := (scanDecided_ok h).1
        omega
      | hardUnknown =>
        simp only [hk, if_neg hn0] at h
        exact scanDecided_ok h
      | hardMiss =>
        simp only [hk] at h
        exact scanDecided_ok h
      | none =>
        simp only [hk] at h
        exact ih hn h
      | condMiss =>
        simp only [hk] at h
        exact ih hn h
    · rw [scanLoop_of_not_decodes hd] at h
      exact absurd h scanFellOut_not_ok

/-- The instruction is a conditional whose static target is the stop. -/
def CondTo (c : Code) (base nextPc off : ℕ) : Prop :=
  c.disasIsBranch off = true ∧ c.Conditional base off ∧ c.disasBranchTarget base off = some nextPc

instance (c : Code) (base nextPc off : ℕ) : Decidable (CondTo c base nextPc off) :=
  inferInstanceAs (Decidable (_ ∧ _ ∧ _))

/-- An instruction that may fall through is no hard stop for the scan. -/
lemma classifyBranch_soft (nextPc : ℕ) {off : ℕ} (hd : c.Decodes off)
    (hcond : c.disasIsBranch off = true → c.Conditional base off) :
    (classifyBranch c base nextPc off).1 = .none ∨
      (classifyBranch c base nextPc off).1 = .condMiss ∨
      (classifyBranch c base nextPc off).1 = .condHit ∧ CondTo c base nextPc off := by
  cases hb : c.disasIsBranch off with
  | false =>
    rw [classifyBranch_plain hd hb]
    exact .inl rfl
  | true =>
    obtain ⟨hdirect, hcall, hjump⟩ := hcond hb
    obtain ⟨tgt, ht⟩ := Option.isSome_iff_exists.mp hdirect
    rw [classifyBranch_direct hd hb ht, if_neg (by simp [hcall, hjump])]
    by_cases heq : tgt = nextPc
    · rw [if_pos heq]
      exact .inr (.inr ⟨rfl, hb, hcond hb, heq ▸ ht⟩)
    · rw [if_neg heq]
      exact .inr (.inl rfl)

/-- A step that falls through is no hard stop for the scan. -/
lemma classifyBranch_falls (nextPc : ℕ) {x : Step} (hin : c.InRegion base x.pc)
    (hx : x.taken = false) (hok : StepOk c base x) :
    (classifyBranch c base nextPc (x.pc - base)).1 = .none ∨
      (classifyBranch c base nextPc (x.pc - base)).1 = .condMiss ∨
      (classifyBranch c base nextPc (x.pc - base)).1 = .condHit ∧
        CondTo c base nextPc (x.pc - base) :=
  classifyBranch_soft nextPc (hok.decodes hin) (hok.falls hin hx).2.2

/-- At the branch that ended the run, an answer is that branch: a ret or an indirect branch is
one only if no candidate came before it. -/
lemma scanLoop_last {s : Step} (hin : c.InRegion base s.pc) (hs : s.taken = true)
    (hok : StepOk c base s) {guard first n : ℕ} {term : Option ℕ}
    (hres : c.disasBranchTarget base (s.pc - base) = none → n = 0)
    (h : scanLoop c base s.next guard (s.pc - base) first n = (.ok, term)) :
    term = some (s.pc - base) := by
  have hd := hok.decodes hin
  obtain ⟨hb, htgt⟩ := hok.jumps hin hs
  cases guard with
  | zero => exact absurd h scanFellOut_not_ok
  | succ guard =>
    rw [scanLoop_succ hd] at h
    cases ht : c.disasBranchTarget base (s.pc - base) with
    | none =>
      simp only [classifyBranch_indirect hd hb ht, if_pos (hres ht)] at h
      exact (Prod.ext_iff.mp h).2.symm
    | some tgt =>
      have hhit : tgt = s.next := (htgt tgt ht).symm
      rw [classifyBranch_direct hd hb ht] at h
      by_cases hhard : (c.disasProbe (s.pc - base)).isCall ∨ c.disasIsUncondJump (s.pc - base)
      · simp only [if_pos hhard, if_pos hhit] at h
        obtain ⟨hone, hterm⟩ := scanDecided_ok h
        rwa [if_pos (by omega)] at hterm
      · simp only [if_neg hhard, if_pos hhit] at h
        obtain ⟨hone, hterm⟩ := scanLoop_ok_of_cand (by omega) h
        rwa [if_pos (by omega)] at hterm

/-- On a real run an answer is the branch that ended it, but for the residual: a candidate before
that branch, and that branch a ret or indirect. -/
theorem scanLoop_run_or {pc : ℕ} {q : List Step} {s : Step} (hrun : Run c base pc q s)
    {guard first n : ℕ} {term : Option ℕ}
    (h : scanLoop c base s.next guard (pc - base) first n = (.ok, term)) :
    term = some (s.pc - base) ∨ c.disasBranchTarget base (s.pc - base) = none ∧
      (n ≠ 0 ∨ ∃ x ∈ q, CondTo c base s.next (x.pc - base)) := by
  induction hrun generalizing guard first n with
  | @last s hin hs hok =>
    by_cases hres : c.disasBranchTarget base (s.pc - base) = none → n = 0
    · exact .inl (scanLoop_last hin hs hok hres h)
    · obtain ⟨hind, hn⟩ := Classical.not_imp.mp hres
      exact .inr ⟨hind, .inl hn⟩
  | @cons x s q hin hx hok hrun ih =>
    cases guard with
    | zero => exact absurd h scanFellOut_not_ok
    | succ guard =>
      rw [scanLoop_succ (hok.decodes hin), hok.off_next hin hx] at h
      have hmono : (∃ y ∈ q, CondTo c base s.next (y.pc - base)) →
          ∃ y ∈ x :: q, CondTo c base s.next (y.pc - base) := fun ⟨y, hy, hto⟩ =>
        ⟨y, List.mem_cons_of_mem x hy, hto⟩
      obtain hk | hk | ⟨hk, hto⟩ := classifyBranch_falls s.next hin hx hok
      · simp only [hk] at h
        exact (ih h).imp_right (And.imp_right (Or.imp_right hmono))
      · simp only [hk] at h
        exact (ih h).imp_right (And.imp_right (Or.imp_right hmono))
      · simp only [hk] at h
        exact (ih h).imp_right (And.imp_right fun _ => .inr ⟨x, List.mem_cons_self, hto⟩)

/-- On a real run the scan answers with the branch that ended it, or not at all. The residual is
excluded: a conditional of the run whose static target is the next stop, and then a ret or an
indirect branch to that stop. -/
theorem scanLoop_run {pc : ℕ} {q : List Step} {s : Step} (hrun : Run c base pc q s)
    {guard first n : ℕ} {term : Option ℕ}
    (hres : c.disasBranchTarget base (s.pc - base) = none →
      n = 0 ∧ ∀ x ∈ q, c.disasBranchTarget base (x.pc - base) ≠ some s.next)
    (h : scanLoop c base s.next guard (pc - base) first n = (.ok, term)) :
    term = some (s.pc - base) := by
  obtain hterm | ⟨hind, hn | ⟨x, hx, hto⟩⟩ := scanLoop_run_or hrun h
  · exact hterm
  · exact absurd (hres hind).1 hn
  · exact absurd hto.2.2 ((hres hind).2 x hx)

section Sound

lemma scanDecided_cand {first n : ℕ} (hn : n ≠ 0) :
    (scanDecided first n).1 ≠ .fail ∧ (scanDecided first n).2 = some first := by
  rw [scanDecided, if_neg hn]
  refine ⟨?_, rfl⟩
  dsimp only
  split_ifs <;> simp

/-- Once there is a candidate the scan does not fail, and what it reports is the first one. -/
lemma scanLoop_cand {guard walk first n : ℕ} (hn : n ≠ 0) :
    (scanLoop c base nextPc guard walk first n).1 ≠ .fail ∧
      (scanLoop c base nextPc guard walk first n).2 = some first := by
  have hfell : (scanFellOut first n).1 ≠ .fail ∧ (scanFellOut first n).2 = some first := by
    rw [scanFellOut, if_neg hn]
    exact ⟨by simp, rfl⟩
  induction guard generalizing walk n with
  | zero => exact hfell
  | succ guard ih =>
    by_cases hd : c.Decodes walk
    · rw [scanLoop_succ hd]
      have hnext : (scanFellOut first (n + 1)).1 ≠ .fail ∧
          (scanFellOut first (n + 1)).2 = some first := by
        rw [scanFellOut, if_neg n.succ_ne_zero]
        exact ⟨by simp, rfl⟩
      cases hk : (classifyBranch c base nextPc walk).1 with
      | condHit =>
        rw [if_neg hn]
        exact ih n.succ_ne_zero hnext
      | hardHit =>
        rw [if_neg hn]
        exact scanDecided_cand n.succ_ne_zero
      | hardUnknown =>
        dsimp only
        rw [if_neg hn]
        exact scanDecided_cand hn
      | hardMiss => exact scanDecided_cand hn
      | none => exact ih hn hfell
      | condMiss => exact ih hn hfell
    · rw [scanLoop_of_not_decodes hd]
      exact hfell

/-- At the branch that ended the run the scan reports it or the candidate it holds. -/
lemma scanLoop_last_reports {s : Step} (hin : c.InRegion base s.pc) (hs : s.taken = true)
    (hok : StepOk c base s) {guard first n : ℕ} :
    (scanLoop c base s.next (guard + 1) (s.pc - base) first n).1 ≠ .fail ∧
      (scanLoop c base s.next (guard + 1) (s.pc - base) first n).2 =
        some (if n = 0 then s.pc - base else first) := by
  have hd := hok.decodes hin
  obtain ⟨hb, htgt⟩ := hok.jumps hin hs
  rw [scanLoop_succ hd]
  cases ht : c.disasBranchTarget base (s.pc - base) with
  | none =>
    rw [classifyBranch_indirect hd hb ht]
    dsimp only
    by_cases hn : n = 0
    · rw [if_pos hn, if_pos hn]
      exact ⟨by simp, rfl⟩
    · rw [if_neg hn, if_neg hn]
      exact scanDecided_cand hn
  | some tgt =>
    have hhit : tgt = s.next := (htgt tgt ht).symm
    rw [classifyBranch_direct hd hb ht]
    by_cases hhard : (c.disasProbe (s.pc - base)).isCall ∨ c.disasIsUncondJump (s.pc - base)
    · rw [if_pos hhard, if_pos hhit]
      exact scanDecided_cand n.succ_ne_zero
    · rw [if_neg hhard, if_pos hhit]
      exact scanLoop_cand n.succ_ne_zero

/-- With a ceiling above the length of the run the scan does not fail, and what it reports is at
or before the branch that ended the run. -/
lemma scanLoop_run_reports {pc : ℕ} {q : List Step} {s : Step} (hrun : Run c base pc q s)
    {guard first n : ℕ} (hguard : q.length < guard) (hfirst : n ≠ 0 → first ≤ s.pc - base) :
    (scanLoop c base s.next guard (pc - base) first n).1 ≠ .fail ∧
      ∃ term ≤ s.pc - base,
        (scanLoop c base s.next guard (pc - base) first n).2 = some term := by
  induction hrun generalizing guard first n with
  | @last s hin hs hok =>
    obtain ⟨guard, rfl⟩ : ∃ g, guard = g + 1 := ⟨guard - 1, by omega⟩
    obtain ⟨hne, hterm⟩ := @scanLoop_last_reports c base s hin hs hok guard first n
    refine ⟨hne, _, ?_, hterm⟩
    split_ifs with hn
    · exact le_rfl
    · exact hfirst hn
  | @cons x s q hin hx hok hrun ih =>
    obtain ⟨guard, rfl⟩ : ∃ g, guard = g + 1 := ⟨guard - 1, by omega⟩
    have hrest : q.length < guard := by
      rw [List.length_cons] at hguard
      omega
    rw [scanLoop_succ (hok.decodes hin), hok.off_next hin hx]
    obtain hk | hk | ⟨hk, -⟩ := classifyBranch_falls s.next hin hx hok
    · rw [hk]
      exact ih hrest hfirst
    · rw [hk]
      exact ih hrest hfirst
    · rw [hk]
      refine ih hrest fun _ => ?_
      split_ifs with hn
      · have hle := (Run.cons hin hx hok hrun).le
        omega
      · exact hfirst hn

/-- A run is no longer than its bytes. -/
lemma Run.length_add_le {pc : ℕ} {q : List Step} {s : Step} (hrun : Run c base pc q s) :
    pc + q.length ≤ s.pc := by
  induction hrun with
  | last => exact le_rfl
  | @cons x s q hin hx hok _ ih =>
    have hpos : (c.disasProbe (x.pc - base)).len ≠ 0 := hok.decodes hin
    rw [(hok.falls hin hx).1] at ih
    rw [List.length_cons]
    omega

/-- Two conditionals to one stop, of which the second is taken -/
def dualGuard : Code := unitCode 1 [.plain, .jcc 14, .plain, .jcc 14, .ret]

/-- The scan of a real run from `fromOff` to the stop after its taken branch: it does not fail; it
answers with that branch, but for the residual; and a terminator that is not proven unique is at or
before that branch. -/
theorem bsScanTerminator_sound {fromOff : ℕ} {q : List Step} {s : Step}
    (hrun : Run c base (base + fromOff) q s) :
    (bsScanTerminator c base s.next fromOff).1 ≠ .fail ∧
      ((bsScanTerminator c base s.next fromOff).1 = .ok →
        (bsScanTerminator c base s.next fromOff).2 = some (s.pc - base) ∨
          c.disasBranchTarget base (s.pc - base) = none ∧
            ∃ x ∈ q, CondTo c base s.next (x.pc - base)) ∧
      ((bsScanTerminator c base s.next fromOff).1 = .ambiguous →
        ∃ term ≤ s.pc - base, (bsScanTerminator c base s.next fromOff).2 = some term) := by
  have hoff : base + fromOff - base = fromOff := Nat.add_sub_cancel_left base fromOff
  have hlast : s.pc < base + c.len := hrun.stepOk.1.2
  have hguard : q.length < c.len + 1 := by
    have hlen := hrun.length_add_le
    omega
  obtain ⟨hne, hterm⟩ := scanLoop_run_reports hrun hguard fun h : (0 : ℕ) ≠ 0 => absurd rfl h
  rw [hoff] at hne hterm
  refine ⟨hne, fun hst => ?_, fun _ => hterm⟩
  have hanswer : scanLoop c base s.next (c.len + 1) (base + fromOff - base) 0 0 =
      (.ok, (bsScanTerminator c base s.next fromOff).2) := by
    rw [hoff]
    exact Prod.ext hst rfl
  exact (scanLoop_run_or hrun hanswer).imp_right (And.imp_right fun h => h.resolve_left (absurd rfl))

theorem bsScanTerminator_sound_dualGuard :
    Run dualGuard 10 10 [⟨10, 11, false⟩, ⟨11, 12, false⟩, ⟨12, 13, false⟩] ⟨13, 14, true⟩ ∧
      bsScanTerminator dualGuard 10 14 0 = (.ambiguous, some 1) ∧
      (bsScanTerminator dualGuard 10 14 0).1 ≠ .fail := by
  have h3 := @Run.last dualGuard 10 ⟨13, 14, true⟩ (by decide) rfl (by decide)
  have h2 := @Run.cons dualGuard 10 ⟨12, 13, false⟩ _ _ (by decide) rfl (by decide) h3
  have h1 := @Run.cons dualGuard 10 ⟨11, 12, false⟩ _ _ (by decide) rfl (by decide) h2
  have hrun := @Run.cons dualGuard 10 ⟨10, 11, false⟩ _ _ (by decide) rfl (by decide) h1
  exact ⟨hrun, by decide, (@bsScanTerminator_sound dualGuard 10 0 _ _ hrun).1⟩

end Sound

/-- No ret or indirect branch goes to the static target of a conditional that its run fell
through; `seen` are the static targets of the run so far. -/
def NoResidual (c : Code) (base : ℕ) : List ℕ → List Step → Prop
  | _, [] => True
  | seen, s :: steps =>
    (s.taken = true → (c.disasBranchTarget base (s.pc - base) = none → s.next ∉ seen) ∧
      NoResidual c base [] steps) ∧
    (s.taken = false →
      NoResidual c base (seen ++ (c.disasBranchTarget base (s.pc - base)).toList) steps)

instance decidableNoResidual : (seen : List ℕ) → (steps : List Step) →
    Decidable (NoResidual c base seen steps)
  | _, [] => .isTrue trivial
  | seen, s :: steps =>
    have := decidableNoResidual [] steps
    have := decidableNoResidual (seen ++ (c.disasBranchTarget base (s.pc - base)).toList) steps
    inferInstanceAs (Decidable (_ ∧ _))

/-- What the exclusion says of the first run. -/
lemma NoResidual.run {pc : ℕ} {q rest : List Step} {s : Step} {seen : List ℕ}
    (hrun : Run c base pc q s) (h : NoResidual c base seen (q ++ s :: rest)) :
    (c.disasBranchTarget base (s.pc - base) = none → s.next ∉ seen ∧
      ∀ x ∈ q, c.disasBranchTarget base (x.pc - base) ≠ some s.next) ∧
    NoResidual c base [] rest := by
  induction hrun generalizing seen with
  | last _ hs _ =>
    obtain ⟨hind, hrest⟩ := h.1 hs
    exact ⟨fun ht => ⟨hind ht, by simp⟩, hrest⟩
  | @cons x s q hin hx hok hrun ih =>
    obtain ⟨hind, hrest⟩ := ih (h.2 hx)
    refine ⟨fun ht => ?_, hrest⟩
    obtain ⟨hseen, hq⟩ := hind ht
    rw [List.mem_append, not_or, Option.mem_toList] at hseen
    exact ⟨hseen.1, List.forall_mem_cons.mpr ⟨hseen.2, hq⟩⟩

end AsmTest.Hwtrace
