import AsmTest.WindowLoop
import AsmTest.BlockstepExact

/-!
# Walking a block of a window

A block is straight from where it starts. The recording loop gives back the instructions of the
block that lie in the region set, if its verdict is exact and the terminator scan is free of its
residual: a conditional of the block whose static target is the next stop, and then a ret or an
indirect branch to that stop.
-/

namespace AsmTest.Window

open Hwtrace (Code Step BsStatus ptraceStreamCap RegionStep Straight targetsOf scanLoop_run
  scanLoop_blind)
open AddrChannel

/-- An instruction as the processor executes it: the decoder knows it if it decodes it, and without
a taken branch control does not go back. -/
structure ExecOk (c : Code) (isRep : ℕ → Bool) (s : Step) : Prop extends RegionStep c isRep 0 s where
  forward : s.taken = false → s.pc ≤ s.next

theorem execOk_iff {c : Code} {isRep : ℕ → Bool} {s : Step} : ExecOk c isRep s ↔
    c.InRegion 0 s.pc ∧
    (c.Decodes (s.pc - 0) → s.taken = false →
      (s.next = s.pc + (c.disasProbe (s.pc - 0)).len ∧ (c.disasProbe (s.pc - 0)).isCall = false ∧
        (c.disasIsBranch (s.pc - 0) = true → c.Conditional 0 (s.pc - 0))) ∨
      (s.next = s.pc ∧ isRep (s.pc - 0) = true ∧ c.disasIsBranch (s.pc - 0) = false)) ∧
    (c.Decodes (s.pc - 0) → s.taken = true → c.disasIsBranch (s.pc - 0) = true ∧
      ∀ tgt ∈ c.disasBranchTarget 0 (s.pc - 0), s.next = tgt) ∧
    (s.taken = false → s.pc ≤ s.next) :=
  ⟨fun h => ⟨h.inRegion, h.falls, h.jumps, h.forward⟩, fun h => ⟨⟨h.1, h.2.1, h.2.2.1⟩, h.2.2.2⟩⟩

instance (c : Code) (isRep : ℕ → Bool) (s : Step) : Decidable (ExecOk c isRep s) :=
  decidable_of_iff _ execOk_iff.symm

section Walk

variable {w : Win} {c : Code} {isRep : ℕ → Bool} {regs : List AddrRec}

theorem straight_le {p₀ pc : ℕ} {q : List Step} (h : Straight c isRep 0 p₀ q pc) : p₀ ≤ pc := by
  induction h with
  | nil => exact le_rfl
  | fall hx _ ih =>
    rw [hx.next] at ih
    omega
  | again _ _ ih => exact ih

/-- An exact verdict of the recording loop is the scan's. -/
theorem walkLoop_ok {exclusive : Bool} {term : ℕ} {r : BsStatus} {guard walk : ℕ} {rep : Bool}
    {stream out : List ℕ}
    (h : walkLoop w c isRep regs exclusive term r guard walk rep stream = (.ok, out)) :
    r = .ok := by
  induction guard generalizing walk rep stream with
  | zero => cases h
  | succ guard ih =>
    have hverdict : ∀ {b : Bool}, (if b = true ∧ r = .ok then BsStatus.ambiguous else r) = .ok →
        r = .ok := by
      intro b hb
      split_ifs at hb
      exact hb
    rw [walkLoop] at h
    dsimp only at h
    by_cases hcut : exclusive = true ∧ walk = term
    · rw [if_pos hcut] at h
      exact hverdict (Prod.ext_iff.1 h).1
    rw [if_neg hcut] at h
    by_cases hover : term < walk
    · rw [if_pos hover] at h
      cases h
    rw [if_neg hover] at h
    by_cases hd : (c.disasProbe walk).len = 0
    · rw [if_pos hd] at h
      cases h
    rw [if_neg hd] at h
    by_cases hfull : inRegionSet w regs walk = true ∧ ptraceStreamCap ≤ stream.length
    · rw [if_pos hfull] at h
      cases h
    rw [if_neg hfull] at h
    by_cases hterm : exclusive = false ∧ walk = term
    · rw [if_pos hterm] at h
      exact hverdict (Prod.ext_iff.1 h).1
    · rw [if_neg hterm] at h
      exact ih h

/-- Walking a straight run up to the instruction it stands at records what lies in the region set,
each instruction once: an exact verdict has recorded no `rep` string instruction. -/
theorem walkLoop_straight {p₀ pc : ℕ} {q : List Step} (hq : Straight c isRep 0 p₀ q pc)
    {guard : ℕ} {rep : Bool} {stream out : List ℕ}
    (h : walkLoop w c isRep regs false pc .ok guard p₀ rep stream = (.ok, out)) :
    out = stream ++ (q.map Step.pc ++ [pc]).filter (inRegionSet w regs) ∧ rep = false ∧
      (inRegionSet w regs p₀ = true → isRep p₀ = false) := by
  induction hq generalizing guard rep stream with
  | nil pc =>
    cases guard with
    | zero => cases h
    | succ guard =>
      rw [walkLoop] at h
      dsimp only at h
      by_cases hd : (c.disasProbe pc).len = 0
      · rw [if_neg (by simp), if_neg (lt_irrefl _), if_pos hd] at h
        cases h
      rw [if_neg (by simp), if_neg (lt_irrefl _), if_neg hd] at h
      by_cases hfull : inRegionSet w regs pc = true ∧ ptraceStreamCap ≤ stream.length
      · rw [if_pos hfull] at h
        cases h
      rw [if_neg hfull, if_pos ⟨rfl, rfl⟩] at h
      obtain ⟨hv, rfl⟩ := Prod.ext_iff.1 h
      have hrep : (rep || (inRegionSet w regs pc && isRep pc)) = false := by
        by_contra hne
        dsimp only at hv
        rw [if_pos ⟨Bool.eq_true_of_not_eq_false hne, rfl⟩] at hv
        cases hv
      rw [Bool.or_eq_false_iff] at hrep
      refine ⟨?_, hrep.1, ?_⟩
      · rw [List.map_nil, List.nil_append, List.filter_singleton]
        cases inRegionSet w regs pc
        · exact (List.append_nil _).symm
        · rfl
      · intro hin
        rw [hin, Bool.true_and] at hrep
        exact hrep.2
  | @fall x q pc hx hrest ih =>
    cases guard with
    | zero => cases h
    | succ guard =>
      have hlt : x.pc < pc := by
        have hle := straight_le hrest
        have hpos : (c.disasProbe (x.pc - 0)).len ≠ 0 := hx.decodes
        have hnext := hx.next
        omega
      have hd : (c.disasProbe x.pc).len ≠ 0 := hx.decodes
      have hnext : x.pc + (c.disasProbe x.pc).len = x.next := hx.next.symm
      rw [walkLoop] at h
      dsimp only at h
      rw [if_neg (by simp), if_neg hlt.not_gt, if_neg hd] at h
      by_cases hfull : inRegionSet w regs x.pc = true ∧ ptraceStreamCap ≤ stream.length
      · rw [if_pos hfull] at h
        cases h
      rw [if_neg hfull, if_neg (fun hterm => hlt.ne hterm.2), hnext] at h
      obtain ⟨hout, hrep, -⟩ := ih h
      rw [Bool.or_eq_false_iff] at hrep
      refine ⟨?_, hrep.1, ?_⟩
      · rw [hout, List.map_cons, List.cons_append, List.filter_cons]
        cases inRegionSet w regs x.pc
        · rfl
        · rw [if_pos rfl, if_pos rfl, List.append_assoc]
          rfl
      · intro hin
        rw [hin, Bool.true_and] at hrep
        exact hrep.2
  | @again x q pc hx hrest ih =>
    obtain ⟨hout, hrep, hplain⟩ := ih h
    have hnot : inRegionSet w regs x.pc = false := by
      by_contra hin
      have hfalse := hplain (by simpa using hin)
      have htrue : isRep x.pc = true := hx.isRep
      rw [htrue] at hfalse
      cases hfalse
    refine ⟨?_, hrep, hplain⟩
    rw [hout, List.map_cons, List.cons_append, List.filter_cons, hnot]
    rfl

/-- A walk over bytes that do not decode fails. -/
theorem walkLoop_blind {p₀ pc : ℕ} {q : List Step} (hq : Straight c isRep 0 p₀ q pc)
    (hd : ¬c.Decodes pc) {term : ℕ} (hterm : pc ≤ term) {r : BsStatus} {guard : ℕ} {rep : Bool}
    {stream out : List ℕ} :
    walkLoop w c isRep regs false term r guard p₀ rep stream ≠ (.ok, out) := by
  have hlen : (c.disasProbe pc).len = 0 := not_not.1 hd
  induction hq generalizing guard rep stream with
  | nil pc =>
    intro h
    cases guard with
    | zero => cases h
    | succ guard =>
      rw [walkLoop] at h
      dsimp only at h
      rw [if_neg (by simp), if_neg hterm.not_gt, if_pos hlen] at h
      cases h
  | @fall x q pc hx hrest ih =>
    intro h
    cases guard with
    | zero => cases h
    | succ guard =>
      have hlt : x.pc < pc := by
        have hle := straight_le hrest
        have hpos : (c.disasProbe (x.pc - 0)).len ≠ 0 := hx.decodes
        have hnext := hx.next
        omega
      have hdx : (c.disasProbe x.pc).len ≠ 0 := hx.decodes
      have hnext : x.pc + (c.disasProbe x.pc).len = x.next := hx.next.symm
      rw [walkLoop] at h
      dsimp only at h
      rw [if_neg (by simp), if_neg (hlt.trans_le hterm).not_gt, if_neg hdx] at h
      by_cases hfull : inRegionSet w regs x.pc = true ∧ ptraceStreamCap ≤ stream.length
      · rw [if_pos hfull] at h
        cases h
      rw [if_neg hfull, if_neg (fun heq => (hlt.trans_le hterm).ne heq.2), hnext] at h
      exact ih hd hterm hlen h
  | again _ _ ih => exact ih hd hterm hlen

/-! ### The open block -/

/-- The block that is open: straight up to where the tracee stands, or past an instruction that does
not decode. -/
def OpenPath (c : Code) (isRep : ℕ → Bool) (p₀ : ℕ) (q : List Step) (pc : ℕ) : Prop :=
  Straight c isRep 0 p₀ q pc ∨ ∃ q' x, Straight c isRep 0 p₀ q' x ∧ ¬c.Decodes x ∧ x ≤ pc

variable {p₀ pc : ℕ} {q : List Step} {s : Step} {stream out : List ℕ}

theorem OpenPath.nil (c : Code) (isRep : ℕ → Bool) (pc : ℕ) : OpenPath c isRep pc [] pc :=
  .inl (.nil pc)

theorem OpenPath.falls (h : OpenPath c isRep p₀ q s.pc) (hs : ExecOk c isRep s)
    (htaken : s.taken = false) : OpenPath c isRep p₀ (q ++ [s]) s.next := by
  rcases h with hq | ⟨q', x, hq, hd, hle⟩
  · by_cases hd : c.Decodes s.pc
    · exact .inl (hq.snoc hs.toRegionStep hd htaken)
    · exact .inr ⟨q, s.pc, hq, hd, hs.forward htaken⟩
  · exact .inr ⟨q', x, hq, hd, hle.trans (hs.forward htaken)⟩

/-- A block that a taken branch ends is recorded whole, or the verdict is not exact. -/
theorem OpenPath.closes (h : OpenPath c isRep p₀ q s.pc) (hs : ExecOk c isRep s)
    (htaken : s.taken = true)
    (hres : c.disasBranchTarget 0 s.pc = none → s.next ∉ targetsOf c 0 q)
    (hok : windowBlockWalk w c isRep regs false false p₀ s.next stream = (.ok, out)) :
    out = stream ++ ((q ++ [s]).map Step.pc).filter (inRegionSet w regs) := by
  have hscan : ∃ term, windowScanTerminator c p₀ s.next = (.ok, term) ∧
      walkLoop w c isRep regs false (term.getD s.next) .ok ptraceBlockWalkCap p₀ false stream =
        (.ok, out) := by
    rw [windowBlockWalk, if_neg (by simp)] at hok
    rcases hscan : windowScanTerminator c p₀ s.next with ⟨r, term⟩
    rw [hscan] at hok
    cases r with
    | fail => cases hok
    | ok => exact ⟨term, rfl, hok⟩
    | ambiguous => cases walkLoop_ok hok
  obtain ⟨term, hscan, hwalk⟩ := hscan
  rcases h with hq | ⟨q', x, hq, hd, -⟩
  · by_cases hd : c.Decodes s.pc
    · obtain ⟨q', hrun, hsub, -⟩ := hq.run hs.inRegion htaken (hs.stepOk hd htaken)
      have hterm : term = some (s.pc - 0) := by
        refine scanLoop_run hrun (fun hind => ⟨rfl, fun x hx ht => ?_⟩) hscan
        refine hres hind (List.mem_flatMap.2 ⟨x, hsub hx, ?_⟩)
        rw [ht]
        exact List.mem_cons_self
      rw [hterm] at hwalk
      rw [List.map_append, (walkLoop_straight hq hwalk).1]
      rfl
    · exact absurd hscan (scanLoop_blind hq hd s.next _ _ _ _)
  · exact absurd hscan (scanLoop_blind hq hd s.next _ _ _ _)

/-- A block that a signal cuts is recorded up to where the tracee stands. -/
theorem OpenPath.cut (h : OpenPath c isRep p₀ q pc)
    (hok : windowBlockWalk w c isRep regs true false p₀ pc stream = (.ok, out)) :
    out = stream ++ (q.map Step.pc ++ [pc]).filter (inRegionSet w regs) := by
  rw [windowBlockWalk, if_pos rfl] at hok
  by_cases hlt : pc < p₀
  · rw [if_pos hlt] at hok
    cases hok
  rw [if_neg hlt] at hok
  rcases h with hq | ⟨q', x, hq, hd, hle⟩
  · exact (walkLoop_straight hq hok).1
  · exact absurd hok (walkLoop_blind hq hd hle)

end Walk

end AsmTest.Window
