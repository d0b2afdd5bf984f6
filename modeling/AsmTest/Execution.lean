import Mathlib.Tactic
import Mathlib.Data.List.Basic
import AsmTest.Disas

/-!
# Executions over a region

What the reconstructors have to give back: the instructions a processor executes, one by
one, inside the region and outside it. Inside, each step is the one the decoder allows; a
`rep` string instruction is one step.
-/

namespace AsmTest.Hwtrace

open Code

/-- One executed instruction: where it stood, where control went, and whether by a taken
branch. -/
structure Step where
  pc : ℕ
  next : ℕ
  taken : Bool
deriving DecidableEq, Repr

section

variable (c : Code) (base : ℕ)

/-- The region is left and entered by taken branches only; a conditional may fall through,
every other branch is taken, and a direct one goes to its static target. -/
structure StepOk (s : Step) : Prop where
  decodes : c.InRegion base s.pc → c.Decodes (s.pc - base)
  falls : c.InRegion base s.pc → s.taken = false →
    s.next = s.pc + (c.disasProbe (s.pc - base)).len ∧ c.InRegion base s.next ∧
      (c.disasIsBranch (s.pc - base) = true → c.Conditional base (s.pc - base))
  jumps : c.InRegion base s.pc → s.taken = true → c.disasIsBranch (s.pc - base) = true ∧
    ∀ tgt ∈ c.disasBranchTarget base (s.pc - base), s.next = tgt
  outside : ¬c.InRegion base s.pc → s.taken = false → ¬c.InRegion base s.next

/-- An execution from one address to another. -/
inductive Exec : ℕ → List Step → ℕ → Prop
  | nil (pc : ℕ) : Exec pc [] pc
  | cons {s : Step} {steps : List Step} {fin : ℕ} :
      StepOk c base s → Exec s.next steps fin → Exec s.pc (s :: steps) fin

/-- The offsets of the instructions executed in the region, in order. -/
def execInsns (steps : List Step) : List ℕ :=
  (steps.filter fun s => c.InRegion base s.pc).map fun s => s.pc - base

/-- The block starts one step gives: an in-region branch target, or the fall-through of a
conditional in the region that was not taken. -/
def stepStarts (s : Step) : List ℕ :=
  if s.taken then if c.InRegion base s.next then [s.next - base] else []
  else if c.InRegion base s.pc ∧ c.disasIsBranch (s.pc - base) then [s.next - base] else []

def execStarts (steps : List Step) : List ℕ :=
  steps.flatMap (stepStarts c base)

/-- The edges of the taken branches, in execution order. -/
def takenBranches (steps : List Step) : List (ℕ × ℕ) :=
  (steps.filter (·.taken)).map fun s => (s.pc, s.next)

/-- A straight-line run: steps that fall through, then a taken branch. -/
inductive Run : ℕ → List Step → Step → Prop
  | last {s : Step} : c.InRegion base s.pc → s.taken = true → StepOk c base s → Run s.pc [] s
  | cons {x s : Step} {q : List Step} : c.InRegion base x.pc → x.taken = false →
      StepOk c base x → Run x.next q s → Run x.pc (x :: q) s

end

variable {c : Code} {base : ℕ}

lemma stepOk_iff {s : Step} : StepOk c base s ↔
    (c.InRegion base s.pc → c.Decodes (s.pc - base)) ∧
    (c.InRegion base s.pc → s.taken = false →
      s.next = s.pc + (c.disasProbe (s.pc - base)).len ∧ c.InRegion base s.next ∧
        (c.disasIsBranch (s.pc - base) = true → c.Conditional base (s.pc - base))) ∧
    (c.InRegion base s.pc → s.taken = true → c.disasIsBranch (s.pc - base) = true ∧
      ∀ tgt ∈ c.disasBranchTarget base (s.pc - base), s.next = tgt) ∧
    (¬c.InRegion base s.pc → s.taken = false → ¬c.InRegion base s.next) :=
  ⟨fun h => ⟨h.decodes, h.falls, h.jumps, h.outside⟩, fun h => ⟨h.1, h.2.1, h.2.2.1, h.2.2.2⟩⟩

instance (s : Step) : Decidable (StepOk c base s) :=
  decidable_of_iff _ stepOk_iff.symm

/-- The offset after an instruction that falls through. -/
lemma StepOk.off_next {x : Step} (hok : StepOk c base x) (hin : c.InRegion base x.pc)
    (hx : x.taken = false) : x.pc - base + (c.disasProbe (x.pc - base)).len = x.next - base := by
  have hlo := hin.1
  rw [(hok.falls hin hx).1]
  omega

lemma exec_nil_iff {pc fin : ℕ} : Exec c base pc [] fin ↔ pc = fin :=
  ⟨fun h => by cases h; rfl, fun h => h ▸ .nil pc⟩

lemma exec_cons_iff {pc fin : ℕ} {s : Step} {steps : List Step} :
    Exec c base pc (s :: steps) fin ↔
      s.pc = pc ∧ StepOk c base s ∧ Exec c base s.next steps fin := by
  constructor
  · intro h
    cases h with
    | cons hok hrest => exact ⟨rfl, hok, hrest⟩
  · intro h
    exact h.1 ▸ .cons h.2.1 h.2.2

instance decidableExec : (pc : ℕ) → (steps : List Step) → (fin : ℕ) →
    Decidable (Exec c base pc steps fin)
  | _, [], _ => decidable_of_iff _ exec_nil_iff.symm
  | _, s :: steps, fin =>
    have := decidableExec s.next steps fin
    decidable_of_iff _ exec_cons_iff.symm

lemma Run.inRegion {pc : ℕ} {q : List Step} {s : Step} (h : Run c base pc q s) :
    c.InRegion base pc := by
  cases h <;> assumption

lemma Run.taken {pc : ℕ} {q : List Step} {s : Step} (h : Run c base pc q s) : s.taken = true := by
  induction h <;> assumption

lemma Run.stepOk {pc : ℕ} {q : List Step} {s : Step} (h : Run c base pc q s) :
    c.InRegion base s.pc ∧ StepOk c base s := by
  induction h with
  | last hin _ hok => exact ⟨hin, hok⟩
  | cons _ _ _ _ ih => exact ih

lemma Run.not_taken {pc : ℕ} {q : List Step} {s : Step} (h : Run c base pc q s) :
    ∀ x ∈ q, x.taken = false := by
  induction h with
  | last => simp
  | cons _ hx _ _ ih => exact List.forall_mem_cons.mpr ⟨hx, ih⟩

/-- A run goes forward. -/
lemma Run.le {pc : ℕ} {q : List Step} {s : Step} (h : Run c base pc q s) : pc ≤ s.pc := by
  induction h with
  | last => exact le_rfl
  | cons hin hx hok _ ih =>
    rw [(hok.falls hin hx).1] at ih
    omega

lemma Run.exec {pc : ℕ} {q : List Step} {s : Step} (h : Run c base pc q s) :
    Exec c base pc (q ++ [s]) s.next := by
  induction h with
  | last _ _ hok => exact .cons hok (.nil _)
  | cons _ _ hok _ ih => exact .cons hok ih

lemma Exec.append {pc mid fin : ℕ} {a b : List Step} (h : Exec c base pc a mid)
    (h' : Exec c base mid b fin) : Exec c base pc (a ++ b) fin := by
  induction h with
  | nil => exact h'
  | cons hok _ ih => exact .cons hok (ih h')

/-- From inside the region an execution starts with a run, or falls through to its end. -/
lemma Exec.split {pc fin : ℕ} {steps : List Step} (h : Exec c base pc steps fin)
    (hin : c.InRegion base pc) :
    (∃ q s rest, steps = q ++ s :: rest ∧ Run c base pc q s ∧ Exec c base s.next rest fin) ∨
      (c.InRegion base fin ∧ ∀ s ∈ steps, s.taken = false) := by
  induction h with
  | nil pc => exact .inr ⟨hin, by simp⟩
  | @cons s steps fin hok hrest ih =>
    cases htk : s.taken with
    | true => exact .inl ⟨[], s, steps, rfl, .last hin htk hok, hrest⟩
    | false =>
      obtain ⟨q, s', rest, rfl, hrun, hex⟩ | ⟨hfin, hall⟩ := ih (hok.falls hin htk).2.1
      · exact .inl ⟨s :: q, s', rest, rfl, .cons hin htk hok hrun, hex⟩
      · exact .inr ⟨hfin, List.forall_mem_cons.mpr ⟨htk, hall⟩⟩

/-- No instruction is pending at the end: the last step was a taken branch, or control is
outside. -/
def Closed (c : Code) (base : ℕ) (steps : List Step) (fin : ℕ) : Prop :=
  c.InRegion base fin → ∀ s, steps.getLast? = some s → s.taken = true

lemma Closed.tail {p steps : List Step} {fin : ℕ} (h : Closed c base (p ++ steps) fin) :
    Closed c base steps fin := by
  intro hfin s hs
  refine h hfin s ?_
  rw [List.getLast?_append, hs]
  rfl

/-- A closed execution from inside the region starts with a run. -/
lemma Exec.split_closed {pc fin : ℕ} {steps : List Step} (h : Exec c base pc steps fin)
    (hin : c.InRegion base pc) (hne : steps ≠ []) (hc : Closed c base steps fin) :
    ∃ q s rest, steps = q ++ s :: rest ∧ Run c base pc q s ∧ Exec c base s.next rest fin := by
  obtain hrun | ⟨hfin, hall⟩ := h.split hin
  · exact hrun
  · have hlast := hc hfin (steps.getLast hne) (List.getLast?_eq_some_getLast hne)
    rw [hall _ (List.getLast_mem hne)] at hlast
    exact absurd hlast (by simp)

section Lists

@[simp] lemma execInsns_append (a b : List Step) :
    execInsns c base (a ++ b) = execInsns c base a ++ execInsns c base b := by
  simp [execInsns]

@[simp] lemma execStarts_append (a b : List Step) :
    execStarts c base (a ++ b) = execStarts c base a ++ execStarts c base b := by
  simp [execStarts]

/-- The first edge of an execution is the one that ends its first run. -/
lemma Run.takenBranches_cons {pc : ℕ} {q : List Step} {s : Step} (h : Run c base pc q s)
    (rest : List Step) :
    takenBranches (q ++ s :: rest) = (s.pc, s.next) :: takenBranches rest := by
  have hq : q.filter (·.taken) = [] := by
    rw [List.filter_eq_nil_iff]
    intro x hx
    simp [h.not_taken x hx]
  simp [takenBranches, hq, h.taken]

end Lists

end AsmTest.Hwtrace
