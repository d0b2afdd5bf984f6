import AsmTest.Descent

/-!
# What a descent is for

A run of the traced routine is a tree of activations. An activation is its own instructions in
order, with the calls it made between them: a call that was descended holds the callee's
activation, a call that was run over holds the states of the callee. The tree says which states
the tracee goes through, which frames and edges there should be, and when the run is well nested.
-/

namespace AsmTest.Descent

/-- What one activation does, from one of its instructions on. -/
inductive Activation where
  /-- The tracee is not observed any further. -/
  | cut
  | ret (s : State)
  | insn (s : State) (rest : Activation)
  /-- A call at `s` that was descended into, with the callee's region. -/
  | call (s : State) (region : Extent) (callee rest : Activation)
  /-- A call at `s` that was run over: the callee's first state and those that follow. -/
  | skip (s entry : State) (native : List State) (rest : Activation)
  /-- The same, but the callee never returns. -/
  | lost (s entry : State) (native : List State)
deriving DecidableEq, Repr

namespace Activation

def head? : Activation → Option State
  | .cut => none
  | .ret s => some s
  | .insn s _ => some s
  | .call s _ _ _ => some s
  | .skip s _ _ _ => some s
  | .lost s _ _ => some s

/-- The states the tracee goes through. -/
def states : Activation → List State
  | .cut => []
  | .ret s => [s]
  | .insn s rest => s :: rest.states
  | .call s _ callee rest => s :: (callee.states ++ rest.states)
  | .skip s entry native rest => s :: entry :: (native ++ rest.states)
  | .lost s entry native => s :: entry :: native

/-- The activation ends with its return. -/
def returned : Activation → Bool
  | .cut => false
  | .ret _ => true
  | .insn _ rest => rest.returned
  | .call _ _ callee rest => callee.returned && rest.returned
  | .skip _ _ _ rest => rest.returned
  | .lost _ _ _ => false

/-- How many activations are descended into. -/
def size : Activation → ℕ
  | .cut => 0
  | .ret _ => 0
  | .insn _ rest => rest.size
  | .call _ _ callee rest => 1 + callee.size + rest.size
  | .skip _ _ _ rest => rest.size
  | .lost _ _ _ => 0

/-- The stop after the activation, when its first instruction is the `n`-th stop. -/
def clock : ℕ → Activation → ℕ
  | n, .cut => n
  | n, .ret _ => n + 1
  | n, .insn _ rest => rest.clock (n + 1)
  | n, .call _ _ callee rest => rest.clock (callee.clock (n + 1))
  | n, .skip _ _ _ rest => rest.clock (n + 1)
  | n, .lost _ _ _ => n + 2

/-- The activation's own instructions, as offsets in its region. -/
def offsets (base : ℕ) : Activation → List ℕ
  | .cut => []
  | .ret s => [s.pc - base]
  | .insn s rest => (s.pc - base) :: rest.offsets base
  | .call s _ _ rest => (s.pc - base) :: rest.offsets base
  | .skip s _ _ rest => (s.pc - base) :: rest.offsets base
  | .lost s _ _ => [s.pc - base]

end Activation

/-- What a frame says of an activation. -/
structure FrameView where
  base : ℕ
  len : ℕ
  depth : ℕ
  parent : Option ℕ
  insns : List ℕ
deriving DecidableEq, Repr

def Frame.view (f : Frame) : FrameView := ⟨f.base, f.len, f.depth, f.parent, f.insns⟩

namespace Activation

/-- One frame per descended activation in entry order, inside the activation that is frame `idx`
at depth `depth`, the next free frame being `next`. -/
def nested (depth idx next : ℕ) : Activation → List FrameView
  | .cut => []
  | .ret _ => []
  | .insn _ rest => rest.nested depth idx next
  | .call _ e callee rest =>
    ⟨e.base, e.len, depth + 1, some idx, callee.offsets e.base⟩ ::
      (callee.nested (depth + 1) next (next + 1) ++
        rest.nested depth idx (next + 1 + callee.size))
  | .skip _ _ _ rest => rest.nested depth idx next
  | .lost _ _ _ => []

/-- One edge per call that is not descended into, in order. -/
def edges (base depth idx next : ℕ) : Activation → List Edge
  | .cut => []
  | .ret _ => []
  | .insn _ rest => rest.edges base depth idx next
  | .call _ e callee rest =>
    callee.edges e.base (depth + 1) next (next + 1) ++
      rest.edges base depth idx (next + 1 + callee.size)
  | .skip s entry _ rest =>
    ⟨s.pc - base, entry.pc, depth, idx⟩ :: rest.edges base depth idx next
  | .lost s entry _ => [⟨s.pc - base, entry.pc, depth, idx⟩]

end Activation

/-! ### Well-nested runs -/

/-- Where an activation runs: its region, the bases of its callers' frames from the inside out,
and the stack pointer of the call that made it. -/
structure Site where
  region : Extent
  callers : List ℕ
  bound : Option ℕ

def Site.depth (x : Site) : ℕ := x.callers.length

/-- The site of an activation that a call with stack pointer `sp` makes. -/
def Site.callee (x : Site) (e : Extent) (sp : ℕ) : Site :=
  ⟨e, x.region.base :: x.callers, some sp⟩

def Site.probe (cfg : Config) (x : Site) (s : State) : Hwtrace.Probe :=
  cfg.probe s.pc (x.region.base + x.region.len)

def IsCall (cfg : Config) (x : Site) (s : State) : Prop :=
  (x.probe cfg s).isCall = true ∧ (x.probe cfg s).len ≠ 0

def IsRet (cfg : Config) (x : Site) (s : State) : Prop :=
  (x.probe cfg s).isRet = true ∧ (x.probe cfg s).isCall = false ∧ (x.probe cfg s).len ≠ 0

/-- The return address of a call at `s`. -/
def fallthru (cfg : Config) (x : Site) (s : State) : ℕ := s.pc + (x.probe cfg s).len

/-- The fall-through of a call lies in the caller's region. -/
def FallsInside (cfg : Config) (x : Site) (s : State) : Prop :=
  fallthru cfg x s < x.region.base + x.region.len

/-- An instruction of the activation: in its region, below the SP of the call that made it, and
before the step cap. -/
def Own (x : Site) (n : ℕ) (s : State) : Prop :=
  x.region.Contains s.pc ∧ (∀ sp ∈ x.bound, s.sp < sp) ∧ n ≤ descendHardStepCap

/-- The call whose callee starts at `pc` is descended into region `e` and hits no cap: a target
in the caller's region stays in it, another one is for the policy. -/
def Descends (cfg : Config) (x : Site) (n pc : ℕ) (e : Extent) : Prop :=
  x.depth + 1 < descendMaxStack ∧
    if x.region.Contains pc then
      e = x.region ∧ x.depth + 1 ≤ cfg.maxDepth ∧
        (x.region.base :: x.callers).count x.region.base < descendRecursionCap
    else descendDecide cfg n x.depth pc = (some e, false) ∧ n < cfg.insnBudget

/-- The call leaves the region and the policy, not a cap, does not descend into it. -/
def StepsOver (cfg : Config) (x : Site) (n pc : ℕ) : Prop :=
  ¬x.region.Contains pc ∧ descendDecide cfg n x.depth pc = (none, false)

/-- What the call at `s` runs over: a callee that starts below the call's SP and does not execute
the return address. -/
def RunsOver (cfg : Config) (x : Site) (n : ℕ) (s entry : State) (native : List State) : Prop :=
  StepsOver cfg x n entry.pc ∧ entry.sp < s.sp ∧ ∀ u ∈ entry :: native, u.pc ≠ fallthru cfg x s

/-- The activation goes on after a call at `s`: at its return address, with its SP. -/
def Resumes (cfg : Config) (x : Site) (s : State) (rest : Activation) : Prop :=
  ∃ u ∈ rest.head?, u.pc = fallthru cfg x s ∧ u.sp = s.sp

section Decide

variable (cfg : Config) (x : Site) (n : ℕ) (s : State)

instance : Decidable (IsCall cfg x s) := inferInstanceAs (Decidable (_ ∧ _))

instance : Decidable (IsRet cfg x s) := inferInstanceAs (Decidable (_ ∧ _ ∧ _))

instance : Decidable (FallsInside cfg x s) := inferInstanceAs (Decidable (_ < _))

instance : Decidable (Own x n s) := inferInstanceAs (Decidable (_ ∧ _ ∧ _))

instance (pc : ℕ) (e : Extent) : Decidable (Descends cfg x n pc e) :=
  inferInstanceAs (Decidable (_ ∧ ite _ _ _))

instance (entry : State) (native : List State) : Decidable (RunsOver cfg x n s entry native) :=
  inferInstanceAs (Decidable ((_ ∧ _) ∧ _ ∧ _))

instance (rest : Activation) : Decidable (Resumes cfg x s rest) :=
  inferInstanceAs (Decidable (∃ u ∈ rest.head?, _))

end Decide

/-- The activation is well nested, its first instruction being the `n`-th stop. -/
def WellNested (cfg : Config) : Site → ℕ → Activation → Prop
  | _, _, .cut => True
  | x, n, .ret s => Own x n s ∧ IsRet cfg x s
  | x, n, .insn s rest =>
    Own x n s ∧ (rest ≠ .cut → ¬IsCall cfg x s) ∧ WellNested cfg x (n + 1) rest
  | x, n, .call s e callee rest =>
    Own x n s ∧ IsCall cfg x s ∧ FallsInside cfg x s ∧
      (∃ t ∈ callee.head?, t.pc ≠ fallthru cfg x s ∧ Descends cfg x (n + 1) t.pc e) ∧
      WellNested cfg (x.callee e s.sp) (n + 1) callee ∧
      (callee.returned = true → Resumes cfg x s rest) ∧
      (callee.returned = false → rest = .cut) ∧
      WellNested cfg x (callee.clock (n + 1)) rest
  | x, n, .skip s entry native rest =>
    Own x n s ∧ IsCall cfg x s ∧ RunsOver cfg x (n + 1) s entry native ∧
      Resumes cfg x s rest ∧ WellNested cfg x (n + 1) rest
  | x, n, .lost s entry native =>
    Own x n s ∧ IsCall cfg x s ∧ RunsOver cfg x (n + 1) s entry native ∧
      n + 1 ≤ descendHardStepCap

def decidableWellNested (cfg : Config) :
    (x : Site) → (n : ℕ) → (a : Activation) → Decidable (WellNested cfg x n a)
  | _, _, .cut => .isTrue trivial
  | x, n, .ret s => inferInstanceAs (Decidable (Own x n s ∧ IsRet cfg x s))
  | x, n, .insn s rest =>
    have := decidableWellNested cfg x (n + 1) rest
    inferInstanceAs (Decidable (Own x n s ∧ (rest ≠ .cut → ¬IsCall cfg x s) ∧ _))
  | x, n, .call s e callee rest =>
    have := decidableWellNested cfg (x.callee e s.sp) (n + 1) callee
    have := decidableWellNested cfg x (callee.clock (n + 1)) rest
    inferInstanceAs (Decidable (Own x n s ∧ IsCall cfg x s ∧ FallsInside cfg x s ∧
      (∃ t ∈ callee.head?, t.pc ≠ fallthru cfg x s ∧ Descends cfg x (n + 1) t.pc e) ∧ _ ∧
      (callee.returned = true → Resumes cfg x s rest) ∧
      (callee.returned = false → rest = .cut) ∧ _))
  | x, n, .skip s entry native rest =>
    have := decidableWellNested cfg x (n + 1) rest
    inferInstanceAs (Decidable (Own x n s ∧ IsCall cfg x s ∧
      RunsOver cfg x (n + 1) s entry native ∧ Resumes cfg x s rest ∧ _))
  | x, n, .lost s entry native =>
    inferInstanceAs (Decidable (Own x n s ∧ IsCall cfg x s ∧
      RunsOver cfg x (n + 1) s entry native ∧ n + 1 ≤ descendHardStepCap))

instance (cfg : Config) (x : Site) (n : ℕ) (a : Activation) : Decidable (WellNested cfg x n a) :=
  decidableWellNested cfg x n a

/-- Every call that never comes back has its fall-through in the caller's region too. -/
def LostInside (cfg : Config) : Site → Activation → Prop
  | _, .cut => True
  | _, .ret _ => True
  | x, .insn _ rest => LostInside cfg x rest
  | x, .call s e callee rest =>
    LostInside cfg (x.callee e s.sp) callee ∧ LostInside cfg x rest
  | x, .skip _ _ _ rest => LostInside cfg x rest
  | x, .lost s _ _ => FallsInside cfg x s

/-- A run of the routine: the states before it is entered, its activation and, when it returned,
what comes after. -/
structure Run where
  prelude : List State
  body : Activation
  after : List State

namespace Run

def site (cfg : Config) : Site := ⟨cfg.root, [], none⟩

def states (r : Run) : List State := r.prelude ++ r.body.states ++ r.after

/-- The frames of a run: the root's and those nested in it. -/
def frames (cfg : Config) (r : Run) : List FrameView :=
  ⟨cfg.root.base, cfg.root.len, 0, none, r.body.offsets cfg.root.base⟩ :: r.body.nested 0 0 1

def edges (cfg : Config) (r : Run) : List Edge := r.body.edges cfg.root.base 0 0 1

/-- The run enters the routine, is well nested, is observed past the root's return if there is
one, and has room for its frames. -/
structure Nested (cfg : Config) (r : Run) : Prop where
  outside : ∀ s ∈ r.prelude, ¬cfg.root.Contains s.pc
  enters : r.body ≠ .cut
  body : WellNested cfg (site cfg) r.prelude.length r.body
  after : r.after = [] ↔ r.body.returned = false
  room : r.body.size + 1 ≤ cfg.framesMax

/-- The root returns out of its own region. -/
def RootLeaves (cfg : Config) (r : Run) : Prop :=
  ∀ s ∈ r.after.head?, ¬cfg.root.Contains s.pc

instance (cfg : Config) (r : Run) : Decidable (r.RootLeaves cfg) :=
  inferInstanceAs (Decidable (∀ s ∈ r.after.head?, _))

end Run

end AsmTest.Descent
