import Mathlib.Tactic

/-!
# Programs that talk to an environment

A program makes calls and gets answers. The environment answers a call from everything that
was called and answered before, so that one theorem for all environments covers every way
the outside can behave. The log of calls is part of the state; what a program does is
stated by triples over its own state and the log.
-/

namespace Interaction

variable {Call : Type} {Ans : Call → Type} {σ α β : Type}

/-- A call with its answer. -/
structure Event (Ans : Call → Type) where
  call : Call
  ans : Ans call

/-- The calls made so far, the newest first. -/
abbrev Log (Ans : Call → Type) := List (Event Ans)

abbrev Env (Ans : Call → Type) := Log Ans → (c : Call) → Ans c

structure World (Ans : Call → Type) (σ : Type) where
  ctx : σ
  log : Log Ans

def Prog (Ans : Call → Type) (σ α : Type) := Env Ans → World Ans σ → α × World Ans σ

instance : Monad (Prog Ans σ) where
  pure a := fun _ w => (a, w)
  bind m f := fun env w => f (m env w).1 env (m env w).2

def call (c : Call) : Prog Ans σ (Ans c) := fun env w =>
  (env w.log c, { w with log := ⟨c, env w.log c⟩ :: w.log })

def ctx : Prog Ans σ σ := fun _ w => (w.ctx, w)

def update (f : σ → σ) : Prog Ans σ Unit := fun _ w => ((), { w with ctx := f w.ctx })

/-- One program after another over the members of a list. -/
def each (f : α → Prog Ans σ Unit) : List α → Prog Ans σ Unit
  | [] => pure ()
  | a :: as => do
    f a
    each f as

/-- The first member for which the program answers yes. -/
def firstOf (f : α → Prog Ans σ Bool) : List α → Prog Ans σ Bool
  | [] => pure false
  | a :: as => do
    if ← f a then return true
    firstOf f as

abbrev Assn (Ans : Call → Type) (σ : Type) := World Ans σ → Prop

/-- From every world where `P` holds the program reaches, with its answer, one where `Q` does. -/
structure Triple (env : Env Ans) (P : Assn Ans σ) (m : Prog Ans σ α) (Q : α → Assn Ans σ) :
    Prop where
  run : ∀ w, P w → Q (m env w).1 (m env w).2

section Rules

variable {env : Env Ans} {P P' I : Assn Ans σ} {Q : α → Assn Ans σ} {R : β → Assn Ans σ}
  {m : Prog Ans σ α} {f : α → Prog Ans σ β}

theorem triple_pure (a : α) (h : ∀ w, P w → Q a w) : Triple env P (pure a) Q :=
  ⟨fun w hw => h w hw⟩

theorem triple_bind (hm : Triple env P m Q) (hf : ∀ a, Triple env (Q a) (f a) R) :
    Triple env P (m >>= f) R :=
  ⟨fun w hw => (hf _).run _ (hm.run w hw)⟩

theorem triple_pre (hm : Triple env P' m Q) (h : ∀ w, P w → P' w) : Triple env P m Q :=
  ⟨fun w hw => hm.run w (h w hw)⟩

theorem triple_post {Q' : α → Assn Ans σ} (hm : Triple env P m Q')
    (h : ∀ a w, Q' a w → Q a w) : Triple env P m Q :=
  ⟨fun w hw => h _ _ (hm.run w hw)⟩

theorem triple_ite {c : Prop} [Decidable c] {m' : Prog Ans σ α}
    (ht : c → Triple env P m Q) (hf : ¬ c → Triple env P m' Q) :
    Triple env P (if c then m else m') Q := by
  split
  · exact ht ‹_›
  · exact hf ‹_›

theorem triple_call (c : Call) {Q : Ans c → Assn Ans σ}
    (h : ∀ w, P w → Q (env w.log c) { w with log := ⟨c, env w.log c⟩ :: w.log }) :
    Triple env P (call c) Q :=
  ⟨fun w hw => h w hw⟩

theorem triple_ctx : Triple env P ctx fun c w => P w ∧ w.ctx = c :=
  ⟨fun _ hw => ⟨hw, rfl⟩⟩

theorem triple_update {g : σ → σ} {Q : Unit → Assn Ans σ}
    (h : ∀ w, P w → Q () { w with ctx := g w.ctx }) : Triple env P (update g) Q :=
  ⟨fun w hw => h w hw⟩

/-- The world before a program may be named. -/
theorem triple_at (h : ∀ w₀, P w₀ → Triple env (fun w => w = w₀) m Q) : Triple env P m Q :=
  ⟨fun w hw => (h w hw).run w rfl⟩

theorem triple_exists {ι : Type} {P : ι → Assn Ans σ} (h : ∀ i, Triple env (P i) m Q) :
    Triple env (fun w => ∃ i, P i w) m Q := by
  constructor
  rintro w ⟨i, hw⟩
  exact (h i).run w hw

/-- A fact that the precondition gives may be used for the program. -/
theorem triple_of {p : Prop} (hp : ∀ w, P w → p) (h : p → Triple env P m Q) :
    Triple env P m Q :=
  ⟨fun w hw => (h (hp w hw)).run w hw⟩

theorem triple_each {g : α → Prog Ans σ Unit} {as : List α}
    (h : ∀ a ∈ as, Triple env I (g a) fun _ => I) : Triple env I (each g as) fun _ => I := by
  induction as with
  | nil => exact triple_pure () fun _ hw => hw
  | cons a as ih =>
    exact triple_bind (h a (by simp)) fun _ => ih fun b hb => h b (by simp [hb])

theorem triple_firstOf {g : α → Prog Ans σ Bool} {as : List α}
    (h : ∀ a ∈ as, Triple env I (g a) fun b w => if b then P w else I w) :
    Triple env I (firstOf g as) fun b w => if b then P w else I w := by
  induction as with
  | nil => exact triple_pure false fun w hw => by simpa using hw
  | cons a as ih =>
    refine triple_bind (h a (by simp)) fun b => ?_
    cases b with
    | true => exact triple_pure true fun w hw => hw
    | false =>
      exact triple_pre (ih fun c hc => h c (by simp [hc])) fun w hw => by simpa using hw

end Rules

/-! ### Rules for logs -/

section Logs

variable {R : Event Ans → Log Ans → Prop} {l : Log Ans} {e : Event Ans}

/-- Every event of the log obeys the rule against the events before it. -/
def Obeys (R : Event Ans → Log Ans → Prop) : Log Ans → Prop
  | [] => True
  | e :: l => R e l ∧ Obeys R l

theorem Obeys.of_append {l' : Log Ans} (h : Obeys R (l' ++ l)) : Obeys R l := by
  induction l' with
  | nil => exact h
  | cons e l' ih => exact ih h.2

/-- An event anywhere in the log. -/
theorem Obeys.at {l' : Log Ans} (h : Obeys R (l' ++ e :: l)) : R e l :=
  h.of_append.1

end Logs

end Interaction
