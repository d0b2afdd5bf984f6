import AsmTest.DfpStepLoop

/-!
# A scoped capture that is reported complete

An activation is its own instructions in order, with the calls it made between them. A call into
the region is part of it, a call out of the region is run over. The loop follows an activation to
its end if no signal handler runs on the way and a callee is not seen at the return address before
it returns there.
-/

namespace AsmTest.Dataflow.Scoped

open Dataflow

variable {σ : Type}

/-- A state, with the stops for signals without a handler that come before it -/
structure Visit (σ : Type) where
  quiet : ℕ := 0
  s : State σ
deriving DecidableEq, Repr

def Visit.stops (v : Visit σ) : List (Stop σ) :=
  List.replicate v.quiet (.signal false) ++ [.trap v.s]

/-- What an activation does, from one of its instructions on -/
inductive Act (σ : Type) where
  /-- The tracee exits, faults or traps, or `ptrace` fails. -/
  | cut (tail : List (Stop σ))
  | ret (v : Visit σ)
  /-- The region is left for good by a jump, or by a call that does not come back to it. -/
  | exit (v : Visit σ)
  | insn (v : Visit σ) (rest : Act σ)
  /-- A call that stays in the region -/
  | call (v : Visit σ) (callee rest : Act σ)
  /-- A call out of the region: the callee's first state and what follows -/
  | skip (v entry : Visit σ) (away : List (Stop σ)) (rest : Act σ)
  /-- The same, but the callee never returns. -/
  | lost (v entry : Visit σ) (away : List (Stop σ))
  /-- A signal with a handler: the handler's states, then the activation goes on. -/
  | handler (away : List (State σ)) (rest : Act σ)

namespace Act

def head? : Act σ → Option (Visit σ)
  | cut _ => none
  | ret v => some v
  | exit v => some v
  | insn v _ => some v
  | call v _ _ => some v
  | skip v _ _ _ => some v
  | lost v _ _ => some v
  | handler _ _ => none

/-- The stops of the tracee -/
def stops : Act σ → List (Stop σ)
  | cut tail => tail
  | ret v => v.stops
  | exit v => v.stops
  | insn v rest => v.stops ++ rest.stops
  | call v callee rest => v.stops ++ (callee.stops ++ rest.stops)
  | skip v entry away rest => v.stops ++ (entry.stops ++ (away ++ rest.stops))
  | lost v entry away => v.stops ++ (entry.stops ++ away)
  | handler away rest => .signal false :: (away.map .trap ++ rest.stops)

/-- The activation ends with its return. -/
def returned : Act σ → Bool
  | cut _ => false
  | ret _ => true
  | exit _ => false
  | insn _ rest => rest.returned
  | call _ callee rest => callee.returned && rest.returned
  | skip _ _ _ rest => rest.returned
  | lost _ _ _ => false
  | handler _ rest => rest.returned

/-- The region is left for good before that. -/
def exited : Act σ → Bool
  | cut _ => false
  | ret _ => false
  | exit _ => true
  | insn _ rest => rest.exited
  | call _ callee rest => callee.exited || rest.exited
  | skip _ _ _ rest => rest.exited
  | lost _ _ _ => false
  | handler _ rest => rest.exited

def ended (a : Act σ) : Bool :=
  a.returned || a.exited

/-- The instructions in the region, as offsets -/
def offsets (base : ℕ) : Act σ → List ℕ
  | cut _ => []
  | ret v => [v.s.pc - base]
  | exit v => [v.s.pc - base]
  | insn v rest => (v.s.pc - base) :: rest.offsets base
  | call v callee rest => (v.s.pc - base) :: (callee.offsets base ++ rest.offsets base)
  | skip v _ _ rest => (v.s.pc - base) :: rest.offsets base
  | lost v _ _ => [v.s.pc - base]
  | handler _ rest => rest.offsets base

/-- No handler runs. -/
def NoHandler : Act σ → Prop
  | cut _ => True
  | ret _ => True
  | exit _ => True
  | insn _ rest => rest.NoHandler
  | call _ callee rest => callee.NoHandler ∧ rest.NoHandler
  | skip _ _ _ rest => rest.NoHandler
  | lost _ _ _ => True
  | handler _ _ => False

end Act

/-- A stop that ends any capture -/
def Stop.Fatal : Stop σ → Prop
  | trap _ => False
  | signal fault => fault = true
  | appTrap _ => True
  | fail => True

/-- The call at `v` leaves the region for `entry` and comes back to `off`, where the callee does
not pass before it returns. -/
def CallsOut (cfg : Config σ) (v entry : Visit σ) (away : List (Stop σ)) (off : ℕ) : Prop :=
  ¬cfg.Inside entry.s.pc ∧ isCallout cfg (v.s.pc - cfg.base) entry.s = some off ∧
    ∀ s, Stop.trap s ∈ away → s.pc ≠ cfg.base + off

/-- The activation goes on at `pc` with the stack pointer of the call. -/
def Resumes (v : Visit σ) (pc : ℕ) (rest : Act σ) : Prop :=
  ∃ u ∈ rest.head?, u.s.pc = pc ∧ u.s.sp = v.s.sp

/-- Calls return to their callers. -/
def WellNested (cfg : Config σ) : Act σ → Prop
  | .cut tail => ∀ e ∈ tail.head?, e.Fatal
  | .ret v => cfg.Inside v.s.pc ∧ (cfg.decode (v.s.pc - cfg.base)).1 = false
  | .exit v => cfg.Inside v.s.pc
  | .insn v rest => cfg.Inside v.s.pc ∧ WellNested cfg rest
  | .call v callee rest =>
    cfg.Inside v.s.pc ∧ WellNested cfg callee ∧ WellNested cfg rest ∧
      (callee.returned = true →
        Resumes v (v.s.pc + (cfg.decode (v.s.pc - cfg.base)).2) rest) ∧
      (callee.returned = false → rest = .cut [])
  | .skip v entry away rest =>
    cfg.Inside v.s.pc ∧ WellNested cfg rest ∧
      ∃ off, CallsOut cfg v entry away off ∧ Resumes v (cfg.base + off) rest
  | .lost v entry away => cfg.Inside v.s.pc ∧ ∃ off, CallsOut cfg v entry away off
  | .handler away rest => (∀ s ∈ away, ¬cfg.Inside s.pc) ∧ WellNested cfg rest

/-- The stops before the region is entered, the activation, the first state outside after it and
what comes then -/
structure Run (σ : Type) where
  prelude : List (Stop σ)
  body : Act σ
  landing : Visit σ
  after : List (Stop σ)

namespace Run

def stops (r : Run σ) : List (Stop σ) :=
  r.prelude ++ (r.body.stops ++ if r.body.ended then r.landing.stops ++ r.after else [])

/-- The tracee runs outside the region, enters it and leaves it as the activation says. -/
structure Nested (cfg : Config σ) (r : Run σ) : Prop where
  before : ∀ e ∈ r.prelude, e = .signal false ∨ ∃ s, e = .trap s ∧ ¬cfg.Inside s.pc
  body : WellNested cfg r.body
  outside : ¬cfg.Inside r.landing.s.pc
  leaves : r.body.exited = true →
    ∀ off ∈ (r.body.offsets cfg.base).getLast?, isCallout cfg off r.landing.s = none

end Run

section Capture

/-- What only appends and truncations can change is kept by the loop if these keep it. -/
structure Kept (P : ValTrace → List Entry → Prop) : Prop where
  append : ∀ {vt log} (e : Entry), P vt log →
    P (valtraceAppend vt (BitVec.ofNat 64 e.off) e.recs) (log ++ [e])
  truncate : ∀ {vt log}, P vt log → P { vt with truncated := true } log

/-- A property of the capture in an outcome -/
def Outcome.Has (P : ValTrace → List Entry → Prop) : Outcome σ → Prop
  | .cont c _ _ => P c.vt c.log
  | .done r => P r.ctx.vt r.ctx.log

variable {P : ValTrace → List Entry → Prop} {cfg : Config σ} {c : Ctx σ}

lemma Kept.finalizeStep (hP : Kept P) (s : State σ) (h : P c.vt c.log) :
    P (c.finalizeStep cfg s).vt (c.finalizeStep cfg s).log := by
  rw [Ctx.finalizeStep]
  split
  · exact h
  · exact hP.append _ h

lemma Kept.appendOpen (hP : Kept P) (h : P c.vt c.log) :
    P (c.appendOpen cfg).vt (c.appendOpen cfg).log := by
  rw [Ctx.appendOpen]
  split
  · exact h
  · exact hP.append _ h

lemma Kept.emitGap (hP : Kept P) (pre post : State σ) (h : P c.vt c.log) :
    P (c.emitGap cfg pre post).vt (c.emitGap cfg pre post).log := by
  rw [Ctx.emitGap]
  generalize (cfg.glue c.log pre post).2 = batches
  have hstart : P (if (cfg.glue c.log pre post).1 = true then c.truncate else c).vt
      (if (cfg.glue c.log pre post).1 = true then c.truncate else c).log := by
    split_ifs
    · exact hP.truncate h
    · exact h
  generalize (if (cfg.glue c.log pre post).1 = true then c.truncate else c) = c' at hstart
  induction batches generalizing c' with
  | nil => exact hstart
  | cons recs batches ih => exact ih (c'.append (.gap pre.pc recs)) (hP.append _ hstart)

lemma Kept.land (hP : Kept P) (s : State σ) (rest : List (Stop σ)) (h : P c.vt c.log) :
    (land cfg c s rest).Has P := by
  rw [Scoped.land]
  split_ifs
  · rw [landInside]
    dsimp only
    split_ifs
    · exact hP.truncate (hP.appendOpen (hP.finalizeStep s h))
    · exact hP.finalizeStep s h
    · exact hP.finalizeStep s h
  · rw [landOutside]
    dsimp only
    split
    · exact hP.finalizeStep s h
    · split_ifs
      · exact hP.truncate (hP.finalizeStep s h)
      · split
        · exact hP.truncate (hP.finalizeStep s h)
        · exact hP.emitGap _ _ (hP.finalizeStep s h)
  · exact h

lemma Kept.stepRound (hP : Kept P) (here : Option (State σ)) (stops : List (Stop σ))
    (h : P c.vt c.log) : (stepRound cfg c here stops).Has P := by
  unfold Scoped.stepRound
  dsimp only
  by_cases hstop : cfg.stop (c.rounds + 1) = true
  · rw [if_pos hstop]
    exact hP.truncate (hP.appendOpen h)
  · rw [if_neg hstop]
    split
    · exact hP.land _ _ h
    · split_ifs
      · exact hP.truncate h
      · exact h
      · exact hP.truncate h
      · exact h
    · split_ifs
      · exact hP.truncate h
      · exact h
    · exact hP.truncate (hP.finalizeStep _ h)
    · exact h
    · split_ifs
      · exact hP.truncate h
      · exact hP.land _ _ h

theorem Kept.stepLoop (hP : Kept P) (fuel : ℕ) (here : Option (State σ)) (stops : List (Stop σ))
    (h : P c.vt c.log) :
    P (stepLoop cfg fuel c here stops).ctx.vt (stepLoop cfg fuel c here stops).ctx.log := by
  induction fuel generalizing c here stops with
  | zero => exact h
  | succ fuel ih =>
    have hround := @Kept.stepRound σ P cfg c hP here stops h
    rw [Scoped.stepLoop]
    revert hround
    cases Scoped.stepRound cfg c here stops with
    | done r => exact id
    | cont c here rest => exact ih here rest

lemma pushRec_truncated {v : ValTrace} (h : v.truncated = true) (i : ℕ) (r : ValRec) :
    (pushRec i v r).truncated = true := by
  unfold pushRec
  split_ifs
  · exact h
  · rfl

lemma valtraceAppend_truncated {v : ValTrace} (h : v.truncated = true) (off : BitVec 64)
    (recs : List ValRec) : (valtraceAppend v off recs).truncated = true := by
  unfold valtraceAppend
  dsimp only
  split_ifs
  · exact List.foldlRecOn recs (pushRec (v.insnOff.length % 2 ^ 32)) (motive := fun w =>
      w.truncated = true) h fun w hw r _ => pushRec_truncated hw _ r
  · rfl

/-- A trace that is not truncated holds every step that was appended. -/
lemma kept_stored (off₀ : List (BitVec 64)) : Kept fun vt log =>
    vt.truncated = false → vt.insnOff = off₀ ++ log.map fun e => BitVec.ofNat 64 e.off where
  append {vt log} e h htrunc := by
    have hbefore : vt.truncated = false := by
      by_contra hne
      rw [valtraceAppend_truncated (Bool.eq_true_of_not_eq_false hne)] at htrunc
      cases htrunc
    unfold valtraceAppend at htrunc ⊢
    dsimp only at htrunc ⊢
    split_ifs at htrunc ⊢
    · rw [foldl_pushRec_insnOff]
      dsimp only
      rw [h hbefore, List.map_append, List.append_assoc]
      rfl
  truncate _ htrunc := by cases htrunc

end Capture

section Walk

variable {cfg : Config σ} {Q : Result σ → Prop} {c c' : Ctx σ} {s : State σ}
  {rest k : List (Stop σ)}

/-- The capture does not claim to be complete. -/
def Bad (r : Result σ) : Prop :=
  r.rc ≠ .ok ∨ r.ctx.vt.truncated = true

/-- From here on the loop ends with `Q`, or without a claim. -/
def Wins (cfg : Config σ) (Q : Result σ → Prop) (c : Ctx σ) (here : Option (State σ))
    (stops : List (Stop σ)) : Prop :=
  ∀ fuel, stops.length + here.toList.length < fuel →
    Bad (stepLoop cfg fuel c here stops) ∨ Q (stepLoop cfg fuel c here stops)

/-- What follows an outcome -/
def Outcome.Wins (cfg : Config σ) (Q : Result σ → Prop) : Outcome σ → Prop
  | .done r => Bad r ∨ Q r
  | .cont c here rest => Scoped.Wins cfg Q c here rest

/-- The same step is open and the same is recorded. -/
structure Same (c c' : Ctx σ) : Prop where
  log : c'.log = c.log
  cur : c'.cur = c.cur
  curOff : c'.curOff = c.curOff
  entered : c'.entered = c.entered

lemma Same.refl (c : Ctx σ) : Same c c :=
  ⟨rfl, rfl, rfl, rfl⟩

lemma Same.trans {c'' : Ctx σ} (h : Same c c') (h' : Same c' c'') : Same c c'' :=
  ⟨h'.log.trans h.log, h'.cur.trans h.cur, h'.curOff.trans h.curOff, h'.entered.trans h.entered⟩

/-- A callee that is run over takes at least its last state. -/
lemma runTo_length {target : ℕ} {u : State σ} {rest' : List (Stop σ)}
    (h : runTo target rest = some (u, rest')) : rest'.length < rest.length := by
  induction rest with
  | nil => cases h
  | cons e rest ih =>
    rw [List.length_cons]
    cases e with
    | trap s =>
      rw [runTo] at h
      split_ifs at h
      · cases h
        exact Nat.lt_succ_self _
      · exact (ih h).trans (Nat.lt_succ_self _)
    | signal fault => exact (ih h).trans (Nat.lt_succ_self _)
    | appTrap s => cases h
    | fail => cases h

/-- A stop leaves fewer. -/
lemma land_length {c' : Ctx σ} {here' : Option (State σ)} {rest' : List (Stop σ)}
    (h : land cfg c s rest = .cont c' here' rest') :
    rest'.length + here'.toList.length < rest.length + 1 := by
  rw [land] at h
  split_ifs at h
  · rw [landInside] at h
    dsimp only at h
    split_ifs at h
    · cases h
    · cases h
      exact Nat.lt_succ_self _
    · cases h
      exact Nat.lt_succ_self _
  · rw [landOutside] at h
    dsimp only at h
    split at h
    · cases h
    · split_ifs at h
      · cases h
      · split at h
        · cases h
        · rename_i u rest'' hrun
          cases h
          have := runTo_length hrun
          change rest'.length + 1 < rest.length + 1
          omega
  · cases h
    exact Nat.lt_succ_self _

/-- A round, when the stop flag is not set -/
lemma wins_of_round {here : Option (State σ)} (o : Outcome σ)
    (hround : cfg.stop (c.rounds + 1) ≠ true → stepRound cfg c here rest = o)
    (hwins : o.Wins cfg Q)
    (hless : ∀ c' here' rest', o = .cont c' here' rest' →
      rest'.length + here'.toList.length < rest.length + here.toList.length) :
    Wins cfg Q c here rest := by
  intro fuel hfuel
  obtain ⟨fuel, rfl⟩ : ∃ f, fuel = f + 1 := ⟨fuel - 1, by omega⟩
  rw [stepLoop]
  by_cases hstop : cfg.stop (c.rounds + 1) = true
  · unfold stepRound
    dsimp only
    rw [if_pos hstop]
    exact .inl (.inr rfl)
  · rw [hround hstop]
    cases o with
    | done r => exact hwins
    | cont c' here' rest' =>
      have hlt := hless c' here' rest' rfl
      exact hwins fuel (by omega)

/-- The tracee is already stopped at a state. -/
lemma wins_here (h : ∀ c', Same c c' → (land cfg c' s rest).Wins cfg Q) :
    Wins cfg Q c (some s) rest := by
  refine wins_of_round (land cfg { c with rounds := c.rounds + 1 } s rest) (fun hstop => ?_)
    (h _ ⟨rfl, rfl, rfl, rfl⟩) fun c' here' rest' hcont => land_length hcont
  unfold stepRound
  dsimp only
  rw [if_neg hstop]

/-- The tracee is stepped to a state. -/
lemma wins_trap (h : ∀ c', Same c c' → (land cfg c' s rest).Wins cfg Q) :
    Wins cfg Q c none (.trap s :: rest) := by
  by_cases hcap : cfg.stepBackstop < c.total + 1
  · refine wins_of_round
      (Ctx.done .etrace { c with rounds := c.rounds + 1, total := c.total + 1 }.truncate)
      (fun hstop => ?_) (.inl (.inr rfl)) fun c' here' rest' hcont => by cases hcont
    unfold stepRound
    dsimp only
    rw [if_neg hstop, if_pos hcap]
  · refine wins_of_round (land cfg { c with rounds := c.rounds + 1, total := c.total + 1 } s rest)
      (fun hstop => ?_) (h _ ⟨rfl, rfl, rfl, rfl⟩) fun c' here' rest' hcont => ?_
    · unfold stepRound
      dsimp only
      rw [if_neg hstop, if_neg hcap]
    · have := land_length hcont
      rw [List.length_cons]
      exact this

/-- The loop wins from the stream, and when it is positioned at the stream's first state. -/
structure Starts (cfg : Config σ) (Q : Result σ → Prop) (c : Ctx σ) (stops : List (Stop σ)) :
    Prop where
  stepped : Wins cfg Q c none stops
  positioned : ∀ s rest, stops = .trap s :: rest → Wins cfg Q c (some s) rest

lemma starts_trap (h : ∀ c', Same c c' → (land cfg c' s rest).Wins cfg Q) :
    Starts cfg Q c (.trap s :: rest) := by
  refine ⟨wins_trap h, fun s' rest' heq => ?_⟩
  cases heq
  exact wins_here h

/-- A signal without a handler is passed on. -/
lemma wins_signal (h : ∀ c', Same c c' → Wins cfg Q c' none rest) :
    Wins cfg Q c none (.signal false :: rest) := by
  refine wins_of_round (.cont { c with rounds := c.rounds + 1 } none rest) (fun hstop => ?_)
    (h _ ⟨rfl, rfl, rfl, rfl⟩) fun c' here' rest' hcont => ?_
  · unfold stepRound
    dsimp only
    rw [if_neg hstop]
    rfl
  · cases hcont
    exact Nat.lt_succ_self _

lemma starts_signal (h : ∀ c', Same c c' → Wins cfg Q c' none rest) :
    Starts cfg Q c (.signal false :: rest) :=
  ⟨wins_signal h, fun s rest' heq => by cases heq⟩

lemma starts_visit {v : Visit σ} (h : ∀ c', Same c c' → (land cfg c' v.s rest).Wins cfg Q) :
    Starts cfg Q c (v.stops ++ rest) := by
  obtain ⟨n, s⟩ := v
  rw [Visit.stops, List.append_assoc]
  dsimp only at h ⊢
  induction n generalizing c with
  | zero => exact starts_trap h
  | succ n ih =>
    exact starts_signal fun c' hc => (ih fun c'' hc' => h c'' (hc.trans hc')).stepped

/-- The capture ends without a claim when the tracee does not go on. -/
lemma wins_cut {tail : List (Stop σ)} (hopen : c.entered = true → c.cur.isSome = true)
    (htail : ∀ e ∈ tail.head?, e.Fatal) : Wins cfg Q c none tail := by
  intro fuel hfuel
  obtain ⟨fuel, rfl⟩ : ∃ f, fuel = f + 1 := ⟨fuel - 1, by omega⟩
  rw [stepLoop]
  unfold stepRound
  dsimp only
  by_cases hstop : cfg.stop (c.rounds + 1) = true
  · rw [if_pos hstop]
    exact .inl (.inr rfl)
  · rw [if_neg hstop]
    cases tail with
    | nil =>
      dsimp only
      by_cases hentered : c.entered = true
      · rw [if_pos (hopen hentered)]
        exact .inl (.inr rfl)
      · rw [if_neg hentered]
        exact .inl (.inl (show Rc.etrace ≠ Rc.ok by decide))
    | cons e tail =>
      have hfatal := htail e rfl
      cases e with
      | trap s => cases hfatal
      | signal fault =>
        cases hfatal
        exact .inl (.inr rfl)
      | appTrap s => exact .inl (.inr rfl)
      | fail => exact .inl (.inl (show Rc.etrace ≠ Rc.ok by decide))

/-- The steps that are recorded, with the one that is open -/
def Ctx.opened (c : Ctx σ) : List ℕ :=
  c.log.filterMap Entry.inside? ++ (c.cur.map fun _ => c.curOff).toList

lemma Same.opened (h : Same c c') : c'.opened = c.opened := by
  rw [Ctx.opened, Ctx.opened, h.log, h.cur, h.curOff]

@[simp] lemma opened_finalizeStep (c : Ctx σ) (s : State σ) :
    (c.finalizeStep cfg s).opened = c.opened ∧ (c.finalizeStep cfg s).cur = none ∧
      (c.finalizeStep cfg s).entered = c.entered := by
  rw [Ctx.finalizeStep]
  cases hcur : c.cur with
  | none => exact ⟨rfl, hcur, rfl⟩
  | some pre =>
    refine ⟨?_, rfl, rfl⟩
    simp [Ctx.opened, Ctx.append, hcur, Entry.inside?]

lemma emitGap_spec (c : Ctx σ) (pre post : State σ) :
    (c.emitGap cfg pre post).opened = c.opened ∧ (c.emitGap cfg pre post).cur = c.cur ∧
      (c.emitGap cfg pre post).entered = c.entered := by
  rw [Ctx.emitGap]
  generalize (cfg.glue c.log pre post).2 = batches
  have hstart : ∀ b : Bool, (if b = true then c.truncate else c).opened = c.opened ∧
      (if b = true then c.truncate else c).cur = c.cur ∧
      (if b = true then c.truncate else c).entered = c.entered := by
    intro b
    cases b <;> exact ⟨rfl, rfl, rfl⟩
  obtain ⟨hopened, hcur, hentered⟩ := hstart (cfg.glue c.log pre post).1
  generalize (if (cfg.glue c.log pre post).1 = true then c.truncate else c) = c' at *
  induction batches generalizing c' with
  | nil => exact ⟨hopened, hcur, hentered⟩
  | cons recs batches ih =>
    refine ih (c'.append (.gap pre.pc recs)) ?_ hcur hentered
    rw [← hopened]
    simp [Ctx.opened, Ctx.append, Entry.inside?]

/-- After an activation: its steps are recorded, the last one open. -/
structure After (cfg : Config σ) (c c' : Ctx σ) (offs : List ℕ) : Prop where
  opened : c'.opened = c.opened ++ offs
  cur : c'.cur.isSome = true
  entered : c'.entered = true
  last : ∀ off ∈ offs.getLast?, c'.curOff = off

/-- A stop inside the region opens its step. -/
lemma wins_inside (hin : cfg.Inside s.pc)
    (h : ∀ c', After cfg c c' [s.pc - cfg.base] → Wins cfg Q c' none rest) :
    (land cfg c s rest).Wins cfg Q := by
  obtain ⟨hopened, hcur, -⟩ := @opened_finalizeStep σ cfg c s
  have hafter : After cfg c (({ c.finalizeStep cfg s with entered := true }).openStep cfg s)
      [s.pc - cfg.base] := by
    refine ⟨?_, rfl, rfl, fun off hoff => ?_⟩
    · rw [← hopened, Ctx.opened, Ctx.opened, hcur]
      simp [Ctx.openStep]
    · cases hoff
      rfl
  rw [land, if_pos hin, landInside]
  dsimp only
  split_ifs
  · exact .inl (.inr rfl)
  · exact h _ ⟨hafter.opened, rfl, rfl, hafter.last⟩
  · exact h _ hafter

/-- A confirmed call out of the region is run over. -/
lemma wins_callout {off : ℕ} (hentered : c.entered = true) (hout : ¬cfg.Inside s.pc)
    (hcall : isCallout cfg c.curOff s = some off)
    (h : ∀ u rest', runTo (cfg.base + off) rest = some (u, rest') →
      ∀ c', c'.opened = c.opened → Wins cfg Q c' (some u) rest') :
    (land cfg c s rest).Wins cfg Q := by
  obtain ⟨hopened, -, -⟩ := @opened_finalizeStep σ cfg c s
  rw [land, if_neg hout, if_pos hentered, landOutside, hcall]
  dsimp only
  split_ifs
  · exact .inl (.inr rfl)
  · split
    · exact .inl (.inr rfl)
    · rename_i u rest' hrun
      refine h u rest' hrun _ ?_
      rw [(emitGap_spec _ s u).1, ← hopened]
      rfl

/-- The end of the region -/
lemma wins_leave (hentered : c.entered = true) (hout : ¬cfg.Inside s.pc)
    (hcall : isCallout cfg c.curOff s = none)
    (h : ∀ c', c'.opened = c.opened → c'.cur = none → Q ⟨c', .ok, some s.rax⟩) :
    (land cfg c s rest).Wins cfg Q := by
  obtain ⟨hopened, hcur, -⟩ := @opened_finalizeStep σ cfg c s
  rw [land, if_neg hout, if_pos hentered, landOutside, hcall]
  exact .inr (h _ hopened hcur)

lemma runTo_away {target : ℕ} {away : List (Stop σ)}
    (h : ∀ s, Stop.trap s ∈ away → s.pc ≠ target) (rest : List (Stop σ)) :
    runTo target (away ++ rest) = none ∨ runTo target (away ++ rest) = runTo target rest := by
  induction away with
  | nil => exact .inr rfl
  | cons e away ih =>
    have ih' := ih fun s hs => h s (List.mem_cons_of_mem _ hs)
    rw [List.cons_append]
    cases e with
    | trap s =>
      rw [runTo, if_neg (h s List.mem_cons_self)]
      exact ih'
    | signal fault => exact ih'
    | appTrap s => exact .inl rfl
    | fail => exact .inl rfl

lemma runTo_visit {target : ℕ} {v : Visit σ} (h : v.s.pc = target) (rest : List (Stop σ)) :
    runTo target (v.stops ++ rest) = some (v.s, rest) := by
  obtain ⟨n, s⟩ := v
  rw [Visit.stops, List.append_assoc]
  dsimp only at h ⊢
  induction n with
  | zero => exact if_pos h
  | succ n ih => exact ih

namespace Act

/-- The stops after the first state -/
def more : Act σ → List (Stop σ)
  | cut _ => []
  | ret _ => []
  | exit _ => []
  | insn _ rest => rest.stops
  | call _ callee rest => callee.stops ++ rest.stops
  | skip _ entry away rest => entry.stops ++ (away ++ rest.stops)
  | lost _ entry away => entry.stops ++ away
  | handler _ _ => []

lemma stops_eq {a : Act σ} {v : Visit σ} (h : a.head? = some v) : a.stops = v.stops ++ a.more := by
  cases a with
  | cut tail => cases h
  | ret w =>
    cases h
    exact (List.append_nil _).symm
  | exit w =>
    cases h
    exact (List.append_nil _).symm
  | insn w rest =>
    cases h
    rfl
  | call w callee rest =>
    cases h
    rfl
  | skip w entry away rest =>
    cases h
    rfl
  | lost w entry away =>
    cases h
    rfl
  | handler away rest => cases h

end Act

lemma After.trans {c'' : Ctx σ} {offs offs' : List ℕ} (h : After cfg c c' offs)
    (h' : After cfg c' c'' offs') (hne : offs' ≠ []) : After cfg c c'' (offs ++ offs') := by
  refine ⟨?_, h'.cur, h'.entered, fun off hoff => h'.last off ?_⟩
  · rw [h'.opened, h.opened, List.append_assoc]
  · rwa [List.getLast?_append_of_ne_nil _ hne] at hoff

lemma After.of_opened {c₀ : Ctx σ} {offs : List ℕ} (h : After cfg c c' offs)
    (h₀ : c.opened = c₀.opened) : After cfg c₀ c' offs :=
  ⟨h₀ ▸ h.opened, h.cur, h.entered, h.last⟩

namespace Act

lemma exited_of_returned {a : Act σ} (hn : WellNested cfg a) (h : a.returned = true) :
    a.exited = false := by
  induction a with
  | cut tail => rfl
  | ret v => rfl
  | exit v => cases h
  | insn v rest ih => exact ih hn.2 h
  | call v callee rest ihc ihr =>
    obtain ⟨hc, hr⟩ := Bool.and_eq_true_iff.1 h
    rw [exited, ihc hn.2.1 hc, ihr hn.2.2.1 hr, Bool.or_false]
  | skip v entry away rest ih => exact ih hn.2.1 h
  | lost v entry away => rfl
  | handler away rest ih => exact ih hn.2 h

lemma offsets_ne_nil {a : Act σ} (hh : a.NoHandler) (h : a.ended = true) (base : ℕ) :
    a.offsets base ≠ [] := by
  cases a with
  | cut tail => cases h
  | handler away rest => exact hh.elim
  | ret v => exact List.cons_ne_nil _ _
  | exit v => exact List.cons_ne_nil _ _
  | insn v rest => exact List.cons_ne_nil _ _
  | call v callee rest => exact List.cons_ne_nil _ _
  | skip v entry away rest => exact List.cons_ne_nil _ _
  | lost v entry away => exact List.cons_ne_nil _ _

/-- What is left to watch after an activation -/
def thereafter (a : Act σ) (k : List (Stop σ)) : List (Stop σ) :=
  if a.ended then k else []

/-- From its first state the loop follows the activation to its end. -/
def Followed (cfg : Config σ) (a : Act σ) : Prop :=
  ∀ (Q : Result σ → Prop) (c : Ctx σ) (k : List (Stop σ)), ∀ v ∈ a.head?,
    (a.ended = true → ∀ c', After cfg c c' (a.offsets cfg.base) → Wins cfg Q c' none k) →
    (land cfg c v.s (a.more ++ a.thereafter k)).Wins cfg Q

/-- The same from the stop before it -/
lemma Followed.stream {a : Act σ} (hf : Followed cfg a) (hn : WellNested cfg a)
    (hh : a.NoHandler) (hopen : c.entered = true → c.cur.isSome = true)
    (h : a.ended = true → ∀ c', After cfg c c' (a.offsets cfg.base) → Wins cfg Q c' none k) :
    Starts cfg Q c (a.stops ++ a.thereafter k) := by
  cases hhead : a.head? with
  | some v =>
    rw [stops_eq hhead, List.append_assoc]
    refine starts_visit fun c' hc => hf Q c' k v hhead fun hend c'' hafter => ?_
    exact h hend c'' (hafter.of_opened hc.opened)
  | none =>
    cases a with
    | cut tail =>
      change Starts cfg Q c (tail ++ [])
      rw [List.append_nil]
      refine ⟨wins_cut hopen hn, fun s rest heq => ?_⟩
      rw [heq] at hn
      exact (hn (.trap s) rfl).elim
    | handler away rest => exact hh.elim
    | ret v => cases hhead
    | exit v => cases hhead
    | insn v rest => cases hhead
    | call v callee rest => cases hhead
    | skip v entry away rest => cases hhead
    | lost v entry away => cases hhead

/-- A call that stays in the region -/
lemma followed_call {v : Visit σ} {callee rest : Act σ}
    (hn : WellNested cfg (.call v callee rest)) (hh : NoHandler (.call v callee rest))
    (hcallee : Followed cfg callee) (hrest : Followed cfg rest) :
    Followed cfg (.call v callee rest) := by
  intro Q c k w hw h
  cases hw
  obtain ⟨hin, hnc, hnr, -, hcut⟩ := hn
  obtain ⟨hhc, hhr⟩ := hh
  refine wins_inside hin fun c₁ h₁ => ?_
  rw [more, List.append_assoc]
  cases hret : callee.returned with
  | true =>
    have hexit := exited_of_returned hnc hret
    have hended : ended (.call v callee rest) = rest.ended := by
      rw [ended, returned, exited, hret, hexit, Bool.true_and, Bool.false_or, ended]
    have hcend : callee.ended = true := by rw [ended, hret, Bool.true_or]
    have hthere : thereafter (.call v callee rest) k = rest.thereafter k := by
      rw [thereafter, hended, thereafter]
    have hk : callee.thereafter (rest.stops ++ rest.thereafter k) =
        rest.stops ++ rest.thereafter k := if_pos hcend
    rw [hthere, ← hk]
    refine (hcallee.stream hnc hhc (fun _ => h₁.cur) fun _ c₂ h₂ => ?_).stepped
    refine (hrest.stream hnr hhr (fun _ => h₂.cur) fun hrend c₃ h₃ => ?_).stepped
    refine h (hended.trans hrend) c₃ (h₁.trans (h₂.trans h₃ ?_) ?_)
    · exact offsets_ne_nil hhr hrend _
    · exact List.append_ne_nil_of_left_ne_nil (offsets_ne_nil hhc hcend _) _
  | false =>
    obtain rfl := hcut hret
    have hended : ended (.call v callee (.cut [])) = callee.ended := by
      rw [ended, returned, exited, hret, ended, hret, exited, Bool.false_and, Bool.or_false]
    have hthere : thereafter (.call v callee (.cut [])) k = callee.thereafter k := by
      rw [thereafter, hended, thereafter]
    rw [hthere]
    refine (hcallee.stream hnc hhc (fun _ => h₁.cur) fun hcend c₂ h₂ => ?_).stepped
    have hoffs : offsets cfg.base (.call v callee (.cut [])) =
        [v.s.pc - cfg.base] ++ callee.offsets cfg.base := by
      rw [offsets, offsets, List.append_nil, List.singleton_append]
    refine h (hended.trans hcend) c₂ ?_
    rw [hoffs]
    exact h₁.trans h₂ (offsets_ne_nil hhc hcend _)

/-- A callee outside the region: from the call to the first arrival at its return address -/
lemma wins_over {v entry : Visit σ} {away : List (Stop σ)} {off : ℕ}
    (hin : cfg.Inside v.s.pc) (hcall : CallsOut cfg v entry away off)
    (h : ∀ u rest', runTo (cfg.base + off) k = some (u, rest') →
      ∀ c', c'.opened = c.opened ++ [v.s.pc - cfg.base] → Wins cfg Q c' (some u) rest') :
    (land cfg c v.s (entry.stops ++ (away ++ k))).Wins cfg Q := by
  obtain ⟨hout, hoff, haway⟩ := hcall
  refine wins_inside hin fun c₁ h₁ => (starts_visit fun c₂ hsame => ?_).stepped
  have hlast : c₂.curOff = v.s.pc - cfg.base := hsame.curOff.trans (h₁.last _ rfl)
  refine wins_callout (hsame.entered.trans h₁.entered) hout (hlast ▸ hoff) ?_
  intro u rest' hrun c₃ hopened
  rcases runTo_away haway k with hnone | heq
  · rw [hnone] at hrun
    cases hrun
  · rw [heq] at hrun
    exact h u rest' hrun c₃ (hopened.trans (hsame.opened.trans h₁.opened))

/-- Every activation without a handler is followed. -/
theorem followed {a : Act σ} (hn : WellNested cfg a) (hh : a.NoHandler) : Followed cfg a := by
  induction a with
  | cut tail => exact fun _ _ _ v hv _ => by cases hv
  | handler away rest ih => exact hh.elim
  | ret v =>
    intro Q c k w hw h
    cases hw
    exact wins_inside hn.1 (h rfl)
  | exit v =>
    intro Q c k w hw h
    cases hw
    exact wins_inside hn (h rfl)
  | insn v rest ih =>
    intro Q c k w hw h
    cases hw
    refine wins_inside hn.1 fun c₁ h₁ => ?_
    refine ((ih hn.2 hh).stream hn.2 hh (fun _ => h₁.cur) fun hend c₂ h₂ => ?_).stepped
    exact h hend c₂ (h₁.trans h₂ (offsets_ne_nil (a := rest) hh hend _))
  | call v callee rest ihc ihr =>
    exact followed_call hn hh (ihc hn.2.1 hh.1) (ihr hn.2.2.1 hh.2)
  | skip v entry away rest ih =>
    intro Q c k w hw h
    cases hw
    obtain ⟨hin, hnr, off, hcall, u, hu, hpc, -⟩ := hn
    rw [more, List.append_assoc, List.append_assoc]
    refine wins_over hin hcall fun u' rest' hrun c₁ h₁ => ?_
    rw [stops_eq hu, List.append_assoc, runTo_visit hpc] at hrun
    cases hrun
    refine wins_here fun c₂ hsame => ih hnr hh Q c₂ k u hu fun hend c₃ h₃ => h hend c₃ ?_
    refine ⟨?_, h₃.cur, h₃.entered, fun o ho => h₃.last o ?_⟩
    · rw [h₃.opened, hsame.opened, h₁, List.append_assoc]
      rfl
    · rwa [offsets, List.getLast?_cons_of_ne_nil (offsets_ne_nil (a := rest) hh hend _)] at ho
  | lost v entry away =>
    intro Q c k w hw h
    cases hw
    obtain ⟨hin, off, hcall⟩ := hn
    change (land cfg c v.s ((entry.stops ++ away) ++ [])).Wins cfg Q
    rw [List.append_assoc]
    exact wins_over hin hcall fun u rest' hrun => by cases hrun

/-- The last instruction before a return is not a call. -/
lemma decode_getLast {a : Act σ} (hn : WellNested cfg a) (hh : a.NoHandler)
    (h : a.returned = true) :
    ∀ off ∈ (a.offsets cfg.base).getLast?, (cfg.decode off).1 = false := by
  have hne : ∀ {b : Act σ}, b.NoHandler → b.returned = true → b.offsets cfg.base ≠ [] :=
    fun hb hr => offsets_ne_nil hb (by rw [ended, hr, Bool.true_or]) _
  induction a with
  | cut tail => cases h
  | handler away rest ih => exact hh.elim
  | exit v => cases h
  | lost v entry away => cases h
  | ret v =>
    intro off hoff
    cases hoff
    exact hn.2
  | insn v rest ih =>
    rw [offsets, List.getLast?_cons_of_ne_nil (hne (b := rest) hh h)]
    exact ih hn.2 hh h
  | skip v entry away rest ih =>
    rw [offsets, List.getLast?_cons_of_ne_nil (hne (b := rest) hh h)]
    exact ih hn.2.1 hh h
  | call v callee rest ihc ihr =>
    obtain ⟨-, hr⟩ := Bool.and_eq_true_iff.1 h
    rw [offsets, ← List.cons_append, List.getLast?_append_of_ne_nil _ (hne hh.2 hr)]
    exact ihr hn.2.2.1 hh.2 hr

end Act

/-- Before the region is entered nothing is recorded. -/
lemma starts_prelude {prelude : List (Stop σ)}
    (hbefore : ∀ e ∈ prelude, e = .signal false ∨ ∃ s, e = .trap s ∧ ¬cfg.Inside s.pc)
    (hentered : c.entered = false) (h : ∀ c', Same c c' → Starts cfg Q c' k) :
    Starts cfg Q c (prelude ++ k) := by
  induction prelude generalizing c with
  | nil => exact h c (Same.refl c)
  | cons e prelude ih =>
    obtain ⟨he, hbefore⟩ := List.forall_mem_cons.1 hbefore
    have hnext : ∀ c', Same c c' → Wins cfg Q c' none (prelude ++ k) := fun c' hc =>
      (ih hbefore (hc.entered.trans hentered) fun c'' hc' => h c'' (hc.trans hc')).stepped
    rw [List.cons_append]
    rcases he with rfl | ⟨s, rfl, hout⟩
    · exact starts_signal hnext
    · refine starts_trap fun c' hc => ?_
      rw [land, if_neg hout, if_neg (by simp [hc.entered.trans hentered])]
      exact hnext c' hc

end Walk

section Complete

variable {cfg : Config σ}

/-- The capture tells the whole story of the run. -/
structure Complete (cfg : Config σ) (vt : ValTrace) (r : Run σ) (res : Result σ) : Prop where
  ended : r.body.ended = true
  result : res.result = some r.landing.s.rax
  steps : res.ctx.log.filterMap Entry.inside? = r.body.offsets cfg.base
  stored : res.ctx.vt.insnOff =
    vt.insnOff ++ res.ctx.log.map fun e => BitVec.ofNat 64 e.off

lemma starts_run {vt : ValTrace} {r : Run σ} (hr : r.Nested cfg) (hh : r.body.NoHandler) :
    Starts cfg (fun res => r.body.ended = true ∧ res.result = some r.landing.s.rax ∧
      res.ctx.log.filterMap Entry.inside? = r.body.offsets cfg.base) { vt } r.stops := by
  refine starts_prelude hr.before rfl fun c hc => ?_
  have hempty : c.opened = [] := hc.opened
  refine (Act.followed hr.body hh).stream hr.body hh
    (fun hentered => ?_) fun hend c' hafter => ?_
  · rw [hc.entered] at hentered
    cases hentered
  refine (starts_visit fun c'' hc'' => wins_leave (hc''.entered.trans hafter.entered) hr.outside
    ?_ fun c₃ hopened hcur => ⟨hend, rfl, ?_⟩).stepped
  · obtain ⟨off, hoff⟩ : ∃ off, (r.body.offsets cfg.base).getLast? = some off :=
      ⟨_, List.getLast?_eq_some_getLast (Act.offsets_ne_nil hh hend _)⟩
    rw [hc''.curOff, hafter.last off hoff]
    cases hret : r.body.returned with
    | true =>
      have hcall := Act.decode_getLast hr.body hh hret off hoff
      rw [isCallout]
      split_ifs <;> simp_all
    | false =>
      rw [Act.ended, hret, Bool.false_or] at hend
      exact hr.leaves hend off hoff
  · have hlog : c₃.opened = c₃.log.filterMap Entry.inside? := by
      rw [Ctx.opened, hcur]
      exact List.append_nil _
    change c₃.log.filterMap Entry.inside? = _
    rw [← hlog, hopened, hc''.opened, hafter.opened, hempty, List.nil_append]

lemma stepLoop_run {vt : ValTrace} {r : Run σ} (hr : r.Nested cfg) (hh : r.body.NoHandler) :
    Bad (dfpStepLoop cfg vt r.stops) ∨
      (r.body.ended = true ∧
        (dfpStepLoop cfg vt r.stops).result = some r.landing.s.rax ∧
        (dfpStepLoop cfg vt r.stops).ctx.log.filterMap Entry.inside? =
          r.body.offsets cfg.base) := by
  have hstarts := @starts_run σ cfg vt r hr hh
  unfold dfpStepLoop
  split
  · rename_i s rest _ heq
    exact hstarts.positioned s rest heq _ (Nat.lt_succ_self _)
  · exact hstarts.stepped _ (Nat.lt_succ_self _)

/-- An untruncated trace holds the log. -/
lemma dfpStepLoop_stored (vt : ValTrace) (stops : List (Stop σ))
    (h : (dfpStepLoop cfg vt stops).ctx.vt.truncated = false) :
    (dfpStepLoop cfg vt stops).ctx.vt.insnOff =
      vt.insnOff ++ (dfpStepLoop cfg vt stops).ctx.log.map fun e => BitVec.ofNat 64 e.off := by
  have hempty : ({ vt } : Ctx σ).vt.truncated = false →
      ({ vt } : Ctx σ).vt.insnOff =
        vt.insnOff ++ ({ vt } : Ctx σ).log.map fun e => BitVec.ofNat 64 e.off :=
    fun _ => (List.append_nil _).symm
  revert h
  unfold dfpStepLoop
  split
  · exact (kept_stored vt.insnOff).stepLoop _ _ _ hempty
  · exact (kept_stored vt.insnOff).stepLoop _ _ _ hempty

/-- A capture that is reported complete, of a run in which no handler runs -/
theorem dfpStepLoop_complete (cfg : Config σ) (vt : ValTrace) (r : Run σ) (hr : r.Nested cfg)
    (hh : r.body.NoHandler) (hrc : (dfpStepLoop cfg vt r.stops).rc = .ok)
    (htrunc : (dfpStepLoop cfg vt r.stops).ctx.vt.truncated = false) :
    Complete cfg vt r (dfpStepLoop cfg vt r.stops) := by
  rcases stepLoop_run hr hh with hbad | ⟨hend, hresult, hsteps⟩
  · rcases hbad with hne | htrue
    · exact absurd hrc hne
    · rw [htrue] at htrunc
      cases htrunc
  · exact ⟨hend, hresult, hsteps, dfpStepLoop_stored vt r.stops htrunc⟩

/-- A call of five bytes at the start of sixteen -/
def calloutConfig : Config Unit where
  base := 0x1000
  codeLen := 16
  snapLen := 16
  maxInsns := 0
  stepBackstop := 100
  prePositioned := true
  stop _ := false
  decode off := if off = 0 then (true, 5) else (false, 1)
  records _ _ _ := []
  openRecords _ _ := []
  glue _ _ _ := (false, [])

def visitAt (quiet pc sp rax : ℕ) (top : Option ℕ) : Visit Unit :=
  ⟨quiet, pc, sp, rax, top, ()⟩

/-- The callee runs two instructions, then a signal comes and the region returns. -/
def calloutRun : Run Unit where
  prelude := []
  body := .skip (visitAt 0 0x1000 100 0 none) (visitAt 0 0x9000 92 0 (some 0x1005))
    [.signal false, .trap (visitAt 0 0x9001 92 7 none).s] (.ret (visitAt 1 0x1005 100 7 none))
  landing := visitAt 0 0x2000 108 7 none
  after := []

theorem dfpStepLoop_calloutRun :
    Complete calloutConfig (valtraceNew 8 8) calloutRun
      (dfpStepLoop calloutConfig (valtraceNew 8 8) calloutRun.stops) :=
  dfpStepLoop_complete _ _ _
    ⟨List.forall_mem_nil _, ⟨by decide, ⟨by decide, by decide⟩, 5,
      ⟨by decide, by decide, by simp [visitAt, calloutConfig]⟩,
      visitAt 1 0x1005 100 7 none, rfl, rfl, rfl⟩, by decide, fun h => absurd h (by decide)⟩
    trivial (by decide) (by decide)

/-- A handler runs between two instructions of the region. -/
def handlerRun : Run Unit where
  prelude := []
  body := .insn (visitAt 0 0x1005 100 0 none)
    (.handler [(visitAt 0 0x9000 92 3 none).s] (.ret (visitAt 0 0x1006 100 7 none)))
  landing := visitAt 0 0x2000 108 7 none
  after := []

/-- The region ends in a jump to another function, which returns to the caller. -/
def tailRun : Run Unit where
  prelude := []
  body := .exit (visitAt 0 0x1005 100 3 none)
  landing := visitAt 0 0x9000 100 3 none
  after := [.trap (visitAt 0 0x2000 108 7 none).s]

/-- With a handler the steps and the result can be wrong, and after a tail jump the region has not
returned when the capture is reported complete. -/
theorem dfpStepLoop_incomplete :
    (handlerRun.Nested calloutConfig ∧ handlerRun.body.returned = true ∧
      (dfpStepLoop calloutConfig (valtraceNew 8 8) handlerRun.stops).rc = .ok ∧
      (dfpStepLoop calloutConfig (valtraceNew 8 8) handlerRun.stops).ctx.vt.truncated = false ∧
      (dfpStepLoop calloutConfig (valtraceNew 8 8) handlerRun.stops).ctx.log = [.step 5 []] ∧
      handlerRun.body.offsets 0x1000 = [5, 6] ∧
      (dfpStepLoop calloutConfig (valtraceNew 8 8) handlerRun.stops).result = some 3 ∧
      handlerRun.landing.s.rax = 7) ∧
    (tailRun.Nested calloutConfig ∧ tailRun.body.NoHandler ∧ tailRun.body.returned = false ∧
      (dfpStepLoop calloutConfig (valtraceNew 8 8) tailRun.stops).rc = .ok ∧
      (dfpStepLoop calloutConfig (valtraceNew 8 8) tailRun.stops).ctx.vt.truncated = false ∧
      (dfpStepLoop calloutConfig (valtraceNew 8 8) tailRun.stops).result = some 3) := by
  have hlast : (tailRun.body.offsets calloutConfig.base).getLast? = some 5 := by decide
  have hin : calloutConfig.Inside (visitAt 0 0x1005 100 3 none).s.pc := by decide
  refine ⟨⟨⟨List.forall_mem_nil _, ⟨by decide, by decide, by decide, by decide⟩, by decide,
    fun h => absurd h (by decide)⟩, by decide, by decide, by decide, by decide, by decide,
    by decide, rfl⟩, ⟨List.forall_mem_nil _, hin, by decide, ?_⟩, trivial, by decide, by decide,
    by decide, by decide⟩
  rw [hlast]
  decide

end Complete

end AsmTest.Dataflow.Scoped
