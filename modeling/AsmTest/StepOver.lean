import AsmTest.PtraceStep

/-!
# Running over a call-out

The region steppers run to the return address of a call-out and look at the stack pointer there;
the descent takes the first arrival. They resume in the caller's activation alike as long as the
callee does not come past the return address itself.
-/

namespace AsmTest.Descent

open Hwtrace (Code Ev Step ExitKind IsCallOut classifyRegionExit runUntilSp)

section Callee

/-- The program counter and the stack pointer after an instruction of the callee -/
def evAt : Ev → Option (ℕ × ℕ)
  | .retire s sp => some (s.next, sp)
  | _ => none

def stopAt : Stop → Option (ℕ × ℕ)
  | .trap s => some (s.pc, s.sp)
  | _ => none

lemma filterMap_evAt_retire (s : Step) (sp : ℕ) (evs : List Ev) :
    (Ev.retire s sp :: evs).filterMap evAt = (s.next, sp) :: evs.filterMap evAt := rfl

lemma filterMap_stopAt_trap (s : State) (stops : List Stop) :
    (Stop.trap s :: stops).filterMap stopAt = (s.pc, s.sp) :: stops.filterMap stopAt := rfl

/-- A callee that both steppers run over: it stays below the caller's stack pointer until it
returns. Signals may arrive in between. -/
structure NativeCall (callSp : ℕ) (native : List (ℕ × ℕ)) (evs : List Ev) (stops : List Stop) :
    Prop where
  nested : ∀ p ∈ native, p.2 < callSp
  evs : evs.filterMap evAt = native
  stops : stops.filterMap stopAt = native

variable {target sp : ℕ}

/-- A breakpoint hit at another depth is passed. -/
lemma runUntilSp_arrives {evs : List Ev} (h : ∀ p ∈ evs.filterMap evAt, p ≠ (target, sp))
    {back : Step} (hback : back.next = target) (rest : List Ev) :
    runUntilSp target sp (evs ++ .retire back sp :: rest) = some rest := by
  induction evs with
  | nil => rw [List.nil_append, runUntilSp, if_pos ⟨hback, rfl⟩]
  | cons e evs ih =>
    rw [List.cons_append]
    cases e with
    | retire s sp' =>
      rw [filterMap_evAt_retire, List.forall_mem_cons] at h
      have hne : ¬(s.next = target ∧ sp' = sp) := fun heq => h.1 (Prod.ext heq.1 heq.2)
      rw [runUntilSp, if_neg hne]
      exact ih h.2
    | signal => exact ih h
    | fault => exact ih h
    | appTrap pc => exact ih h

/-- The first arrival is the return when the callee does not come past the address. -/
lemma runUntil_return {stops : List Stop} (h : ∀ p ∈ stops.filterMap stopAt, p.1 ≠ target)
    {back : State} (hback : back.pc = target) (rest : List Stop) :
    runUntil target (stops ++ .trap back :: rest) = some (back, rest) := by
  induction stops with
  | nil => rw [List.nil_append, runUntil, if_pos hback]
  | cons e stops ih =>
    rw [List.cons_append]
    cases e with
    | trap s =>
      rw [filterMap_stopAt_trap, List.forall_mem_cons] at h
      rw [runUntil, if_neg h.1]
      exact ih h.2
    | signal fault => exact ih h
    | appTrap => exact ih h

/-- When it does, the run ends there, with what is left of the callee still to come. -/
lemma runUntil_early {stops : List Stop} (h : ∃ p ∈ stops.filterMap stopAt, p.1 = target)
    (rest : List Stop) : ∃ s left, runUntil target (stops ++ rest) = some (s, left ++ rest) := by
  induction stops with
  | nil =>
    obtain ⟨p, hp, -⟩ := h
    cases hp
  | cons e stops ih =>
    rw [List.cons_append]
    cases e with
    | trap s =>
      rw [runUntil]
      by_cases hs : s.pc = target
      · exact ⟨s, stops, if_pos hs⟩
      · rw [if_neg hs]
        rw [filterMap_stopAt_trap] at h
        obtain ⟨p, hp, heq⟩ := h
        rcases List.mem_cons.1 hp with rfl | hp
        · exact absurd heq hs
        · exact ih ⟨p, hp, heq⟩
    | signal fault => exact ih h
    | appTrap => exact ih h

end Callee

section Resume

variable {cfg : Config} {m : Mach} {entry : State}

/-- The callee at `entry` is not descended into: the policy says so, a cap is reached, or there is
no room for a frame. -/
def Skips (cfg : Config) (m : Mach) (entry : State) : Prop :=
  ∀ e, (descendDecide cfg m.steps m.top.depth entry.pc).1 = some e →
    m.steps < cfg.insnBudget → 0 < e.len → m.below.length + 1 < descendMaxStack →
      cfg.framesMax ≤ m.handle.frames.length

/-- What is recorded before the callee runs is the edge. -/
lemma callOut_skips (h : Skips cfg m entry) :
    ∃ d, ∀ stops, callOut cfg m entry stops =
      match runUntil m.fallthru stops with
      | none => Mach.abandon { m with handle := d }
      | some (r, rest) =>
        .cont (descendRecord cfg { m with handle := d } m.fallthru r.sp) rest := by
  have hover : ∀ d : Handle, ∃ d', ∀ stops, stepOver cfg { m with handle := d } entry stops =
      match runUntil m.fallthru stops with
      | none => Mach.abandon { m with handle := d' }
      | some (r, rest) =>
        .cont (descendRecord cfg { m with handle := d' } m.fallthru r.sp) rest := by
    intro d
    unfold stepOver
    by_cases hlevel : cfg.level = .off
    · exact ⟨d, fun stops => by rw [if_pos hlevel]; rfl⟩
    · exact ⟨_, fun stops => by rw [if_neg hlevel]; rfl⟩
  -- the depth cap may be marked on the way
  have hcap : ∃ d, (if (descendDecide cfg m.steps m.top.depth entry.pc).2 ||
        (!decide (m.steps < cfg.insnBudget) &&
          (descendDecide cfg m.steps m.top.depth entry.pc).1.isSome) then
      { m with handle := markDepthCapped m.handle } else m) = { m with handle := d } ∧
      d.frames.length = m.handle.frames.length := by
    split_ifs
    · exact ⟨_, rfl, rfl⟩
    · exact ⟨m.handle, rfl, rfl⟩
  obtain ⟨d, hd, hframes⟩ := hcap
  unfold callOut
  dsimp only
  rw [hd]
  cases hdec : (descendDecide cfg m.steps m.top.depth entry.pc).1 with
  | none => exact hover d
  | some e =>
    dsimp only
    by_cases hroom : decide (m.steps < cfg.insnBudget) = true ∧ 0 < e.len ∧
        m.below.length + 1 < descendMaxStack
    · have hfull := h e hdec (of_decide_eq_true hroom.1) hroom.2.1 hroom.2.2
      have hpush : pushFrame cfg d e (m.top.depth + 1) (some m.top.idx) =
          (none, markTruncated d) := by
        rw [pushFrame, if_neg (by omega)]
      obtain ⟨d', hd'⟩ := hover (markTruncated (markTruncated d))
      refine ⟨d', fun stops => ?_⟩
      rw [if_pos hroom, hpush]
      exact hd' stops
    · obtain ⟨d', hd'⟩ := hover d
      refine ⟨d', fun stops => ?_⟩
      rw [if_neg hroom]
      exact hd' stops

/-- Both ways of running over a call-out resume in the activation that made the call just when the
callee never comes past the call's return address before it returns. -/
theorem step_over_resumes_iff (c : Code) (base lastOff entrySp : ℕ) (hcall : IsCallOut c lastOff)
    (cfg : Config) (m : Mach) (entry : State)
    (hfall : m.fallthru = base + (lastOff + (c.disasProbe lastOff).len))
    (hsp : m.top.callSp = entrySp + 8) (hskip : Skips cfg m entry) (native : List (ℕ × ℕ))
    (evs : List Ev) (stops : List Stop) (h : NativeCall m.top.callSp native evs stops)
    (back : Step) (hback : back.next = m.fallthru) (u : State) (hpc : u.pc = m.fallthru)
    (husp : u.sp = m.top.callSp) (evs' : List Ev) (stops' : List Stop) :
    (classifyRegionExit c base lastOff entrySp (evs ++ .retire back m.top.callSp :: evs') =
        .resumed (lastOff + (c.disasProbe lastOff).len) evs' ∧
      ∃ d, callOut cfg m entry (stops ++ .trap u :: stops') =
        .cont (descendRecord cfg { m with handle := d } m.fallthru m.top.callSp) stops') ↔
    ∀ p ∈ native, p.1 ≠ m.fallthru := by
  obtain ⟨d, hd⟩ := callOut_skips hskip
  have hclassify : classifyRegionExit c base lastOff entrySp
      (evs ++ .retire back m.top.callSp :: evs') =
        .resumed (lastOff + (c.disasProbe lastOff).len) evs' := by
    have hne : ∀ p ∈ evs.filterMap evAt, p ≠ (m.fallthru, m.top.callSp) := by
      rw [h.evs]
      rintro p hp rfl
      exact lt_irrefl _ (h.nested _ hp)
    rw [classifyRegionExit, if_pos hcall]
    dsimp only
    rw [← hfall, ← hsp, runUntilSp_arrives hne hback]
  rw [and_iff_right hclassify]
  constructor
  · rintro ⟨d', hd'⟩ p hp heq
    rw [← h.stops] at hp
    obtain ⟨s, left, hleft⟩ := runUntil_early ⟨p, hp, heq⟩ (.trap u :: stops')
    rw [hd, hleft] at hd'
    have hrest := congrArg List.length (Outcome.cont.inj hd').2
    rw [List.length_append, List.length_cons] at hrest
    omega
  · intro hne
    refine ⟨d, ?_⟩
    rw [hd, runUntil_return (by rw [h.stops]; exact hne) hpc, ← husp]

/-- A call to a helper at 700 and a return, at 100 -/
def callerCode : Code := Hwtrace.unitCode 1 [.call 700, .ret]

def edgesConfig : Config where
  level := .recordEdges
  maxDepth := 8
  insnBudget := 4096
  allow := []
  deny := []
  resolver := none
  denylist := none
  maps := fun _ => []
  probe := fun pc _ => if pc = 100 then ⟨1, true, false⟩ else ⟨1, false, true⟩
  root := ⟨100, 2⟩
  forwardFaults := false
  framesMax := 16

/-- The call at 100 has been recorded with the stack pointer at 1000. -/
def pendingCall : Mach where
  top := { DFrame.open ⟨0, 100, 2, 0, 0, 0⟩ with lastWasCall := true, callLen := 1, callSp := 1000 }
  below := []
  handle := ⟨[⟨100, 2, 0, none, [0], [0], ⟨true, 1⟩⟩], [], false, false⟩
  flat := none
  steps := 1
  entered := true

/-- The helper does nothing but return. -/
theorem step_over_resumes_leaf :
    (classifyRegionExit callerCode 100 0 992
        ([.retire ⟨700, 701, false⟩ 992] ++ [.retire ⟨701, 101, true⟩ 1000]) = .resumed 1 [] ∧
      ∃ d, callOut edgesConfig pendingCall ⟨700, 992, 0⟩
          ([.trap ⟨701, 992, 0⟩] ++ [.trap ⟨101, 1000, 0⟩]) =
        .cont (descendRecord edgesConfig { pendingCall with handle := d } 101 1000) []) ↔
    ∀ p ∈ [(701, 992)], p.1 ≠ 101 :=
  step_over_resumes_iff callerCode 100 0 992 (by decide) edgesConfig pendingCall ⟨700, 992, 0⟩ rfl
    rfl (fun e he => by cases he) [(701, 992)] _ _ ⟨by decide, rfl, rfl⟩ ⟨701, 101, true⟩ rfl
    ⟨101, 1000, 0⟩ rfl rfl [] []

/-- The helper calls the routine again, whose own call comes back to 101 first. -/
theorem descent_resumes_in_callback :
    (∀ p ∈ [(100, 984), (700, 976), (101, 984), (701, 992)], p.2 < pendingCall.top.callSp) ∧
    ¬ ∃ d, callOut edgesConfig pendingCall ⟨700, 992, 0⟩
          ([.trap ⟨100, 984, 0⟩, .trap ⟨700, 976, 0⟩, .trap ⟨101, 984, 0⟩, .trap ⟨701, 992, 0⟩] ++
            [.trap ⟨101, 1000, 0⟩]) =
        .cont (descendRecord edgesConfig { pendingCall with handle := d } 101 1000) [] := by
  refine ⟨by decide, ?_⟩
  rintro ⟨d, hd⟩
  have hrest := (Outcome.cont.inj hd).2
  exact absurd hrest (by decide)

end Resume

end AsmTest.Descent
