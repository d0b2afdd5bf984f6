import AsmTest.GapEdges
import AsmTest.GapRuns
import AsmTest.ScopedComplete

/-!
# The courses of the loops

What the windowed and the scoped loop have captured when nothing was truncated is the capture of a
course, and the stops say which: each step goes from the stop it was opened at to the next one, and
each excursion from the stop it began at to the one where the loop records again.
-/

namespace AsmTest.Dataflow.Gap

open Scoped (Stop State Entry Config Ctx Result Outcome)

section Along

variable {win : Bool} {stepsCap recsCap n k : ℕ} {events : List Event} {c : Cap} {m m' : Machine}

/-- The capture is that of these events, at most `n`, which have brought the tracee to `m`. -/
def Along (win : Bool) (stepsCap recsCap n : ℕ) (events : List Event) (c : Cap) (m : Machine) :
    Prop :=
  ∃ first, Runs first events m ∧ (∀ ev ∈ events, ev.Reported) ∧ events.length ≤ n ∧
    c = capOf win stepsCap recsCap events

lemma Along.start (m : Machine) :
    Along win stepsCap recsCap n [] { vt := valtraceNew stepsCap recsCap } m :=
  ⟨m, rfl, fun _ hev => absurd hev List.not_mem_nil, Nat.zero_le n, rfl⟩

lemma Along.mono (h : Along win stepsCap recsCap n events c m) (hle : n ≤ k) :
    Along win stepsCap recsCap k events c m := by
  obtain ⟨first, hrun, hrep, hlen, hc⟩ := h
  exact ⟨first, hrun, hrep, hlen.trans hle, hc⟩

lemma Along.event (h : Along win stepsCap recsCap n events c m) (ev : Event) (hpre : ev.pre = m)
    (hrep : ev.Reported) :
    Along win stepsCap recsCap (n + 1) (events ++ [ev]) (c.act win ev.act) ev.post := by
  obtain ⟨first, hrun, hall, hlen, rfl⟩ := h
  refine ⟨first, runs_append.mpr ⟨m, hrun, hpre, rfl⟩, ?_, ?_, ?_⟩
  · intro ev' hev'
    rcases List.mem_append.mp hev' with hev' | hev'
    · exact hall ev' hev'
    · rw [List.mem_singleton.mp hev']
      exact hrep
  · rw [List.length_append, List.length_singleton]
    omega
  · rw [capOf_concat]

/-- A capture of few enough events is that of a course. -/
lemma Along.exists_course (h : Along win stepsCap recsCap n events c m) (hn : n < 2 ^ 31) :
    ∃ course : Course, course.win = win ∧ course.events = events ∧ course.cap = c := by
  obtain ⟨first, hrun, hrep, hlen, rfl⟩ := h
  exact ⟨⟨win, stepsCap, recsCap, events, first, m, hrun, hrep, by omega⟩, rfl, rfl, rfl⟩

end Along

section Window

/-- Between two stops of which the first is recorded, what changes is what its operands name. -/
def WinReported (cfg : WinConfig) : ℕ → State Machine → List (Stop Machine) → Prop
  | _, _, [] => True
  | k, s, .signal _ :: rest => WinReported cfg k s rest
  | _, _, .appTrap _ :: _ => True
  | _, _, .fail :: _ => True
  | k, s, .trap s' :: rest =>
    (cfg.inRegionSet k s.pc → Reported (cfg.records s.pc s s') s.world s'.world) ∧
      WinReported cfg (k + 1) s' rest

/-- The step from a recorded stop to the next one -/
def WinConfig.step (cfg : WinConfig) (pre post : State Machine) : Event :=
  .step (BitVec.ofNat 64 pre.pc) (cfg.records pre.pc pre post) pre.world post.world

/-- The excursion from its first stop to stop `k`, where the loop records again -/
def WinConfig.gap (cfg : WinConfig) (k : ℕ) (pre post : State Machine) : Event :=
  .gap (BitVec.ofNat 64 pre.pc) pre.world post.world (cfg.stash k)

/-- Where the tracee is between two stops: in a step from a recorded stop, or on an excursion since
its first stop -/
inductive Place where
  | start
  | recorded (s : State Machine)
  | away (s : State Machine)

namespace Place

variable (cfg : WinConfig) (s : State Machine)

/-- What ends at stop `k` when it is recorded -/
def arrive (k : ℕ) : Place → List Event
  | .start => []
  | .recorded pre => [cfg.step pre s]
  | .away pre => [cfg.gap k pre s]

/-- What ends at a stop that is not: an excursion goes on. -/
def leave : Place → List Event
  | .start => []
  | .recorded pre => [cfg.step pre s]
  | .away _ => []

def outside : Place → Place
  | .start => .away s
  | .recorded _ => .away s
  | .away pre => .away pre

/-- The world since which nothing is captured; before the first stop there is none. -/
def world (m : Machine) : Place → Machine
  | .start => m
  | .recorded pre => pre.world
  | .away pre => pre.world

/-- The open step names what it changes. -/
def Reported : Place → Prop
  | .recorded pre => Gap.Reported (cfg.records pre.pc pre s) pre.world s.world
  | _ => True

def Open (c : WinCtx) : Place → Prop
  | .start => c.cur = none ∧ c.gapPre = none
  | .recorded pre => c.cur = some pre ∧ c.gapPre = none
  | .away pre => c.cur = none ∧ c.gapPre = some pre

end Place

/-- The events of the stops from number `k` on: a step from each recorded stop to the next stop, and
one excursion from the first stop away to the stop where the loop records again; one that is still
open at the end is not captured. -/
def windowEvents (cfg : WinConfig) : ℕ → Place → List (Stop Machine) → List Event
  | _, _, [] => []
  | k, p, .signal _ :: rest => windowEvents cfg k p rest
  | _, _, .appTrap _ :: _ => []
  | _, _, .fail :: _ => []
  | k, p, .trap s :: rest =>
    if s.pc = cfg.winRet then p.leave cfg s
    else if cfg.inRegionSet k s.pc then
      p.arrive cfg s k ++ windowEvents cfg (k + 1) (.recorded s) rest
    else p.leave cfg s ++ windowEvents cfg (k + 1) (p.outside s) rest

variable {cfg : WinConfig} {stepsCap recsCap n : ℕ} {all events : List Event} {c : WinCtx}
  {s s' : State Machine} {p : Place} {rest : List (Stop Machine)}

/-- Where the windowed loop is after stop `s`, unless the capture is truncated: what is captured,
and what the stops to come will give, are the events in all. -/
def WinAt (cfg : WinConfig) (stepsCap recsCap : ℕ) (all : List Event) (c : WinCtx)
    (s : State Machine) (rest : List (Stop Machine)) : Prop :=
  c.cap.vt.truncated = false →
    ∃ p events, p.Open c ∧ (p = .recorded s ∧ cfg.inRegionSet c.stops s.pc ∨ ∃ pre, p = .away pre) ∧
      all = events ++ windowEvents cfg (c.stops + 1) p rest ∧
      Along true stepsCap recsCap c.stops events c.cap (p.world s.world)

/-- Where it is when it comes to stop `s'` -/
def WinBefore (cfg : WinConfig) (stepsCap recsCap : ℕ) (all : List Event) (c : WinCtx)
    (s' : State Machine) (rest : List (Stop Machine)) : Prop :=
  c.cap.vt.truncated = false →
    ∃ p events n, p.Open c ∧ p.Reported cfg s' ∧ n + (p.arrive cfg s' c.stops).length ≤ c.stops ∧
      all = events ++ windowEvents cfg c.stops p (.trap s' :: rest) ∧
      Along true stepsCap recsCap n events c.cap (p.world s'.world)

/-- The end of the loop -/
def WinEnd (stepsCap recsCap : ℕ) (all : List Event) (c : WinCtx) : Prop :=
  c.cap.vt.truncated = false →
    ∃ m, Along true stepsCap recsCap (dfpStepBackstop + 1) all c.cap m

lemma truncated_finalizeStep (h : (c.finalizeStep cfg s).cap.vt.truncated = false) :
    c.cap.vt.truncated = false := by
  unfold WinCtx.finalizeStep at h
  split at h
  · exact h
  · exact (Bool.or_eq_false_iff.mp (truncated_valtraceAppend h)).1

lemma truncated_closeGap (h : (c.closeGap cfg s).cap.vt.truncated = false) :
    c.cap.vt.truncated = false := by
  unfold WinCtx.closeGap at h
  split at h
  · exact h
  · exact (Bool.or_eq_false_iff.mp (Bool.or_eq_false_iff.mp (truncated_foldl_append _ h)).1).1

lemma finalizeStep_gapPre : (c.finalizeStep cfg s).cur = none ∧
    (c.finalizeStep cfg s).gapPre = c.gapPre ∧ (c.finalizeStep cfg s).stops = c.stops := by
  unfold WinCtx.finalizeStep
  split
  · rename_i hcur
    exact ⟨hcur, rfl, rfl⟩
  · exact ⟨rfl, rfl, rfl⟩

lemma closeGap_gapPre : (c.closeGap cfg s).gapPre = none ∧
    (c.closeGap cfg s).cur = c.cur ∧ (c.closeGap cfg s).stops = c.stops := by
  unfold WinCtx.closeGap
  split
  · rename_i hgap
    exact ⟨hgap, rfl, rfl⟩
  · exact ⟨rfl, rfl, rfl⟩

lemma finalizeStep_of_cur (hcur : c.cur = some s) :
    (c.finalizeStep cfg s').cap = c.cap.act true (cfg.step s s').act := by
  unfold WinCtx.finalizeStep
  rw [hcur]
  rfl

lemma finalizeStep_of_none (hcur : c.cur = none) : c.finalizeStep cfg s' = c := by
  unfold WinCtx.finalizeStep
  rw [hcur]

lemma closeGap_of_gapPre (hgap : c.gapPre = some s) :
    (c.closeGap cfg s').cap = c.cap.act true (cfg.gap c.stops s s').act := by
  unfold WinCtx.closeGap
  rw [hgap]
  rfl

lemma closeGap_of_none (hgap : c.gapPre = none) : c.closeGap cfg s' = c := by
  unfold WinCtx.closeGap
  rw [hgap]

lemma Along.leave (h : Along true stepsCap recsCap n events c.cap (p.world s'.world))
    (hopen : p.Open c) (hrep : p.Reported cfg s') :
    Along true stepsCap recsCap (n + (p.leave cfg s').length) (events ++ p.leave cfg s')
      (c.finalizeStep cfg s').cap ((p.outside s').world s'.world) := by
  cases p with
  | start =>
    rw [finalizeStep_of_none hopen.1, Place.leave, List.append_nil]
    exact h
  | recorded pre =>
    rw [finalizeStep_of_cur hopen.1]
    exact h.event (cfg.step pre s') rfl hrep
  | away pre =>
    rw [finalizeStep_of_none hopen.1, Place.leave, List.append_nil]
    exact h

lemma Along.arrive (h : Along true stepsCap recsCap n events c.cap (p.world s'.world))
    (hopen : p.Open c) (hrep : p.Reported cfg s') :
    Along true stepsCap recsCap (n + (p.arrive cfg s' c.stops).length)
      (events ++ p.arrive cfg s' c.stops) ((c.closeGap cfg s').finalizeStep cfg s').cap
      s'.world := by
  cases p with
  | start =>
    rw [closeGap_of_none hopen.2, finalizeStep_of_none hopen.1, Place.arrive, List.append_nil]
    exact h
  | recorded pre =>
    rw [closeGap_of_none hopen.2, finalizeStep_of_cur hopen.1]
    exact h.event (cfg.step pre s') rfl hrep
  | away pre =>
    rw [finalizeStep_of_none (closeGap_gapPre.2.1.trans hopen.1), closeGap_of_gapPre hopen.2]
    exact h.event (cfg.gap c.stops pre s') rfl trivial

lemma length_leave_le (k : ℕ) : (p.leave cfg s').length ≤ (p.arrive cfg s' k).length := by
  cases p with
  | start => exact le_rfl
  | recorded pre => exact le_rfl
  | away pre => exact Nat.zero_le _

lemma Place.Open.outside (h : p.Open c) :
    (p.outside s').Open { c.finalizeStep cfg s' with
      gapPre := if c.gapPre = none then some s' else c.gapPre } := by
  cases p with
  | start => exact ⟨finalizeStep_gapPre.1, if_pos h.2⟩
  | recorded pre => exact ⟨finalizeStep_gapPre.1, if_pos h.2⟩
  | away pre =>
    refine ⟨finalizeStep_gapPre.1, ?_⟩
    dsimp only
    rw [h.2, if_neg (Option.some_ne_none pre)]

/-- A stop: the loop ends with the capture of the events in all, or stands at the stop. -/
lemma WinBefore.stop (h : WinBefore cfg stepsCap recsCap all c s' rest)
    (hstops : c.stops ≤ dfpStepBackstop) :
    ((winStop cfg s' c).2 = true → WinEnd stepsCap recsCap all (winStop cfg s' c).1) ∧
      ((winStop cfg s' c).2 = false → (winStop cfg s' c).1.stops = c.stops ∧
        WinAt cfg stepsCap recsCap all (winStop cfg s' c).1 s' rest) := by
  obtain ⟨hfinCur, hfinGap, hfinStops⟩ := @finalizeStep_gapPre cfg c s'
  have hclose : (c.closeGap cfg s').stops = c.stops := closeGap_gapPre.2.2
  have hboth : ((c.closeGap cfg s').finalizeStep cfg s').stops = c.stops :=
    finalizeStep_gapPre.2.2.trans hclose
  -- outside the region set an excursion begins, unless one is open
  have haway : ¬s'.pc = cfg.winRet → ¬cfg.inRegionSet c.stops s'.pc = true → ∀ c' : WinCtx,
      c' = { c.finalizeStep cfg s' with
        gapPre := if c.gapPre = none then some s' else c.gapPre } →
      c'.stops = c.stops ∧ WinAt cfg stepsCap recsCap all c' s' rest := by
    rintro hret hin c' rfl
    refine ⟨hfinStops, fun ht => ?_⟩
    obtain ⟨p, events, n, hopen, hrep, hlen, hall, halong⟩ := h (truncated_finalizeStep ht)
    rw [windowEvents, if_neg hret, if_neg hin, ← List.append_assoc] at hall
    have hle := @length_leave_le cfg s' p c.stops
    refine ⟨p.outside s', events ++ p.leave cfg s', hopen.outside, .inr ?_, ?_, ?_⟩
    · cases p with
      | start => exact ⟨s', rfl⟩
      | recorded pre => exact ⟨s', rfl⟩
      | away pre => exact ⟨pre, rfl⟩
    · dsimp only
      rw [hfinStops]
      exact hall
    · refine (halong.leave hopen hrep).mono ?_
      dsimp only
      omega
  unfold winStop
  dsimp only
  split_ifs with hret hin hmax hopen
  · refine ⟨fun _ ht => ?_, fun hfalse => hfalse.elim⟩
    obtain ⟨p, events, n, hopen, hrep, hlen, rfl, halong⟩ := h (truncated_finalizeStep ht)
    have hle := @length_leave_le cfg s' p c.stops
    rw [windowEvents, if_pos hret]
    exact ⟨_, (halong.leave hopen hrep).mono (by omega)⟩
  · exact ⟨fun _ ht => Bool.noConfusion ht, fun hfalse => hfalse.elim⟩
  · refine ⟨fun htrue => htrue.elim, fun _ => ⟨hboth, fun ht => ?_⟩⟩
    obtain ⟨p, events, n, hopen, hrep, hlen, hall, halong⟩ :=
      h (truncated_closeGap (truncated_finalizeStep ht))
    rw [windowEvents, if_neg hret, if_pos hin, ← List.append_assoc] at hall
    refine ⟨.recorded s', events ++ p.arrive cfg s' c.stops,
      ⟨rfl, finalizeStep_gapPre.2.1.trans closeGap_gapPre.1⟩, .inl ⟨rfl, ?_⟩, ?_, ?_⟩
    · dsimp only
      rw [hboth]
      exact hin
    · dsimp only
      rw [hboth]
      exact hall
    · refine (halong.arrive hopen hrep).mono ?_
      dsimp only
      omega
  · refine ⟨fun htrue => htrue.elim, fun _ => haway hret hin _ ?_⟩
    rw [hfinGap] at hopen
    rw [if_pos hopen]
  · refine ⟨fun htrue => htrue.elim, fun _ => haway hret hin _ ?_⟩
    rw [hfinGap] at hopen
    rw [if_neg hopen, ← hfinGap]

lemma WinAt.before (h : WinAt cfg stepsCap recsCap all c s (.trap s' :: rest))
    (hrep : cfg.inRegionSet c.stops s.pc → Reported (cfg.records s.pc s s') s.world s'.world) :
    WinBefore cfg stepsCap recsCap all { c with stops := c.stops + 1 } s' rest := by
  intro ht
  obtain ⟨p, events, hopen, hp, hall, halong⟩ := h ht
  obtain ⟨rfl, hin⟩ | ⟨pre, rfl⟩ := hp
  · exact ⟨.recorded s, events, c.stops, hopen, hrep hin, le_rfl, hall, halong⟩
  · exact ⟨.away pre, events, c.stops, hopen, trivial, le_rfl, hall, halong⟩

lemma winEnd_truncate : WinEnd stepsCap recsCap all c.truncate :=
  fun ht => Bool.noConfusion ht

lemma WinAt.loop (stops : List (Stop Machine)) (h : WinAt cfg stepsCap recsCap all c s stops)
    (hrep : WinReported cfg c.stops s stops) (hstops : c.stops ≤ dfpStepBackstop) :
    WinEnd stepsCap recsCap all (windowLoop cfg c stops) := by
  -- after each stop the loop stands at it, and the stops behind it give the other events
  induction stops generalizing c s with
  | nil => exact winEnd_truncate
  | cons stop rest ih =>
    cases stop with
    | signal fault =>
      rw [windowLoop]
      split_ifs
      · exact winEnd_truncate
      · exact ih h hrep hstops
    | appTrap s' => exact winEnd_truncate
    | fail =>
      intro ht
      obtain ⟨p, events, -, -, hall, halong⟩ := h ht
      rw [windowEvents, List.append_nil] at hall
      rw [hall]
      exact ⟨_, halong.mono (by omega)⟩
    | trap s' =>
      obtain ⟨hnext, hrest⟩ := hrep
      rw [windowLoop]
      dsimp only
      split_ifs with hover
      · exact winEnd_truncate
      · obtain ⟨hdone, hgo⟩ := (h.before hnext).stop (not_lt.mp hover)
        generalize winStop cfg s' { c with stops := c.stops + 1 } = out at hdone hgo
        obtain ⟨c', fin⟩ := out
        cases fin with
        | true => exact hdone rfl
        | false =>
          obtain ⟨hlen, hat⟩ := hgo rfl
          change c'.stops = c.stops + 1 at hlen
          exact ih hat (by rw [hlen]; exact hrest) (by rw [hlen]; exact not_lt.mp hover)

/-- A windowed capture that is not truncated is that of a course whose events are those of the
stops: a step from each recorded stop to the next one, and one excursion from the first stop away
to the stop where the loop records again. -/
theorem exists_course_of_window (cfg : WinConfig) (stepsCap recsCap : ℕ) (entry : State Machine)
    (stops : List (Stop Machine)) (hrep : WinReported cfg 0 entry stops)
    (ht : (dfpWindowLoop cfg (valtraceNew stepsCap recsCap) entry stops).cap.vt.truncated =
      false) :
    ∃ course : Course, course.win = true ∧
      course.events = windowEvents cfg 0 .start (.trap entry :: stops) ∧
      course.cap = (dfpWindowLoop cfg (valtraceNew stepsCap recsCap) entry stops).cap := by
  have hend : WinEnd stepsCap recsCap (windowEvents cfg 0 .start (.trap entry :: stops))
      (dfpWindowLoop cfg (valtraceNew stepsCap recsCap) entry stops) := by
    have hfirst : WinBefore cfg stepsCap recsCap (windowEvents cfg 0 .start (.trap entry :: stops))
        { cap := { vt := valtraceNew stepsCap recsCap } } entry stops := fun _ =>
      ⟨.start, [], 0, ⟨rfl, rfl⟩, trivial, le_rfl, rfl, Along.start _⟩
    obtain ⟨hdone, hgo⟩ := hfirst.stop (Nat.zero_le _)
    unfold dfpWindowLoop
    generalize winStop cfg entry { cap := { vt := valtraceNew stepsCap recsCap } } = out
      at hdone hgo
    obtain ⟨c, fin⟩ := out
    cases fin with
    | true => exact hdone rfl
    | false =>
      obtain ⟨hlen, hat⟩ := hgo rfl
      change c.stops = 0 at hlen
      exact hat.loop stops (by rw [hlen]; exact hrep) (by rw [hlen]; exact Nat.zero_le _)
  obtain ⟨m, halong⟩ := hend ht
  exact halong.exists_course (by decide)

/-- A machine on which nothing happens -/
def still : Machine := ⟨fun _ => 0, fun _ _ => 0, fun _ => some 0, true, true⟩

def stillAt (pc : ℕ) : State Machine := ⟨pc, 0, 0, none, still⟩

lemma reported_still (recs : List ValRec) : Reported recs still still :=
  fun _ h => absurd rfl h

/-- A step out of the set, an excursion of two stops and a step to the end of the window -/
theorem exists_course_of_window_excursion :
    let cfg : WinConfig := ⟨99, fun _ pc => decide (pc < 20), 0, fun _ _ _ => [], fun _ _ => [],
      fun _ _ => none⟩
    let stops := [50, 51, 11, 99].map fun pc => Stop.trap (stillAt pc)
    (dfpWindowLoop cfg (valtraceNew 4 4) (stillAt 10) stops).cap.vt.stepsTotal = 2 ∧
      ∃ course : Course, course.win = true ∧
        course.events = [cfg.step (stillAt 10) (stillAt 50), cfg.gap 3 (stillAt 50) (stillAt 11),
          cfg.step (stillAt 11) (stillAt 99)] ∧
        course.cap = (dfpWindowLoop cfg (valtraceNew 4 4) (stillAt 10) stops).cap := by
  intro cfg stops
  refine ⟨rfl, exists_course_of_window cfg 4 4 (stillAt 10) stops ?_ rfl⟩
  simp [WinReported, stillAt, reported_still, stops]

end Window

section Scope

/-- Between two stops of which the first is in the region, what changes is what its operands name;
before the first stop there is nothing yet. -/
def ScopedReported (cfg : Config Machine) : Option (State Machine) → List (Stop Machine) → Prop
  | _, [] => True
  | s, .signal _ :: rest => ScopedReported cfg s rest
  | _, .appTrap _ :: _ => True
  | _, .fail :: _ => True
  | s, .trap s' :: rest =>
    (∀ pre ∈ s, cfg.Inside pre.pc →
      Reported (cfg.records (pre.pc - cfg.base) pre s') pre.world s'.world) ∧
      ScopedReported cfg (some s') rest

/-- An event, but for what the barrier took for stashed -/
inductive Hop where
  | step (off : BitVec 64) (recs : List ValRec) (pre post : Machine)
  | gap (pc : BitVec 64) (pre post : Machine)

def Event.hop : Event → Hop
  | .step off recs pre post => .step off recs pre post
  | .gap pc pre post _ => .gap pc pre post

/-- The step from a stop in the region to the next one -/
def stepHop (cfg : Config Machine) (pre post : State Machine) : Hop :=
  .step (BitVec.ofNat 64 (pre.pc - cfg.base)) (cfg.records (pre.pc - cfg.base) pre post) pre.world
    post.world

/-- A callee, from its first stop to the stop at its return address -/
def gapHop (pre post : State Machine) : Hop :=
  .gap (BitVec.ofNat 64 pre.pc) pre.world post.world

/-- Where the tracee is between two stops: in front of the region, in a step from a stop inside, or
in a callee that is run over from its first stop to a return address -/
inductive Walk where
  | before
  | inside (s : State Machine)
  | over (s : State Machine) (target : ℕ)

/-- The events of the stops: a step from each stop inside to the next stop, and one excursion for
each callee; a stop outside that is no callee's is the end. -/
def scopedHops (cfg : Config Machine) : Walk → List (Stop Machine) → List Hop
  | _, [] => []
  | w, .signal _ :: rest => scopedHops cfg w rest
  | _, .appTrap _ :: _ => []
  | _, .fail :: _ => []
  | .before, .trap s :: rest =>
    if cfg.Inside s.pc then scopedHops cfg (.inside s) rest else scopedHops cfg .before rest
  | .inside pre, .trap s :: rest =>
    stepHop cfg pre s ::
      if cfg.Inside s.pc then scopedHops cfg (.inside s) rest
      else
        match Scoped.isCallout cfg (pre.pc - cfg.base) s with
        | none => []
        | some resumeOff => scopedHops cfg (.over s (cfg.base + resumeOff)) rest
  | .over s target, .trap r :: rest =>
    if r.pc = target then gapHop s r :: scopedHops cfg (.inside r) rest
    else scopedHops cfg (.over s target) rest

/-- The capture has the trace of the loop, with nothing at risk that the loop has forgotten. -/
structure Twin (c : Ctx Machine) (k : Cap) : Prop extends Mirrors c k where
  trace : k.vt = c.vt
  overflow : k.risk.overflow = (riskOf c.log).overflow
  pending : k.risk.pending = true → k.risk.overflow = true

section Twins

variable {c : Ctx Machine} {k : Cap} {cfg : Config Machine}

lemma riskAdd_overflow {risk risk' : Risk} (hregs : risk.regs = risk'.regs)
    (haddrs : risk.addrs = risk'.addrs) (hover : risk.overflow = risk'.overflow)
    (hpend : risk.pending = true → risk.overflow = true) (r : ValRec) :
    (riskAdd false risk r).overflow = (riskAdd false risk' r).overflow ∧
      ((riskAdd false risk r).pending = true → (riskAdd false risk r).overflow = true) := by
  unfold riskAdd
  dsimp only
  rw [hregs, haddrs]
  split_ifs
  -- a read, a name already kept, a full list of names, a new name
  · exact ⟨hover, hpend⟩
  · exact ⟨hover, hpend⟩
  · exact ⟨rfl, fun _ => rfl⟩
  · exact ⟨hover, hpend⟩
  -- a memory write of no usable size, then one that fills the set and one whose bytes go in
  · exact ⟨rfl, fun _ => rfl⟩
  · exact ⟨rfl, fun _ => rfl⟩
  · exact ⟨hover, hpend⟩

lemma foldl_riskAdd_overflow (recs : List ValRec) {risk risk' : Risk}
    (hregs : risk.regs = risk'.regs) (haddrs : risk.addrs = risk'.addrs)
    (hover : risk.overflow = risk'.overflow)
    (hpend : risk.pending = true → risk.overflow = true) :
    (recs.foldl (riskAdd false) risk).overflow = (recs.foldl (riskAdd false) risk').overflow ∧
      ((recs.foldl (riskAdd false) risk).pending = true →
        (recs.foldl (riskAdd false) risk).overflow = true) := by
  induction recs generalizing risk risk' with
  | nil => exact ⟨hover, hpend⟩
  | cons r recs ih =>
    obtain ⟨hregs', haddrs'⟩ := @riskAdd_congr false risk risk' hregs haddrs r
    obtain ⟨hover', hpend'⟩ := riskAdd_overflow hregs haddrs hover hpend r
    exact ih hregs' haddrs' hover' hpend'

lemma Twin.step (h : Twin c k) (off : ℕ) (recs : List ValRec) :
    Twin (c.append (.step off recs)) (k.finalizeStep false (BitVec.ofNat 64 off) recs) := by
  obtain ⟨hover, hpend⟩ :=
    foldl_riskAdd_overflow recs h.regs h.addrs h.overflow h.pending
  refine ⟨h.toMirrors.step off recs, ?_, ?_, hpend⟩
  · unfold Cap.finalizeStep Cap.append Ctx.append
    dsimp only
    rw [Bool.false_and, Bool.or_false, ← h.trace]
    rfl
  · have hrisk : riskOf (c.log ++ [.step off recs]) =
        recs.foldl (riskAdd false) (riskOf c.log) := by
      rw [riskOf, List.foldl_append]
      rfl
    change _ = (riskOf (c.log ++ [.step off recs])).overflow
    rw [hrisk]
    exact hover

lemma Twin.barriers (h : Twin c k) (pc : ℕ) (e : Excursion) (batches : List (List ValRec)) :
    Twin (batches.foldl (fun c recs => c.append (.gap pc recs)) c)
      (batches.foldl (fun k recs => k.append ⟨BitVec.ofNat 64 pc, recs, some e⟩) k) := by
  -- every batch of an excursion is a call of its own, in both captures
  induction batches generalizing c k with
  | nil => exact h
  | cons recs batches ih =>
    have hrisk : riskOf (c.log ++ [.gap pc recs]) = riskOf c.log := by
      rw [riskOf, List.foldl_append]
      rfl
    apply ih
    refine ⟨h.toMirrors.barriers pc e [recs], ?_, ?_, h.pending⟩
    · exact congrArg (fun v => valtraceAppend v (BitVec.ofNat 64 pc) recs) h.trace
    · change k.risk.overflow = (riskOf (c.log ++ [.gap pc recs])).overflow
      rw [hrisk]
      exact h.overflow

lemma truncated_barriers {pc : ℕ} (batches : List (List ValRec))
    (h : (batches.foldl (fun c recs => c.append (.gap pc recs)) c).vt.truncated = false) :
    c.vt.truncated = false := by
  induction batches generalizing c with
  | nil => exact h
  | cons recs batches ih => exact truncated_valtraceAppend (ih h)

lemma truncated_emitGap {pre post : State Machine}
    (h : (c.emitGap cfg pre post).vt.truncated = false) : c.vt.truncated = false := by
  have hopen := truncated_barriers _ h
  split_ifs at hopen
  · cases hopen
  · exact hopen

/-- An excursion that the loop could decide, with nothing lost from the set at risk -/
lemma Twin.emitGap (h : Twin c k) {stash : List Entry → BitVec 32 → Option (BitVec 32)}
    (hglue : cfg.glue = scopedGlue stash) (pre post : State Machine)
    (ht : (c.emitGap cfg pre post).vt.truncated = false) :
    Twin (c.emitGap cfg pre post)
      (k.emitGap false (BitVec.ofNat 64 pre.pc) pre.world post.world (stash c.log)) := by
  have hgap : dfpEmitGap k.risk pre.world post.world (stash c.log) =
      dfpEmitGap (riskOf c.log) pre.world post.world (stash c.log) := by
    unfold dfpEmitGap
    rw [h.regs, h.addrs]
  unfold Ctx.emitGap at ht ⊢
  unfold Cap.emitGap
  dsimp only at ht ⊢
  rw [hglue] at ht ⊢
  rw [hgap]
  have hopen := truncated_barriers _ ht
  split_ifs at hopen ⊢ with hcut
  · cases hopen
  · obtain ⟨hund, hover⟩ := Bool.or_eq_false_iff.mp (Bool.eq_false_iff.mpr hcut)
    have hpend : k.risk.pending = false := by
      by_contra hne
      rw [← h.overflow, h.pending (Bool.eq_true_of_not_eq_false hne)] at hover
      cases hover
    apply Twin.barriers
    refine ⟨⟨⟨h.vt.truncate_left _, h.calls⟩, h.regs, h.addrs⟩, ?_, h.overflow, ?_⟩
    · dsimp only
      rw [hund, hpend, Bool.or_false, Bool.and_false, Bool.or_false]
      exact h.trace
    · dsimp only
      rw [Bool.and_false]
      exact fun hfalse => Bool.noConfusion hfalse

end Twins

section Rounds

variable {cfg : Config Machine} {stash : List Entry → BitVec 32 → Option (BitVec 32)}
  {stepsCap recsCap n k : ℕ} {all hops : List Hop} {c c' : Ctx Machine} {s s' : State Machine}
  {m m' : Machine} {prev : Option (State Machine)} {rest : List (Stop Machine)}

/-- The loop has captured these events, at most `n`, which have brought the tracee to `m`. -/
def Follows (stepsCap recsCap n : ℕ) (hops : List Hop) (c : Ctx Machine) (m : Machine) : Prop :=
  ∃ k events, events.map Event.hop = hops ∧ Along false stepsCap recsCap n events k m ∧ Twin c k

/-- Nothing is recorded before the region is entered. -/
def Fresh (stepsCap recsCap : ℕ) (c : Ctx Machine) : Prop :=
  c.entered = false ∧ c.cur = none ∧ c.vt = valtraceNew stepsCap recsCap ∧ c.log = []

lemma Follows.mono (h : Follows stepsCap recsCap n hops c m) (hle : n ≤ k) :
    Follows stepsCap recsCap k hops c m := by
  obtain ⟨twin, events, hhops, halong, htwin⟩ := h
  exact ⟨twin, events, hhops, halong.mono hle, htwin⟩

lemma Follows.congr (h : Follows stepsCap recsCap n hops c m) (hvt : c'.vt = c.vt)
    (hlog : c'.log = c.log) : Follows stepsCap recsCap n hops c' m := by
  obtain ⟨twin, events, hhops, halong, hm, htrace, hover, hpend⟩ := h
  refine ⟨twin, events, hhops, halong, ⟨⟨?_, ?_⟩, ?_, ?_⟩, ?_, ?_, hpend⟩
  · rw [hvt]
    exact hm.vt
  · rw [hlog]
    exact hm.calls
  · rw [hlog]
    exact hm.regs
  · rw [hlog]
    exact hm.addrs
  · rw [hvt]
    exact htrace
  · rw [hlog]
    exact hover

lemma Fresh.follows (h : Fresh stepsCap recsCap c) (m : Machine) :
    Follows stepsCap recsCap n [] c m := by
  obtain ⟨-, -, hvt, hlog⟩ := h
  have hstart : Follows stepsCap recsCap n [] { vt := valtraceNew stepsCap recsCap } m :=
    ⟨_, [], rfl, Along.start m, ⟨⟨⟨_, rfl⟩, rfl⟩, rfl, rfl⟩, rfl, rfl, fun h => Bool.noConfusion h⟩
  exact hstart.congr hvt hlog

lemma Follows.step (h : Follows stepsCap recsCap n hops c s.world)
    (hrep : Reported (cfg.records (s.pc - cfg.base) s s') s.world s'.world) :
    Follows stepsCap recsCap (n + 1) (hops ++ [stepHop cfg s s'])
      (c.append (.step (s.pc - cfg.base) (cfg.records (s.pc - cfg.base) s s'))) s'.world := by
  obtain ⟨twin, events, rfl, halong, htwin⟩ := h
  exact ⟨_, _, List.map_append, halong.event (.step _ _ s.world s'.world) rfl hrep,
    htwin.step _ _⟩

lemma Follows.emitGap (h : Follows stepsCap recsCap n hops c s.world)
    (hglue : cfg.glue = scopedGlue stash) (ht : (c.emitGap cfg s s').vt.truncated = false) :
    Follows stepsCap recsCap (n + 1) (hops ++ [gapHop s s']) (c.emitGap cfg s s') s'.world := by
  obtain ⟨twin, events, rfl, halong, htwin⟩ := h
  exact ⟨_, _, List.map_append, halong.event (.gap _ s.world s'.world _) rfl trivial,
    htwin.emitGap hglue s s' ht⟩

/-- Where the loop is after stop `prev`, unless the capture is truncated: a step was opened there,
or the region is yet to be entered. What is captured, and what the stops to come will give, are the
events in all. -/
def ScopedAt (cfg : Config Machine) (stepsCap recsCap : ℕ) (all : List Hop) (c : Ctx Machine)
    (prev : Option (State Machine)) (rest : List (Stop Machine)) : Prop :=
  c.vt.truncated = false →
    (∃ s hops, c.cur = some s ∧ prev = some s ∧ c.entered = true ∧ cfg.Inside s.pc ∧
      c.curOff = s.pc - cfg.base ∧ all = hops ++ scopedHops cfg (.inside s) rest ∧
      Follows stepsCap recsCap (2 * c.total + 1) hops c s.world) ∨
    Fresh stepsCap recsCap c ∧ all = scopedHops cfg .before rest

/-- Where it is when it comes to stop `s'`; when a callee was run over no step is open. -/
def ScopedBefore (cfg : Config Machine) (stepsCap recsCap : ℕ) (all : List Hop) (c : Ctx Machine)
    (s' : State Machine) (rest : List (Stop Machine)) : Prop :=
  c.vt.truncated = false →
    (∃ s hops, c.cur = some s ∧ c.entered = true ∧ c.curOff = s.pc - cfg.base ∧
      Reported (cfg.records (s.pc - cfg.base) s s') s.world s'.world ∧
      all = hops ++ scopedHops cfg (.inside s) (.trap s' :: rest) ∧
      Follows stepsCap recsCap (2 * c.total) hops c s.world) ∨
    (∃ hops, c.cur = none ∧ c.entered = true ∧ cfg.Inside s'.pc ∧
      all = hops ++ scopedHops cfg (.inside s') rest ∧
      Follows stepsCap recsCap (2 * c.total) hops c s'.world) ∨
    Fresh stepsCap recsCap c ∧ all = scopedHops cfg .before (.trap s' :: rest)

/-- The end of the loop -/
def ScopedEnd (cfg : Config Machine) (stepsCap recsCap : ℕ) (all : List Hop) (c : Ctx Machine) :
    Prop :=
  c.vt.truncated = false → ∃ m, Follows stepsCap recsCap (2 * cfg.stepBackstop + 3) all c m

/-- Where the loop is after a round -/
def Stands (cfg : Config Machine) (stepsCap recsCap : ℕ) (all : List Hop) :
    Outcome Machine → Prop
  | .cont c (some s) rest => c.total ≤ cfg.stepBackstop ∧
    ScopedBefore cfg stepsCap recsCap all c s rest ∧ ScopedReported cfg (some s) rest
  | .cont c none rest => c.total ≤ cfg.stepBackstop ∧
    ∃ prev, ScopedAt cfg stepsCap recsCap all c prev rest ∧ ScopedReported cfg prev rest
  | .done r => ScopedEnd cfg stepsCap recsCap all r.ctx

lemma scopedEnd_truncate : ScopedEnd cfg stepsCap recsCap all c.truncate :=
  fun ht => Bool.noConfusion ht

lemma truncated_finalize (h : (c.finalizeStep cfg s).vt.truncated = false) :
    c.vt.truncated = false := by
  unfold Ctx.finalizeStep at h
  split at h
  · exact h
  · exact truncated_valtraceAppend h

/-- The open step ends at a stop inside, where the next one is opened. -/
lemma ScopedBefore.inside (h : ScopedBefore cfg stepsCap recsCap all c s' rest)
    (hin : cfg.Inside s'.pc) (ht : (c.finalizeStep cfg s').vt.truncated = false) :
    ∃ hops, all = hops ++ scopedHops cfg (.inside s') rest ∧
      Follows stepsCap recsCap (2 * c.total + 1) hops (c.finalizeStep cfg s') s'.world := by
  rcases h (truncated_finalize ht) with ⟨s, hops, hcur, -, hoff, hrep, hall, hf⟩ |
    ⟨hops, hcur, -, -, hall, hf⟩ | ⟨hfresh, hall⟩
  · rw [scopedHops, if_pos hin, List.append_cons] at hall
    refine ⟨hops ++ [stepHop cfg s s'], hall, ?_⟩
    unfold Ctx.finalizeStep
    rw [hcur, hoff]
    exact (hf.step hrep).congr rfl rfl
  · refine ⟨hops, hall, ?_⟩
    unfold Ctx.finalizeStep
    rw [hcur]
    exact hf.mono (Nat.le_succ _)
  · rw [scopedHops, if_pos hin] at hall
    refine ⟨[], hall, ?_⟩
    unfold Ctx.finalizeStep
    rw [hfresh.2.1]
    exact hfresh.follows _

/-- It ends at a stop outside, and what follows is a callee or nothing. -/
lemma ScopedBefore.outside (h : ScopedBefore cfg stepsCap recsCap all c s' rest)
    (hout : ¬cfg.Inside s'.pc) (hentered : c.entered = true)
    (ht : (c.finalizeStep cfg s').vt.truncated = false) :
    ∃ hops, (all = hops ++ match Scoped.isCallout cfg c.curOff s' with
        | none => []
        | some resumeOff => scopedHops cfg (.over s' (cfg.base + resumeOff)) rest) ∧
      Follows stepsCap recsCap (2 * c.total + 1) hops (c.finalizeStep cfg s') s'.world := by
  rcases h (truncated_finalize ht) with ⟨s, hops, hcur, -, hoff, hrep, hall, hf⟩ |
    ⟨-, -, -, hin, -⟩ | ⟨hfresh, -⟩
  · rw [scopedHops, if_neg hout, List.append_cons, ← hoff] at hall
    refine ⟨hops ++ [stepHop cfg s s'], hall, ?_⟩
    unfold Ctx.finalizeStep
    rw [hcur, hoff]
    exact (hf.step hrep).congr rfl rfl
  · exact absurd hin hout
  · rw [hfresh.1] at hentered
    cases hentered

/-- The callee that is run over is one excursion. -/
lemma scopedHops_runTo {target : ℕ} {r : State Machine} {rest' : List (Stop Machine)}
    (hr : Scoped.runTo target rest = some (r, rest')) :
    r.pc = target ∧
      scopedHops cfg (.over s target) rest = gapHop s r :: scopedHops cfg (.inside r) rest' := by
  -- the stops in the callee, signals among them, belong to the excursion
  induction rest with
  | nil => cases hr
  | cons stop rest ih =>
    cases stop with
    | signal fault => exact ih hr
    | appTrap s => cases hr
    | fail => cases hr
    | trap u =>
      rw [Scoped.runTo] at hr
      rw [scopedHops]
      split_ifs at hr ⊢ with hu
      · cases hr
        exact ⟨hu, rfl⟩
      · exact ih hr

/-- A callee comes back to the region. -/
lemma inside_of_isCallout {lastOff off : ℕ} (h : Scoped.isCallout cfg lastOff s = some off) :
    cfg.Inside (cfg.base + off) := by
  rw [Scoped.isCallout] at h
  dsimp only at h
  split_ifs at h with hsnap hcall hlen htop
  cases h
  exact ⟨Nat.le_add_right .., by omega⟩

lemma ScopedReported.runTo {target : ℕ} {r : State Machine} {rest : List (Stop Machine)}
    (stops : List (Stop Machine)) (h : ScopedReported cfg prev stops)
    (hr : Scoped.runTo target stops = some (r, rest)) : ScopedReported cfg (some r) rest := by
  induction stops generalizing prev with
  | nil => cases hr
  | cons stop stops ih =>
    cases stop with
    | signal fault => exact ih h hr
    | appTrap s => cases hr
    | fail => cases hr
    | trap s =>
      obtain ⟨-, hrest⟩ := h
      rw [Scoped.runTo] at hr
      split_ifs at hr
      · cases hr
        exact hrest
      · exact ih hrest hr

lemma finalizeStep_kept : (c.finalizeStep cfg s).total = c.total ∧
    (c.finalizeStep cfg s).entered = c.entered ∧ (c.finalizeStep cfg s).cur = none := by
  unfold Ctx.finalizeStep
  split
  · rename_i hcur
    exact ⟨rfl, rfl, hcur⟩
  · exact ⟨rfl, rfl, rfl⟩

lemma emitGap_kept : (c.emitGap cfg s s').entered = c.entered ∧
    (c.emitGap cfg s s').cur = c.cur := by
  have hfold : ∀ (batches : List (List ValRec)) (c : Ctx Machine),
      (batches.foldl (fun c recs => c.append (.gap s.pc recs)) c).entered = c.entered ∧
        (batches.foldl (fun c recs => c.append (.gap s.pc recs)) c).cur = c.cur := by
    intro batches
    induction batches with
    | nil => exact fun _ => ⟨rfl, rfl⟩
    | cons recs batches ih => exact fun c => ih (c.append (.gap s.pc recs))
  unfold Ctx.emitGap
  dsimp only
  rw [(hfold _ _).1, (hfold _ _).2]
  split_ifs
  · exact ⟨rfl, rfl⟩
  · exact ⟨rfl, rfl⟩

lemma stands_landInside (h : ScopedBefore cfg stepsCap recsCap all c s' rest)
    (htotal : c.total ≤ cfg.stepBackstop) (hrep : ScopedReported cfg (some s') rest)
    (hin : cfg.Inside s'.pc) :
    Stands cfg stepsCap recsCap all (Scoped.landInside cfg c s' rest) := by
  obtain ⟨htot, -, -⟩ := @finalizeStep_kept cfg c s'
  have hcont : ∀ recorded, Stands cfg stepsCap recsCap all (.cont
      { ({ c.finalizeStep cfg s' with entered := true }).openStep cfg s' with recorded } none
      rest) := by
    intro recorded
    refine ⟨?_, some s', fun ht => ?_, hrep⟩
    · change (c.finalizeStep cfg s').total ≤ _
      rw [htot]
      exact htotal
    · obtain ⟨hops, hall, hf⟩ := h.inside hin ht
      refine .inl ⟨s', hops, rfl, rfl, rfl, hin, rfl, hall, Follows.congr (hf.mono ?_) rfl rfl⟩
      change _ ≤ 2 * (c.finalizeStep cfg s').total + 1
      rw [htot]
  unfold Scoped.landInside
  dsimp only
  split_ifs
  · exact scopedEnd_truncate
  · exact hcont _
  · exact hcont _

lemma stands_landOutside (hglue : cfg.glue = scopedGlue stash)
    (h : ScopedBefore cfg stepsCap recsCap all c s' rest) (htotal : c.total ≤ cfg.stepBackstop)
    (hrep : ScopedReported cfg (some s') rest) (hout : ¬cfg.Inside s'.pc)
    (hentered : c.entered = true) :
    Stands cfg stepsCap recsCap all (Scoped.landOutside cfg c s' rest) := by
  obtain ⟨htot, hent, hcur⟩ := @finalizeStep_kept cfg c s'
  have houtside := h.outside hout hentered
  unfold Scoped.landOutside
  dsimp only
  cases hcall : Scoped.isCallout cfg c.curOff s' with
  | none =>
    intro ht
    obtain ⟨hops, hall, hf⟩ := houtside ht
    rw [hcall, List.append_nil] at hall
    rw [hall]
    exact ⟨s'.world, hf.mono (by omega)⟩
  | some resumeOff =>
    dsimp only
    split_ifs with hover
    · exact scopedEnd_truncate
    · cases hrun : Scoped.runTo (cfg.base + resumeOff) rest with
      | none => exact scopedEnd_truncate
      | some landed =>
        obtain ⟨r, rest'⟩ := landed
        obtain ⟨hent', hcur'⟩ := @emitGap_kept cfg
          { c.finalizeStep cfg s' with total := (c.finalizeStep cfg s').total + 1 } s' r
        have htot' := @emitGap_total
          { c.finalizeStep cfg s' with total := (c.finalizeStep cfg s').total + 1 } cfg s' r
        dsimp only at htot'
        refine ⟨by omega, fun ht => .inr (.inl ?_), hrep.runTo rest hrun⟩
        have hopen := truncated_emitGap ht
        obtain ⟨hops, hall, hf⟩ := houtside hopen
        obtain ⟨hpc, hhops⟩ := @scopedHops_runTo cfg s' rest _ r rest' hrun
        rw [hcall] at hall
        dsimp only at hall
        rw [hhops, List.append_cons] at hall
        have hbefore : Follows stepsCap recsCap (2 * c.total + 1) hops
            { c.finalizeStep cfg s' with total := (c.finalizeStep cfg s').total + 1 } s'.world :=
          hf.congr rfl rfl
        refine ⟨hops ++ [gapHop s' r], hcur'.trans hcur, hent'.trans (hent.trans hentered),
          hpc ▸ inside_of_isCallout hcall, hall, (hbefore.emitGap hglue ht).mono ?_⟩
        omega

lemma stands_land (hglue : cfg.glue = scopedGlue stash)
    (h : ScopedBefore cfg stepsCap recsCap all c s' rest) (htotal : c.total ≤ cfg.stepBackstop)
    (hrep : ScopedReported cfg (some s') rest) :
    Stands cfg stepsCap recsCap all (Scoped.land cfg c s' rest) := by
  unfold Scoped.land
  split_ifs with hin hentered
  · exact stands_landInside h htotal hrep hin
  · exact stands_landOutside hglue h htotal hrep hin hentered
  · refine ⟨htotal, some s', fun ht => .inr ?_, hrep⟩
    rcases h ht with ⟨-, -, -, hent, -⟩ | ⟨-, -, hent, -⟩ | ⟨hfresh, hall⟩
    · exact absurd hent hentered
    · exact absurd hent hentered
    · rw [scopedHops, if_neg hin] at hall
      exact ⟨hfresh, hall⟩

lemma ScopedBefore.rounds (h : ScopedBefore cfg stepsCap recsCap all c s' rest) (rounds : ℕ) :
    ScopedBefore cfg stepsCap recsCap all { c with rounds } s' rest := by
  intro ht
  rcases h ht with ⟨s, hops, hcur, hent, hoff, hrep, hall, hf⟩ |
    ⟨hops, hcur, hent, hin, hall, hf⟩ | hfresh
  · exact .inl ⟨s, hops, hcur, hent, hoff, hrep, hall, hf.congr rfl rfl⟩
  · exact .inr (.inl ⟨hops, hcur, hent, hin, hall, hf.congr rfl rfl⟩)
  · exact .inr (.inr hfresh)

lemma ScopedAt.rounds (h : ScopedAt cfg stepsCap recsCap all c prev rest) (rounds : ℕ) :
    ScopedAt cfg stepsCap recsCap all { c with rounds } prev rest := by
  intro ht
  rcases h ht with ⟨s, hops, hcur, hprev, hent, hin, hoff, hall, hf⟩ | hfresh
  · exact .inl ⟨s, hops, hcur, hprev, hent, hin, hoff, hall, hf.congr rfl rfl⟩
  · exact .inr hfresh

/-- The tracee comes to the next stop. -/
lemma ScopedAt.next (h : ScopedAt cfg stepsCap recsCap all c prev (.trap s' :: rest))
    (hrep : ∀ pre ∈ prev, cfg.Inside pre.pc →
      Reported (cfg.records (pre.pc - cfg.base) pre s') pre.world s'.world) :
    ScopedBefore cfg stepsCap recsCap all { c with total := c.total + 1 } s' rest := by
  intro ht
  rcases h ht with ⟨s, hops, hcur, hprev, hent, hin, hoff, hall, hf⟩ | hfresh
  · exact .inl ⟨s, hops, hcur, hent, hoff, hrep s (Option.mem_def.mpr hprev) hin, hall,
      Follows.congr (hf.mono (by dsimp only; omega)) rfl rfl⟩
  · exact .inr (.inr hfresh)

/-- No more stops are looked at. -/
lemma ScopedAt.end (h : ScopedAt cfg stepsCap recsCap all c prev rest)
    (hnone : ∀ w, scopedHops cfg w rest = []) (htotal : c.total ≤ cfg.stepBackstop) :
    ScopedEnd cfg stepsCap recsCap all c := by
  intro ht
  rcases h ht with ⟨s, hops, -, -, -, -, -, hall, hf⟩ | ⟨hfresh, hall⟩
  · rw [hnone, List.append_nil] at hall
    rw [hall]
    exact ⟨s.world, hf.mono (by omega)⟩
  · rw [hall, hnone]
    exact ⟨raxMachine 0, hfresh.follows _⟩

lemma stands_round_here (hglue : cfg.glue = scopedGlue stash)
    (h : ScopedBefore cfg stepsCap recsCap all c s' rest) (htotal : c.total ≤ cfg.stepBackstop)
    (hrep : ScopedReported cfg (some s') rest) :
    Stands cfg stepsCap recsCap all (Scoped.stepRound cfg c (some s') rest) := by
  unfold Scoped.stepRound
  dsimp only
  split_ifs
  · exact scopedEnd_truncate
  · exact stands_land hglue (h.rounds (c.rounds + 1)) htotal hrep

lemma stands_round_next (hglue : cfg.glue = scopedGlue stash)
    (h : ScopedAt cfg stepsCap recsCap all c prev rest) (htotal : c.total ≤ cfg.stepBackstop)
    (hrep : ScopedReported cfg prev rest) :
    Stands cfg stepsCap recsCap all (Scoped.stepRound cfg c none rest) := by
  have hround := h.rounds (c.rounds + 1)
  unfold Scoped.stepRound
  dsimp only
  by_cases hstop : cfg.stop (c.rounds + 1) = true
  · rw [if_pos hstop]
    exact scopedEnd_truncate
  · rw [if_neg hstop]
    cases rest with
    | nil =>
      have hend := hround.end (fun w => by cases w <;> rfl) htotal
      dsimp only
      split_ifs
      · exact scopedEnd_truncate
      · exact hend
      · exact scopedEnd_truncate
      · exact hend
    | cons stop rest =>
      cases stop with
      | signal fault =>
        dsimp only
        split_ifs
        · exact scopedEnd_truncate
        · exact ⟨htotal, prev, hround, hrep⟩
      | appTrap s => exact scopedEnd_truncate
      | fail => exact hround.end (fun w => by cases w <;> rfl) htotal
      | trap s =>
        obtain ⟨hnext, hrest⟩ := hrep
        dsimp only
        split_ifs with hover
        · exact scopedEnd_truncate
        · exact stands_land hglue (hround.next hnext) (Nat.le_of_not_lt hover) hrest

/-- A round uses up a stop, or the one that was run to. -/
lemma stepRound_length {here here' : Option (State Machine)} {rest' : List (Stop Machine)}
    (h : Scoped.stepRound cfg c here rest = .cont c' here' rest') :
    rest'.length + here'.toList.length < rest.length + here.toList.length := by
  unfold Scoped.stepRound at h
  dsimp only at h
  split at h
  · cases h
  · cases here with
    | some s => exact Scoped.land_length h
    | none =>
      cases rest with
      | nil => cases h
      | cons stop rest =>
        cases stop with
        | signal fault =>
          dsimp only at h
          split at h
          · cases h
          · cases h
            exact Nat.lt_succ_self _
        | appTrap s => cases h
        | fail => cases h
        | trap s =>
          dsimp only at h
          split at h
          · cases h
          · exact Scoped.land_length h

lemma Stands.loop (hglue : cfg.glue = scopedGlue stash) (fuel : ℕ)
    {here : Option (State Machine)} (h : Stands cfg stepsCap recsCap all (.cont c here rest))
    (hfuel : rest.length + here.toList.length < fuel) :
    ScopedEnd cfg stepsCap recsCap all (Scoped.stepLoop cfg fuel c here rest).ctx := by
  -- each round uses the stop it stands at or one of `rest`, so the fuel lasts
  induction fuel generalizing c here rest with
  | zero => exact absurd hfuel (Nat.not_lt_zero _)
  | succ fuel ih =>
    have hround : Stands cfg stepsCap recsCap all (Scoped.stepRound cfg c here rest) := by
      cases here with
      | none =>
        obtain ⟨htotal, prev, hat, hrep⟩ := h
        exact stands_round_next hglue hat htotal hrep
      | some s =>
        obtain ⟨htotal, hbefore, hrep⟩ := h
        exact stands_round_here hglue hbefore htotal hrep
    rw [Scoped.stepLoop]
    cases hout : Scoped.stepRound cfg c here rest with
    | done r =>
      rw [hout] at hround
      exact hround
    | cont c' here' rest' =>
      have hlt := stepRound_length hout
      rw [hout] at hround
      exact ih hround (by omega)

end Rounds

end Scope

end AsmTest.Dataflow.Gap
