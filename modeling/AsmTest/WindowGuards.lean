import AsmTest.SsFrames

/-!
# The guards of a whole window

The budget, the watchdog and the deny regions end the stepping of a whole-window frame, a full ring
does not. The guards share one latch, and a frame that has latched the ring looks at no guard any
more.
-/

namespace AsmTest.Ss

/-- A trap and what the handler sees of the process then -/
structure Trap where
  rip : ℕ
  alarmFired : Bool := false
  deny : List Deny := []
deriving DecidableEq, Repr

def Trap.hit (f : Frame) (e : Trap) : Frame :=
  trapFrame e.alarmFired e.deny e.rip f

/-- The stack of a stepped thread after the traps -/
def runTraps (th : Tls) (traps : List Trap) : Tls :=
  traps.foldl (fun th e => (ssOnSigtrap true e.alarmFired e.deny e.rip th).1) th

/-- After these traps the frame should have stopped: the budget is used up, the watchdog has fired
or a denied address was stepped. -/
def GuardDue (f : Frame) (traps : List Trap) : Prop :=
  f.insnBudget ≤ traps.length ∨
    ∃ e ∈ traps, e.alarmFired = true ∨ ssRipDenied e.deny e.rip = true

/-- Once a guard is due the frame in slot `i` never asks for another step. -/
def GuardsBound (th : Tls) (i : ℕ) (f : Frame) (traps : List Trap) : Prop :=
  ∀ k ≤ traps.length, GuardDue f (traps.take k) →
    ∃ f', (runTraps th (traps.take k)).frames[i]? = some f' ∧ f'.wantsStep = false

/-- A whole-window frame as it is pushed, with a ring of any size -/
structure FreshWindow (f : Frame) : Prop where
  wholeWindow : f.wholeWindow = true
  guard : f.guard = .none
  steps : f.steps = 0
  stream : f.stream = []
  budget : 0 < f.insnBudget

theorem freshWindow_pushedFrame {a : PushArgs} (h : a.wholeWindow = true) (gen : ℕ) (tid : ℤ) :
    FreshWindow (pushedFrame a gen tid) := by
  refine ⟨h, rfl, rfl, rfl, ?_⟩
  simp only [pushedFrame, h, if_true]
  split_ifs with hb
  · decide
  · exact Nat.pos_of_ne_zero hb

section Frames

theorem runTraps_append (th : Tls) (a b : List Trap) :
    runTraps th (a ++ b) = runTraps (runTraps th a) b :=
  List.foldl_append

theorem runTraps_depth (th : Tls) (traps : List Trap) : (runTraps th traps).depth = th.depth := by
  induction traps generalizing th with
  | nil => rfl
  | cons e traps ih =>
    rw [runTraps, List.foldl_cons]
    refine (ih _).trans ?_
    by_cases hd : th.depth = 0
    · rw [ssOnSigtrap, if_pos (.inr hd)]
    · rw [ssOnSigtrap, if_neg (by simp [hd])]

/-- The frames of a stack do not touch each other. -/
theorem runTraps_frame {th : Tls} {i : ℕ} {f : Frame} (hi : i < th.depth)
    (hf : th.frames[i]? = some f) (traps : List Trap) :
    (runTraps th traps).frames[i]? = some (traps.foldl Trap.hit f) := by
  induction traps using List.reverseRecOn with
  | nil => exact hf
  | append_singleton traps e ih =>
    have hd := runTraps_depth th traps
    rw [runTraps_append, List.foldl_append]
    generalize runTraps th traps = th' at ih hd
    rw [runTraps, List.foldl_cons, List.foldl_nil, ssOnSigtrap, if_neg (by simp; omega)]
    simp only [List.getElem?_mapIdx, ih, hd, Option.map_some, if_pos hi]
    rfl

end Frames

section Latch

theorem hit_of_window {f : Frame} (h : f.wholeWindow = true) (e : Trap) :
    e.hit f = trapWindow e.alarmFired e.deny e.rip f := by
  rw [Trap.hit, trapFrame, if_pos h]

/-- A frame that has latched a guard, the ring included, does not change any more. -/
theorem foldl_hit_of_latched {f : Frame} (h : f.wholeWindow = true) (hg : f.guard ≠ .none)
    (traps : List Trap) : traps.foldl Trap.hit f = f := by
  induction traps with
  | nil => rfl
  | cons e traps ih =>
    rw [List.foldl_cons, hit_of_window h, trapWindow, if_pos hg]
    exact ih

/-- A frame that is still stepping has counted and stored every trap. -/
structure Stepping (f : Frame) (n : ℕ) (f' : Frame) : Prop where
  wholeWindow : f'.wholeWindow = true
  guard : f'.guard = .none
  steps : f'.steps = n
  stream : f'.stream.length = n
  cap : f'.cap = f.cap
  budget : f'.insnBudget = f.insnBudget

/-- This trap is the one at which a guard becomes due. -/
def Trap.Stops (f : Frame) (n : ℕ) (e : Trap) : Prop :=
  e.alarmFired = true ∨ ssRipDenied e.deny e.rip = true ∨ f.insnBudget ≤ n + 1

theorem hit_of_stepping {f f' : Frame} {n : ℕ} (h : Stepping f n f') {e : Trap}
    (ha : ¬e.alarmFired = true) (hd : ¬ssRipDenied e.deny e.rip = true) :
    e.hit f' =
      let g := (if f.insnBudget ≤ n + 1 then { f' with steps := n + 1, guard := .budget }
        else { f' with steps := n + 1 }).record e.rip
      if f.cap ≤ n ∧ g.guard = .none then { g with guard := .ring } else g := by
  rw [hit_of_window h.wholeWindow, trapWindow, if_neg (not_not.2 h.guard), if_neg ha, if_neg hd]
  simp only [h.steps, h.budget]
  by_cases hb : f.insnBudget ≤ n + 1
  · simp only [if_pos hb, h.stream, h.cap]
  · simp only [if_neg hb, h.stream, h.cap]

theorem hit_stops {f f' : Frame} {n : ℕ} (h : Stepping f n f') {e : Trap} (he : e.Stops f n) :
    (e.hit f').wholeWindow = true ∧ (e.hit f').guard ≠ .none ∧ (e.hit f').wantsStep = false := by
  have hw := h.wholeWindow
  by_cases ha : e.alarmFired = true
  · rw [hit_of_window hw, trapWindow, if_neg (not_not.2 h.guard), if_pos ha]
    exact ⟨hw, Guard.noConfusion, by simp [Frame.wantsStep, hw]⟩
  by_cases hd : ssRipDenied e.deny e.rip = true
  · rw [hit_of_window hw, trapWindow, if_neg (not_not.2 h.guard), if_neg ha, if_pos hd]
    exact ⟨hw, Guard.noConfusion, by simp [Frame.wantsStep, hw]⟩
  have hb : f.insnBudget ≤ n + 1 := (he.resolve_left ha).resolve_left hd
  rw [hit_of_stepping h ha hd]
  -- the budget is latched before the ring is looked at
  simp only [if_pos hb, Frame.record]
  split_ifs <;> simp_all [Frame.wantsStep]

theorem hit_steps {f f' : Frame} {n : ℕ} (h : Stepping f n f') {e : Trap} (he : ¬e.Stops f n)
    (hn : n < f.cap) : Stepping f (n + 1) (e.hit f') := by
  rw [Trap.Stops, not_or, not_or] at he
  obtain ⟨ha, hd, hb⟩ := he
  rw [hit_of_stepping h ha hd]
  have hroom : f'.stream.length < f'.cap := by rw [h.stream, h.cap]; exact hn
  simp only [if_neg hb, Frame.record, if_pos hroom]
  rw [if_neg fun hc => Nat.not_le.2 hn hc.1]
  exact ⟨h.wholeWindow, h.guard, rfl, by simp [h.stream], h.cap, h.budget⟩

theorem hit_ring {f f' : Frame} {n : ℕ} (h : Stepping f n f') {e : Trap} (he : ¬e.Stops f n)
    (hn : f.cap ≤ n) : (e.hit f').wholeWindow = true ∧ (e.hit f').guard = .ring := by
  rw [Trap.Stops, not_or, not_or] at he
  obtain ⟨ha, hd, hb⟩ := he
  rw [hit_of_stepping h ha hd]
  have hfull : ¬f'.stream.length < f'.cap := by rw [h.stream, h.cap]; exact Nat.not_lt.2 hn
  simp only [if_neg hb, Frame.record, if_neg hfull]
  rw [if_pos ⟨hn, h.guard⟩]
  exact ⟨h.wholeWindow, rfl⟩

end Latch

section Run

theorem GuardDue.append {f : Frame} {a : List Trap} (h : GuardDue f a) (b : List Trap) :
    GuardDue f (a ++ b) := by
  rcases h with h | ⟨e, he, h⟩
  · left
    rw [List.length_append]
    omega
  · exact .inr ⟨e, List.mem_append_left _ he, h⟩

theorem guardDue_concat {f : Frame} {traps : List Trap} {e : Trap} :
    GuardDue f (traps ++ [e]) ↔ GuardDue f traps ∨ e.Stops f traps.length := by
  constructor
  · rintro (h | ⟨x, hx, h⟩)
    · rw [List.length_append, List.length_singleton] at h
      exact .inr (.inr (.inr h))
    · rcases List.mem_append.1 hx with hx | hx
      · exact .inl (.inr ⟨x, hx, h⟩)
      · rw [List.mem_singleton.1 hx] at h
        rcases h with h | h
        · exact .inr (.inl h)
        · exact .inr (.inr (.inl h))
  · rintro (h | h | h | h)
    · exact h.append _
    · exact .inr ⟨e, by simp, .inl h⟩
    · exact .inr ⟨e, by simp, .inr h⟩
    · left
      rwa [List.length_append, List.length_singleton]

/-- Where a whole-window frame can stand after the traps: still stepping, stepping for good with the
ring latched, or stopped by a guard that was due in time. -/
inductive Phase (f : Frame) (traps : List Trap) (f' : Frame) : Prop
  | stepping (due : ¬GuardDue f traps) (room : traps.length ≤ f.cap)
      (at_ : Stepping f traps.length f')
  | ring (due : ¬GuardDue f (traps.take (f.cap + 1))) (full : f.cap < traps.length)
      (window : f'.wholeWindow = true) (guard : f'.guard = .ring)
  | stopped (due : GuardDue f (traps.take (f.cap + 1))) (window : f'.wholeWindow = true)
      (guard : f'.guard ≠ .none) (stop : f'.wantsStep = false)

theorem phase_run {f : Frame} (hf : FreshWindow f) (traps : List Trap) :
    Phase f traps (traps.foldl Trap.hit f) := by
  induction traps using List.reverseRecOn with
  | nil =>
    refine .stepping ?_ (Nat.zero_le _) ⟨hf.wholeWindow, hf.guard, hf.steps, ?_, rfl, rfl⟩
    · rintro (h | ⟨e, he, -⟩)
      · exact absurd hf.budget (Nat.not_lt.2 h)
      · exact List.not_mem_nil he
    · rw [List.foldl_nil, hf.stream]
      rfl
  | append_singleton traps e ih =>
    rw [List.foldl_append, List.foldl_cons, List.foldl_nil]
    cases ih with
    | stepping due room hstep =>
      have htake : (traps ++ [e]).take (f.cap + 1) = traps ++ [e] :=
        List.take_of_length_le (by simp; omega)
      by_cases he : e.Stops f traps.length
      · obtain ⟨hw, hg, hs⟩ := hit_stops hstep he
        refine .stopped ?_ hw hg hs
        rw [htake]
        exact guardDue_concat.2 (.inr he)
      have hdue : ¬GuardDue f (traps ++ [e]) := by
        rw [guardDue_concat, not_or]
        exact ⟨due, he⟩
      by_cases hn : traps.length < f.cap
      · refine .stepping hdue (by simpa using hn) ?_
        rw [List.length_append, List.length_singleton]
        exact hit_steps hstep he hn
      · obtain ⟨hw, hg⟩ := hit_ring hstep he (Nat.not_lt.1 hn)
        exact .ring (by rwa [htake]) (by simp; omega) hw hg
    | ring due full hw hg =>
      rw [hit_of_window hw, trapWindow, if_pos (by rw [hg]; exact Guard.noConfusion)]
      refine .ring ?_ (by simp; omega) hw hg
      rwa [List.take_append_of_le_length (by omega)]
    | stopped due hw hg hs =>
      rw [hit_of_window hw, trapWindow, if_pos hg]
      refine .stopped ?_ hw hg hs
      rw [List.take_append]
      exact due.append _

/-- A frame that keeps within its guards has a due guard latched before the ring. -/
theorem GuardsBound.due_take {th : Tls} {i : ℕ} {f : Frame} (hi : i < th.depth)
    (hf : th.frames[i]? = some f) (hfresh : FreshWindow f) {traps : List Trap}
    (h : GuardsBound th i f traps) (hdue : GuardDue f traps) :
    GuardDue f (traps.take (f.cap + 1)) := by
  obtain ⟨f', hf', hstop⟩ := h traps.length le_rfl (by rwa [List.take_length])
  rw [List.take_length, runTraps_frame hi hf, Option.some.injEq] at hf'
  cases phase_run hfresh traps with
  | stepping due => exact absurd hdue due
  | ring due full hw hg =>
    rw [← hf', Frame.wantsStep, decide_eq_false_iff_not] at hstop
    exact absurd (.inr (.inr hg)) hstop
  | stopped due => exact due

/-- A frame keeps within its guards exactly if a guard that becomes due in the run is due by the
trap that finds the ring full. -/
theorem window_guards_bound_iff (th : Tls) (i : ℕ) (f : Frame) (hi : i < th.depth)
    (hf : th.frames[i]? = some f) (hfresh : FreshWindow f) (traps : List Trap) :
    GuardsBound th i f traps ↔ (GuardDue f traps → GuardDue f (traps.take (f.cap + 1))) := by
  constructor
  · exact fun h hdue => h.due_take hi hf hfresh hdue
  · intro h k hk hdue
    refine ⟨_, runTraps_frame hi hf _, ?_⟩
    cases phase_run hfresh (traps.take k) with
    | stepping due => exact absurd hdue due
    | ring due full =>
      rw [List.length_take] at full
      rw [List.take_take, Nat.min_eq_left (by omega)] at due
      have hall : GuardDue f traps := by
        have := hdue.append (traps.drop k)
        rwa [List.take_append_drop] at this
      exact absurd (h hall) due
    | stopped due hw hg hs => exact hs

/-- A ring of 4, a budget of 5 steps and a denied address at the third one -/
theorem window_guards_bound_iff_denied :
    let f : Frame := { cap := 4, wholeWindow := true, insnBudget := 5 }
    let th : Tls := { frames := [f], depth := 1 }
    let deny : List Deny := [⟨0x2000, 64⟩]
    let traps := [0x1000, 0x1001, 0x2000, 0x2001, 0x2003].map fun rip => Trap.mk rip false deny
    0 < th.depth ∧ th.frames[0]? = some f ∧ FreshWindow f ∧ GuardsBound th 0 f traps := by
  intro f th deny traps
  have hfresh : FreshWindow f := ⟨rfl, rfl, rfl, rfl, by decide⟩
  refine ⟨by decide, rfl, hfresh, ?_⟩
  refine (window_guards_bound_iff th 0 f (by decide) rfl hfresh traps).2 fun _ => .inr ?_
  exact ⟨⟨0x2000, false, deny⟩, by decide, .inr (by decide)⟩

/-- A budget beyond the ring is not kept if nothing else stops the frame. -/
theorem not_guardsBound_of_cap_lt {th : Tls} {i : ℕ} {f : Frame} (hi : i < th.depth)
    (hf : th.frames[i]? = some f) (hfresh : FreshWindow f) (hcap : f.cap + 1 < f.insnBudget)
    (rip : ℕ) : ¬GuardsBound th i f (List.replicate f.insnBudget ⟨rip, false, []⟩) := by
  intro h
  have hdue := h.due_take hi hf hfresh (.inl (List.length_replicate ..).ge)
  rw [List.take_replicate, Nat.min_eq_left hcap.le] at hdue
  rcases hdue with hdue | ⟨e, he, hst⟩
  · rw [List.length_replicate] at hdue
    omega
  · rw [List.eq_of_mem_replicate he] at hst
    rcases hst with hst | hst
    · cases hst
    · cases hst

/-- A window with the default guards, on a thread of its own: the ring is full after a quarter of
the budget, and after the whole budget the frame still asks for the next step. -/
theorem default_window_unbounded :
    let a : PushArgs := { trace := some 0, wholeWindow := true, insnBudget := 0, watchdogMs := 0 }
    let f := pushedFrame a 1 100
    let th : Tls := { frames := [f], depth := 1, genCtr := 1 }
    ¬GuardsBound th 0 f (List.replicate ssWindowBudgetDefault ⟨0x1000, false, []⟩) := by
  intro a f th
  have hbudget : f.insnBudget = ssWindowBudgetDefault := by
    simp only [f, a, pushedFrame, if_true]
  have hcap : f.cap = ssWindowCap := by
    simp only [f, a, pushedFrame, if_true]
  have hlt : f.cap + 1 < f.insnBudget := by
    rw [hbudget, hcap, ssWindowBudgetDefault, ssWindowCap]
    omega
  rw [← hbudget]
  exact not_guardsBound_of_cap_lt (by decide) rfl (freshWindow_pushedFrame rfl 1 100) hlt 0x1000

end Run

end AsmTest.Ss
