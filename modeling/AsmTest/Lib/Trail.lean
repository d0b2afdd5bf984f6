import Mathlib.Data.List.Chain

/-!
# A bounded history of visited places

The places visited, oldest first, and the position among them, as a browser has it; and the two
stacks that such a history is kept in.
-/

namespace AsmTest.Lib

inductive Move (α : Type*) where
  | visit (a : α)
  | back
  | forward

/-- The places still remembered and where one is among them. -/
structure Trail (α : Type*) where
  visited : List α
  pos : ℕ

/-- The two stacks, the nearest place last, and the place between them. -/
structure Stacks (α : Type*) where
  back : List α
  current : Option α
  forward : List α

namespace Trail

variable {α β : Type*} [DecidableEq β]

def here (t : Trail α) : Option α := t.visited[t.pos]?

/-- The newest of the places, `cap` of them behind the last one; all of them when `cap = 0` -/
def newest (cap : ℕ) (l : List α) : List α :=
  if cap = 0 then l else l.drop (l.length - (cap + 1))

/-- A visit forgets what was ahead. A place told apart from the current one by nothing takes its
position; another one comes after it. -/
def move (key : α → β) (cap : ℕ) (t : Trail α) : Move α → Trail α
  | .visit a =>
    let kept := t.visited.take (t.pos + 1)
    let past := if t.here.map key = some (key a) then kept.dropLast else kept
    let now := newest cap (past ++ [a])
    ⟨now, now.length - 1⟩
  | .back => ⟨t.visited, t.pos - 1⟩
  | .forward => ⟨t.visited, t.pos + 1⟩

/-- The place that a move would lead to. -/
def target (t : Trail α) : Move α → Option α
  | .visit a => some a
  | .back => if t.pos = 0 then none else t.visited[t.pos - 1]?
  | .forward => t.visited[t.pos + 1]?

end Trail

namespace Stacks

variable {α β : Type*}

def trail (s : Stacks α) : Trail α :=
  ⟨s.back ++ s.current.toList ++ s.forward.reverse, s.back.length⟩

/-- What the stacks of a history keep. -/
structure Ok (key : α → β) (cap : ℕ) (s : Stacks α) : Prop where
  start : s.current = none → s.back = [] ∧ s.forward = []
  size : cap ≠ 0 → s.back.length + s.forward.length ≤ cap
  apart : (s.trail.visited.map key).IsChain (· ≠ ·)

theorem ok_empty (key : α → β) (cap : ℕ) : Ok key cap ⟨[], none, []⟩ :=
  ⟨fun _ => ⟨rfl, rfl⟩, fun _ => Nat.zero_le _, .nil⟩

variable {key : α → β} {cap : ℕ} {s : Stacks α}

theorem Ok.here (h : Ok key cap s) : s.trail.here = s.current := by
  cases hs : s.current with
  | none => simp [trail, Trail.here, hs, (h.start hs).1, (h.start hs).2]
  | some c => simp [trail, Trail.here, hs]

theorem Ok.visited_le (h : Ok key cap s) (hc : cap ≠ 0) : s.trail.visited.length ≤ cap + 1 := by
  have hs := h.size hc
  have hcur : s.current.toList.length ≤ 1 := by cases s.current <;> simp
  simp only [trail, List.length_append, List.length_reverse]
  omega

theorem target_back (s : Stacks α) : s.trail.target .back = s.back.getLast? := by
  rcases List.eq_nil_or_concat s.back with hb | ⟨b, x, hb⟩
  · simp [trail, Trail.target, hb]
  · simp [trail, Trail.target, hb]

theorem Ok.target_forward (h : Ok key cap s) : s.trail.target .forward = s.forward.getLast? := by
  cases hs : s.current with
  | none => simp [trail, Trail.target, hs, h.start hs]
  | some c => simp [trail, Trail.target, hs, List.getElem?_append_right, ← List.head?_eq_getElem?]

/-- One place back: the current one is now ahead. -/
theorem Ok.back {b : List α} {x : α} (h : Ok key cap s) (hb : s.back = b ++ [x]) :
    Ok key cap ⟨b, some x, s.forward ++ s.current.toList⟩ ∧
      (⟨b, some x, s.forward ++ s.current.toList⟩ : Stacks α).trail =
        ⟨s.trail.visited, s.trail.pos - 1⟩ := by
  have ht : (⟨b, some x, s.forward ++ s.current.toList⟩ : Stacks α).trail =
      ⟨s.trail.visited, s.trail.pos - 1⟩ := by
    cases hs : s.current <;> simp [trail, hb, hs]
  have hcur : s.current.toList.length ≤ 1 := by cases s.current <;> simp
  refine ⟨⟨by simp, fun hc => ?_, by rw [ht]; exact h.apart⟩, ht⟩
  have hsize := h.size hc
  rw [hb] at hsize
  simp only [List.length_append, List.length_singleton] at hsize ⊢
  omega

/-- One place ahead: the current one is now behind. -/
theorem Ok.forward {f : List α} {x : α} (h : Ok key cap s) (hf : s.forward = f ++ [x]) :
    Ok key cap ⟨s.back ++ s.current.toList, some x, f⟩ ∧
      (⟨s.back ++ s.current.toList, some x, f⟩ : Stacks α).trail =
        ⟨s.trail.visited, s.trail.pos + 1⟩ := by
  cases hs : s.current with
  | none => simp [(h.start hs).2] at hf
  | some c =>
    have ht : (⟨s.back ++ [c], some x, f⟩ : Stacks α).trail =
        ⟨s.trail.visited, s.trail.pos + 1⟩ := by
      simp [trail, hf, hs]
    refine ⟨⟨by simp, fun hc => ?_, ?_⟩, ht⟩
    · have hsize := h.size hc
      rw [hf] at hsize
      simp only [List.length_append, List.length_singleton, Option.toList_some] at hsize ⊢
      omega
    · rw [Option.toList_some, ht]
      exact h.apart

section Visit

variable [DecidableEq β]

/-- A place put on the stack behind, the oldest one dropped when there are too many. -/
def push (cap : ℕ) (b : List α) (x : α) : List α :=
  if cap ≠ 0 ∧ cap < (b ++ [x]).length then (b ++ [x]).tail else b ++ [x]

def behind (key : α → β) (cap : ℕ) (s : Stacks α) (a : α) : List α :=
  match s.current with
  | none => s.back
  | some c => if key c = key a then s.back else push cap s.back c

theorem newest_push {b : List α} (hb : cap ≠ 0 → b.length ≤ cap) (x a : α) :
    Trail.newest cap (b ++ [x] ++ [a]) = push cap b x ++ [a] := by
  unfold Trail.newest push
  by_cases hc : cap = 0
  · simp [hc]
  · have hle := hb hc
    have hlen : (b ++ [x] ++ [a]).length = b.length + 2 := by simp
    rw [if_neg hc, hlen, List.length_append, List.length_singleton]
    by_cases hfull : cap < b.length + 1
    · rw [if_pos ⟨hc, hfull⟩, show b.length + 2 - (cap + 1) = 1 by omega, List.drop_one]
      cases b <;> rfl
    · rw [if_neg (fun h => hfull h.2), show b.length + 2 - (cap + 1) = 0 by omega, List.drop_zero]

theorem newest_of_le {l : List α} (h : cap ≠ 0 → l.length ≤ cap + 1) : Trail.newest cap l = l := by
  unfold Trail.newest
  split
  · rfl
  · rename_i hc
    rw [Nat.sub_eq_zero_of_le (h hc), List.drop_zero]

theorem push_length {b : List α} (hb : cap ≠ 0 → b.length ≤ cap) (x : α) :
    cap ≠ 0 → (push cap b x).length ≤ cap := by
  intro hc
  have hle := hb hc
  unfold push
  split_ifs with h
  · simp
    omega
  · have hlen : (b ++ [x]).length = b.length + 1 := by simp
    omega

theorem trail_visit (h : Ok key cap s) (a : α) :
    (⟨behind key cap s a, some a, []⟩ : Stacks α).trail = s.trail.move key cap (.visit a) := by
  have hb : cap ≠ 0 → s.back.length ≤ cap := fun hc => le_trans (by omega) (h.size hc)
  unfold behind
  cases hs : s.current with
  | none => simp [trail, Trail.move, Trail.here, hs, h.start hs, Trail.newest]
  | some c =>
    have hkept : s.trail.visited.take (s.trail.pos + 1) = s.back ++ [c] := by
      simp [trail, hs, List.take_append, List.take_of_length_le]
    have hhere : s.trail.here = some c := h.here.trans hs
    simp only [Trail.move, hkept, hhere, Option.map_some, Option.some.injEq]
    by_cases hk : key c = key a
    · have hle : cap ≠ 0 → (s.back ++ [a]).length ≤ cap + 1 := fun hc => by
        have := hb hc
        simp only [List.length_append, List.length_singleton]
        omega
      rw [if_pos hk, if_pos hk, List.dropLast_concat, newest_of_le hle]
      simp [trail]
    · rw [if_neg hk, if_neg hk, newest_push hb]
      simp [trail]

theorem Ok.visit (h : Ok key cap s) (a : α) : Ok key cap ⟨behind key cap s a, some a, []⟩ := by
  have hb : cap ≠ 0 → s.back.length ≤ cap := fun hc => le_trans (by omega) (h.size hc)
  have hapart := h.apart
  refine ⟨by simp, fun hc => ?_, ?_⟩
  · unfold behind
    split
    · exact hb hc
    · split_ifs
      · exact hb hc
      · exact push_length hb _ hc
  · unfold behind
    cases hs : s.current with
    | none => simp [trail, h.start hs]
    | some c =>
      simp only [trail, hs, Option.toList_some, List.map_append, List.append_assoc,
        List.singleton_append, List.map_cons, List.reverse_nil, List.map_nil] at hapart ⊢
      have hold := (List.isChain_split.1 hapart).1
      by_cases hk : key c = key a
      · rw [if_pos hk, ← hk]
        simpa using hold
      · rw [if_neg hk]
        have hnew : (s.back.map key ++ key c :: [key a]).IsChain (· ≠ ·) :=
          List.isChain_append_cons_cons.2 ⟨hold, hk, .singleton _⟩
        unfold push
        split_ifs
        · cases hback : s.back with
          | nil => simp
          | cons b bs =>
            rw [hback] at hnew
            simpa using hnew.tail
        · simpa using hnew

end Visit

end Stacks

end AsmTest.Lib
