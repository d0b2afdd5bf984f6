import AsmTest.DeepLink
import AsmTest.Lib.Trail

/-!
# The link router and its history (desktop/src/nav.cpp)

A table of views, each with its handler, and the positions one can go back and forward to.
The handlers write the state `σ` of the shell, which the router does not look at.
-/

namespace AsmTest.Nav

open AsmTest.Lib

structure Entry (σ : Type) where
  view : DtView
  handler : Option (DtLink → σ → σ)

structure DtNavTable (σ : Type) where
  entries : List (Entry σ)
  /-- Is a recording open? `none`: there is nobody to ask -/
  haveRecording : Option (Bytes → Bool)
  lastError : Bytes := []
  current : Option DtLink := none
  back : List DtLink := []
  forward : List DtLink := []
  historyCap : ℕ := 64
  shell : σ

variable {σ : Type}

def setHandler (v : DtView) (h : Option (DtLink → σ → σ)) : List (Entry σ) → List (Entry σ)
  | [] => [⟨v, h⟩]
  | e :: es => if e.view = v then ⟨e.view, h⟩ :: es else e :: setHandler v h es

def dtNavRegister (t : DtNavTable σ) (v : DtView) (h : Option (DtLink → σ → σ)) : DtNavTable σ :=
  { t with entries := setHandler v h t.entries }

def notOpen (t : DtNavTable σ) (recId : Bytes) : Bool :=
  match t.haveRecording with
  | some isOpen => !isOpen recId
  | none => false

/-- Validates the link and hands it to its view. It records no history. -/
def dtNavDispatch (t : DtNavTable σ) (link : DtLink) : Bool × DtNavTable σ :=
  if notOpen t link.recId then
    (false, { t with
      lastError := ascii "no open recording named \"" ++ link.recId ++ ascii "\" " ++
        [0xE2, 0x80, 0x94] ++ ascii " open it first (the link is otherwise valid)" })
  else if link.recB ≠ [] ∧ notOpen t link.recB then
    (false, { t with
      lastError := ascii "no open recording named \"" ++ link.recB ++
        ascii "\" for the B side of this diff" })
  else
    match t.entries.find? fun e => e.view = link.view with
    | some ⟨_, none⟩ =>
      (false, { t with
        lastError := ascii "the " ++ dtViewName link.view ++
          ascii " view has no handler registered" })
    | some ⟨_, some handler⟩ =>
      (true, { t with lastError := [], shell := handler link t.shell, current := some link })
    | none =>
      (false, { t with
        lastError := ascii "no " ++ dtViewName link.view ++
          ascii " view is registered in this build" })

def dtNavGo (t : DtNavTable σ) (link : DtLink) : Bool × DtNavTable σ :=
  let prev := t.current
  match dtNavDispatch t link with
  | (false, t) => (false, t)
  | (true, t) =>
    let back :=
      match prev with
      | some prev =>
        if dtNavFormat prev ≠ dtNavFormat link then
          let back := t.back ++ [prev]
          -- drop the oldest past the bound
          if t.historyCap ≠ 0 ∧ t.historyCap < back.length then back.tail else back
        else t.back
      | none => t.back
    (true, { t with back := back, forward := [] })

def dtNavBack (t : DtNavTable σ) : Bool × DtNavTable σ :=
  match t.back.getLast? with
  | none =>
    (false, { t with lastError := ascii "already at the earliest position in the history" })
  | some target =>
    let here := t.current
    match dtNavDispatch t target with
    | (false, t) => (false, t)
    | (true, t) => (true, { t with back := t.back.dropLast, forward := t.forward ++ here.toList })

def dtNavForward (t : DtNavTable σ) : Bool × DtNavTable σ :=
  match t.forward.getLast? with
  | none =>
    (false, { t with lastError := ascii "already at the latest position in the history" })
  | some target =>
    let here := t.current
    match dtNavDispatch t target with
    | (false, t) => (false, t)
    | (true, t) => (true, { t with forward := t.forward.dropLast, back := t.back ++ here.toList })

/-- The three ways to move. -/
def attempt (t : DtNavTable σ) : Move DtLink → Bool × DtNavTable σ
  | .visit link => dtNavGo t link
  | .back => dtNavBack t
  | .forward => dtNavForward t

/-- What the shell does with the table, at any time and in any order. -/
inductive Op (σ : Type) where
  | move (m : Move DtLink)
  | register (v : DtView) (h : Option (DtLink → σ → σ))
  /-- Recordings are opened and closed. -/
  | recordings (haveRecording : Option (Bytes → Bool))
  /-- The shell changes its own state. -/
  | shell (f : σ → σ)

/-- The table after an operation, and the move that was made. -/
def perform (t : DtNavTable σ) : Op σ → DtNavTable σ × Option (Move DtLink)
  | .move m => ((attempt t m).2, if (attempt t m).1 then some m else none)
  | .register v h => (dtNavRegister t v h, none)
  | .recordings haveRecording => ({ t with haveRecording := haveRecording }, none)
  | .shell f => ({ t with shell := f t.shell }, none)

/-- A run of the shell: the table it ends with, and the moves that were made. -/
def session (t : DtNavTable σ) : List (Op σ) → DtNavTable σ × List (Move DtLink)
  | [] => (t, [])
  | op :: ops =>
    let r := session (perform t op).1 ops
    (r.1, (perform t op).2.toList ++ r.2)

namespace DtNavTable

def history (t : DtNavTable σ) : Stacks DtLink := ⟨t.back, t.current, t.forward⟩

/-- Where the user has been and is. -/
def trail (t : DtNavTable σ) : Trail DtLink := t.history.trail

/-- Can a link be shown: are its recordings open, and has its view a handler? -/
def Shows (t : DtNavTable σ) (link : DtLink) : Prop :=
  notOpen t link.recId = false ∧ (link.recB = [] ∨ notOpen t link.recB = false) ∧
    ∃ v handler, t.entries.find? (fun e => e.view = link.view) = some ⟨v, some handler⟩

end DtNavTable

section Steps

variable (t : DtNavTable σ)

/-- What a dispatch does: the link is shown, or the table says why it is not. -/
theorem dtNavDispatch_cases (link : DtLink) :
    (t.Shows link ∧ ∃ shell, dtNavDispatch t link =
      (true, { t with lastError := [], shell := shell, current := some link })) ∨
    (¬t.Shows link ∧ ∃ e, dtNavDispatch t link = (false, { t with lastError := e })) := by
  unfold dtNavDispatch DtNavTable.Shows
  by_cases hr : notOpen t link.recId = true
  · exact .inr ⟨fun h => by simp [hr] at h, _, if_pos hr⟩
  rw [if_neg hr]
  by_cases hb : link.recB ≠ [] ∧ notOpen t link.recB = true
  · refine .inr ⟨fun h => ?_, _, if_pos hb⟩
    rcases h.2.1 with h | h
    · exact hb.1 h
    · simp [hb.2] at h
  rw [if_neg hb]
  cases hf : t.entries.find? fun e => e.view = link.view with
  | none => exact .inr ⟨by simp, _, rfl⟩
  | some e =>
    obtain ⟨v, h⟩ := e
    cases h with
    | none => exact .inr ⟨by simp, _, rfl⟩
    | some handler =>
      refine .inl ⟨⟨by simpa using hr, ?_, v, handler, rfl⟩, _, rfl⟩
      rw [not_and_or, not_not] at hb
      simpa using hb

/-- A move that was made. -/
structure Made (m : Move DtLink) (t' : DtNavTable σ) : Prop where
  shows : ∃ link ∈ t.trail.target m, t.Shows link
  trail : t'.trail = t.trail.move dtNavFormat t.historyCap m
  ok : t'.history.Ok dtNavFormat t.historyCap
  cap : t'.historyCap = t.historyCap

/-- A move that was refused. -/
structure Refused (m : Move DtLink) (t' : DtNavTable σ) : Prop where
  shows : ∀ link ∈ t.trail.target m, ¬t.Shows link
  same : ∃ e, t' = { t with lastError := e }

variable {t}

/-- The table that shows a link. -/
def landed (t : DtNavTable σ) (link : DtLink) (shell : σ) : DtNavTable σ :=
  { t with lastError := [], shell := shell, current := some link }

theorem dtNavGo_shown {link : DtLink} {shell : σ}
    (hd : dtNavDispatch t link = (true, landed t link shell)) :
    dtNavGo t link = (true, { landed t link shell with
      back := t.history.behind dtNavFormat t.historyCap link, forward := [] }) := by
  have hback : t.history.behind dtNavFormat t.historyCap link = match t.current with
      | some prev =>
        if dtNavFormat prev ≠ dtNavFormat link then
          if t.historyCap ≠ 0 ∧ t.historyCap < (t.back ++ [prev]).length then
            (t.back ++ [prev]).tail
          else t.back ++ [prev]
        else t.back
      | none => t.back := by
    unfold Stacks.behind
    cases hc : t.current with
    | none => simp [DtNavTable.history, hc]
    | some prev =>
      simp only [DtNavTable.history, hc, ne_eq, ite_not]
      rfl
  rw [hback, dtNavGo, hd]
  rfl

theorem dtNavBack_shown {b : List DtLink} {link : DtLink} {shell : σ} (hb : t.back = b ++ [link])
    (hd : dtNavDispatch t link = (true, landed t link shell)) :
    dtNavBack t = (true, { landed t link shell with
      back := b, forward := t.forward ++ t.current.toList }) := by
  rw [dtNavBack, hb, List.getLast?_concat]
  simp only [hd, landed, hb, List.dropLast_concat]

theorem dtNavForward_shown {f : List DtLink} {link : DtLink} {shell : σ}
    (hf : t.forward = f ++ [link]) (hd : dtNavDispatch t link = (true, landed t link shell)) :
    dtNavForward t = (true, { landed t link shell with
      back := t.back ++ t.current.toList, forward := f }) := by
  rw [dtNavForward, hf, List.getLast?_concat]
  simp only [hd, landed, hf, List.dropLast_concat]

theorem attempt_visit (hk : t.history.Ok dtNavFormat t.historyCap) (link : DtLink) :
    (∃ t', attempt t (.visit link) = (true, t') ∧ Made t (.visit link) t') ∨
      ∃ t', attempt t (.visit link) = (false, t') ∧ Refused t (.visit link) t' := by
  rcases dtNavDispatch_cases t link with ⟨hs, shell, hd⟩ | ⟨hs, e, hd⟩
  · have htrail := Stacks.trail_visit hk link
    exact .inl ⟨_, dtNavGo_shown hd, ⟨link, rfl, hs⟩, htrail, hk.visit link, rfl⟩
  · refine .inr ⟨_, by rw [attempt, dtNavGo, hd], ?_, e, rfl⟩
    rintro _ ⟨⟩
    exact hs

theorem attempt_back (hk : t.history.Ok dtNavFormat t.historyCap) :
    (∃ t', attempt t .back = (true, t') ∧ Made t .back t') ∨
      ∃ t', attempt t .back = (false, t') ∧ Refused t .back t' := by
  have htarget : t.trail.target .back = t.back.getLast? := Stacks.target_back t.history
  cases hb : t.back.getLast? with
  | none =>
    refine .inr ⟨_, by rw [attempt, dtNavBack, hb], ?_, _, rfl⟩
    simp [htarget, hb]
  | some link =>
    rw [hb] at htarget
    obtain ⟨b, hsplit⟩ := List.getLast?_eq_some_iff.1 hb
    rcases dtNavDispatch_cases t link with ⟨hs, shell, hd⟩ | ⟨hs, e, hd⟩
    · obtain ⟨hok, htrail⟩ := hk.back hsplit
      exact .inl ⟨_, dtNavBack_shown hsplit hd, ⟨link, htarget, hs⟩, htrail, hok, rfl⟩
    · refine .inr ⟨_, by rw [attempt, dtNavBack, hb]; simp only [hd], ?_, e, rfl⟩
      rw [htarget]
      rintro _ ⟨⟩
      exact hs

theorem attempt_forward (hk : t.history.Ok dtNavFormat t.historyCap) :
    (∃ t', attempt t .forward = (true, t') ∧ Made t .forward t') ∨
      ∃ t', attempt t .forward = (false, t') ∧ Refused t .forward t' := by
  have htarget : t.trail.target .forward = t.forward.getLast? := hk.target_forward
  cases hf : t.forward.getLast? with
  | none =>
    refine .inr ⟨_, by rw [attempt, dtNavForward, hf], ?_, _, rfl⟩
    simp [htarget, hf]
  | some link =>
    rw [hf] at htarget
    obtain ⟨f, hsplit⟩ := List.getLast?_eq_some_iff.1 hf
    rcases dtNavDispatch_cases t link with ⟨hs, shell, hd⟩ | ⟨hs, e, hd⟩
    · obtain ⟨hok, htrail⟩ := hk.forward hsplit
      exact .inl ⟨_, dtNavForward_shown hsplit hd, ⟨link, htarget, hs⟩, htrail, hok, rfl⟩
    · refine .inr ⟨_, by rw [attempt, dtNavForward, hf]; simp only [hd], ?_, e, rfl⟩
      rw [htarget]
      rintro _ ⟨⟩
      exact hs

/-- A move is made or refused, and the stacks stay those of a history. -/
theorem attempt_cases (hk : t.history.Ok dtNavFormat t.historyCap) (m : Move DtLink) :
    (∃ t', attempt t m = (true, t') ∧ Made t m t') ∨
      ∃ t', attempt t m = (false, t') ∧ Refused t m t' := by
  cases m with
  | visit link => exact attempt_visit hk link
  | back => exact attempt_back hk
  | forward => exact attempt_forward hk

theorem dtNavGo_shell (t : DtNavTable σ) (link : DtLink) :
    (dtNavGo t link).2.shell = (dtNavDispatch t link).2.shell := by
  rcases hd : dtNavDispatch t link with ⟨_ | _, t'⟩ <;> rw [dtNavGo, hd]

/-- A walk through the history lands as a fresh link does. -/
theorem attempt_shell (hk : t.history.Ok dtNavFormat t.historyCap) {m : Move DtLink} {link : DtLink}
    (h : link ∈ t.trail.target m) : (attempt t m).2.shell = (dtNavGo t link).2.shell := by
  rw [dtNavGo_shell]
  cases m with
  | visit l =>
    obtain rfl : l = link := Option.some.inj h
    exact dtNavGo_shell t l
  | back =>
    have hb : t.back.getLast? = some link := (Stacks.target_back t.history).symm.trans h
    rcases hd : dtNavDispatch t link with ⟨_ | _, t'⟩ <;> simp [attempt, dtNavBack, hb, hd]
  | forward =>
    have hf : t.forward.getLast? = some link := hk.target_forward.symm.trans h
    rcases hd : dtNavDispatch t link with ⟨_ | _, t'⟩ <;> simp [attempt, dtNavForward, hf, hd]

end Steps

section Sessions

theorem perform_ok {t : DtNavTable σ} (hk : t.history.Ok dtNavFormat t.historyCap) (op : Op σ) :
    (perform t op).1.history.Ok dtNavFormat t.historyCap ∧
      (perform t op).1.historyCap = t.historyCap ∧
      (perform t op).1.trail =
        (perform t op).2.toList.foldl (Trail.move dtNavFormat t.historyCap) t.trail := by
  cases op with
  | move m =>
    rcases attempt_cases hk m with ⟨t', ht, hm⟩ | ⟨t', ht, hr⟩
    · simp only [perform, ht, if_true]
      exact ⟨hm.ok, hm.cap, hm.trail⟩
    · obtain ⟨e, rfl⟩ := hr.same
      rw [perform, ht]
      exact ⟨hk, rfl, rfl⟩
  | register v h => exact ⟨hk, rfl, rfl⟩
  | recordings haveRecording => exact ⟨hk, rfl, rfl⟩
  | shell f => exact ⟨hk, rfl, rfl⟩

theorem session_ok {t : DtNavTable σ} (hk : t.history.Ok dtNavFormat t.historyCap)
    (ops : List (Op σ)) :
    (session t ops).1.history.Ok dtNavFormat t.historyCap ∧
      (session t ops).1.historyCap = t.historyCap ∧
      (session t ops).1.trail =
        (session t ops).2.foldl (Trail.move dtNavFormat t.historyCap) t.trail := by
  induction ops generalizing t with
  | nil => exact ⟨hk, rfl, rfl⟩
  | cons op ops ih =>
    obtain ⟨hok, hcap, htrail⟩ := perform_ok hk op
    have hrest := ih (t := (perform t op).1) (by rw [hcap]; exact hok)
    rw [hcap] at hrest
    refine ⟨hrest.1, hrest.2.1, ?_⟩
    rw [session, List.foldl_append, ← htrail]
    exact hrest.2.2

/-- A table without history. -/
def freshTable (entries : List (Entry σ)) (haveRecording : Option (Bytes → Bool)) (cap : ℕ)
    (shell : σ) : DtNavTable σ :=
  { entries := entries, haveRecording := haveRecording, historyCap := cap, shell := shell }

/-- Over every session the two stacks are the browser history of the moves that were made: it
keeps at most `cap` places besides the current one, and no two neighbours of it are the same link.
A move is made exactly when there is a place to go to and it can be shown; otherwise only the
error changes. A step back or forward lands as a fresh link to that place does. -/
theorem session_history (entries : List (Entry σ)) (haveRecording : Option (Bytes → Bool))
    (cap : ℕ) (shell : σ) (ops : List (Op σ)) :
    let r := session (freshTable entries haveRecording cap shell) ops
    let t := r.1
    t.trail = r.2.foldl (Trail.move dtNavFormat cap) ⟨[], 0⟩ ∧ t.trail.here = t.current ∧
      (cap ≠ 0 → t.trail.visited.length ≤ cap + 1) ∧
      (t.trail.visited.map dtNavFormat).IsChain (· ≠ ·) ∧
      ∀ m, ((attempt t m).1 = true ↔ ∃ link ∈ t.trail.target m, t.Shows link) ∧
        ((attempt t m).1 = false → ∃ e, (attempt t m).2 = { t with lastError := e }) ∧
        ∀ link ∈ t.trail.target m, (attempt t m).2.shell = (dtNavGo t link).2.shell := by
  intro r t
  obtain ⟨hok, hcap, htrail⟩ := session_ok (Stacks.ok_empty dtNavFormat cap) ops
    (t := freshTable entries haveRecording cap shell)
  change t.history.Ok dtNavFormat cap at hok
  have hok' : t.history.Ok dtNavFormat t.historyCap := hcap ▸ hok
  refine ⟨htrail, hok.here, hok.visited_le, hok.apart, fun m => ⟨?_, ?_, ?_⟩⟩
  · rcases attempt_cases hok' m with ⟨t', ht, hm⟩ | ⟨t', ht, hr⟩
    · simp only [ht, true_iff]
      exact hm.shows
    · simp only [ht, Bool.false_eq_true, false_iff]
      rintro ⟨link, hlink, hs⟩
      exact hr.shows link hlink hs
  · intro hfalse
    rcases attempt_cases hok' m with ⟨t', ht, hm⟩ | ⟨t', ht, hr⟩
    · simp [ht] at hfalse
    · rw [ht]
      exact hr.same
  · intro link hlink
    exact attempt_shell hok' hlink

end Sessions

end AsmTest.Nav
