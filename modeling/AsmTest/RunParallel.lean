import Mathlib.Tactic
import Mathlib.Data.List.Perm.Basic

/-!
# The parallel test runner

`run_parallel` keeps up to `jobs` forked children in flight, each with a slot and a pipe. A test
whose pipe or child cannot be made is run in the process itself. The operating system is a `World`:
which launches fail, what each child sends and how it ends, which descriptors are free and what
each `poll` answers.
-/

namespace AsmTest.Runner

/-- `ST_PASS`, `ST_FAIL`, `ST_SKIP` -/
inductive Outcome
  | pass
  | fail
  | skip
deriving DecidableEq, Repr

/-- What the runner reads of `asmtest_case_t` -/
structure Case where
  suite : String
  name : String
deriving DecidableEq, Repr

/-- `wire_result_t` -/
structure WireResult where
  outcome : Outcome
  line : ℤ
  file : String
  msg : String
  recPath : String
  recStep : ℤ
deriving DecidableEq, Repr

/-- `test_result_t` without its time; `suite` and `name` are null until they are set. -/
structure TestResult where
  suite : Option String := none
  name : Option String := none
  outcome : Outcome := .pass
  line : ℤ := 0
  file : String := ""
  msg : String := ""
  recPath : String := ""
  recStep : ℤ := 0
deriving DecidableEq, Repr

inductive WaitStatus
  | signaled (sig : ℕ)
  | exited (code : ℕ)
deriving DecidableEq, Repr

/-- `sizeof(wire_result_t)` -/
def wireSize : ℕ := 1552

/-- What the parent gets of a child: the bytes before the end of the pipe, and the wait status. -/
structure ChildEnd where
  got : ℕ
  wire : WireResult
  status : WaitStatus
deriving DecidableEq, Repr

/-- `SIGALRM` -/
def sigalrm : ℕ := 14

def sigName (sig : ℕ) : String :=
  if sig = 11 then "SIGSEGV" else if sig = 7 then "SIGBUS" else if sig = 8 then "SIGFPE"
  else if sig = 4 then "SIGILL" else if sig = 6 then "SIGABRT"
  else if sig = sigalrm then "SIGALRM" else "signal"

def applyWire (res : TestResult) (w : WireResult) : TestResult :=
  { res with
    outcome := w.outcome
    line := w.line
    file := w.file
    msg := w.msg
    recPath := w.recPath
    recStep := w.recStep }

/-- `reap_child`: a full record wins, else the outcome is made up from how the child ended. -/
def reapChild (timeoutSecs : ℤ) (res : TestResult) (c : ChildEnd) : TestResult :=
  if c.got = wireSize then applyWire res c.wire
  else
    let msg := match c.status with
      | .signaled sig =>
        if sig = sigalrm then "timed out after " ++ toString timeoutSecs ++ " s (killed)"
        else "crashed: killed by signal " ++ toString sig ++ " (" ++ sigName sig ++ ")"
      | .exited code =>
        if code ≠ 0 then "child exited abnormally (status " ++ toString code ++ ")"
        else "no result reported by child"
    { res with
      outcome := .fail
      line := 0
      file := "(child)"
      msg
      recPath := ""
      recStep := -1 }

/-- How the launch of a test goes -/
inductive Launch
  | pipeFails
  | forkFails
  | forks
deriving DecidableEq, Repr

/-- What `poll` answers: interrupted, failed, or for each descriptor whether it has data or hung
up. -/
inductive PollResult
  | eintr
  | fails
  | revents (ready : List Bool)
deriving DecidableEq, Repr

structure World where
  launch : ℕ → Launch
  /-- The result of the test when it is run in the process -/
  inproc : ℕ → WireResult
  /-- The child forked for a test -/
  pid : ℕ → ℕ
  child : ℕ → ChildEnd
  /-- The read end of the pipe for a test, with the descriptors of the pool that are open -/
  newFd : List ℕ → ℕ → ℕ
  /-- The answers of successive calls -/
  poll : ℕ → List ℕ → PollResult
  timeoutSecs : ℤ
  /-- `ASMTEST_DEBUG_FAIL_POLL` is set. -/
  inject : Bool

/-- `job_slot_t` without its timer; a free slot is `none`. -/
structure Slot where
  pid : ℕ
  fd : ℕ
  idx : ℕ
deriving DecidableEq, Repr

/-- The locals of `run_parallel` and the results. `finals` are the tests in the order in which they
were finalised, and `ticks` counts the calls of `poll`. -/
structure Pool where
  slots : List (Option Slot)
  next : ℕ
  done : ℕ
  results : ℕ → TestResult
  finals : List ℕ
  pollOk : Bool
  inject : Bool
  ticks : ℕ

section Model

variable (w : World) (sel : ℕ → Case)

/-- The slots with a child -/
def inFlight (slots : List (Option Slot)) : List Slot :=
  slots.filterMap id

/-- The result with the names of the test set -/
def named (i : ℕ) (r : TestResult) : TestResult :=
  { r with suite := (sel i).suite, name := (sel i).name }

/-- `spawn_job`: a child in flight, or none and the test already finalised -/
def spawnJob (open_ : List ℕ) (i : ℕ) (results : ℕ → TestResult) :
    Option Slot × (ℕ → TestResult) :=
  let r := named sel i (results i)
  if w.launch i = .forks then
    (some ⟨w.pid i, w.newFd open_ i, i⟩, Function.update results i r)
  else (none, Function.update results i (applyWire r (w.inproc i)))

/-- The loop that fills the free slots; the slots of `front` are done with. -/
def fillSlots (n : ℕ) : List (Option Slot) → List (Option Slot) → Pool → Pool
  | front, [], p => { p with slots := front }
  | front, some x :: rest, p => fillSlots n (front ++ [some x]) rest p
  | front, none :: rest, p =>
    if p.next < n then
      -- a launch that fails runs the test in the process, and the slot stays free
      let s := spawnJob w sel ((inFlight (front ++ rest)).map Slot.fd) p.next p.results
      fillSlots n (front ++ [s.1]) rest
        { p with
          next := p.next + 1
          results := s.2
          done := if s.1 = none then p.done + 1 else p.done
          finals := if s.1 = none then p.finals ++ [p.next] else p.finals }
    else fillSlots n (front ++ [none]) rest p

/-- The events of a descriptor: the last entry of `pfds` that has it -/
def readyIn (pfds : List ℕ) (ready : List Bool) (fd : ℕ) : Bool :=
  ((pfds.zip ready).filter fun e => e.1 = fd).getLast?.elim false Prod.snd

/-- The call of `poll`: which descriptors to reap, `none` where it was interrupted. Once `poll` has
failed every child is waited for. -/
def pollStep (p : Pool) : Pool × Option (ℕ → Bool) :=
  if p.pollOk then
    if p.inject then ({ p with inject := false, pollOk := false }, some fun _ => true)
    else
      let pfds := (inFlight p.slots).map Slot.fd
      let p' := { p with ticks := p.ticks + 1 }
      match w.poll p.ticks pfds with
      | .eintr => (p', none)
      | .fails => ({ p' with pollOk := false }, some fun _ => true)
      | .revents ready => (p', some (readyIn pfds ready))
  else (p, some fun _ => true)

/-- The loop that reaps the slots that are ready -/
def reapSlots (ready : ℕ → Bool) : List (Option Slot) → List (Option Slot) → Pool → Pool
  | front, [], p => { p with slots := front }
  | front, none :: rest, p => reapSlots ready (front ++ [none]) rest p
  | front, some x :: rest, p =>
    if ready x.fd then
      reapSlots ready (front ++ [none]) rest
        { p with
          results := Function.update p.results x.idx
            (reapChild w.timeoutSecs (p.results x.idx) (w.child x.pid))
          done := p.done + 1
          finals := p.finals ++ [x.idx] }
    else reapSlots ready (front ++ [some x]) rest p

/-- One round of the `while` loop -/
def iterate (n : ℕ) (p : Pool) : Pool :=
  let p := fillSlots w sel n [] p.slots p
  if inFlight p.slots = [] then p
  else
    match pollStep w p with
    | (p, none) => p
    | (p, some ready) => reapSlots w ready [] p.slots p

def runLoop (n : ℕ) : ℕ → Pool → Pool
  | 0, p => p
  | fuel + 1, p => if p.done < n then runLoop n fuel (iterate w sel n p) else p

/-- `jobs` is brought between 1 and `n`. -/
def clampJobs (jobs : ℤ) (n : ℕ) : ℕ :=
  min (if jobs < 1 then 1 else jobs.toNat) n

/-- The pool before the loop -/
def startPool (results : ℕ → TestResult) (jobs : ℕ) : Pool :=
  ⟨List.replicate jobs none, 0, 0, results, [], true, w.inject, 0⟩

/-- `run_parallel`, with so many rounds of its loop at most -/
def runParallel (results : ℕ → TestResult) (n : ℕ) (jobs : ℤ) (rounds : ℕ) : Pool :=
  runLoop w sel n rounds (startPool w results (clampJobs jobs n))

/-- `run_forked`: the serial runner -/
def runForked (i : ℕ) (r : TestResult) : TestResult :=
  if w.launch i = .forks then reapChild w.timeoutSecs r (w.child (w.pid i))
  else applyWire r (w.inproc i)

/-- What the serial loop of `main` records for a test -/
def serialResult (i : ℕ) : TestResult :=
  runForked w i (named sel i {})

end Model

section Results

variable {r r' : TestResult}

theorem applyWire_congr (hs : r.suite = r'.suite) (hn : r.name = r'.name) (c : WireResult) :
    applyWire r c = applyWire r' c := by
  rw [applyWire, applyWire, hs, hn]

/-- Nothing but the names of a result survives its child. -/
theorem reapChild_congr (hs : r.suite = r'.suite) (hn : r.name = r'.name) (t : ℤ) (c : ChildEnd) :
    reapChild t r c = reapChild t r' c := by
  rw [reapChild, reapChild, applyWire_congr hs hn, hs, hn]

/-- However a test is run, its result is under its own names. -/
theorem serialResult_names (w : World) (sel : ℕ → Case) (i : ℕ) :
    (serialResult w sel i).suite = (sel i).suite ∧ (serialResult w sel i).name = (sel i).name := by
  rw [serialResult, runForked]
  split_ifs
  · rw [reapChild]
    split_ifs <;> exact ⟨rfl, rfl⟩
  · exact ⟨rfl, rfl⟩

end Results

section Invariant

variable {w : World} {sel : ℕ → Case} {n jobs : ℕ}

/-- Every test launched so far is final or in flight, and only once; what is final has the result
of the serial runner, and what is in flight has its names. -/
structure Inv (w : World) (sel : ℕ → Case) (n jobs : ℕ) (slots : List (Option Slot)) (p : Pool) :
    Prop where
  length : slots.length = jobs
  next : p.next ≤ n
  perm : (p.finals ++ (inFlight slots).map Slot.idx).Perm (List.range p.next)
  done : p.done = p.finals.length
  fds : ((inFlight slots).map Slot.fd).Nodup
  running : ∀ x ∈ inFlight slots, x.pid = w.pid x.idx ∧ w.launch x.idx = .forks ∧
    (p.results x.idx).suite = (sel x.idx).suite ∧ (p.results x.idx).name = (sel x.idx).name
  final : ∀ i ∈ p.finals, p.results i = serialResult w sel i

variable {front rest : List (Option Slot)} {p : Pool}

theorem inFlight_append (a b : List (Option Slot)) :
    inFlight (a ++ b) = inFlight a ++ inFlight b :=
  List.filterMap_append

theorem inFlight_free (a b : List (Option Slot)) :
    inFlight (a ++ none :: b) = inFlight a ++ inFlight b := by
  rw [inFlight_append]
  rfl

theorem inFlight_busy (a b : List (Option Slot)) (x : Slot) :
    inFlight (a ++ some x :: b) = inFlight a ++ x :: inFlight b := by
  rw [inFlight_append]
  rfl

theorem Inv.idx_lt {slots : List (Option Slot)} (h : Inv w sel n jobs slots p) {i : ℕ}
    (hi : i ∈ p.finals ∨ ∃ x ∈ inFlight slots, x.idx = i) : i < p.next := by
  rw [← List.mem_range, ← h.perm.mem_iff, List.mem_append, List.mem_map]
  exact hi

/-- The next test is run in the process: its slot stays free. -/
theorem Inv.inproc (h : Inv w sel n jobs (front ++ none :: rest) p) (hnext : p.next < n)
    (hlaunch : w.launch p.next ≠ .forks) :
    Inv w sel n jobs (front ++ none :: rest)
      { p with
        next := p.next + 1
        results := Function.update p.results p.next
          (applyWire (named sel p.next (p.results p.next)) (w.inproc p.next))
        done := p.done + 1
        finals := p.finals ++ [p.next] } := by
  refine ⟨h.length, hnext, ?_, ?_, h.fds, fun x hx => ?_, fun i hi => ?_⟩
  · rw [List.range_succ, List.append_assoc]
    refine (List.Perm.append_left _ List.perm_append_comm).trans ?_
    rw [← List.append_assoc]
    exact h.perm.append_right _
  · rw [List.length_append, h.done]
    rfl
  · have hlt := h.idx_lt (.inr ⟨x, hx, rfl⟩)
    dsimp only
    rw [Function.update_of_ne hlt.ne]
    exact h.running x hx
  · dsimp only
    rcases List.mem_append.1 hi with hi | hi
    · rw [Function.update_of_ne (h.idx_lt (.inl hi)).ne]
      exact h.final i hi
    · rw [List.mem_singleton.1 hi, Function.update_self, serialResult, runForked, if_neg hlaunch]
      exact applyWire_congr rfl rfl _

/-- A child is forked for the next test into the free slot. -/
theorem Inv.forked (h : Inv w sel n jobs (front ++ none :: rest) p) (hnext : p.next < n)
    (hlaunch : w.launch p.next = .forks) {fd : ℕ}
    (hfd : fd ∉ (inFlight (front ++ rest)).map Slot.fd) :
    Inv w sel n jobs (front ++ some ⟨w.pid p.next, fd, p.next⟩ :: rest)
      { p with
        next := p.next + 1
        results := Function.update p.results p.next (named sel p.next (p.results p.next)) } := by
  have hlist := inFlight_busy front rest ⟨w.pid p.next, fd, p.next⟩
  have hold := inFlight_free front rest
  have hcons : (inFlight (front ++ some ⟨w.pid p.next, fd, p.next⟩ :: rest)).Perm
      (⟨w.pid p.next, fd, p.next⟩ :: inFlight (front ++ none :: rest)) := by
    rw [hlist, hold]
    exact List.perm_middle
  refine ⟨?_, hnext, ?_, h.done, ?_, fun x hx => ?_, fun i hi => ?_⟩
  · rw [← h.length, List.length_append, List.length_append, List.length_cons, List.length_cons]
  · rw [List.range_succ]
    refine (List.Perm.append_left _ (hcons.map Slot.idx)).trans ?_
    rw [List.map_cons]
    refine List.perm_middle.trans ?_
    refine List.Perm.trans ?_ List.perm_append_comm
    exact (h.perm.cons _)
  · rw [(hcons.map Slot.fd).nodup_iff, List.map_cons, List.nodup_cons]
    refine ⟨?_, h.fds⟩
    rw [hold, ← inFlight_append]
    exact hfd
  · rcases List.mem_cons.1 (hcons.mem_iff.1 hx) with rfl | hx
    · refine ⟨rfl, hlaunch, ?_, ?_⟩
      · dsimp only
        rw [Function.update_self]
        rfl
      · dsimp only
        rw [Function.update_self]
        rfl
    · have hlt := h.idx_lt (.inr ⟨x, hx, rfl⟩)
      dsimp only
      rw [Function.update_of_ne hlt.ne]
      exact h.running x hx
  · dsimp only
    rw [Function.update_of_ne (h.idx_lt (.inl hi)).ne]
    exact h.final i hi

/-- The child of a slot is reaped and the slot released. -/
theorem Inv.reaped {x : Slot} (h : Inv w sel n jobs (front ++ some x :: rest) p) :
    Inv w sel n jobs (front ++ none :: rest)
      { p with
        results := Function.update p.results x.idx
          (reapChild w.timeoutSecs (p.results x.idx) (w.child x.pid))
        done := p.done + 1
        finals := p.finals ++ [x.idx] } := by
  have hcons : (inFlight (front ++ some x :: rest)).Perm
      (x :: inFlight (front ++ none :: rest)) := by
    rw [inFlight_busy, inFlight_free]
    exact List.perm_middle
  have hperm : (p.finals ++ [x.idx] ++ (inFlight (front ++ none :: rest)).map Slot.idx).Perm
      (List.range p.next) := by
    refine List.Perm.trans ?_ h.perm
    rw [List.append_assoc]
    exact List.Perm.append_left _ (hcons.map Slot.idx).symm
  have hother : ∀ i, i ∈ p.finals ∨ (∃ y ∈ inFlight (front ++ none :: rest), y.idx = i) →
      i ≠ x.idx := by
    rintro i hi rfl
    have hnodup := hperm.nodup_iff.2 List.nodup_range
    rw [List.append_assoc, List.nodup_append_comm, List.append_assoc, List.singleton_append,
      List.nodup_cons] at hnodup
    refine hnodup.1 (List.mem_append.2 ?_)
    rcases hi with hi | ⟨y, hy, heq⟩
    · exact .inr hi
    · exact .inl (List.mem_map.2 ⟨y, hy, heq⟩)
  obtain ⟨hpid, hlaunch, hsuite, hname⟩ := h.running x (hcons.mem_iff.2 List.mem_cons_self)
  refine ⟨?_, h.next, hperm, ?_, ?_, fun y hy => ?_, fun i hi => ?_⟩
  · rw [← h.length, List.length_append, List.length_append, List.length_cons, List.length_cons]
  · rw [List.length_append, h.done]
    rfl
  · have hfds := h.fds
    rw [(hcons.map Slot.fd).nodup_iff, List.map_cons, List.nodup_cons] at hfds
    exact hfds.2
  · dsimp only
    rw [Function.update_of_ne (hother _ (.inr ⟨y, hy, rfl⟩))]
    exact h.running y (hcons.mem_iff.2 (List.mem_cons_of_mem x hy))
  · dsimp only
    rcases List.mem_append.1 hi with hi | hi
    · rw [Function.update_of_ne (hother i (.inl hi))]
      exact h.final i hi
    · rw [List.mem_singleton.1 hi, Function.update_self, serialResult, runForked, if_pos hlaunch,
        hpid]
      exact reapChild_congr hsuite hname _ _

/-- The invariant does not look at the poller. -/
theorem Inv.of_fields {slots : List (Option Slot)} {q : Pool} (h : Inv w sel n jobs slots p)
    (hnext : q.next = p.next) (hdone : q.done = p.done) (hresults : q.results = p.results)
    (hfinals : q.finals = p.finals) : Inv w sel n jobs slots q := by
  obtain ⟨h1, h2, h3, h4, h5, h6, h7⟩ := h
  rw [← hnext] at h2 h3
  rw [← hfinals] at h3 h4 h7
  rw [← hdone] at h4
  rw [← hresults] at h6 h7
  exact ⟨h1, h2, h3, h4, h5, h6, h7⟩

end Invariant

section Loops

variable {w : World} {sel : ℕ → Case} {n jobs : ℕ} {front rest : List (Option Slot)} {p : Pool}

/-- Filling keeps the invariant and only adds; a free slot takes a test if one is left. -/
theorem fillSlots_spec (hfd : ∀ fds i, w.newFd fds i ∉ fds)
    (h : Inv w sel n jobs (front ++ rest) p) :
    ∃ q, fillSlots w sel n front rest p = q ∧ Inv w sel n jobs q.slots q ∧ p.done ≤ q.done ∧
      p.next ≤ q.next ∧ (none ∈ rest → p.next < n → p.next < q.next) ∧ q.ticks = p.ticks := by
  -- the slots of `front` have had their turn; the invariant is about all of them
  induction rest generalizing front p with
  | nil =>
    rw [List.append_nil] at h
    exact ⟨_, rfl, h.of_fields rfl rfl rfl rfl, le_rfl, le_rfl, by simp, rfl⟩
  | cons slot rest ih =>
    have happ : ∀ s : Option Slot, front ++ [s] ++ rest = front ++ s :: rest := fun s => by simp
    rcases slot with _ | x
    · rw [fillSlots]
      by_cases hnext : p.next < n
      · rw [if_pos hnext, spawnJob]
        dsimp only
        by_cases hlaunch : w.launch p.next = .forks
        · -- a child is in flight
          rw [if_pos hlaunch]
          have hq := h.forked hnext hlaunch (hfd ((inFlight (front ++ rest)).map Slot.fd) p.next)
          rw [← happ] at hq
          obtain ⟨q, heq, hinv, hdone, hnext', -, hticks⟩ := ih hq
          exact ⟨q, heq, hinv, hdone, by dsimp only at hnext'; omega,
            fun _ _ => by dsimp only at hnext'; omega, hticks⟩
        · -- the test is final already
          rw [if_neg hlaunch]
          have hq := h.inproc hnext hlaunch
          rw [← happ] at hq
          obtain ⟨q, heq, hinv, hdone, hnext', -, hticks⟩ := ih hq
          exact ⟨q, heq, hinv, by dsimp only at hdone; omega, by dsimp only at hnext'; omega,
            fun _ _ => by dsimp only at hnext'; omega, hticks⟩
      · rw [if_neg hnext]
        rw [← happ] at h
        obtain ⟨q, heq, hinv, hdone, hnext', -, hticks⟩ := ih h
        exact ⟨q, heq, hinv, hdone, hnext', fun _ hlt => absurd hlt hnext, hticks⟩
    · rw [fillSlots]
      rw [← happ] at h
      obtain ⟨q, heq, hinv, hdone, hnext, hfill, hticks⟩ := ih h
      refine ⟨q, heq, hinv, hdone, hnext, fun hmem => hfill ?_, hticks⟩
      exact (List.mem_cons.1 hmem).resolve_left (by simp)

/-- Reaping keeps the invariant, and finalises a test if a child is ready. -/
theorem reapSlots_spec (ready : ℕ → Bool) (h : Inv w sel n jobs (front ++ rest) p) :
    ∃ q, reapSlots w ready front rest p = q ∧ Inv w sel n jobs q.slots q ∧ p.done ≤ q.done ∧
      (∀ x ∈ inFlight rest, ready x.fd = true → p.done < q.done) ∧ q.ticks = p.ticks := by
  induction rest generalizing front p with
  | nil =>
    rw [List.append_nil] at h
    exact ⟨_, rfl, h.of_fields rfl rfl rfl rfl, le_rfl, by simp [inFlight], rfl⟩
  | cons slot rest ih =>
    have happ : ∀ s : Option Slot, front ++ [s] ++ rest = front ++ s :: rest := fun s => by simp
    rcases slot with _ | x
    · rw [reapSlots]
      rw [← happ] at h
      exact ih h
    · rw [reapSlots]
      by_cases hready : ready x.fd = true
      · rw [if_pos hready]
        have hq := h.reaped
        rw [← happ] at hq
        obtain ⟨q, heq, hinv, hdone, -, hticks⟩ := ih hq
        exact ⟨q, heq, hinv, by dsimp only at hdone; omega,
          fun _ _ _ => by dsimp only at hdone; omega, hticks⟩
      · rw [if_neg hready]
        rw [← happ] at h
        obtain ⟨q, heq, hinv, hdone, hmore, hticks⟩ := ih h
        refine ⟨q, heq, hinv, hdone, fun y hy hry => ?_, hticks⟩
        have hy' : y ∈ x :: inFlight rest := hy
        rcases List.mem_cons.1 hy' with rfl | hy'
        · exact absurd hry hready
        · exact hmore y hy' hry

/-- Descriptors are distinct, so each finds its own events. -/
theorem readyIn_of_get {fds : List ℕ} {ready : List Bool} (hnodup : fds.Nodup)
    (hlen : ready.length = fds.length) (htrue : true ∈ ready) :
    ∃ fd ∈ fds, readyIn fds ready fd = true := by
  induction fds generalizing ready with
  | nil =>
    rw [List.length_nil, List.length_eq_zero_iff] at hlen
    rw [hlen] at htrue
    cases htrue
  | cons fd fds ih =>
    cases ready with
    | nil => cases htrue
    | cons b ready =>
      obtain ⟨hfd, hnodup⟩ := List.nodup_cons.1 hnodup
      have hnone : ((fds.zip ready).filter fun e => e.1 = fd) = [] := by
        rw [List.filter_eq_nil_iff]
        intro e he heq
        have hmem := (List.of_mem_zip he).1
        rw [decide_eq_true_iff] at heq
        exact hfd (heq ▸ hmem)
      rw [List.length_cons, List.length_cons] at hlen
      cases b with
      | true =>
        refine ⟨fd, List.mem_cons_self, ?_⟩
        rw [readyIn, List.zip_cons_cons, List.filter_cons_of_pos (by simp), hnone]
        rfl
      | false =>
        obtain ⟨fd', hmem, hready⟩ := ih hnodup (by omega)
          ((List.mem_cons.1 htrue).resolve_left (by simp))
        refine ⟨fd', List.mem_cons_of_mem fd hmem, ?_⟩
        have hne : fd ≠ fd' := by
          rintro rfl
          exact hfd hmem
        rw [readyIn, List.zip_cons_cons, List.filter_cons_of_neg (by simp [hne])]
        exact hready

end Loops

section Run

/-- What the operating system promises: a new descriptor is not an open one, `poll` without a
timeout returns when a descriptor has an event, and it is not interrupted for ever. -/
structure Lawful (w : World) : Prop where
  newFd : ∀ fds i, w.newFd fds i ∉ fds
  poll : ∀ t fds ready, fds ≠ [] → w.poll t fds = .revents ready →
    ready.length = fds.length ∧ true ∈ ready
  calm : ∀ t, ∃ t', t ≤ t' ∧ ∀ fds, w.poll t' fds ≠ .eintr

variable {w : World} {sel : ℕ → Case} {n jobs : ℕ} {p : Pool}

/-- One call of `poll` while children are in flight: it is interrupted, or one of them is to be
reaped. -/
theorem pollStep_spec (hw : Lawful w) (h : Inv w sel n jobs p.slots p)
    (hbusy : inFlight p.slots ≠ []) :
    (∃ q ready, pollStep w p = (q, some ready) ∧ q.slots = p.slots ∧
      Inv w sel n jobs q.slots q ∧ q.done = p.done ∧
      ∃ x ∈ inFlight p.slots, ready x.fd = true) ∨
    (∃ q, pollStep w p = (q, none) ∧ Inv w sel n jobs q.slots q ∧ q.done = p.done ∧
      q.ticks = p.ticks + 1 ∧ ∃ fds, w.poll p.ticks fds = .eintr) := by
  obtain ⟨x, hx⟩ := List.exists_mem_of_ne_nil _ hbusy
  rw [pollStep]
  by_cases hok : p.pollOk = true
  · rw [if_pos hok]
    by_cases hinj : p.inject = true
    · rw [if_pos hinj]
      exact .inl ⟨_, _, rfl, rfl, h.of_fields rfl rfl rfl rfl, rfl, x, hx, rfl⟩
    · rw [if_neg hinj]
      dsimp only
      cases hpoll : w.poll p.ticks ((inFlight p.slots).map Slot.fd) with
      | eintr => exact .inr ⟨_, rfl, h.of_fields rfl rfl rfl rfl, rfl, rfl, _, hpoll⟩
      | fails => exact .inl ⟨_, _, rfl, rfl, h.of_fields rfl rfl rfl rfl, rfl, x, hx, rfl⟩
      | revents ready =>
        obtain ⟨hlen, htrue⟩ := hw.poll _ _ _ (by simpa using hbusy) hpoll
        obtain ⟨fd, hfd, hready⟩ := readyIn_of_get h.fds hlen htrue
        obtain ⟨y, hy, rfl⟩ := List.mem_map.1 hfd
        exact .inl ⟨_, _, rfl, rfl, h.of_fields rfl rfl rfl rfl, rfl, y, hy, hready⟩
  · rw [if_neg hok]
    exact .inl ⟨p, _, rfl, rfl, h, rfl, x, hx, rfl⟩

/-- A round that does not end the run finalises a test, or its `poll` was interrupted. -/
theorem iterate_spec (hw : Lawful w) (hjobs : 0 < jobs) (h : Inv w sel n jobs p.slots p)
    (hmore : p.done < n) :
    Inv w sel n jobs (iterate w sel n p).slots (iterate w sel n p) ∧
      (p.done < (iterate w sel n p).done ∨
        (iterate w sel n p).done = p.done ∧ (iterate w sel n p).ticks = p.ticks + 1 ∧
          ∃ fds, w.poll p.ticks fds = .eintr) := by
  obtain ⟨q, hq, hinv, hdone, hnext, hfill, hticks⟩ :=
    @fillSlots_spec w sel n jobs [] p.slots p hw.newFd h
  rw [iterate, hq]
  by_cases hidle : inFlight q.slots = []
  · -- nothing is in flight: what was launched is final
    rw [if_pos hidle]
    refine ⟨hinv, .inl ?_⟩
    have hlen := hinv.perm.length_eq
    rw [hidle, List.map_nil, List.append_nil, List.length_range, ← hinv.done] at hlen
    have hlen' := h.perm.length_eq
    rw [List.length_append, List.length_map, List.length_range, ← h.done] at hlen'
    by_contra hsame
    have hidle' : inFlight p.slots = [] := by
      rw [← List.length_eq_zero_iff]
      omega
    have hfree : none ∈ p.slots := by
      obtain ⟨slot, hslot⟩ := List.exists_mem_of_length_pos (h.length ▸ hjobs)
      rcases slot with _ | x
      · exact hslot
      · have hx : x ∈ inFlight p.slots := List.mem_filterMap.2 ⟨some x, hslot, rfl⟩
        rw [hidle'] at hx
        cases hx
    have hgrow := hfill hfree (by rw [hidle'] at hlen'; simp at hlen'; omega)
    omega
  · rw [if_neg hidle]
    obtain ⟨q', ready, hpoll, hslots, hinv', hdone', x, hx, hready⟩ |
      ⟨q', hpoll, hinv', hdone', hticks', hint⟩ := pollStep_spec hw hinv hidle
    · rw [hpoll]
      dsimp only
      obtain ⟨r, hr, hinvr, -, hreap, -⟩ := @reapSlots_spec w sel n jobs [] q'.slots q' ready hinv'
      rw [hr]
      rw [← hslots] at hx
      have hlt := hreap x hx hready
      exact ⟨hinvr, .inl (by omega)⟩
    · rw [hpoll]
      dsimp only
      rw [hticks] at hticks' hint
      rcases hdone.lt_or_eq with hlt | heq
      · exact ⟨hinv', .inl (by omega)⟩
      · exact ⟨hinv', .inr ⟨by omega, hticks', hint⟩⟩

theorem runLoop_inv (hw : Lawful w) (hjobs : 0 < n → 0 < jobs) (h : Inv w sel n jobs p.slots p)
    (rounds : ℕ) :
    Inv w sel n jobs (runLoop w sel n rounds p).slots (runLoop w sel n rounds p) := by
  -- a round fills, polls and reaps
  induction rounds generalizing p with
  | zero => exact h
  | succ rounds ih =>
    rw [runLoop]
    by_cases hmore : p.done < n
    · rw [if_pos hmore]
      exact ih (iterate_spec hw (hjobs (by omega)) h hmore).1
    · rw [if_neg hmore]
      exact h

theorem runLoop_of_done (hdone : ¬p.done < n) (rounds : ℕ) : runLoop w sel n rounds p = p := by
  cases rounds with
  | zero => rfl
  | succ rounds => rw [runLoop, if_neg hdone]

/-- The loop ends: every round finalises a test, but for the rounds in which `poll` is
interrupted. -/
theorem runLoop_ends (hw : Lawful w) (hjobs : 0 < n → 0 < jobs) (h : Inv w sel n jobs p.slots p) :
    ∃ enough, ∀ rounds, enough ≤ rounds → ¬(runLoop w sel n rounds p).done < n := by
  -- on the tests that are left, and then on the calls of `poll` until one is not interrupted
  obtain ⟨left, hleft⟩ : ∃ left, left = n - p.done := ⟨_, rfl⟩
  induction left using Nat.strong_induction_on generalizing p with
  | _ left ihleft =>
    obtain ⟨t', hle, hcalm⟩ := hw.calm p.ticks
    obtain ⟨wait, hwait⟩ : ∃ wait, wait = t' - p.ticks := ⟨_, rfl⟩
    induction wait generalizing p with
    | zero =>
      by_cases hmore : p.done < n
      · obtain ⟨hinv, hlt | ⟨-, -, fds, hint⟩⟩ := iterate_spec hw (hjobs (by omega)) h hmore
        · obtain ⟨enough, hends⟩ := ihleft (n - (iterate w sel n p).done) (by omega) hinv rfl
          refine ⟨enough + 1, fun rounds hrounds => ?_⟩
          obtain ⟨rounds, rfl⟩ : ∃ r, rounds = r + 1 := ⟨rounds - 1, by omega⟩
          rw [runLoop, if_pos hmore]
          exact hends rounds (by omega)
        · rw [show p.ticks = t' by omega] at hint
          exact absurd hint (hcalm fds)
      · exact ⟨0, fun rounds _ => by rwa [runLoop_of_done hmore]⟩
    | succ wait ihwait =>
      by_cases hmore : p.done < n
      · obtain ⟨hinv, hlt | ⟨hsame, hticks, -⟩⟩ := iterate_spec hw (hjobs (by omega)) h hmore
        · obtain ⟨enough, hends⟩ := ihleft (n - (iterate w sel n p).done) (by omega) hinv rfl
          refine ⟨enough + 1, fun rounds hrounds => ?_⟩
          obtain ⟨rounds, rfl⟩ : ∃ r, rounds = r + 1 := ⟨rounds - 1, by omega⟩
          rw [runLoop, if_pos hmore]
          exact hends rounds (by omega)
        · obtain ⟨enough, hends⟩ := ihwait hinv (by omega) (by omega) (by omega)
          refine ⟨enough + 1, fun rounds hrounds => ?_⟩
          obtain ⟨rounds, rfl⟩ : ∃ r, rounds = r + 1 := ⟨rounds - 1, by omega⟩
          rw [runLoop, if_pos hmore]
          exact hends rounds (by omega)
      · exact ⟨0, fun rounds _ => by rwa [runLoop_of_done hmore]⟩

theorem inv_start (w : World) (sel : ℕ → Case) (n jobs : ℕ) (results : ℕ → TestResult) :
    Inv w sel n jobs (startPool w results jobs).slots (startPool w results jobs) := by
  have hidle : inFlight (startPool w results jobs).slots = [] := by
    rw [startPool, inFlight, List.filterMap_replicate_of_none rfl]
  refine ⟨List.length_replicate, Nat.zero_le _, ?_, rfl, ?_, ?_, ?_⟩
  · rw [hidle]
    exact List.Perm.refl _
  · rw [hidle]
    exact List.nodup_nil
  · rw [hidle]
    simp
  · intro i hi
    cases hi

theorem Inv.inFlight_le {slots : List (Option Slot)} (h : Inv w sel n jobs slots p) :
    (inFlight slots).length ≤ jobs := by
  rw [← h.length]
  exact List.length_filterMap_le _ _

/-- However launches fail, children end and `poll` answers, there are never more than `jobs`
children in flight, and the run ends with every test finalised exactly once, under its own names
and with the result that the serial runner records: what the child forked for the test reports, if
it reports all of it. -/
theorem runParallel_exact (hw : Lawful w) (sel : ℕ → Case) (results : ℕ → TestResult) (n : ℕ)
    {jobs : ℤ} (hjobs : 1 ≤ jobs) :
    (∀ rounds, let p := runParallel w sel results n jobs rounds
      ((inFlight p.slots).length : ℤ) ≤ jobs ∧
        ((inFlight (fillSlots w sel n [] p.slots p).slots).length : ℤ) ≤ jobs) ∧
    ∃ enough, ∀ rounds, enough ≤ rounds → let p := runParallel w sel results n jobs rounds
      p.done = n ∧ p.finals.Perm (List.range n) ∧ inFlight p.slots = [] ∧
        ∀ i < n, (p.results i).suite = (sel i).suite ∧ (p.results i).name = (sel i).name ∧
          p.results i = serialResult w sel i ∧
          (w.launch i = .forks → (w.child (w.pid i)).got = wireSize →
            p.results i = applyWire (named sel i {}) (w.child (w.pid i)).wire) := by
  have hclamp : (clampJobs jobs n : ℤ) ≤ jobs := by
    rw [clampJobs, if_neg (by omega)]
    omega
  have hpos : 0 < n → 0 < clampJobs jobs n := by
    intro hn
    rw [clampJobs, if_neg (by omega)]
    omega
  have hstart := inv_start w sel n (clampJobs jobs n) results
  have hinv := fun rounds => runLoop_inv hw hpos hstart rounds
  refine ⟨fun rounds => ⟨?_, ?_⟩, ?_⟩
  · have hle := (hinv rounds).inFlight_le
    rw [runParallel]
    omega
  · obtain ⟨q, hq, hinvq, -⟩ := @fillSlots_spec w sel n _ [] _ _ hw.newFd (hinv rounds)
    rw [runParallel, hq]
    have hle := hinvq.inFlight_le
    omega
  · obtain ⟨enough, hends⟩ := runLoop_ends hw hpos hstart
    refine ⟨enough, fun rounds hrounds => ?_⟩
    have hend := hends rounds hrounds
    have h := hinv rounds
    rw [runParallel]
    dsimp only
    generalize runLoop w sel n rounds _ = p at hend h ⊢
    have hlen := h.perm.length_eq
    rw [List.length_append, List.length_map, List.length_range, ← h.done] at hlen
    have hnext := h.next
    have hidle : inFlight p.slots = [] := by
      rw [← List.length_eq_zero_iff]
      omega
    have hperm : p.finals.Perm (List.range n) := by
      have hperm := h.perm
      rwa [hidle, List.map_nil, List.append_nil, show p.next = n by omega] at hperm
    refine ⟨by omega, hperm, hidle, fun i hi => ?_⟩
    have hresult := h.final i (hperm.mem_iff.2 (List.mem_range.2 hi))
    obtain ⟨hsuite, hname⟩ := serialResult_names w sel i
    refine ⟨?_, ?_, hresult, fun hforks hgot => ?_⟩
    · rw [hresult, hsuite]
    · rw [hresult, hname]
    · rw [hresult, serialResult, runForked, if_pos hforks, reapChild, if_pos hgot]

/-- Three tests: the first child is killed by SIGSEGV before it reports, the second cannot be
forked, and the third reports a failure. The first `poll` is interrupted. -/
def crashWorld : World where
  launch i := if i = 1 then .forkFails else .forks
  inproc _ := ⟨.skip, 3, "t.c", "", "", -1⟩
  pid i := 100 + i
  child pid := if pid = 100 then ⟨0, ⟨.pass, 0, "", "", "", 0⟩, .signaled 11⟩
    else ⟨wireSize, ⟨.fail, 12, "t.c", "2 != 3", "", -1⟩, .exited 1⟩
  newFd fds _ := fds.foldl max 2 + 1
  poll t fds := if t = 0 then .eintr else .revents (fds.map fun _ => true)
  timeoutSecs := 5
  inject := false

theorem lawful_crashWorld : Lawful crashWorld where
  newFd fds i hmem := by
    have hle := (List.max?_eq_some_iff.1 (@List.max?_cons' ℕ 2 _ fds)).2 _
      (List.mem_cons_of_mem 2 hmem)
    change fds.foldl max 2 + 1 ≤ fds.foldl max 2 at hle
    omega
  poll t fds ready hne hpoll := by
    obtain ⟨fd, hfd⟩ := List.exists_mem_of_ne_nil _ hne
    rw [crashWorld] at hpoll
    dsimp only at hpoll
    split_ifs at hpoll
    cases hpoll
    exact ⟨List.length_map _, List.mem_map.2 ⟨fd, hfd, rfl⟩⟩
  calm t := by
    refine ⟨t + 1, by omega, fun fds => ?_⟩
    rw [crashWorld]
    dsimp only
    rw [if_neg (by omega)]
    exact fun h => by cases h

theorem runParallel_exact_crash :
    ∃ enough, ∀ rounds, enough ≤ rounds →
      let p := runParallel crashWorld (fun i => ⟨"suite", toString i⟩) (fun _ => {}) 3 2 rounds
      p.done = 3 ∧ (p.results 0).msg = "crashed: killed by signal 11 (SIGSEGV)" ∧
        (p.results 1).outcome = .skip ∧
        p.results 2 = ⟨some "suite", some "2", .fail, 12, "t.c", "2 != 3", "", -1⟩ := by
  obtain ⟨enough, hends⟩ := (@runParallel_exact crashWorld lawful_crashWorld
    (fun i => ⟨"suite", toString i⟩) (fun _ => {}) 3 2 (by decide)).2
  refine ⟨enough, fun rounds hrounds => ?_⟩
  obtain ⟨hdone, -, -, hres⟩ := hends rounds hrounds
  refine ⟨hdone, ?_, ?_, ?_⟩
  · rw [(hres 0 (by decide)).2.2.1]
    decide
  · rw [(hres 1 (by decide)).2.2.1]
    decide
  · rw [(hres 2 (by decide)).2.2.2 rfl rfl]
    decide

end Run

end AsmTest.Runner
