import Mathlib.Tactic
import Mathlib.Data.List.Basic
import AsmTest.AmdReplay

/-!
# Arbitrary branch arrays

What the replay does with records that fit no execution. The bytes may contradict them, and
then the trace is marked. A record is passed over without a mark when its source lies in the
region but the replay does not stand in the region at or before it.
-/

namespace AsmTest.Hwtrace

open Code Lib

section Definitions

variable (c : Code) (base : ℕ)

/-- Every record with its source in the region finds the address before it, the base or the
target of the record before, in the region and not past that source. -/
def AllReached : ℕ → List BranchEntry → Prop
  | _, [] => True
  | ip, e :: recs =>
    (c.InRegion base e.fromAddr → c.InRegion base ip ∧ ip ≤ e.fromAddr) ∧
      AllReached e.toAddr recs

/-- The bytes contradict a record: the code does not lead from the address before it to its
source, or the prologue before the first known position holds a branch. -/
def Contradicted : ℕ → Bool → List BranchEntry → Prop
  | _, _, [] => False
  | ip, entered, e :: recs =>
    (Walked c base ip e ∧ ¬∃ p, Leads c base (e.fromAddr - base) (ip - base) p) ∨
    (¬Walked c base ip e ∧ EntryFails c base e.toAddr entered) ∨
    Contradicted e.toAddr
      (entered || decide (Walked c base ip e) || decide (c.InRegion base e.toAddr)) recs

/-- In this round the stream grew by a run that starts where the replay stood and ends with
the source of the record, and the final stream has it there. -/
def Contributes (s s' : ReplayState) (final : Trace) (e : BranchEntry) : Prop :=
  ∀ l, s.trace.insns = some l → ∃ run rest,
    s'.trace.insns = some (l ++ run) ∧ run.head?.map (base + ·) = some s.ip ∧
      run.getLast? = some (e.fromAddr - base) ∧ final.insns = some (l ++ run ++ rest)

/-- A trace that is not marked has the source of every retired record of the region. -/
def NeverPartial (haveSpec : Bool) (br : List BranchEntry) : Prop :=
  ∀ t, (amdReplay c base haveSpec br t).1.truncated = false →
    ∀ before e after, br.reverse = before ++ e :: after → dropped haveSpec e = false →
      c.InRegion base e.fromAddr → ∃ s s',
        replayLoop c base haveSpec ⟨traceAppendBlock t 0, base, false⟩ before = .ok s ∧
        replayStep c base haveSpec s e = .ok s' ∧
        Contributes base s s' (amdReplay c base haveSpec br t).1 e

end Definitions

variable {c : Code} {base : ℕ} {haveSpec : Bool}

/-- The address after these records. -/
def lastTo (ip : ℕ) (recs : List BranchEntry) : ℕ :=
  recs.foldl (fun _ e => e.toAddr) ip

lemma allReached_append {ip : ℕ} {a b : List BranchEntry} :
    AllReached c base ip (a ++ b) ↔ AllReached c base ip a ∧ AllReached c base (lastTo ip a) b := by
  induction a generalizing ip with
  | nil => simp [AllReached, lastTo]
  | cons e a ih =>
    rw [List.cons_append, AllReached, ih, AllReached, and_assoc]
    rfl

lemma not_allReached {ip : ℕ} {recs : List BranchEntry} (h : ¬AllReached c base ip recs) :
    ∃ a e b, recs = a ++ e :: b ∧ c.InRegion base e.fromAddr ∧
      ¬(c.InRegion base (lastTo ip a) ∧ lastTo ip a ≤ e.fromAddr) := by
  induction recs generalizing ip with
  | nil => exact absurd trivial h
  | cons e recs ih =>
    by_cases he : c.InRegion base e.fromAddr → c.InRegion base ip ∧ ip ≤ e.fromAddr
    · obtain ⟨a, e', b, rfl, hin, hnot⟩ := ih fun hr => h ⟨he, hr⟩
      exact ⟨e :: a, e', b, rfl, hin, hnot⟩
    · rw [Classical.not_imp] at he
      exact ⟨[], e, recs, rfl, he.1, he.2⟩

/-- Without a contradiction the loop appends events that do not depend on the trace. -/
lemma replayLoop_of_not_contradicted {ip : ℕ} {entered : Bool} {recs : List BranchEntry}
    (hr : ∀ e ∈ recs, dropped haveSpec e = false) (h : ¬Contradicted c base ip entered recs) :
    ∃ evs ip' entered', ∀ t, replayLoop c base haveSpec ⟨t, ip, entered⟩ recs =
      .ok ⟨emitAll t evs, ip', entered'⟩ := by
  induction recs generalizing ip entered with
  | nil => exact ⟨[], ip, entered, fun t => rfl⟩
  | cons e recs ih =>
    have he := hr e List.mem_cons_self
    have hr' : ∀ x ∈ recs, dropped haveSpec x = false := fun x hx =>
      hr x (List.mem_cons_of_mem e hx)
    rw [Contradicted, not_or, not_or] at h
    obtain ⟨hleads, hentry, hrest⟩ := h
    obtain ⟨evs, ip', entered', hloop⟩ := ih hr' hrest
    by_cases hw : Walked c base ip e
    · obtain ⟨p, hp⟩ : ∃ p, Leads c base (e.fromAddr - base) (ip - base) p := by
        by_contra hp
        exact hleads ⟨hw, hp⟩
      refine ⟨pathEvents c p ++ landEvents c base e.toAddr ++ evs, ip', entered', fun t => ?_⟩
      have hstep : replayStep c base haveSpec ⟨t, ip, entered⟩ e = _ :=
        replayStep_of_leads he hw hp
      simp only [hw, decide_true, Bool.or_true, Bool.true_or] at hloop
      rw [replayLoop_cons, hstep]
      dsimp only
      rw [hloop, ← emitAll_append]
    · obtain ⟨evs₀, -, -, hland⟩ := replayLand_of_clean fun hf => hentry ⟨hw, hf⟩
      refine ⟨evs₀ ++ evs, ip', entered', fun t => ?_⟩
      have hstep : replayStep c base haveSpec ⟨t, ip, entered⟩ e = _ :=
        replayStep_of_not_walked he hw
      simp only [hw, decide_false, Bool.or_false] at hloop
      rw [replayLoop_cons, hstep]
      dsimp only
      rw [hland, hloop, ← emitAll_append]

/-- A contradiction marks the trace. -/
lemma replayLoop_of_contradicted {s : ReplayState} {recs : List BranchEntry}
    (hr : ∀ e ∈ recs, dropped haveSpec e = false) (h : Contradicted c base s.ip s.entered recs) :
    (outcome (replayLoop c base haveSpec s recs)).truncated = true := by
  induction recs generalizing s with
  | nil => exact absurd h id
  | cons e recs ih =>
    have he := hr e List.mem_cons_self
    have hr' : ∀ x ∈ recs, dropped haveSpec x = false := fun x hx =>
      hr x (List.mem_cons_of_mem e hx)
    rw [replayLoop_cons]
    by_cases hw : Walked c base s.ip e
    · by_cases hp : ∃ p, Leads c base (e.fromAddr - base) (s.ip - base) p
      · rw [Contradicted] at h
        obtain h | h | h := h
        · exact absurd hp h.2
        · exact absurd hw h.1
        · obtain ⟨p, hp⟩ := hp
          rw [replayStep_of_leads he hw hp]
          apply ih hr'
          simpa [hw] using h
      · -- the walk runs into the contradiction and stops with the mark
        obtain ⟨t, ht, htr⟩ := replayStep_of_not_leads he hw hp
        rw [ht]
        exact htr
    · rw [replayStep_of_not_walked he hw]
      by_cases hf : EntryFails c base e.toAddr s.entered
      · exact truncated_replayLoop recs (replayLand_of_fails hf)
      · rw [Contradicted] at h
        obtain h | h | h := h
        · exact absurd h.1 hw
        · exact absurd h.2 hf
        · obtain ⟨evs, -, -, hland⟩ := replayLand_of_clean hf
          apply ih hr'
          rw [hland s.trace s.ip]
          simpa [hw] using h

lemma ip_replayLand (s : ReplayState) (toIp : ℕ) : (replayLand c base s toIp).ip = toIp := by
  rw [replayLand]
  split_ifs <;> rfl

lemma entered_replayLand {s : ReplayState} {toIp : ℕ} (h : c.InRegion base toIp) :
    (replayLand c base s toIp).entered = true := by
  rw [replayLand, if_pos h]

/-- A round that goes on ends at the target of its record, and knows a position when that is in
the region. -/
lemma replayStep_ok {s s' : ReplayState} {e : BranchEntry} (he : dropped haveSpec e = false)
    (h : replayStep c base haveSpec s e = .ok s') :
    s'.ip = e.toAddr ∧ (c.InRegion base s'.ip → s'.entered = true) := by
  obtain ⟨s₀, rfl⟩ : ∃ s₀, s' = replayLand c base s₀ e.toAddr := by
    by_cases hw : Walked c base s.ip e
    · rw [replayStep, if_neg (by simp [he]), if_pos hw] at h
      split at h
      · cases h
      · exact ⟨_, (Except.ok.inj h).symm⟩
    · rw [replayStep_of_not_walked he hw] at h
      exact ⟨s, (Except.ok.inj h).symm⟩
  rw [ip_replayLand]
  exact ⟨rfl, entered_replayLand⟩

/-- Where the loop stands after some records: a position in the region is the base, or known. -/
lemma replayLoop_ok {s s' : ReplayState} {recs : List BranchEntry}
    (hr : ∀ e ∈ recs, dropped haveSpec e = false)
    (hs : c.InRegion base s.ip → s.entered = true ∨ s.ip = base)
    (h : replayLoop c base haveSpec s recs = .ok s') :
    s'.ip = lastTo s.ip recs ∧ (c.InRegion base s'.ip → s'.entered = true ∨ s'.ip = base) := by
  induction recs generalizing s with
  | nil =>
    obtain rfl := Except.ok.inj h
    exact ⟨rfl, hs⟩
  | cons e recs ih =>
    rw [replayLoop_cons] at h
    cases hstep : replayStep c base haveSpec s e with
    | error t => simp [hstep] at h
    | ok s₁ =>
      rw [hstep] at h
      obtain ⟨hip, hent⟩ := replayStep_ok (hr e List.mem_cons_self) hstep
      obtain ⟨hip', hent'⟩ := ih (fun x hx => hr x (List.mem_cons_of_mem e hx))
        (fun hin => .inl (hent hin)) h
      refine ⟨?_, hent'⟩
      rw [hip', hip]
      rfl

lemma retired_mem (recs : List BranchEntry) :
    ∀ e ∈ recs.filter (fun e => !dropped haveSpec e), dropped haveSpec e = false := by
  intro e he
  simpa using (List.mem_filter.mp he).2

/-- A run of the loop that ends unmarked appended events and nothing else. -/
lemma replayLoop_emits {s s' : ReplayState} {recs : List BranchEntry}
    (h : replayLoop c base haveSpec s recs = .ok s') (htr : s'.trace.truncated = false) :
    ∃ evs, s'.trace = emitAll s.trace evs := by
  rw [replayLoop_filter] at h
  by_cases hc : Contradicted c base s.ip s.entered (recs.filter fun e => !dropped haveSpec e)
  · have hmark := replayLoop_of_contradicted (retired_mem recs) hc
    rw [h, outcome, htr] at hmark
    cases hmark
  · obtain ⟨evs, ip, entered, hloop⟩ := replayLoop_of_not_contradicted (retired_mem recs) hc
    rw [hloop s.trace] at h
    exact ⟨evs, (congrArg ReplayState.trace (Except.ok.inj h)).symm⟩

/-- A replay that ends unmarked ran through its records. -/
lemma amdReplay_unmarked {br : List BranchEntry} {t : Trace}
    (h : (amdReplay c base haveSpec br t).1.truncated = false) : ∃ s evs,
      replayLoop c base haveSpec ⟨traceAppendBlock t 0, base, false⟩ br.reverse = .ok s ∧
        s.trace.truncated = false ∧ (amdReplay c base haveSpec br t).1 = emitAll s.trace evs := by
  rw [amdReplay] at h ⊢
  cases hloop : replayLoop c base haveSpec ⟨traceAppendBlock t 0, base, false⟩ br.reverse with
  | error t' =>
    rw [hloop, replayLoop_error hloop] at h
    cases h
  | ok s =>
    rw [hloop] at h
    cases htr : s.trace.truncated with
    | true => simp [truncated_tailFill htr] at h
    | false =>
      refine ⟨s, tailEvents c base s.ip, rfl, htr, ?_⟩
      dsimp only
      rw [tailFill_eq, htr, if_neg Bool.false_ne_true]

lemma unmarked_before {s s' : ReplayState} {e : BranchEntry}
    (hstep : replayStep c base haveSpec s e = .ok s') (h : s'.trace.truncated = false) :
    s.trace.truncated = false := by
  by_contra hmark
  have hmark' : (outcome (replayStep c base haveSpec s e)).truncated = true :=
    truncated_replayStep e (by simpa using hmark)
  rw [hstep, outcome, h] at hmark'
  cases hmark'

/-- The states of an unmarked replay before a record and after it: only events were appended
up to the first, and from the second on. -/
lemma amdReplay_split {br before after : List BranchEntry} {e : BranchEntry} {t : Trace}
    (h : (amdReplay c base haveSpec br t).1.truncated = false)
    (hbr : br.reverse = before ++ e :: after) : ∃ s s' evs evs',
      replayLoop c base haveSpec ⟨traceAppendBlock t 0, base, false⟩ before = .ok s ∧
      replayStep c base haveSpec s e = .ok s' ∧ s.trace = emitAll t evs ∧
      s'.trace.truncated = false ∧ (amdReplay c base haveSpec br t).1 = emitAll s'.trace evs' := by
  obtain ⟨sf, tail, hloop, htr, hfinal⟩ := amdReplay_unmarked h
  rw [hbr, replayLoop_append] at hloop
  cases hs : replayLoop c base haveSpec ⟨traceAppendBlock t 0, base, false⟩ before with
  | error t' => simp [hs] at hloop
  | ok s =>
    rw [hs] at hloop
    dsimp only at hloop
    rw [replayLoop_cons] at hloop
    cases hs' : replayStep c base haveSpec s e with
    | error t' => simp [hs'] at hloop
    | ok s' =>
      rw [hs'] at hloop
      obtain ⟨evs', hevs'⟩ := replayLoop_emits hloop htr
      have htr' : s'.trace.truncated = false := by
        rw [hevs'] at htr
        exact (emitAll_extends evs' htr).1
      obtain ⟨evs, hevs⟩ := replayLoop_emits hs (unmarked_before hs' htr')
      refine ⟨s, s', .block 0 :: evs, evs' ++ tail, rfl, hs', hevs, htr', ?_⟩
      rw [hfinal, hevs', emitAll_append]

/-- A walked record contributes unless the trace is marked. -/
lemma contributes_of_walked {s s' : ReplayState} {e : BranchEntry} {final : Trace}
    {evs : List Event} (he : dropped haveSpec e = false) (hw : Walked c base s.ip e)
    (hstep : replayStep c base haveSpec s e = .ok s') (hfinal : final = emitAll s'.trace evs)
    (htr : final.truncated = false) : Contributes base s s' final e := by
  intro l hl
  obtain ⟨p, hp⟩ : ∃ p, Leads c base (e.fromAddr - base) (s.ip - base) p := by
    by_contra hp
    obtain ⟨t, ht, -⟩ := replayStep_of_not_leads he hw hp
    rw [ht] at hstep
    cases hstep
  rw [replayStep_of_leads he hw hp] at hstep
  obtain rfl := Except.ok.inj hstep
  subst hfinal
  obtain ⟨htr', hrest⟩ := emitAll_extends evs htr
  have hrun := (emitAll_extends _ htr').2.insns
  have hland : insnsOf (landEvents c base e.toAddr) = [] := by
    rw [landEvents]
    split_ifs <;> rfl
  rw [insnsOf_append, insnsOf_pathEvents, hland, List.append_nil, hl] at hrun
  refine ⟨p, insnsOf evs, hrun, ?_, hp.2.getLast?_eq, ?_⟩
  · rw [hp.2.head?_eq, Option.map_some, Nat.add_sub_cancel' hw.1.1]
  · rw [hrest.insns]
    exact congrArg (Option.map _) hrun

/-- A record that is passed over does not contribute. -/
lemma not_contributes {s s' : ReplayState} {e : BranchEntry} {final : Trace} {l : List ℕ}
    (he : dropped haveSpec e = false) (hin : c.InRegion base e.fromAddr)
    (hskip : ¬(c.InRegion base s.ip ∧ s.ip ≤ e.fromAddr))
    (hs : c.InRegion base s.ip → s.entered = true ∨ s.ip = base)
    (hstep : replayStep c base haveSpec s e = .ok s') (htr : s'.trace.truncated = false)
    (hl : s.trace.insns = some l) : ¬Contributes base s s' final e := by
  intro hc
  obtain ⟨run, rest, hrun, hhead, -⟩ := hc l hl
  rw [replayStep_of_not_walked he fun hw => hskip ⟨hw.1, hw.2.1⟩] at hstep
  obtain rfl := Except.ok.inj hstep
  -- a failed prologue would have marked the trace
  have hclean : ¬EntryFails c base e.toAddr s.entered := fun hf => by
    rw [replayLand_of_fails hf] at htr
    cases htr
  obtain ⟨evs, hlt, hent, hland⟩ := replayLand_of_clean hclean
  rw [hland s.trace s.ip] at htr hrun
  have hext := (emitAll_extends evs htr).2.insns
  rw [hl, Option.map_some] at hext
  have hevs : insnsOf evs = run := by
    have := hext.symm.trans hrun
    simpa using this
  cases run with
  | nil => cases hhead
  | cons o run =>
    have ho : base + o = s.ip := by simpa using hhead
    have holt : o < c.len := hlt o (by simp [hevs])
    have hip : c.InRegion base s.ip := ⟨by omega, by omega⟩
    obtain hent' | hip' := hs hip
    · simp [hent hent'] at hevs
    · exact hskip ⟨hip, by rw [hip']; exact hin.1⟩

lemma retired_split {br before after : List BranchEntry} {e : BranchEntry}
    (hbr : br.reverse = before ++ e :: after) (he : dropped haveSpec e = false) :
    retired haveSpec br = before.filter (fun e => !dropped haveSpec e) ++
      e :: after.filter (fun e => !dropped haveSpec e) := by
  rw [retired, hbr, List.filter_append, List.filter_cons_of_pos (by simp [he])]

/-- A retired record in the array itself. -/
lemma split_retired {br a b : List BranchEntry} {e : BranchEntry}
    (h : retired haveSpec br = a ++ e :: b) : ∃ before after,
      br.reverse = before ++ e :: after ∧ dropped haveSpec e = false ∧
        before.filter (fun e => !dropped haveSpec e) = a := by
  have he : dropped haveSpec e = false :=
    retired_mem br.reverse e (by rw [← retired, h]; simp)
  obtain ⟨before, rest, hbr, hbefore, hrest⟩ := List.filter_eq_append_iff.mp h
  obtain ⟨skipped, after, hrest', hskipped, -, -⟩ := List.filter_eq_cons_iff.mp hrest
  refine ⟨before ++ skipped, after, ?_, he, ?_⟩
  · rw [hbr, hrest', List.append_assoc]
  · rw [List.filter_append, hbefore, List.filter_eq_nil_iff.mpr hskipped, List.append_nil]

/-- Where a replay stands before a record of the array. -/
lemma replayLoop_before {before : List BranchEntry} {t : Trace} {s : ReplayState}
    (h : replayLoop c base haveSpec ⟨t, base, false⟩ before = .ok s) :
    s.ip = lastTo base (before.filter fun e => !dropped haveSpec e) ∧
      (c.InRegion base s.ip → s.entered = true ∨ s.ip = base) := by
  rw [replayLoop_filter] at h
  exact replayLoop_ok (s := ⟨t, base, false⟩) (retired_mem before) (fun _ => .inr rfl) h

/-- If nothing contradicts the records, a trace with enough room stays unmarked. -/
lemma exists_unmarked {br : List BranchEntry}
    (h : ¬Contradicted c base base false (retired haveSpec br)) :
    ∃ t, t.insns = some [] ∧ (amdReplay c base haveSpec br t).1.truncated = false := by
  obtain ⟨evs, ip, entered, hloop⟩ := replayLoop_of_not_contradicted (retired_mem br.reverse) h
  let all := .block 0 :: evs ++ tailEvents c base ip
  let t : Trace := ⟨some [], (insnsOf all).length, 0, none, 0, 0, false⟩
  have hroom : ∀ part rest, all = part ++ rest → (emitAll t part).truncated = false := by
    intro part rest hall
    apply truncated_emitAll_of_room
    refine ⟨fun l hl => ?_, fun l hl => by cases hl⟩
    obtain rfl : [] = l := Option.some.inj hl
    show [].length + (insnsOf part).length ≤ (insnsOf all).length
    rw [hall, insnsOf_append, List.length_append, List.length_nil]
    omega
  refine ⟨t, rfl, ?_⟩
  have hfirst : (emitAll t (.block 0 :: evs)).truncated = false := hroom _ _ rfl
  have hall : (emitAll t all).truncated = false := hroom all [] (by simp)
  rw [amdReplay_eq, retired, hloop]
  dsimp only
  rw [tailFill_eq, ← emitAll_append]
  dsimp only
  rw [show [Event.block 0] ++ evs = .block 0 :: evs from rfl, hfirst, if_neg Bool.false_ne_true,
    ← emitAll_append]
  exact hall

/-- The replay is honest about an array exactly when it passes over no record, or the bytes
contradict the array somewhere and the trace is marked for that. -/
theorem replay_never_partial_iff (c : Code) (base : ℕ) (haveSpec : Bool) (br : List BranchEntry) :
    NeverPartial c base haveSpec br ↔
      AllReached c base base (retired haveSpec br) ∨
        Contradicted c base base false (retired haveSpec br) := by
  constructor
  · intro h
    by_contra hnot
    rw [not_or] at hnot
    obtain ⟨a, e, b, hret, hin, hskip⟩ := not_allReached hnot.1
    obtain ⟨before, after, hbr, he, ha⟩ := split_retired hret
    -- with enough room nothing else marks the trace
    obtain ⟨t, ht, htr⟩ := exists_unmarked hnot.2
    obtain ⟨s, s', hloop, hstep, hcon⟩ := h t htr before e after hbr he hin
    obtain ⟨s₁, s₁', evs, -, hloop₁, hstep₁, hevs, htr', -⟩ := amdReplay_split htr hbr
    obtain rfl := Except.ok.inj (hloop₁.symm.trans hloop)
    obtain rfl := Except.ok.inj (hstep₁.symm.trans hstep)
    obtain ⟨hip, hs⟩ := replayLoop_before hloop
    have hl := insns_emitAll evs ht
    rw [← hevs] at hl
    rw [← ha, ← hip] at hskip
    exact not_contributes he hin hskip hs hstep htr' hl hcon
  · intro h t htr before e after hbr he hin
    obtain hreach | hcontra := h
    · obtain ⟨s, s', -, evs, hloop, hstep, -, -, hfinal⟩ := amdReplay_split htr hbr
      obtain ⟨hip, -⟩ := replayLoop_before hloop
      rw [retired_split hbr he] at hreach
      have hhere := (allReached_append.mp hreach).2.1 hin
      rw [← hip] at hhere
      exact ⟨s, s', hloop, hstep,
        contributes_of_walked he ⟨hhere.1, hhere.2, hin.2⟩ hstep hfinal htr⟩
    · -- the trace would have been marked
      obtain ⟨s, -, hloop, htr', -⟩ := amdReplay_unmarked htr
      have hmark := replayLoop_of_contradicted (s := ⟨traceAppendBlock t 0, base, false⟩)
        (retired_mem br.reverse) hcontra
      rw [← replayLoop_filter, hloop, outcome, htr'] at hmark
      cases hmark

/-- A call out of the region whose return was lost: the ret that follows is passed over, and the
trace is not marked. -/
theorem replay_skips_after_lost_return :
    let c := unitCode 100 [.plain, .jcc 100, .call 500, .ret]
    let t : Trace := ⟨some [], 8, 0, some [], 8, 0, false⟩
    let br : List BranchEntry := [⟨103, 900, false, 0⟩, ⟨102, 500, false, 0⟩]
    (amdReplay c 100 true br t).1.truncated = false ∧
      (amdReplay c 100 true br t).1.insns = some [0, 1, 2] ∧ ¬NeverPartial c 100 true br := by
  intro c t br
  have htr : (amdReplay c 100 true br t).1.truncated = false := by decide
  have hinsns : (amdReplay c 100 true br t).1.insns = some [0, 1, 2] := by decide
  refine ⟨htr, hinsns, fun h => ?_⟩
  obtain ⟨s, s', hloop, -, hcon⟩ := h t htr [⟨102, 500, false, 0⟩] ⟨103, 900, false, 0⟩ [] rfl rfl
    (by decide)
  have hcall : replayLoop c 100 true ⟨traceAppendBlock t 0, 100, false⟩ [⟨102, 500, false, 0⟩] =
      .ok ⟨⟨some [0, 1, 2], 8, 3, some [0, 2], 8, 2, false⟩, 500, true⟩ := by decide
  obtain rfl := Except.ok.inj (hcall.symm.trans hloop)
  obtain ⟨run, rest, -, -, hlast, hfinal⟩ := hcon [0, 1, 2] rfl
  have hrun : 3 ∈ run := List.mem_of_getLast? hlast
  have hmem : 3 ∈ [0, 1, 2] ++ run ++ rest := by simp [hrun]
  rw [← Option.some.inj (hinsns.symm.trans hfinal)] at hmem
  exact absurd hmem (by decide)

end AsmTest.Hwtrace
