import AsmTest.WindowComplete

/-!
# The two steppers of a window

With the region set fixed before the start and no signals, a capture by taken branch that is not
marked truncated is the capture by instruction, if the return address is reached by taken branches
only and the execution fits in the budget of the stepper by instruction.
-/

namespace AsmTest.Window

open Hwtrace (Code Step Trace BsStatus ptraceStreamCap targetsOf NoResidual)
open AddrChannel

/-- An execution from an address on, as the processor does it -/
def Follows (c : Code) (isRep : ℕ → Bool) : ℕ → List Step → Prop
  | _, [] => True
  | pc, s :: steps => s.pc = pc ∧ ExecOk c isRep s ∧ Follows c isRep s.next steps

/-- The tracee executes the instructions and nothing else happens. -/
def retireAll (steps : List Step) : List Ev :=
  steps.map fun s => .retire s []

section Settled

/-- Nothing is left on the channel for this table. -/
def Settled (st : St) : Prop :=
  st.regs.length < addrChanCap → st.chan.tail = st.chan.head ∧ st.chan.head < 2 ^ 32

theorem drainLoop_snd {c : Channel} {h room t : ℕ} (hh : h < 2 ^ 32) (ht : t < 2 ^ 32)
    (hroom : sub32 h t ≤ room) : (drainLoop c h room t).2 = h := by
  induction room generalizing t with
  | zero =>
    rw [sub32] at hroom
    rw [drainLoop]
    dsimp only
    omega
  | succ room ih =>
    rw [drainLoop]
    by_cases heq : t = h
    · rw [if_pos heq]
      exact heq
    · rw [if_neg heq]
      refine ih (Nat.mod_lt _ (by decide)) ?_
      rw [sub32] at hroom ⊢
      omega

/-- A drain into the whole table takes all there is. -/
theorem settled_drain {st : St} (hregs : st.regs = []) (hh : st.chan.head < 2 ^ 32)
    (ht : st.chan.tail < 2 ^ 32) : Settled st.drain := by
  have hroom : st.regs.length < addrChanCap := by
    rw [hregs]
    decide
  intro _
  rw [St.drain, if_pos hroom, addrChannelDrain, if_neg (by omega)]
  dsimp only
  refine ⟨drainLoop_snd hh ?_ ?_, hh⟩
  · split_ifs
    · exact Nat.mod_lt _ (by decide)
    · exact ht
  · rw [hregs, List.length_nil]
    split_ifs with hlap
    · rw [sub32, sub32, addrChanCap]
      omega
    · rw [decide_eq_true_iff] at hlap
      omega

theorem sub32_self (h : ℕ) : sub32 h h = 0 := by
  rw [sub32]
  omega

/-- A drain of an empty channel -/
theorem addrChannelDrain_empty {c : Channel} (hc : c.tail = c.head) (max : ℕ) :
    addrChannelDrain c max = (c, []) := by
  have hlapped : decide (addrChanCap < sub32 c.head c.tail) = false := by
    rw [hc, sub32_self]
    exact decide_eq_false (Nat.not_lt_zero _)
  cases max with
  | zero => rw [addrChannelDrain, if_pos rfl]
  | succ room =>
    rw [addrChannelDrain, if_neg (Nat.succ_ne_zero room)]
    dsimp only
    rw [hlapped, if_neg Bool.false_ne_true, drainLoop, if_pos hc, Bool.or_false]

theorem Settled.drain {st : St} (h : Settled st) : st.drain = st := by
  rw [St.drain]
  by_cases hroom : st.regs.length < addrChanCap
  · rw [if_pos hroom, addrChannelDrain_empty (h hroom).1]
    dsimp only
    rw [List.append_nil]
  · rw [if_neg hroom]

end Settled

section Instructions

variable {w : Win} {st : St}

/-- A step stop when nothing is left on the channel -/
theorem trapStop_settled (hset : Settled st) (hcap : st.steps < ptraceWindowStepCap) :
    trapStop w st =
      if w.stopForm = false ∧ st.pc = w.ret then ({ st with steps := st.steps + 1 }, some .reached)
      else if inRegionSet w st.regs st.pc then
        if st.stream.length < ptraceStreamCap then
          ({ st with steps := st.steps + 1, stream := st.stream ++ [st.pc] }, none)
        else ({ st with steps := st.steps + 1, overflow := true }, some .cut)
      else ({ st with steps := st.steps + 1 }, none) := by
  have hdrain : St.drain { st with steps := st.steps + 1 } = { st with steps := st.steps + 1 } :=
    Settled.drain hset
  rw [trapStop]
  dsimp only
  rw [if_neg (Nat.not_lt.2 hcap), hdrain]

/-- The state after an instruction that is stepped and recorded -/
def St.stepped (w : Win) (st : St) (s : Step) : St :=
  { st.execute s.next with
    steps := st.steps + 1
    stream := st.stream ++ [s.next].filter (inRegionSet w st.regs) }

theorem trapStop_stepped {s : Step} (hset : Settled st) (hcap : st.steps < ptraceWindowStepCap)
    (hret : ¬(w.stopForm = false ∧ s.next = w.ret))
    (hroom : (st.stepped w s).stream.length ≤ ptraceStreamCap) :
    trapStop w (st.execute s.next) = (st.stepped w s, none) := by
  have hset' : Settled (st.execute s.next) := hset
  have hret' : ¬(w.stopForm = false ∧ (st.execute s.next).pc = w.ret) := hret
  rw [trapStop_settled hset' hcap, if_neg hret']
  by_cases hin : inRegionSet w st.regs s.next = true
  · have hfilter : [s.next].filter (inRegionSet w st.regs) = [s.next] := by
      rw [List.filter_singleton, hin]
      rfl
    rw [St.stepped, hfilter, List.length_append] at hroom
    rw [if_pos (show inRegionSet w (st.execute s.next).regs (st.execute s.next).pc = true from hin),
      if_pos (show (st.execute s.next).stream.length < ptraceStreamCap from hroom), St.stepped,
      hfilter]
    rfl
  · have hfilter : [s.next].filter (inRegionSet w st.regs) = [] := by
      rw [List.filter_singleton, Bool.eq_false_of_not_eq_true hin]
      rfl
    rw [if_neg (show ¬inRegionSet w (st.execute s.next).regs (st.execute s.next).pc = true
      from hin), St.stepped, hfilter, List.append_nil]
    rfl

/-- A retired instruction takes the loop to its step stop. -/
theorem loop_retire (hstop : st.stop = false) (s : Step) (evs : List Ev) :
    traceAttachedWindowLoop w st (.retire s [] :: evs) =
      match trapStop w (st.execute s.next) with
      | (st, some e) => (st, e)
      | (st, none) => traceAttachedWindowLoop w st evs := by
  rw [traceAttachedWindowLoop, if_neg (by simp [hstop])]
  rfl

/-- By instruction: up to the first arrival at the return address every address in the region set
is recorded. -/
theorem loop_to_return {pre : List Step} {s : Step} {rest : List Ev} (hset : Settled st)
    (hstop : st.stop = false) (hform : w.stopForm = false)
    (hcap : st.steps + pre.length < ptraceWindowStepCap) (hpre : ∀ x ∈ pre, x.next ≠ w.ret)
    (hs : s.next = w.ret) (hno : st.overflow = false)
    (hroom : (st.stream ++ (pre.map Step.next).filter (inRegionSet w st.regs)).length ≤
      ptraceStreamCap) :
    (traceAttachedWindowLoop w st (retireAll pre ++ .retire s [] :: rest)).2 = .reached ∧
      (traceAttachedWindowLoop w st (retireAll pre ++ .retire s [] :: rest)).1.overflow = false ∧
      (traceAttachedWindowLoop w st (retireAll pre ++ .retire s [] :: rest)).1.stream =
        st.stream ++ (pre.map Step.next).filter (inRegionSet w st.regs) := by
  induction pre generalizing st with
  | nil =>
    have hset' : Settled (st.execute s.next) := hset
    rw [List.length_nil] at hcap
    change (traceAttachedWindowLoop w st (.retire s [] :: rest)).2 = _ ∧
      (traceAttachedWindowLoop w st (.retire s [] :: rest)).1.overflow = _ ∧
      (traceAttachedWindowLoop w st (.retire s [] :: rest)).1.stream = _
    rw [loop_retire hstop, trapStop_settled hset' hcap, if_pos ⟨hform, hs⟩]
    exact ⟨rfl, hno, (List.append_nil _).symm⟩
  | cons x pre ih =>
    obtain ⟨hx, hpre⟩ := List.forall_mem_cons.1 hpre
    have hsplit : st.stream ++ ((x :: pre).map Step.next).filter (inRegionSet w st.regs) =
        (st.stepped w x).stream ++ (pre.map Step.next).filter (inRegionSet w st.regs) := by
      rw [← List.singleton_append, List.map_append, List.filter_append, ← List.append_assoc]
      rfl
    rw [hsplit] at hroom ⊢
    rw [List.length_cons] at hcap
    have hfits : (st.stepped w x).stream.length ≤ ptraceStreamCap := by
      rw [List.length_append] at hroom
      omega
    change (traceAttachedWindowLoop w st
        (.retire x [] :: (retireAll pre ++ .retire s [] :: rest))).2 = _ ∧
      (traceAttachedWindowLoop w st
        (.retire x [] :: (retireAll pre ++ .retire s [] :: rest))).1.overflow = _ ∧
      (traceAttachedWindowLoop w st
        (.retire x [] :: (retireAll pre ++ .retire s [] :: rest))).1.stream = _
    rw [loop_retire hstop, trapStop_stepped hset (by omega) (fun h => hx h.2) hfits]
    have hcap' : st.steps + 1 + pre.length < ptraceWindowStepCap := by omega
    exact @ih (st.stepped w x) hset hstop hcap' hpre hno hroom

end Instructions

section Blocks

variable {w : Win} {c : Code} {isRep : ℕ → Bool} {st st' : St} {p₀ : ℕ} {q : List Step}

/-- The recording loop keeps to the room of the stream. -/
theorem walkLoop_room {regs : List AddrRec} {exclusive : Bool} {term : ℕ} {r : BsStatus}
    {guard walk : ℕ} {rep : Bool} {stream : List ℕ} (h : stream.length ≤ ptraceStreamCap) :
    (walkLoop w c isRep regs exclusive term r guard walk rep stream).2.length ≤
      ptraceStreamCap := by
  induction guard generalizing walk rep stream with
  | zero => exact h
  | succ guard ih =>
    have hput : ¬(inRegionSet w regs walk = true ∧ ptraceStreamCap ≤ stream.length) →
        (if inRegionSet w regs walk = true then stream ++ [walk] else stream).length ≤
          ptraceStreamCap := by
      intro hfull
      split_ifs with hin
      · rw [List.length_append, List.length_singleton]
        have hlt : ¬ptraceStreamCap ≤ stream.length := fun hle => hfull ⟨hin, hle⟩
        omega
      · exact h
    rw [walkLoop]
    dsimp only
    by_cases hcut : exclusive = true ∧ walk = term
    · rw [if_pos hcut]
      exact h
    rw [if_neg hcut]
    by_cases hover : term < walk
    · rw [if_pos hover]
      exact h
    rw [if_neg hover]
    by_cases hd : (c.disasProbe walk).len = 0
    · rw [if_pos hd]
      exact h
    rw [if_neg hd]
    by_cases hfull : inRegionSet w regs walk = true ∧ ptraceStreamCap ≤ stream.length
    · rw [if_pos hfull]
      exact h
    rw [if_neg hfull]
    by_cases hterm : exclusive = false ∧ walk = term
    · rw [if_pos hterm]
      exact hput hfull
    · rw [if_neg hterm]
      exact ih (hput hfull)

theorem windowBlockWalk_room {regs : List AddrRec} {toPc : ℕ} {r : BsStatus} {stream out : List ℕ}
    (h : stream.length ≤ ptraceStreamCap)
    (hwalk : windowBlockWalk w c isRep regs false false p₀ toPc stream = (r, out)) :
    out.length ≤ ptraceStreamCap := by
  rw [windowBlockWalk, if_neg Bool.false_ne_true] at hwalk
  rcases hscan : windowScanTerminator c p₀ toPc with ⟨_ | _ | _, term⟩
  all_goals
    rw [hscan] at hwalk
    cases (Prod.ext_iff.1 hwalk).2
  · exact h
  · exact walkLoop_room h
  · exact walkLoop_room h

/-- A stop of the block loop that goes on unmarked, when nothing is left on the channel -/
theorem blockStop_settled (hset : Settled st)
    (h : blockStop w c isRep false false p₀ st = (st', none)) (hno : st'.overflow = false) :
    st'.chan = st.chan ∧ st'.regs = st.regs ∧ st'.pc = st.pc ∧
      ((inRegionSet w st.regs p₀ = false ∧ st'.stream = st.stream) ∨
        windowBlockWalk w c isRep st.regs false false p₀ st.pc st.stream = (.ok, st'.stream)) := by
  have hdrain : St.drain { st with steps := st.steps + 1 } = { st with steps := st.steps + 1 } :=
    Settled.drain hset
  rw [blockStop] at h
  dsimp only at h
  by_cases hcap : ptraceWindowStepCap < st.steps + 1
  · rw [if_pos hcap] at h
    cases h
  rw [if_neg hcap, hdrain] at h
  dsimp only at h
  by_cases hin : inRegionSet w st.regs p₀ = true
  · rw [if_pos hin] at h
    rcases hwalk : windowBlockWalk w c isRep st.regs false false p₀ st.pc st.stream with ⟨r, out⟩
    rw [hwalk] at h
    cases r with
    | fail => cases h
    | ambiguous =>
      cases h
      cases hno
    | ok =>
      cases h
      exact ⟨rfl, rfl, rfl, .inr rfl⟩
  · rw [if_neg hin] at h
    cases h
    exact ⟨rfl, rfl, rfl, .inl ⟨Bool.eq_false_of_not_eq_true hin, rfl⟩⟩

/-- The block that a taken branch ends is recorded whole; when it starts outside the region set, it
has nothing in there. -/
theorem OpenPath.recorded {s : Step} (hpath : OpenPath c isRep p₀ q s.pc) (hs : ExecOk c isRep s)
    (htaken : s.taken = true)
    (hres : c.disasBranchTarget 0 s.pc = none → s.next ∉ targetsOf c 0 q)
    (hin : ∀ x ∈ q ++ [s], inRegionSet w st.regs x.pc = true → inRegionSet w st.regs p₀ = true)
    (hset : Settled st) (h : blockStop w c isRep false false p₀ (st.execute s.next) = (st', none))
    (hno : st'.overflow = false) (hroom : st.stream.length ≤ ptraceStreamCap) :
    st'.stream = st.stream ++ ((q ++ [s]).map Step.pc).filter (inRegionSet w st.regs) ∧
      st'.stream.length ≤ ptraceStreamCap := by
  have hset' : Settled (st.execute s.next) := hset
  obtain ⟨-, -, -, ⟨hout, hstream⟩ | hwalk⟩ := blockStop_settled hset' h hno
  · have hnone : ((q ++ [s]).map Step.pc).filter (inRegionSet w st.regs) = [] := by
      rw [List.filter_eq_nil_iff]
      intro pc hpc hpcin
      obtain ⟨x, hx, rfl⟩ := List.mem_map.1 hpc
      have hstart : inRegionSet w st.regs p₀ = false := hout
      rw [hin x hx hpcin] at hstart
      cases hstart
    rw [hnone, List.append_nil]
    exact ⟨hstream, hstream ▸ hroom⟩
  · exact ⟨hpath.closes hs htaken hres hwalk, windowBlockWalk_room hroom hwalk⟩

/-- A retired instruction that is not a taken branch is not a stop. -/
theorem blockLoop_retire {stopped : Bool} (hform : w.stopForm = false) (s : Step)
    (evs : List Ev) :
    windowBlockLoop w c isRep stopped p₀ st (.retire s [] :: evs) =
      if s.taken = false then windowBlockLoop w c isRep false p₀ (st.execute s.next) evs
      else
        match blockStop w c isRep false false p₀ (st.execute s.next) with
        | (st, some e) => (st, e)
        | (st, none) =>
          if w.stopForm = false ∧ st.pc = w.ret then (st, .reached)
          else windowBlockLoop w c isRep true st.pc st evs := by
  rw [windowBlockLoop, if_neg (fun h => Bool.false_ne_true (hform.symm.trans h.2.1))]
  rfl

/-- By taken branch: a capture that ends unmarked ends at a taken branch to the return address, and
up to there every address in the region set is recorded. -/
theorem blockLoop_to_return {stopped : Bool} {steps : List Step} (hform : w.stopForm = false)
    (hset : Settled st) (hpath : OpenPath c isRep p₀ q st.pc)
    (hrun : Follows c isRep st.pc steps) (hres : NoResidual c 0 (targetsOf c 0 q) steps)
    (henter : ∀ x ∈ steps, x.taken = false → inRegionSet w st.regs x.next = true →
      inRegionSet w st.regs x.pc = true)
    (hin : ∀ pc ∈ q.map Step.pc ++ [st.pc], inRegionSet w st.regs pc = true →
      inRegionSet w st.regs p₀ = true)
    (hroom : st.stream.length ≤ ptraceStreamCap)
    (hend : (windowBlockLoop w c isRep stopped p₀ st (retireAll steps)).2 = .reached)
    (hno : (windowBlockLoop w c isRep stopped p₀ st (retireAll steps)).1.overflow = false) :
    ∃ pre s rest, steps = pre ++ s :: rest ∧ s.next = w.ret ∧
      (∀ x ∈ pre, x.taken = true → x.next ≠ w.ret) ∧
      (windowBlockLoop w c isRep stopped p₀ st (retireAll steps)).1.stream =
        st.stream ++ ((q ++ (pre ++ [s])).map Step.pc).filter (inRegionSet w st.regs) ∧
      (windowBlockLoop w c isRep stopped p₀ st (retireAll steps)).1.stream.length ≤
        ptraceStreamCap := by
  induction steps generalizing st p₀ q stopped with
  | nil =>
    change (if stopped = true ∧ w.stopForm = true ∧ st.stop = true then End.reached else .cut) =
      .reached at hend
    rw [if_neg (fun h => Bool.false_ne_true (hform.symm.trans h.2.1))] at hend
    cases hend
  | cons s steps ih =>
    obtain ⟨hpc, hs, hrun⟩ := hrun
    obtain ⟨hes, henter⟩ := List.forall_mem_cons.1 henter
    have hround := @blockLoop_retire w c isRep st p₀ stopped hform s (retireAll steps)
    change windowBlockLoop w c isRep stopped p₀ st (retireAll (s :: steps)) = _ at hround
    rw [hround] at hend hno ⊢
    by_cases htaken : s.taken = false
    · -- the block goes on
      rw [if_pos htaken] at hend hno ⊢
      have hpath' : OpenPath c isRep p₀ (q ++ [s]) (st.execute s.next).pc := by
        rw [← hpc] at hpath
        exact hpath.falls hs htaken
      have hres' : NoResidual c 0 (targetsOf c 0 (q ++ [s])) steps := by
        have hseen := hres.2 htaken
        rw [targetsOf, List.flatMap_append, List.flatMap_singleton]
        exact hseen
      have hin' : ∀ pc ∈ (q ++ [s]).map Step.pc ++ [(st.execute s.next).pc],
          inRegionSet w st.regs pc = true → inRegionSet w st.regs p₀ = true := by
        intro pc hmem hpcin
        rw [List.map_append, List.map_singleton, hpc] at hmem
        rcases List.mem_append.1 hmem with hold | hnew
        · exact hin pc hold hpcin
        · rw [List.mem_singleton.1 hnew] at hpcin
          refine hin st.pc (List.mem_append_right _ (List.mem_singleton_self _)) ?_
          rw [← hpc]
          exact hes htaken hpcin
      have hset' : Settled (st.execute s.next) := hset
      obtain ⟨pre, t, rest, rfl, ht, hpre, hstream, hlen⟩ :=
        @ih (st.execute s.next) p₀ (q ++ [s]) false hset' hpath' hrun hres' henter hin' hroom hend
          hno
      refine ⟨s :: pre, t, rest, rfl, ht, List.forall_mem_cons.2 ⟨?_, hpre⟩, ?_, hlen⟩
      · intro h
        rw [htaken] at h
        cases h
      · rw [hstream, List.append_assoc q [s]]
        rfl
    · -- the block ends here
      rw [if_neg htaken] at hend hno ⊢
      rw [Bool.not_eq_false] at htaken
      rcases hstop : blockStop w c isRep false false p₀ (st.execute s.next) with ⟨st', _ | e⟩
      swap
      · rw [hstop] at hend
        rw [blockStop_ends w c isRep hstop] at hend
        cases hend
      rw [hstop] at hend hno
      dsimp only at hend hno ⊢
      have hno' : st'.overflow = false := by
        by_cases hret : w.stopForm = false ∧ st'.pc = w.ret
        · rw [if_pos hret] at hno
          exact hno
        · rw [if_neg hret] at hend hno
          exact blockLoop_overflow w c isRep hno hend
      have hset' : Settled (st.execute s.next) := hset
      obtain ⟨hchan, hregs, hpc', -⟩ := blockStop_settled hset' hstop hno'
      have hin' : ∀ x ∈ q ++ [s], inRegionSet w st.regs x.pc = true →
          inRegionSet w st.regs p₀ = true := by
        intro x hx
        rw [← hpc, ← List.map_singleton, ← List.map_append] at hin
        exact hin x.pc (List.mem_map_of_mem hx)
      rw [← hpc] at hpath
      obtain ⟨hstream, hlen⟩ :=
        hpath.recorded hs htaken (hres.1 htaken).1 hin' hset hstop hno' hroom
      by_cases hret : w.stopForm = false ∧ st'.pc = w.ret
      · rw [if_pos hret] at hend hno ⊢
        refine ⟨[], s, steps, rfl, ?_, fun x hx => (by cases hx), hstream, hlen⟩
        rw [← hret.2, hpc']
        rfl
      · rw [if_neg hret] at hend hno ⊢
        have hregs' : st'.regs = st.regs := hregs
        have hchan' : st'.chan = st.chan := hchan
        have hset₁ : Settled st' := by
          rw [Settled, hregs', hchan']
          exact hset
        have hnext : st'.pc = s.next := hpc'
        have hin₁ : ∀ pc ∈ ([] : List Step).map Step.pc ++ [st'.pc],
            inRegionSet w st'.regs pc = true → inRegionSet w st'.regs st'.pc = true := by
          intro pc hmem hpcin
          rw [List.mem_singleton.1 hmem] at hpcin
          exact hpcin
        rw [← hregs'] at henter
        rw [← hnext] at hrun
        obtain ⟨pre, t, rest, rfl, ht, hpre, hstream', hlen'⟩ :=
          @ih st' st'.pc [] true hset₁ (.nil _ _ _) hrun (hres.1 htaken).2 henter hin₁ hlen hend hno
        refine ⟨s :: pre, t, rest, rfl, ht,
          List.forall_mem_cons.2 ⟨fun _ heq => ?_, hpre⟩, ?_, hlen'⟩
        · exact hret ⟨hform, hnext.trans heq⟩
        · rw [hstream', hstream, hregs', List.append_assoc, ← List.filter_append, ← List.map_append,
            List.append_assoc]
          rfl

end Blocks

section Whole

/-- Publishing before the window keeps the counters of the channel in range. -/
theorem chan_publishAll {st : St} (hh : st.chan.head < 2 ^ 32) (rs : List AddrRec) :
    (st.publishAll rs).chan.head < 2 ^ 32 ∧ (st.publishAll rs).chan.tail = st.chan.tail := by
  induction rs generalizing st with
  | nil => exact ⟨hh, rfl⟩
  | cons r rs ih => exact @ih (st.publish r) (Nat.mod_lt _ (by decide))

/-- The channel that was drained when the window started is empty. -/
theorem settled_startSt (recs : ℕ → AddrRec) (log : List AddrRec) (pc : ℕ) :
    Settled (startSt recs log pc).drain := by
  obtain ⟨-, hregs, -⟩ := publishAll_eq { chan := addrChannelInit recs, log := [], pc := pc } log
  obtain ⟨hhead, htail⟩ := @chan_publishAll { chan := addrChannelInit recs, log := [], pc := pc }
    (show 0 < 2 ^ 32 by decide) log
  refine settled_drain hregs hhead ?_
  rw [startSt, htail]
  exact show 0 < 2 ^ 32 by decide

/-- The addresses of an execution: where it starts, and where each instruction but the last goes. -/
theorem Follows.map_pc {c : Code} {isRep : ℕ → Bool} {pc : ℕ} {pre rest : List Step} {s : Step}
    (h : Follows c isRep pc (pre ++ s :: rest)) :
    (pre ++ [s]).map Step.pc = pc :: pre.map Step.next := by
  induction pre generalizing pc with
  | nil =>
    rw [List.nil_append, List.map_singleton, h.1]
    rfl
  | cons x pre ih =>
    rw [List.cons_append, List.map_cons, ih h.2.2, h.1]
    rfl

theorem stop_before_return {pre rest : List Step} {s : Step} {ret cap : ℕ}
    (hpre : ∀ x ∈ pre, x.next ≠ ret) (h : ret ∈ ((pre ++ s :: rest).take cap).map Step.next) :
    pre.length < cap := by
  by_contra hle
  rw [List.take_append_of_le_length (Nat.not_lt.1 hle)] at h
  obtain ⟨x, hx, hret⟩ := List.mem_map.1 h
  exact hpre x (List.mem_of_mem_take hx) hret

/-- With the regions fixed before the start, no signals, regions and the return address entered by
taken branches only, no residual of the terminator scan, and a return within the budget of the
stepper by instruction: a capture by taken branch that is not marked truncated is the capture by
instruction. -/
theorem windowed_blockstep_eq_windowed (w : Win) (hform : w.stopForm = false) (c : Code)
    (isRep : ℕ → Bool) (recs : ℕ → AddrRec) (log : List AddrRec) (pc : ℕ) (steps : List Step)
    (hrun : Follows c isRep pc steps) (hres : NoResidual c 0 [] steps)
    (henter : ∀ x ∈ steps, x.taken = false →
      inRegionSet w (startSt recs log pc).drain.regs x.next = true →
      inRegionSet w (startSt recs log pc).drain.regs x.pc = true)
    (hret : ∀ x ∈ steps, x.next = w.ret → x.taken = true)
    (hbudget : w.ret ∈ (steps.take ptraceWindowStepCap).map Step.next) (t t' : Trace)
    (h : resultTrace c t (windowedBlockstep w c isRep (startSt recs log pc) (retireAll steps)) =
      some t') (hmark : t'.truncated = false) :
    (windowed w (startSt recs log pc) (retireAll steps)).1.stream =
        (windowedBlockstep w c isRep (startSt recs log pc) (retireAll steps)).1.stream ∧
      resultTrace c t (windowed w (startSt recs log pc) (retireAll steps)) = some t' := by
  obtain ⟨hend, hno, -⟩ := resultTrace_unmarked h hmark
  have hset := settled_startSt recs log pc
  obtain ⟨-, -, hstream, hsteps, hover, hstop, hpc, -⟩ :=
    publishAll_eq { chan := addrChannelInit recs, log := [], pc := pc } log
  obtain ⟨-, hstream', hsteps', hover', hstop', hpc', -⟩ := drain_eq (startSt recs log pc)
  rw [windowedBlockstep] at hend hno h ⊢
  rw [windowed]
  rw [show (startSt recs log pc).pc = pc from hpc] at hend hno h hpc' ⊢
  have hstream₀ : (startSt recs log pc).drain.stream = [] := hstream'.trans hstream
  have hsteps₀ : (startSt recs log pc).drain.steps = 0 := hsteps'.trans hsteps
  have hover₀ : (startSt recs log pc).drain.overflow = false := hover'.trans hover
  have hstop₀ : (startSt recs log pc).drain.stop = false := hstop'.trans hstop
  generalize (startSt recs log pc).drain = st at *
  have hin : ∀ a ∈ ([] : List Step).map Step.pc ++ [st.pc], inRegionSet w st.regs a = true →
      inRegionSet w st.regs pc = true := by
    intro a ha hain
    rw [List.mem_singleton.1 ha, hpc'] at hain
    exact hain
  have hpath : OpenPath c isRep pc [] st.pc := by
    rw [hpc']
    exact OpenPath.nil c isRep pc
  have hrun' : Follows c isRep st.pc steps := by
    rw [hpc']
    exact hrun
  have hroom : st.stream.length ≤ ptraceStreamCap := by
    rw [hstream₀]
    exact Nat.zero_le _
  obtain ⟨pre, s, rest, rfl, hs, htaken, hblocks, hlen⟩ := blockLoop_to_return hform hset hpath
    hrun' hres henter hin hroom hend hno
  have hpre : ∀ x ∈ pre, x.next ≠ w.ret := fun x hx heq =>
    htaken x hx (hret x (List.mem_append_left _ hx) heq) heq
  have hcap := stop_before_return hpre hbudget
  -- the seed is the address of the entry, the rest are the step stops
  have hseed : (if inRegionSet w st.regs st.pc = true ∧ st.stream.length < ptraceStreamCap then
      { st with stream := st.stream ++ [st.pc] } else st) =
        { st with stream := [pc].filter (inRegionSet w st.regs) } := by
    rw [List.filter_singleton]
    by_cases hpcin : inRegionSet w st.regs pc = true
    · rw [hpc', hstream₀, if_pos ⟨hpcin, by decide⟩, hpcin]
      rfl
    · rw [if_neg (fun hand => hpcin (hpc' ▸ hand.1)), Bool.eq_false_of_not_eq_true hpcin,
        ← hstream₀]
      rfl
  rw [hstream₀, List.nil_append, List.nil_append, hrun.map_pc,
    show pc :: pre.map Step.next = [pc] ++ pre.map Step.next from rfl,
    List.filter_append] at hblocks
  have hevs : retireAll (pre ++ s :: rest) = retireAll pre ++ .retire s [] :: retireAll rest := by
    rw [retireAll, List.map_append]
    rfl
  have hloop := @loop_to_return w { st with stream := [pc].filter (inRegionSet w st.regs) } pre s
    (retireAll rest) hset hstop₀ hform (by rw [hsteps₀, Nat.zero_add]; exact hcap) hpre hs hover₀
    (by rw [← hblocks]; exact hlen)
  rw [hseed]
  rw [← hevs] at hloop
  obtain ⟨hend', hno', hstep⟩ := hloop
  have hsame := hstep.trans hblocks.symm
  refine ⟨hsame, ?_⟩
  rw [resultTrace, hend, if_neg (by decide), endOverflow, hno, hend] at h
  rw [resultTrace, hend', if_neg (by decide), endOverflow, hno', hend', hsame]
  exact h

/-- A frame of two instructions that calls glue at 2: a loop of two instructions, and a ret. -/
def glueMem : Code :=
  Hwtrace.unitCode 1 [.call 2, .ret, .plain, .jcc 2, .ret, .plain, .plain, .plain]

def glueWin (ret : ℕ) : Win := ⟨0, 2, ret, false⟩

/-- Around the loop so many times, out of it, and back to the frame, which returns -/
def glueLoop (ret : ℕ) : ℕ → List Step
  | 0 => [⟨2, 3, false⟩, ⟨3, 4, false⟩, ⟨4, 1, true⟩, ⟨1, ret, true⟩]
  | k + 1 => ⟨2, 3, false⟩ :: ⟨3, 2, true⟩ :: glueLoop ret k

def glueSteps (ret k : ℕ) : List Step := ⟨0, 2, true⟩ :: glueLoop ret k

def glueStart : St := startSt (fun _ => ⟨0, 0, 0⟩) [] 0

theorem follows_glueSteps {ret : ℕ} (hret : ret = 3 ∨ ret = 7) (k : ℕ) :
    Follows glueMem (fun _ => false) 0 (glueSteps ret k) := by
  have hexec : ∀ s ∈ [Step.mk 0 2 true, ⟨2, 3, false⟩, ⟨3, 4, false⟩, ⟨3, 2, true⟩, ⟨4, 1, true⟩,
      ⟨1, 3, true⟩, ⟨1, 7, true⟩], ExecOk glueMem (fun _ => false) s := by
    decide
  simp only [List.forall_mem_cons, List.not_mem_nil, false_implies, implies_true, and_true] at hexec
  obtain ⟨h0, h2, h3, h32, h4, h13, h17⟩ := hexec
  refine ⟨rfl, h0, ?_⟩
  induction k with
  | zero =>
    refine ⟨rfl, h2, rfl, h3, rfl, h4, rfl, ?_, trivial⟩
    rcases hret with rfl | rfl
    · exact h13
    · exact h17
  | succ k ih => exact ⟨rfl, h2, rfl, h32, ih⟩

theorem noResidual_glueLoop {ret : ℕ} (hret : ret = 3 ∨ ret = 7) (k : ℕ) :
    NoResidual glueMem 0 [] (glueLoop ret k) := by
  induction k with
  | zero => rcases hret with rfl | rfl <;> decide
  | succ k ih =>
    refine ⟨fun h => (by cases h), fun _ => ⟨fun _ => ⟨fun h => ?_, ih⟩, fun h => (by cases h)⟩⟩
    cases h

theorem enters_glueLoop (ret k : ℕ) : ∀ x ∈ glueLoop ret k, x.taken = false →
    inRegionSet (glueWin ret) [] x.next = true → inRegionSet (glueWin ret) [] x.pc = true := by
  have hout : ∀ {a : ℕ}, 2 ≤ a → inRegionSet (glueWin ret) [] a = true → False := by
    intro a ha hin
    rw [inRegionSet, decide_eq_true_iff] at hin
    rcases hin with ⟨-, hlt⟩ | hany
    · change a < 2 at hlt
      omega
    · cases hany
  intro x hx htaken hin
  refine (hout ?_ hin).elim
  induction k with
  | zero =>
    simp only [glueLoop, List.mem_cons, List.not_mem_nil, or_false] at hx
    rcases hx with rfl | rfl | rfl | rfl
    · decide
    · decide
    · cases htaken
    · cases htaken
  | succ k ih =>
    simp only [glueLoop, List.mem_cons] at hx
    rcases hx with rfl | rfl | hx
    · decide
    · cases htaken
    · exact ih hx

theorem windowed_blockstep_eq_windowed_glue :
    (windowed (glueWin 7) glueStart (retireAll (glueSteps 7 1))).1.stream = [0, 1] := by
  have hrun : (resultTrace glueMem emptyTrace (windowedBlockstep (glueWin 7) glueMem
      (fun _ => false) glueStart (retireAll (glueSteps 7 1)))).map Trace.truncated =
        some false := by
    decide +kernel
  obtain ⟨t', ht', hmark⟩ := Option.map_eq_some_iff.1 hrun
  refine (windowed_blockstep_eq_windowed (glueWin 7) rfl glueMem (fun _ => false)
    (fun _ => ⟨0, 0, 0⟩) [] 0 (glueSteps 7 1) (follows_glueSteps (.inr rfl) 1) (by decide)
    (by decide) (by decide) ?_ emptyTrace t' ht' hmark).1.trans (by decide +kernel)
  rw [List.take_of_length_le (by decide)]
  decide

section Budget

variable {st : St}

/-- A stop of the block loop behind a block that starts outside the region set -/
theorem blockStop_outside {w : Win} {c : Code} {isRep : ℕ → Bool} {p₀ : ℕ} (hset : Settled st)
    (hcap : st.steps < ptraceWindowStepCap) (hout : inRegionSet w st.regs p₀ = false) :
    blockStop w c isRep false false p₀ st = ({ st with steps := st.steps + 1 }, none) := by
  have hdrain : St.drain { st with steps := st.steps + 1 } = { st with steps := st.steps + 1 } :=
    Settled.drain hset
  rw [blockStop]
  dsimp only
  rw [if_neg (Nat.not_lt.2 hcap), hdrain, if_neg (by rw [hout]; exact Bool.false_ne_true)]

/-- A stop behind a block that is recorded -/
theorem blockStop_inside {w : Win} {c : Code} {isRep : ℕ → Bool} {p₀ : ℕ} {out : List ℕ}
    (hset : Settled st) (hcap : st.steps < ptraceWindowStepCap)
    (hin : inRegionSet w st.regs p₀ = true)
    (hwalk : windowBlockWalk w c isRep st.regs false false p₀ st.pc st.stream = (.ok, out)) :
    blockStop w c isRep false false p₀ st =
      ({ st with steps := st.steps + 1, stream := out }, none) := by
  have hdrain : St.drain { st with steps := st.steps + 1 } = { st with steps := st.steps + 1 } :=
    Settled.drain hset
  rw [blockStop]
  dsimp only
  rw [if_neg (Nat.not_lt.2 hcap)]
  simp only [hdrain, hin, hwalk, if_true]

/-- By taken branch a trip around the loop of the glue is one stop. -/
theorem blockLoop_glueLoop (k : ℕ) (stopped : Bool) (hset : Settled st) (hregs : st.regs = [])
    (hno : st.overflow = false) (hstream : st.stream = [0])
    (hcap : st.steps + k + 2 ≤ ptraceWindowStepCap) :
    let r := windowBlockLoop (glueWin 7) glueMem (fun _ => false) stopped 2 st
      (retireAll (glueLoop 7 k))
    r.2 = .reached ∧ r.1.overflow = false ∧ r.1.stream = [0, 1] := by
  have hout : inRegionSet (glueWin 7) st.regs 2 = false := by
    rw [hregs]
    decide
  intro r
  induction k generalizing st stopped with
  | zero =>
    let st₁ : St := { ((st.execute 3).execute 4).execute 1 with steps := st.steps + 1 }
    have hstop : blockStop (glueWin 7) glueMem (fun _ => false) false false 2
        (((st.execute 3).execute 4).execute 1) = (st₁, none) :=
      @blockStop_outside (((st.execute 3).execute 4).execute 1) _ _ _ _ hset
        (show st.steps < ptraceWindowStepCap by omega) hout
    have hwalk : windowBlockWalk (glueWin 7) glueMem (fun _ => false) st.regs false false 1 7
        st.stream = (.ok, [0, 1]) := by
      rw [hregs, hstream]
      decide +kernel
    have hin : inRegionSet (glueWin 7) st.regs 1 = true := by
      rw [hregs]
      decide
    have hlast := @blockStop_inside (st₁.execute 7) _ _ _ _ _ hset
      (show st.steps + 1 < ptraceWindowStepCap by omega) hin hwalk
    have hrun : r = ({ st₁.execute 7 with steps := st.steps + 2, stream := [0, 1] }, .reached) := by
      change windowBlockLoop (glueWin 7) glueMem (fun _ => false) stopped 2 st
        [.retire ⟨2, 3, false⟩ [], .retire ⟨3, 4, false⟩ [], .retire ⟨4, 1, true⟩ [],
          .retire ⟨1, 7, true⟩ []] = _
      rw [blockLoop_retire rfl, if_pos rfl, blockLoop_retire rfl, if_pos rfl, blockLoop_retire rfl,
        if_neg (by decide), hstop]
      dsimp only
      rw [if_neg (fun h => absurd h.2 (show ¬1 = 7 by decide)), blockLoop_retire rfl,
        if_neg (by decide)]
      change (match blockStop (glueWin 7) glueMem (fun _ => false) false false 1
          (st₁.execute 7) with
        | (st, some e) => (st, e)
        | (st, none) => _) = _
      rw [hlast]
      exact if_pos ⟨rfl, rfl⟩
    rw [hrun]
    exact ⟨rfl, hno, rfl⟩
  | succ k ih =>
    let st₁ : St := { (st.execute 3).execute 2 with steps := st.steps + 1 }
    have hstop : blockStop (glueWin 7) glueMem (fun _ => false) false false 2
        ((st.execute 3).execute 2) = (st₁, none) :=
      @blockStop_outside ((st.execute 3).execute 2) _ _ _ _ hset
        (show st.steps < ptraceWindowStepCap by omega) hout
    have hrun : r = windowBlockLoop (glueWin 7) glueMem (fun _ => false) true 2 st₁
        (retireAll (glueLoop 7 k)) := by
      change windowBlockLoop (glueWin 7) glueMem (fun _ => false) stopped 2 st
        (.retire ⟨2, 3, false⟩ [] :: .retire ⟨3, 2, true⟩ [] :: retireAll (glueLoop 7 k)) = _
      rw [blockLoop_retire rfl, if_pos rfl, blockLoop_retire rfl, if_neg (by decide), hstop]
      rfl
    rw [hrun]
    exact @ih st₁ true hset hregs hno hstream (show st.steps + 1 + k + 2 ≤ _ by omega) hout

/-- A step stop in the glue -/
theorem trapStop_glue {a : ℕ} (ha : a = 2 ∨ a = 3) (hset : Settled st) (hregs : st.regs = [])
    (hcap : st.steps < ptraceWindowStepCap) :
    trapStop (glueWin 7) (st.execute a) =
      ({ st.execute a with steps := st.steps + 1 }, none) := by
  have hout : ¬inRegionSet (glueWin 7) (st.execute a).regs (st.execute a).pc = true := by
    change ¬inRegionSet (glueWin 7) st.regs a = true
    rw [hregs]
    rcases ha with rfl | rfl <;> decide
  have hret : ¬((glueWin 7).stopForm = false ∧ (st.execute a).pc = (glueWin 7).ret) := by
    rintro ⟨-, h⟩
    change a = 7 at h
    omega
  rw [@trapStop_settled (glueWin 7) (st.execute a) hset hcap, if_neg hret, if_neg hout]
  rfl

/-- By instruction it is two steps of the budget, and nothing is recorded. -/
theorem loop_glueLoop (k : ℕ) (hset : Settled st) (hregs : st.regs = []) (hstop : st.stop = false)
    (hle : st.steps ≤ ptraceWindowStepCap) (hcap : ptraceWindowStepCap < st.steps + 2 * k) :
    (traceAttachedWindowLoop (glueWin 7) st (retireAll (glueLoop 7 k))).1.stream = st.stream := by
  have hover : ∀ {st : St} {a : ℕ}, st.steps = ptraceWindowStepCap →
      trapStop (glueWin 7) (st.execute a) =
        ({ st.execute a with steps := st.steps + 1, overflow := true }, some .cut) := by
    intro st a hfull
    exact if_pos (show ptraceWindowStepCap < st.steps + 1 by omega)
  induction k generalizing st with
  | zero => omega
  | succ k ih =>
    change (traceAttachedWindowLoop (glueWin 7) st (.retire ⟨2, 3, false⟩ [] ::
      .retire ⟨3, 2, true⟩ [] :: retireAll (glueLoop 7 k))).1.stream = st.stream
    rw [loop_retire hstop]
    by_cases hfull : st.steps = ptraceWindowStepCap
    · rw [hover hfull]
      rfl
    rw [trapStop_glue (.inr rfl) hset hregs (by omega)]
    dsimp only
    have hstop₁ : St.stop { st.execute 3 with steps := st.steps + 1 } = false := hstop
    rw [loop_retire hstop₁]
    by_cases hfull₁ : st.steps + 1 = ptraceWindowStepCap
    · rw [hover hfull₁]
      rfl
    have hlt : st.steps + 1 < ptraceWindowStepCap := by omega
    rw [@trapStop_glue { st.execute 3 with steps := st.steps + 1 } 2 (.inl rfl) hset hregs hlt]
    exact @ih { (St.execute { st.execute 3 with steps := st.steps + 1 } 2) with
      steps := st.steps + 1 + 1 } hset hregs hstop (show st.steps + 1 + 1 ≤ _ by omega)
      (show ptraceWindowStepCap < st.steps + 1 + 1 + 2 * k by omega)

end Budget

/-- On this execution all but the last two conditions hold and the capture by taken branch is not
marked, yet the two differ. -/
def Diverges (w : Win) (steps : List Step) : Prop :=
  Follows glueMem (fun _ => false) 0 steps ∧ NoResidual glueMem 0 [] steps ∧
    (∀ x ∈ steps, x.taken = false → inRegionSet w glueStart.drain.regs x.next = true →
      inRegionSet w glueStart.drain.regs x.pc = true) ∧
    (resultTrace glueMem emptyTrace (windowedBlockstep w glueMem (fun _ => false) glueStart
      (retireAll steps))).map Trace.truncated = some false ∧
    (windowed w glueStart (retireAll steps)).1.stream ≠
      (windowedBlockstep w glueMem (fun _ => false) glueStart (retireAll steps)).1.stream

theorem glueStart_drain : Settled glueStart.drain ∧ glueStart.drain.regs = [] ∧
    glueStart.drain.stream = [] ∧ glueStart.drain.steps = 0 ∧ glueStart.drain.overflow = false ∧
    glueStart.drain.stop = false ∧ glueStart.drain.pc = 0 := by
  exact ⟨settled_startSt _ _ _, by decide +kernel, by decide +kernel, by decide +kernel,
    by decide +kernel, by decide +kernel, by decide +kernel⟩

theorem blockstep_glueSteps {k : ℕ} (hk : k + 3 ≤ ptraceWindowStepCap) :
    let r := windowedBlockstep (glueWin 7) glueMem (fun _ => false) glueStart
      (retireAll (glueSteps 7 k))
    r.2 = .reached ∧ r.1.overflow = false ∧ r.1.stream = [0, 1] := by
  obtain ⟨hset, hregs, hstream, hsteps, hno, -, -⟩ := glueStart_drain
  intro r
  have hr : r = windowBlockLoop (glueWin 7) glueMem (fun _ => false) true 0 glueStart.drain
      (.retire ⟨0, 2, true⟩ [] :: retireAll (glueLoop 7 k)) := rfl
  generalize glueStart.drain = st at *
  have hwalk : windowBlockWalk (glueWin 7) glueMem (fun _ => false) st.regs false false 0 2
      st.stream = (.ok, [0]) := by
    rw [hregs, hstream]
    decide +kernel
  have hin : inRegionSet (glueWin 7) st.regs 0 = true := by
    rw [hregs]
    decide
  have hcap : st.steps < ptraceWindowStepCap := by omega
  have hstop := @blockStop_inside (st.execute 2) _ _ _ _ _ hset hcap hin hwalk
  have hrest : r = windowBlockLoop (glueWin 7) glueMem (fun _ => false) true 2
      { st.execute 2 with steps := st.steps + 1, stream := [0] } (retireAll (glueLoop 7 k)) := by
    rw [hr, blockLoop_retire rfl, if_neg (by decide), hstop]
    exact if_neg (fun h => absurd h.2 (show ¬2 = 7 by decide))
  rw [hrest]
  exact @blockLoop_glueLoop { st.execute 2 with steps := st.steps + 1, stream := [0] } k true hset
    hregs hno rfl (show st.steps + 1 + k + 2 ≤ _ by omega)

theorem windowed_glueSteps {k : ℕ} (hk : ptraceWindowStepCap < 1 + 2 * k) :
    (windowed (glueWin 7) glueStart (retireAll (glueSteps 7 k))).1.stream = [0] := by
  obtain ⟨hset, hregs, hstream, hsteps, -, hstop, hpc⟩ := glueStart_drain
  have hr : windowed (glueWin 7) glueStart (retireAll (glueSteps 7 k)) =
      traceAttachedWindowLoop (glueWin 7) (if inRegionSet (glueWin 7) glueStart.drain.regs
          glueStart.drain.pc = true ∧ glueStart.drain.stream.length < ptraceStreamCap then
        { glueStart.drain with stream := glueStart.drain.stream ++ [glueStart.drain.pc] }
        else glueStart.drain) (.retire ⟨0, 2, true⟩ [] :: retireAll (glueLoop 7 k)) := rfl
  rw [hr]
  generalize glueStart.drain = st at *
  have hin : inRegionSet (glueWin 7) st.regs st.pc = true := by
    rw [hregs, hpc]
    decide
  rw [if_pos ⟨hin, by rw [hstream]; decide⟩, hstream, List.nil_append, hpc]
  change (traceAttachedWindowLoop (glueWin 7) { st with stream := [0] }
    (.retire ⟨0, 2, true⟩ [] :: retireAll (glueLoop 7 k))).1.stream = [0]
  have hstop₁ : St.stop { st with stream := [0] } = false := hstop
  rw [loop_retire hstop₁]
  have hcap : st.steps < ptraceWindowStepCap := by
    rw [hsteps]
    decide
  rw [@trapStop_glue { st with stream := [0] } 2 (.inl rfl) hset hregs hcap]
  have hle : st.steps + 1 ≤ ptraceWindowStepCap := hcap
  exact @loop_glueLoop { St.execute { st with stream := [0] } 2 with
    steps := st.steps + 1 } k hset hregs hstop hle
    (show ptraceWindowStepCap < st.steps + 1 + 2 * k by omega)

/-- The glue falls through to the return address of the window, or stays in its loop until the
budget of the stepper by instruction is used up. -/
theorem windowed_blockstep_outlasts_windowed :
    Diverges (glueWin 3) (glueSteps 3 0) ∧ Diverges (glueWin 7) (glueSteps 7 (2 ^ 21)) := by
  have hregs := glueStart_drain.2.1
  have henters : ∀ ret k, ∀ x ∈ glueSteps ret k, x.taken = false →
      inRegionSet (glueWin ret) glueStart.drain.regs x.next = true →
      inRegionSet (glueWin ret) glueStart.drain.regs x.pc = true := by
    intro ret k
    rw [hregs]
    exact List.forall_mem_cons.2 ⟨fun h => (by cases h), enters_glueLoop ret k⟩
  have hres : ∀ {ret : ℕ} (k : ℕ), ret = 3 ∨ ret = 7 →
      NoResidual glueMem 0 [] (glueSteps ret k) := fun k hret =>
    ⟨fun _ => ⟨fun h => (by cases h), noResidual_glueLoop hret k⟩, fun h => (by cases h)⟩
  constructor
  · exact ⟨follows_glueSteps (.inl rfl) 0, hres 0 (.inl rfl), henters 3 0, by decide +kernel,
      by decide +kernel⟩
  · obtain ⟨hend, hno, hblocks⟩ := @blockstep_glueSteps (2 ^ 21) (by decide)
    refine ⟨follows_glueSteps (.inr rfl) _, hres _ (.inr rfl), henters 7 _, ?_, ?_⟩
    · rw [resultTrace, hend, if_neg (by decide), endOverflow, hno, hend, hblocks]
      decide
    · rw [windowed_glueSteps (by decide), hblocks]
      decide

end Whole

end AsmTest.Window
