import AsmTest.WindowWalk

/-!
# What a windowed capture leaves out

A capture that is not marked truncated has every instruction that was executed in a region
published before it, when the table of regions holds all records and no record is published for the
instruction that is about to execute. By taken branch, a block that runs in a region has to start in
one as well, and the terminator scan has to be free of its residual.
-/

namespace AsmTest.Window

open Hwtrace (Code Step Trace BsStatus scanLoop ptraceStreamCap traceAppendInsn traceAppendBlock
  RegionStep Straight targetsOf)
open Descent (BlockSeq blockseqBoundary)
open AddrChannel

section Spec

/-- The instructions of a list of executed ones that lay in a region published before them -/
def due (log : List AddrRec) (ran : List (ℕ × ℕ)) : List ℕ :=
  (ran.filter fun e => (log.take e.2).any (inRec e.1)).map Prod.fst

/-- Every executed instruction that lay in a region published before it is recorded. -/
def Complete (st : St) : Prop :=
  (due st.log st.ran).Sublist st.stream

/-- The condition on a run by instruction, from where the tracee stands and what is published: no
more records than the table holds, and none published for the pending instruction after the drain
at its stop, unless that is recorded anyway. -/
def ScheduleOk (w : Win) : ℕ → List AddrRec → List Ev → Prop
  | pc, log, .publish r :: evs =>
    log.length < addrChanCap ∧ (inRec pc r → inRegionSet w log pc) ∧
      ScheduleOk w pc (log ++ [r]) evs
  | pc, log, .setStop :: evs => ScheduleOk w pc log evs
  | _, log, .retire s late :: evs =>
    log.length + late.length ≤ addrChanCap ∧ ScheduleOk w s.next (log ++ late) evs
  | pc, log, .signal late none :: evs =>
    log.length + late.length ≤ addrChanCap ∧ (∀ r ∈ late, inRec pc r → inRegionSet w log pc) ∧
      ScheduleOk w pc (log ++ late) evs
  | _, log, .signal late (some (pc', late')) :: evs =>
    log.length + late.length + late'.length ≤ addrChanCap ∧
      ScheduleOk w pc' (log ++ late ++ late') evs
  | _, log, .appTrap _ late :: _ => log.length + late.length ≤ addrChanCap
  | _, _, _ => True

variable (w : Win) (c : Code) (isRep : ℕ → Bool)

/-- The condition on a run by taken branch, from the start of the open block and its instructions:
no more records than the table holds; what is executed in the frame or in a region belongs to a
block that starts there; and no ret or indirect branch goes to the static target of a conditional
that its block fell through. After a signal the run is one by instruction. -/
def BlockScheduleOk : ℕ → List Step → ℕ → List AddrRec → List Ev → Prop
  | p₀, q, pc, log, .publish r :: evs =>
    log.length < addrChanCap ∧ BlockScheduleOk p₀ q pc (log ++ [r]) evs
  | p₀, q, pc, log, .setStop :: evs => BlockScheduleOk p₀ q pc log evs
  | p₀, q, pc, log, .retire s late :: evs =>
    s.pc = pc ∧ ExecOk c isRep s ∧ (inRegionSet w log pc → inRegionSet w log p₀) ∧
      log.length + late.length ≤ addrChanCap ∧
      (s.taken = false → BlockScheduleOk p₀ (q ++ [s]) s.next (log ++ late) evs) ∧
      (s.taken = true → (c.disasBranchTarget 0 s.pc = none → s.next ∉ targetsOf c 0 q) ∧
        BlockScheduleOk s.next [] s.next (log ++ late) evs)
  | p₀, _, pc, log, .signal late none :: evs =>
    log.length + late.length ≤ addrChanCap ∧
      (inRegionSet w (log ++ late) pc → inRegionSet w (log ++ late) p₀) ∧
      ScheduleOk w pc (log ++ late) evs
  | p₀, _, pc, log, .signal late (some (pc', late')) :: evs =>
    log.length + late.length + late'.length ≤ addrChanCap ∧
      (inRegionSet w (log ++ late) pc → inRegionSet w (log ++ late) p₀) ∧
      ScheduleOk w pc' (log ++ late ++ late') evs
  | _, _, _, log, .appTrap _ late :: _ => log.length + late.length ≤ addrChanCap
  | _, _, _, _, _ => True

end Spec

section Channel

/-- The records that fit in the table are all in the ring, and the table is the first of them. -/
structure ChanOk (st : St) : Prop where
  fits : st.log.length ≤ addrChanCap
  head : st.chan.head = st.log.length
  tail : st.chan.tail = st.regs.length
  table : st.regs <+: st.log
  slots : ∀ i r, st.log[i]? = some r → st.chan.recs i = r

variable {st : St}

theorem ChanOk.congr (h : ChanOk st) {st' : St} (hc : st'.chan = st.chan)
    (hr : st'.regs = st.regs) (hl : st'.log = st.log) : ChanOk st' := by
  obtain ⟨h1, h2, h3, h4, h5⟩ := h
  rw [← hl] at h1 h2 h4 h5
  rw [← hc] at h2 h3 h5
  rw [← hr] at h3 h4
  exact ⟨h1, h2, h3, h4, h5⟩

theorem inRegionSet_mono {w : Win} {a b : List AddrRec} (h : a <+: b) {pc : ℕ}
    (hpc : inRegionSet w a pc = true) : inRegionSet w b pc = true := by
  obtain ⟨l, rfl⟩ := h
  rw [inRegionSet, decide_eq_true_iff] at hpc ⊢
  rw [List.any_append]
  rcases hpc with hwin | hrec
  · exact .inl hwin
  · exact .inr (by rw [hrec]; rfl)

theorem ChanOk.publish (h : ChanOk st) {r : AddrRec} (hfit : st.log.length < addrChanCap) :
    ChanOk (st.publish r) := by
  have hslot : st.chan.head % addrChanCap = st.log.length := by
    rw [h.head, Nat.mod_eq_of_lt hfit]
  rw [St.publish, addrChannelPublish]
  refine ⟨?_, ?_, h.tail, h.table.trans (List.prefix_append _ _), ?_⟩
  · rw [List.length_append]
    exact hfit
  · dsimp only
    rw [h.head, List.length_append, List.length_singleton, Nat.mod_eq_of_lt]
    rw [addrChanCap] at hfit
    omega
  · intro i r' hi
    dsimp only at hi ⊢
    rw [hslot]
    rcases Nat.lt_trichotomy i st.log.length with hlt | rfl | hgt
    · rw [Function.update_of_ne hlt.ne]
      rw [List.getElem?_append_left hlt] at hi
      exact h.slots i r' hi
    · rw [Function.update_self]
      rw [List.getElem?_concat_length] at hi
      exact Option.some.inj hi
    · rw [List.getElem?_eq_none (by simp; omega)] at hi
      cases hi

theorem publishAll_eq (st : St) (rs : List AddrRec) :
    (st.publishAll rs).log = st.log ++ rs ∧ (st.publishAll rs).regs = st.regs ∧
      (st.publishAll rs).stream = st.stream ∧ (st.publishAll rs).steps = st.steps ∧
      (st.publishAll rs).overflow = st.overflow ∧ (st.publishAll rs).stop = st.stop ∧
      (st.publishAll rs).pc = st.pc ∧ (st.publishAll rs).ran = st.ran := by
  induction rs generalizing st with
  | nil => exact ⟨(List.append_nil _).symm, rfl, rfl, rfl, rfl, rfl, rfl, rfl⟩
  | cons r rs ih =>
    obtain ⟨h1, h2⟩ := ih (st.publish r)
    refine ⟨?_, h2⟩
    rw [St.publishAll, List.foldl_cons] at *
    rw [h1, St.publish, List.append_assoc]
    rfl

theorem ChanOk.publishAll (h : ChanOk st) {rs : List AddrRec}
    (hfit : st.log.length + rs.length ≤ addrChanCap) : ChanOk (st.publishAll rs) := by
  induction rs generalizing st with
  | nil => exact h
  | cons r rs ih =>
    rw [List.length_cons] at hfit
    refine ih (h.publish (by omega)) ?_
    rw [St.publish, List.length_append, List.length_singleton]
    omega

/-- A drain of a ring that was never lapped copies what is new. -/
theorem drainLoop_eq {c : Channel} {log : List AddrRec} (hfit : log.length ≤ addrChanCap)
    (hslots : ∀ i r, log[i]? = some r → c.recs i = r) (room t : ℕ) (ht : t ≤ log.length)
    (hroom : log.length ≤ t + room) :
    drainLoop c log.length room t = (log.drop t, log.length) := by
  induction room generalizing t with
  | zero =>
    have heq : t = log.length := by omega
    rw [drainLoop, heq, List.drop_length]
  | succ room ih =>
    rw [drainLoop]
    by_cases heq : t = log.length
    · rw [if_pos heq, heq, List.drop_length]
    · have hlt : t < log.length := by omega
      have hsmall : t % addrChanCap = t := Nat.mod_eq_of_lt (by omega)
      have hnext : (t + 1) % 2 ^ 32 = t + 1 := by
        rw [addrChanCap] at hfit
        omega
      rw [if_neg heq, hnext, ih (t + 1) (by omega) (by omega), hsmall,
        hslots t log[t] (List.getElem?_eq_getElem hlt), List.drop_eq_getElem_cons hlt]

/-- After a drain the table holds every record. -/
theorem ChanOk.drain (h : ChanOk st) : ChanOk st.drain ∧ st.drain.regs = st.log := by
  obtain ⟨l, hl⟩ := h.table
  have hlen : st.regs.length + l.length = st.log.length := by
    rw [← hl, List.length_append]
  have hfit := h.fits
  rw [St.drain]
  by_cases hroom : st.regs.length < addrChanCap
  · have hfar : (decide (addrChanCap < sub32 st.chan.head st.chan.tail)) = false := by
      rw [h.head, h.tail, sub32, decide_eq_false_iff_not]
      rw [addrChanCap] at *
      omega
    have hloop := drainLoop_eq h.fits h.slots (addrChanCap - st.regs.length) st.regs.length
      (by omega) (by omega)
    have hdrop : st.log.drop st.regs.length = l := by
      rw [← hl, List.drop_left]
    rw [if_pos hroom, addrChannelDrain, if_neg (by omega)]
    dsimp only
    rw [hfar, if_neg (by simp), h.tail, h.head, hloop, hdrop, hl]
    exact ⟨⟨h.fits, rfl, rfl, List.prefix_refl _, h.slots⟩, rfl⟩
  · have hnil : l = [] := List.eq_nil_of_length_eq_zero (by omega)
    rw [if_neg hroom]
    rw [hnil, List.append_nil] at hl
    exact ⟨h, hl⟩

theorem drain_eq (st : St) : st.drain.log = st.log ∧ st.drain.stream = st.stream ∧
    st.drain.steps = st.steps ∧ st.drain.overflow = st.overflow ∧ st.drain.stop = st.stop ∧
    st.drain.pc = st.pc ∧ st.drain.ran = st.ran := by
  rw [St.drain]
  split_ifs <;> exact ⟨rfl, rfl, rfl, rfl, rfl, rfl, rfl⟩

end Channel

section Due

variable {log : List AddrRec} {ran : List (ℕ × ℕ)}

theorem due_append (log : List AddrRec) (a b : List (ℕ × ℕ)) :
    due log (a ++ b) = due log a ++ due log b := by
  rw [due, due, due, List.filter_append, List.map_append]

/-- Records published later do not matter to what has been executed. -/
theorem due_publish (h : ∀ e ∈ ran, e.2 ≤ log.length) (rs : List AddrRec) :
    due (log ++ rs) ran = due log ran := by
  rw [due, due]
  congr 1
  apply List.filter_congr
  intro e he
  rw [List.take_append_of_le_length (h e he)]

/-- An instruction executed now is due if it lies in a published region. -/
theorem due_now (log : List AddrRec) (pc : ℕ) :
    due log [(pc, log.length)] = if log.any (inRec pc) then [pc] else [] := by
  rw [due, List.filter_singleton, List.take_length]
  cases log.any (inRec pc) <;> rfl

theorem inRegionSet_of_any (w : Win) {pc : ℕ} (h : log.any (inRec pc) = true) :
    inRegionSet w log pc = true := by
  rw [inRegionSet, decide_eq_true_iff]
  exact .inr h

end Due

section Instructions

variable {w : Win} {st : St}

/-- The state by instruction between a stop and the next resume: what was due is recorded, and so
is the pending instruction if it lies in the frame or in a region. -/
structure Kept (w : Win) (st : St) : Prop where
  chan : ChanOk st
  past : ∀ e ∈ st.ran, e.2 ≤ st.log.length
  recorded : (due st.log st.ran ++ if inRegionSet w st.log st.pc then [st.pc] else []).Sublist
    st.stream

theorem Kept.complete (h : Kept w st) : Complete st :=
  (List.sublist_append_left _ _).trans h.recorded

/-- A record that is not for the pending instruction -/
theorem Kept.publish (h : Kept w st) {r : AddrRec} (hfit : st.log.length < addrChanCap)
    (hr : inRec st.pc r = true → inRegionSet w st.log st.pc = true) : Kept w (st.publish r) := by
  have hsame : inRegionSet w (st.log ++ [r]) st.pc = inRegionSet w st.log st.pc := by
    rw [Bool.eq_iff_iff]
    refine ⟨fun hset => ?_, inRegionSet_mono (List.prefix_append _ _)⟩
    rw [inRegionSet, decide_eq_true_iff, List.any_append, Bool.or_eq_true] at hset
    rcases hset with hwin | hlog | hnew
    · rw [inRegionSet, decide_eq_true_iff]
      exact .inl hwin
    · exact inRegionSet_of_any w hlog
    · rw [List.any_cons, List.any_nil, Bool.or_false] at hnew
      exact hr hnew
  refine ⟨h.chan.publish hfit, ?_, ?_⟩
  · intro e he
    rw [St.publish, List.length_append]
    exact (h.past e he).trans (Nat.le_add_right _ _)
  · change (due (st.log ++ [r]) st.ran ++
      if inRegionSet w (st.log ++ [r]) st.pc then [st.pc] else []).Sublist st.stream
    rw [due_publish h.past, hsame]
    exact h.recorded

theorem Kept.publishAll (h : Kept w st) {rs : List AddrRec}
    (hfit : st.log.length + rs.length ≤ addrChanCap)
    (hrs : ∀ r ∈ rs, inRec st.pc r = true → inRegionSet w st.log st.pc = true) :
    Kept w (st.publishAll rs) := by
  induction rs generalizing st with
  | nil => exact h
  | cons r rs ih =>
    rw [List.length_cons] at hfit
    obtain ⟨hr, hrs⟩ := List.forall_mem_cons.1 hrs
    refine ih (h.publish (by omega) hr) ?_ ?_
    · rw [St.publish, List.length_append, List.length_singleton]
      omega
    · intro r' hr' hin
      exact inRegionSet_mono (List.prefix_append _ _) (hrs r' hr' hin)

/-- While the tracee runs only what it has executed counts. -/
structure Running (st : St) : Prop where
  chan : ChanOk st
  past : ∀ e ∈ st.ran, e.2 ≤ st.log.length
  complete : Complete st

theorem Kept.execute (h : Kept w st) (next : ℕ) : Running (st.execute next) := by
  refine ⟨h.chan.congr rfl rfl rfl, ?_, ?_⟩
  · intro e he
    rcases List.mem_append.1 he with he | he
    · exact h.past e he
    · rw [List.mem_singleton.1 he]
      exact le_rfl
  · change (due st.log (st.ran ++ [(st.pc, st.log.length)])).Sublist st.stream
    rw [due_append, due_now]
    refine List.Sublist.trans (List.Sublist.append_left ?_ _) h.recorded
    by_cases hany : st.log.any (inRec st.pc) = true
    · rw [if_pos hany, if_pos (inRegionSet_of_any w hany)]
    · rw [if_neg hany]
      exact List.nil_sublist _

theorem Kept.running (h : Kept w st) : Running st :=
  ⟨h.chan, h.past, h.complete⟩

theorem Running.publishAll (h : Running st) {rs : List AddrRec}
    (hfit : st.log.length + rs.length ≤ addrChanCap) : Running (st.publishAll rs) := by
  obtain ⟨hlog, -, hstream, -, -, -, -, hran⟩ := publishAll_eq st rs
  refine ⟨h.chan.publishAll hfit, ?_, ?_⟩
  · intro e he
    rw [hran] at he
    rw [hlog, List.length_append]
    exact (h.past e he).trans (Nat.le_add_right _ _)
  · rw [Complete, hlog, hran, hstream, due_publish h.past]
    exact h.complete

/-- A step stop that goes on has recorded the pending instruction; one that ends the window cleanly
is complete as it is. -/
theorem Running.trapStop (h : Running st) (w : Win) :
    (∀ st', trapStop w st = (st', none) → Kept w st' ∧ st'.log = st.log ∧ st'.pc = st.pc) ∧
      ∀ st', Window.trapStop w st = (st', some .reached) → Complete st' := by
  have hchan : ChanOk { st with steps := st.steps + 1 } := h.chan.congr rfl rfl rfl
  obtain ⟨hdrained, hregs⟩ := hchan.drain
  obtain ⟨hlog, hstream, -, -, -, hpc, hran⟩ := drain_eq { st with steps := st.steps + 1 }
  rw [Window.trapStop]
  dsimp only
  set st₁ := St.drain { st with steps := st.steps + 1 } with hst₁
  dsimp only at hlog hstream hpc hran hregs
  have hcomplete : Complete st₁ := by
    rw [Complete, hlog, hran, hstream]
    exact h.complete
  by_cases hcap : ptraceWindowStepCap < st.steps + 1
  · rw [if_pos hcap]
    exact ⟨fun st' hst' => (by cases hst'), fun st' hst' => (by cases hst')⟩
  rw [if_neg hcap]
  by_cases hret : w.stopForm = false ∧ st₁.pc = w.ret
  · rw [if_pos hret]
    refine ⟨fun st' hst' => (by cases hst'), fun st' hst' => ?_⟩
    cases hst'
    exact hcomplete
  rw [if_neg hret]
  have hpast : ∀ e ∈ st₁.ran, e.2 ≤ st₁.log.length := by
    rw [hran, hlog]
    exact h.past
  by_cases hin : inRegionSet w st₁.regs st₁.pc = true
  · rw [if_pos hin]
    by_cases hroom : st₁.stream.length < ptraceStreamCap
    · rw [if_pos hroom]
      refine ⟨fun st' hst' => ?_, fun st' hst' => (by cases hst')⟩
      cases hst'
      refine ⟨⟨hdrained.congr rfl rfl rfl, hpast, ?_⟩, hlog, hpc⟩
      refine List.Sublist.append hcomplete ?_
      split_ifs
      · exact List.Sublist.refl _
      · exact List.nil_sublist _
    · rw [if_neg hroom]
      exact ⟨fun st' hst' => (by cases hst'), fun st' hst' => (by cases hst')⟩
  · rw [if_neg hin]
    refine ⟨fun st' hst' => ?_, fun st' hst' => (by cases hst')⟩
    cases hst'
    refine ⟨⟨hdrained, hpast, ?_⟩, hlog, hpc⟩
    rw [hregs, ← hlog] at hin
    rw [if_neg hin, List.append_nil]
    exact hcomplete

/-- A signal takes the tracee to its handler, which is a step stop. -/
theorem Running.deliver (h : Running st) {pc : ℕ} {late : List AddrRec}
    (hfit : st.log.length + late.length ≤ addrChanCap) :
    (∀ st', deliver w (some (pc, late)) st = (st', none) → Kept w st' ∧
      st'.log = st.log ++ late ∧ st'.pc = pc) ∧
      ∀ st', Window.deliver w (some (pc, late)) st = (st', some .reached) → Complete st' := by
  have henter : Running { st with pc := pc } := ⟨h.chan.congr rfl rfl rfl, h.past, h.complete⟩
  obtain ⟨hlog, -, -, -, -, -, hpc, -⟩ := publishAll_eq { st with pc := pc } late
  obtain ⟨hgo, hend⟩ := (henter.publishAll hfit).trapStop w
  refine ⟨fun st' hst' => ?_, hend⟩
  obtain ⟨hkept, hlog', hpc'⟩ := hgo st' hst'
  exact ⟨hkept, hlog'.trans hlog, hpc'.trans hpc⟩

/-- `*stop` is looked at before the tracee is resumed. -/
theorem loop_of_stop (hstop : w.stopForm = true ∧ st.stop = true) {e : Ev} (evs : List Ev)
    (he : ∀ r, e ≠ .publish r) (he' : e ≠ .setStop) :
    traceAttachedWindowLoop w st (e :: evs) = (st, .reached) := by
  cases e with
  | publish r => exact absurd rfl (he r)
  | setStop => exact absurd rfl he'
  | retire s late => exact if_pos hstop
  | signal late handler => exact if_pos hstop
  | appTrap pc late => exact if_pos hstop
  | etrace => exact if_pos hstop

/-- A run of the per-instruction loop that ends cleanly is complete. -/
theorem Kept.loop (h : Kept w st) {evs : List Ev} (hs : ScheduleOk w st.pc st.log evs)
    (hend : (traceAttachedWindowLoop w st evs).2 = .reached) :
    Complete (traceAttachedWindowLoop w st evs).1 := by
  induction evs generalizing st with
  | nil => exact h.complete
  | cons e evs ih =>
    cases e with
    | publish r =>
      obtain ⟨hfit, hr, hs⟩ := hs
      exact ih (h.publish hfit hr) hs hend
    | setStop =>
      have hkept : Kept w { st with stop := true } :=
        ⟨h.chan.congr rfl rfl rfl, h.past, h.recorded⟩
      exact ih hkept hs hend
    | retire s late =>
      by_cases hstop : w.stopForm = true ∧ st.stop = true
      · rw [loop_of_stop hstop evs (by simp) (by simp)]
        exact h.complete
      obtain ⟨hfit, hs⟩ := hs
      have hrun := (h.execute s.next).publishAll hfit
      obtain ⟨hlog, -, -, -, -, -, hpc, -⟩ := publishAll_eq (st.execute s.next) late
      obtain ⟨hgo, hreach⟩ := hrun.trapStop w
      rw [traceAttachedWindowLoop, if_neg hstop] at hend ⊢
      rcases hres : trapStop w ((st.execute s.next).publishAll late) with ⟨st', _ | e⟩
      · rw [hres] at hend
        obtain ⟨hkept, hlog', hpc'⟩ := hgo st' hres
        refine ih hkept ?_ hend
        rw [hlog', hpc', hlog, hpc]
        exact hs
      · rw [hres] at hend
        cases hend
        exact hreach st' hres
    | signal late handler =>
      by_cases hstop : w.stopForm = true ∧ st.stop = true
      · rw [loop_of_stop hstop evs (by simp) (by simp)]
        exact h.complete
      obtain ⟨hlog, -, -, -, -, -, hpc, -⟩ := publishAll_eq st late
      rw [traceAttachedWindowLoop, if_neg hstop] at hend ⊢
      cases handler with
      | none =>
        obtain ⟨hfit, hlate, hs⟩ := hs
        refine ih (h.publishAll hfit hlate) ?_ hend
        rw [hlog, hpc]
        exact hs
      | some p =>
        obtain ⟨pc', late'⟩ := p
        obtain ⟨hfit, hs⟩ := hs
        have hrun := h.running.publishAll (show st.log.length + late.length ≤ addrChanCap by omega)
        obtain ⟨hgo, hreach⟩ := @Running.deliver w _ hrun pc' late' (by
          rw [hlog, List.length_append]
          omega)
        rcases hres : deliver w (some (pc', late')) (st.publishAll late) with ⟨st', _ | e⟩
        · rw [hres] at hend
          obtain ⟨hkept, hlog', hpc'⟩ := hgo st' hres
          refine ih hkept ?_ hend
          rw [hlog', hpc', hlog]
          exact hs
        · rw [hres] at hend
          cases hend
          exact hreach st' hres
    | appTrap pc late =>
      by_cases hstop : w.stopForm = true ∧ st.stop = true
      · rw [loop_of_stop hstop evs (by simp) (by simp)]
        exact h.complete
      rw [traceAttachedWindowLoop, if_neg hstop] at hend
      cases hend
    | etrace =>
      by_cases hstop : w.stopForm = true ∧ st.stop = true
      · rw [loop_of_stop hstop evs (by simp) (by simp)]
        exact h.complete
      rw [traceAttachedWindowLoop, if_neg hstop] at hend
      cases hend

end Instructions

section Overflow

variable (w : Win) (c : Code) (isRep : ℕ → Bool)

theorem trapStop_overflow {st : St} (h : (trapStop w st).1.overflow = false) :
    st.overflow = false := by
  have hdrain := (drain_eq { st with steps := st.steps + 1 }).2.2.2.1
  dsimp only at hdrain
  rw [trapStop] at h
  dsimp only at h
  rw [← hdrain]
  split_ifs at h
  · exact h
  · exact h
  · exact h

theorem deliver_overflow {handler : Option (ℕ × List AddrRec)} {st : St}
    (h : (deliver w handler st).1.overflow = false) : st.overflow = false := by
  cases handler with
  | none => exact h
  | some p =>
    have hlate := trapStop_overflow w h
    rwa [(publishAll_eq _ _).2.2.2.2.1] at hlate

/-- A marked capture stays marked. -/
theorem loop_overflow {st : St} {evs : List Ev}
    (h : (traceAttachedWindowLoop w st evs).1.overflow = false) : st.overflow = false := by
  induction evs generalizing st with
  | nil => exact h
  | cons e evs ih =>
    by_cases hstop : w.stopForm = true ∧ st.stop = true
    · cases e with
      | publish r => exact @ih (st.publish r) h
      | setStop => exact @ih { st with stop := true } h
      | _ =>
        rw [loop_of_stop hstop evs (by simp) (by simp)] at h
        exact h
    cases e with
    | publish r => exact @ih (st.publish r) h
    | setStop => exact @ih { st with stop := true } h
    | retire s late =>
      rw [traceAttachedWindowLoop, if_neg hstop] at h
      have hlate := (publishAll_eq (st.execute s.next) late).2.2.2.2.1
      rw [show st.overflow = (st.execute s.next).overflow from rfl, ← hlate]
      apply trapStop_overflow w
      rcases hres : trapStop w ((st.execute s.next).publishAll late) with ⟨st', _ | e⟩
      · rw [hres] at h
        exact ih h
      · rw [hres] at h
        exact h
    | signal late handler =>
      rw [traceAttachedWindowLoop, if_neg hstop] at h
      rw [← (publishAll_eq st late).2.2.2.2.1]
      apply deliver_overflow w
      rcases hres : deliver w handler (st.publishAll late) with ⟨st', _ | e⟩
      · rw [hres] at h
        exact ih h
      · rw [hres] at h
        exact h
    | appTrap pc late =>
      rw [traceAttachedWindowLoop, if_neg hstop] at h
      cases h
    | etrace =>
      rw [traceAttachedWindowLoop, if_neg hstop] at h
      exact h

theorem handOff_overflow {handler : Option (ℕ × List AddrRec)} {st : St} {evs : List Ev}
    (h : (handOff w handler st evs).1.overflow = false) : st.overflow = false := by
  rw [handOff] at h
  dsimp only at h
  by_cases hstop : w.stopForm = true ∧ st.stop = true
  · rw [if_pos hstop] at h
    exact h
  rw [if_neg hstop] at h
  have hst : St.overflow { st with steps := 0 } = st.overflow := rfl
  rw [← hst]
  apply deliver_overflow w
  rcases hres : deliver w handler { st with steps := 0 } with ⟨st', _ | e⟩
  · rw [hres] at h
    exact loop_overflow w h
  · rw [hres] at h
    exact h

/-- What a stop of the block loop that goes on has done. -/
structure Walked (atMode exclusive : Bool) (p₀ : ℕ) (st st' : St) : Prop where
  log : st'.log = st.log
  pc : st'.pc = st.pc
  ran : st'.ran = st.ran
  stop : st'.stop = st.stop
  marked : st'.overflow = false → st.overflow = false
  chan : ChanOk st → ChanOk st'
  stream : ChanOk st → st'.overflow = false →
    (inRegionSet w st.log p₀ = false ∧ st'.stream = st.stream) ∨
      inRegionSet w st.log p₀ = true ∧
        windowBlockWalk w c isRep st.log atMode exclusive p₀ st.pc st.stream = (.ok, st'.stream)

theorem blockStop_walked {atMode exclusive : Bool} {p₀ : ℕ} {st st' : St}
    (h : blockStop w c isRep atMode exclusive p₀ st = (st', none)) :
    Walked w c isRep atMode exclusive p₀ st st' := by
  obtain ⟨hlog, hstream, -, hover, hstop, hpc, hran⟩ := drain_eq { st with steps := st.steps + 1 }
  have hdrain : ChanOk st → ChanOk (St.drain { st with steps := st.steps + 1 }) ∧
      (St.drain { st with steps := st.steps + 1 }).regs = st.log := fun hchan =>
    ChanOk.drain (hchan.congr rfl rfl rfl)
  rw [blockStop] at h
  dsimp only at h hlog hstream hover hstop hpc hran
  set st₁ := St.drain { st with steps := st.steps + 1 }
  clear_value st₁
  by_cases hcap : ptraceWindowStepCap < st.steps + 1
  · rw [if_pos hcap] at h
    cases h
  rw [if_neg hcap] at h
  by_cases hin : inRegionSet w st₁.regs p₀ = true
  · rw [if_pos hin] at h
    rcases hwalk : windowBlockWalk w c isRep st₁.regs atMode exclusive p₀ st₁.pc st₁.stream with
      ⟨r, out⟩
    rw [hwalk] at h
    cases r with
    | fail => cases h
    | ambiguous =>
      cases h
      refine ⟨hlog, hpc, hran, hstop, fun hno => (by cases hno), fun hchan => ?_,
        fun _ hno => (by cases hno)⟩
      exact (hdrain hchan).1.congr rfl rfl rfl
    | ok =>
      cases h
      refine ⟨hlog, hpc, hran, hstop, fun hno => hover ▸ hno, fun hchan => ?_, fun hchan _ => ?_⟩
      · exact (hdrain hchan).1.congr rfl rfl rfl
      · rw [(hdrain hchan).2] at hin hwalk
        rw [hpc, hstream] at hwalk
        exact .inr ⟨hin, hwalk⟩
  · rw [if_neg hin] at h
    cases h
    refine ⟨hlog, hpc, hran, hstop, fun hno => hover ▸ hno, fun hchan => (hdrain hchan).1,
      fun hchan _ => ?_⟩
    rw [(hdrain hchan).2] at hin
    exact .inl ⟨by simpa using hin, hstream⟩

theorem blockStop_ends {atMode exclusive : Bool} {p₀ : ℕ} {st st' : St} {e : End}
    (h : blockStop w c isRep atMode exclusive p₀ st = (st', some e)) : e = .cut := by
  rw [blockStop] at h
  dsimp only at h
  split_ifs at h
  · cases h
    rfl
  · rcases hwalk : windowBlockWalk w c isRep (St.drain { st with steps := st.steps + 1 }).regs atMode
      exclusive p₀ (St.drain { st with steps := st.steps + 1 }).pc
      (St.drain { st with steps := st.steps + 1 }).stream with ⟨r, out⟩
    rw [hwalk] at h
    cases r with
    | fail =>
      cases h
      rfl
    | ok => cases h
    | ambiguous => cases h
  · cases h

theorem blockLoop_overflow {stopped : Bool} {p₀ : ℕ} {st : St} {evs : List Ev}
    (h : (windowBlockLoop w c isRep stopped p₀ st evs).1.overflow = false)
    (hend : (windowBlockLoop w c isRep stopped p₀ st evs).2 = .reached) : st.overflow = false := by
  induction evs generalizing stopped p₀ st with
  | nil => exact h
  | cons e evs ih =>
    cases e with
    | publish r => exact @ih stopped p₀ (st.publish r) h hend
    | setStop => exact @ih stopped p₀ { st with stop := true } h hend
    | retire s late =>
      rw [windowBlockLoop] at h hend
      by_cases hstop : stopped = true ∧ w.stopForm = true ∧ st.stop = true
      · rw [if_pos hstop] at h
        exact h
      rw [if_neg hstop] at h hend
      dsimp only at h hend
      have hlate := (publishAll_eq (st.execute s.next) late).2.2.2.2.1
      rw [show st.overflow = (st.execute s.next).overflow from rfl, ← hlate]
      by_cases htaken : s.taken = false
      · rw [if_pos htaken] at h hend
        exact ih h hend
      rw [if_neg htaken] at h hend
      rcases hres : blockStop w c isRep false false p₀ ((st.execute s.next).publishAll late) with
        ⟨st', _ | e⟩
      · rw [hres] at h hend
        dsimp only at h hend
        refine (blockStop_walked w c isRep hres).marked ?_
        by_cases hret : w.stopForm = false ∧ st'.pc = w.ret
        · rw [if_pos hret] at h
          exact h
        · rw [if_neg hret] at h hend
          exact ih h hend
      · rw [hres] at hend
        dsimp only at hend
        rw [blockStop_ends w c isRep hres] at hend
        cases hend
    | signal late handler =>
      rw [windowBlockLoop] at h hend
      by_cases hstop : stopped = true ∧ w.stopForm = true ∧ st.stop = true
      · rw [if_pos hstop] at h
        exact h
      rw [if_neg hstop] at h hend
      rw [← (publishAll_eq st late).2.2.2.2.1]
      rcases hres : blockStop w c isRep true false p₀ (st.publishAll late) with ⟨st', _ | e⟩
      · rw [hres] at h
        exact (blockStop_walked w c isRep hres).marked (handOff_overflow w h)
      · rw [hres] at hend
        dsimp only at hend
        rw [blockStop_ends w c isRep hres] at hend
        cases hend
    | appTrap pc late =>
      rw [windowBlockLoop] at h hend
      by_cases hstop : stopped = true ∧ w.stopForm = true ∧ st.stop = true
      · rw [if_pos hstop] at h
        exact h
      rw [if_neg hstop] at h hend
      dsimp only at hend
      rcases hres : blockStop w c isRep true true p₀ ((st.execute pc).publishAll late) with
        ⟨st', _ | e⟩
      · rw [hres] at hend
        cases hend
      · rw [hres] at hend
        dsimp only at hend
        rw [blockStop_ends w c isRep hres] at hend
        cases hend
    | etrace => exact h

end Overflow

section Blocks

variable {w : Win} {c : Code} {isRep : ℕ → Bool} {st : St} {p₀ : ℕ} {q : List Step}

/-- The state by taken branch while the block from `p₀` is open: what was due before the block is
recorded, and what the block has executed is due only if the block starts in the region set. -/
structure Open (w : Win) (st : St) (p₀ : ℕ) (pcs : List ℕ) : Prop where
  chan : ChanOk st
  past : ∀ e ∈ st.ran, e.2 ≤ st.log.length
  split : ∃ a b, st.ran = a ++ b ∧ b.map Prod.fst = pcs ∧ (due st.log a).Sublist st.stream ∧
    (due st.log b ≠ [] → inRegionSet w st.log p₀ = true)

/-- What is due of some instructions is in the region set. -/
theorem due_sublist (w : Win) (log : List AddrRec) (ran : List (ℕ × ℕ)) :
    (due log ran).Sublist ((ran.map Prod.fst).filter (inRegionSet w log)) := by
  induction ran with
  | nil => exact List.Sublist.refl _
  | cons e ran ih =>
    rw [← List.singleton_append, due_append, List.map_append, List.filter_append]
    refine List.Sublist.append ?_ ih
    rw [due, List.filter_singleton, List.map_singleton, List.filter_singleton]
    by_cases hany : (log.take e.2).any (inRec e.1) = true
    · have hin : inRegionSet w log e.1 = true :=
        inRegionSet_mono (List.take_prefix _ _) (inRegionSet_of_any w hany)
      rw [hany, hin]
      exact List.Sublist.refl _
    · rw [Bool.eq_false_of_not_eq_true hany]
      exact List.nil_sublist _

theorem Open.start (hchan : ChanOk st) (hpast : ∀ e ∈ st.ran, e.2 ≤ st.log.length)
    (hcomplete : Complete st) (p₀ : ℕ) : Open w st p₀ [] :=
  ⟨hchan, hpast, st.ran, [], (List.append_nil _).symm, rfl, hcomplete, fun h => absurd rfl h⟩

/-- Between a stop and the resume nothing is open. -/
theorem Open.complete (h : Open w st p₀ []) : Complete st := by
  obtain ⟨a, b, hran, hb, ha, -⟩ := h.split
  rw [List.map_eq_nil_iff] at hb
  rw [Complete, hran, hb, List.append_nil]
  exact ha

theorem Open.publish {pcs : List ℕ} (h : Open w st p₀ pcs) {r : AddrRec}
    (hfit : st.log.length < addrChanCap) : Open w (st.publish r) p₀ pcs := by
  obtain ⟨a, b, hran, hb, ha, hin⟩ := h.split
  have hpa : ∀ e ∈ a, e.2 ≤ st.log.length := fun e he =>
    h.past e (hran ▸ List.mem_append_left _ he)
  have hpb : ∀ e ∈ b, e.2 ≤ st.log.length := fun e he =>
    h.past e (hran ▸ List.mem_append_right _ he)
  refine ⟨h.chan.publish hfit, ?_, a, b, hran, hb, ?_, ?_⟩
  · intro e he
    rw [St.publish, List.length_append]
    exact (h.past e he).trans (Nat.le_add_right _ _)
  · change (due (st.log ++ [r]) a).Sublist st.stream
    rwa [due_publish hpa]
  · change due (st.log ++ [r]) b ≠ [] → inRegionSet w (st.log ++ [r]) p₀ = true
    rw [due_publish hpb]
    intro hne
    exact inRegionSet_mono (List.prefix_append _ _) (hin hne)

theorem Open.publishAll {pcs : List ℕ} (h : Open w st p₀ pcs) {rs : List AddrRec}
    (hfit : st.log.length + rs.length ≤ addrChanCap) : Open w (st.publishAll rs) p₀ pcs := by
  induction rs generalizing st with
  | nil => exact h
  | cons r rs ih =>
    rw [List.length_cons] at hfit
    refine ih (h.publish (by omega)) ?_
    rw [St.publish, List.length_append, List.length_singleton]
    omega

/-- The block executes one more instruction. -/
theorem Open.execute {pcs : List ℕ} (h : Open w st p₀ pcs)
    (hset : inRegionSet w st.log st.pc = true → inRegionSet w st.log p₀ = true) (next : ℕ) :
    Open w (st.execute next) p₀ (pcs ++ [st.pc]) := by
  obtain ⟨a, b, hran, hb, ha, hin⟩ := h.split
  refine ⟨h.chan.congr rfl rfl rfl, ?_, a, b ++ [(st.pc, st.log.length)], ?_, ?_, ha, ?_⟩
  · intro e he
    rcases List.mem_append.1 he with he | he
    · exact h.past e he
    · rw [List.mem_singleton.1 he]
      exact le_rfl
  · change st.ran ++ [(st.pc, st.log.length)] = _
    rw [hran, List.append_assoc]
  · rw [List.map_append, hb]
    rfl
  · change due st.log (b ++ [(st.pc, st.log.length)]) ≠ [] → _
    rw [due_append, due_now]
    intro hne
    by_cases hany : st.log.any (inRec st.pc) = true
    · exact hset (inRegionSet_of_any w hany)
    · rw [if_neg hany, List.append_nil] at hne
      exact hin hne

/-- A walk that gives the instructions of the block makes the capture complete, and a block that
starts outside the region set has nothing that is due. -/
theorem Open.walked {atMode exclusive : Bool} {pcs : List ℕ} {st' : St}
    (h : Open w st p₀ pcs) (rest : List ℕ) (hw : Walked w c isRep atMode exclusive p₀ st st')
    (hno : st'.overflow = false)
    (hwalk : ∀ out, windowBlockWalk w c isRep st.log atMode exclusive p₀ st.pc st.stream =
      (.ok, out) → out = st.stream ++ (pcs ++ rest).filter (inRegionSet w st.log))
    (hrest : inRegionSet w st.log p₀ = false → rest.filter (inRegionSet w st.log) = []) :
    (due st'.log st'.ran ++ rest.filter (inRegionSet w st.log)).Sublist st'.stream := by
  obtain ⟨a, b, hran, hb, ha, hin⟩ := h.split
  rw [hw.log, hw.ran, hran, due_append, List.append_assoc]
  rcases hw.stream h.chan hno with ⟨hout, hstream⟩ | ⟨-, hok⟩
  · have hnil : due st.log b = [] := by
      by_contra hne
      rw [hin hne] at hout
      cases hout
    rw [hstream, hnil, hrest hout, List.nil_append, List.append_nil]
    exact ha
  · rw [hwalk _ hok, List.filter_append]
    refine List.Sublist.append ha (List.Sublist.append ?_ (List.Sublist.refl _))
    rw [← hb]
    exact due_sublist w st.log b

/-- The condition on what follows a resume with a signal -/
def HandedOk (w : Win) (pc : ℕ) (log : List AddrRec) (evs : List Ev) :
    Option (ℕ × List AddrRec) → Prop
  | none => ScheduleOk w pc log evs
  | some (pc', late) => log.length + late.length ≤ addrChanCap ∧ ScheduleOk w pc' (log ++ late) evs

theorem BlockScheduleOk.signal {pc : ℕ} {log late : List AddrRec}
    {handler : Option (ℕ × List AddrRec)} {evs : List Ev}
    (h : BlockScheduleOk w c isRep p₀ q pc log (.signal late handler :: evs)) :
    log.length + late.length ≤ addrChanCap ∧
      (inRegionSet w (log ++ late) pc = true → inRegionSet w (log ++ late) p₀ = true) := by
  cases handler with
  | none => exact ⟨h.1, h.2.1⟩
  | some p =>
    obtain ⟨hfit, hset, -⟩ := h
    exact ⟨by omega, hset⟩

theorem BlockScheduleOk.handed {pc : ℕ} {log late : List AddrRec}
    {handler : Option (ℕ × List AddrRec)} {evs : List Ev}
    (h : BlockScheduleOk w c isRep p₀ q pc log (.signal late handler :: evs)) :
    HandedOk w pc (log ++ late) evs handler := by
  cases handler with
  | none => exact h.2.2
  | some p =>
    obtain ⟨hfit, -, hs⟩ := h
    refine ⟨?_, hs⟩
    rw [List.length_append]
    exact hfit

theorem Kept.handOff (h : Kept w st) {handler : Option (ℕ × List AddrRec)} {evs : List Ev}
    (hs : HandedOk w st.pc st.log evs handler) (hend : (handOff w handler st evs).2 = .reached) :
    Complete (handOff w handler st evs).1 := by
  have hkept : Kept w { st with steps := 0 } := ⟨h.chan.congr rfl rfl rfl, h.past, h.recorded⟩
  rw [Window.handOff] at hend ⊢
  dsimp only at hend ⊢
  by_cases hstop : w.stopForm = true ∧ st.stop = true
  · rw [if_pos hstop]
    exact hkept.complete
  rw [if_neg hstop] at hend ⊢
  cases handler with
  | none => exact hkept.loop hs hend
  | some p =>
    obtain ⟨pc, late⟩ := p
    obtain ⟨hfit, hs⟩ := hs
    obtain ⟨hgo, hreach⟩ := @Running.deliver w _ hkept.running pc late hfit
    rcases hres : deliver w (some (pc, late)) { st with steps := 0 } with ⟨st', _ | e⟩
    · rw [hres] at hend
      obtain ⟨hkept', hlog, hpc⟩ := hgo st' hres
      refine hkept'.loop ?_ hend
      rw [hlog, hpc]
      exact hs
    · rw [hres] at hend
      cases hend
      exact hreach st' hres

/-- A run of the block loop that ends cleanly and unmarked is complete. -/
theorem Open.loop (h : Open w st p₀ (q.map Step.pc)) (hpath : OpenPath c isRep p₀ q st.pc)
    {stopped : Bool} (hstopped : stopped = true → q = []) {evs : List Ev}
    (hs : BlockScheduleOk w c isRep p₀ q st.pc st.log evs)
    (hend : (windowBlockLoop w c isRep stopped p₀ st evs).2 = .reached)
    (hno : (windowBlockLoop w c isRep stopped p₀ st evs).1.overflow = false) :
    Complete (windowBlockLoop w c isRep stopped p₀ st evs).1 := by
  induction evs generalizing st p₀ q stopped with
  | nil =>
    rw [windowBlockLoop] at hend
    dsimp only at hend
    by_cases hstop : stopped = true ∧ w.stopForm = true ∧ st.stop = true
    · rw [hstopped hstop.1] at h
      exact h.complete
    · rw [if_neg hstop] at hend
      cases hend
  | cons e evs ih =>
    cases e with
    | publish r =>
      obtain ⟨hfit, hs⟩ := hs
      exact ih (h.publish hfit) hpath hstopped hs hend hno
    | setStop =>
      have hopen : Open w { st with stop := true } p₀ (q.map Step.pc) :=
        ⟨h.chan.congr rfl rfl rfl, h.past, h.split⟩
      exact ih hopen hpath hstopped hs hend hno
    | retire s late =>
      rw [windowBlockLoop] at hend hno ⊢
      by_cases hstop : stopped = true ∧ w.stopForm = true ∧ st.stop = true
      · rw [hstopped hstop.1] at h
        rw [if_pos hstop]
        exact h.complete
      rw [if_neg hstop] at hend hno ⊢
      dsimp only at hend hno ⊢
      obtain ⟨hpc, hexec, hset, hfit, hfall, htake⟩ := hs
      have hopen := (h.execute hset s.next).publishAll (show
        (st.execute s.next).log.length + late.length ≤ addrChanCap from hfit)
      rw [← hpc, ← List.map_singleton, ← List.map_append] at hopen
      rw [← hpc] at hpath
      obtain ⟨hlog, -, -, -, -, -, hpc', hran⟩ := publishAll_eq (st.execute s.next) late
      by_cases htaken : s.taken = false
      · rw [if_pos htaken] at hend hno ⊢
        refine ih hopen ?_ (fun hfalse => by cases hfalse) ?_ hend hno
        · rw [hpc']
          exact hpath.falls hexec htaken
        · rw [hlog, hpc']
          exact hfall htaken
      · rw [if_neg htaken] at hend hno ⊢
        have htaken' : s.taken = true := by simpa using htaken
        obtain ⟨hres, hs⟩ := htake htaken'
        rcases hstopres : blockStop w c isRep false false p₀ ((st.execute s.next).publishAll late)
          with ⟨st', _ | e⟩
        · rw [hstopres] at hend hno
          dsimp only at hend hno ⊢
          have hw := blockStop_walked w c isRep hstopres
          have hno' : st'.overflow = false := by
            by_cases hret : w.stopForm = false ∧ st'.pc = w.ret
            · rwa [if_pos hret] at hno
            · rw [if_neg hret] at hno hend
              exact blockLoop_overflow w c isRep hno hend
          have hcomplete := hopen.walked [] hw hno' (fun out hok => by
            rw [hpc'] at hok
            rw [List.append_nil]
            exact hpath.closes hexec htaken' hres hok) (fun _ => rfl)
          rw [List.filter_nil, List.append_nil] at hcomplete
          by_cases hret : w.stopForm = false ∧ st'.pc = w.ret
          · rw [if_pos hret]
            exact hcomplete
          · rw [if_neg hret] at hend hno ⊢
            refine ih (Open.start (hw.chan hopen.chan) ?_ hcomplete _) (OpenPath.nil c isRep _)
              (fun _ => rfl) ?_ hend hno
            · rw [hw.ran, hw.log]
              exact hopen.past
            · rw [hw.pc, hw.log, hpc', hlog]
              exact hs
        · rw [hstopres] at hend
          dsimp only at hend
          rw [blockStop_ends w c isRep hstopres] at hend
          cases hend
    | signal late handler =>
      rw [windowBlockLoop] at hend hno ⊢
      by_cases hstop : stopped = true ∧ w.stopForm = true ∧ st.stop = true
      · rw [hstopped hstop.1] at h
        rw [if_pos hstop]
        exact h.complete
      rw [if_neg hstop] at hend hno ⊢
      obtain ⟨hfit, hset⟩ := hs.signal
      have hopen := h.publishAll hfit
      obtain ⟨hlog, -, -, -, -, -, hpc, -⟩ := publishAll_eq st late
      rcases hstopres : blockStop w c isRep true false p₀ (st.publishAll late) with ⟨st', _ | e⟩
      · rw [hstopres] at hend hno
        dsimp only at hend hno ⊢
        have hw := blockStop_walked w c isRep hstopres
        have hrecorded := hopen.walked [st.pc] hw (handOff_overflow w hno) (fun out hok => by
          rw [hpc] at hok
          exact hpath.cut hok) (fun hout => by
            rw [hlog] at hout ⊢
            rw [List.filter_singleton]
            cases hin : inRegionSet w (st.log ++ late) st.pc with
            | false => rfl
            | true =>
              rw [hset hin] at hout
              cases hout)
        have hkept : Kept w st' := by
          refine ⟨hw.chan hopen.chan, ?_, ?_⟩
          · rw [hw.ran, hw.log]
            exact hopen.past
          · rw [hw.pc, hpc, hw.log]
            rw [List.filter_singleton, Bool.cond_eq_ite, hw.log] at hrecorded
            exact hrecorded
        refine hkept.handOff ?_ hend
        rw [hw.pc, hw.log, hpc, hlog]
        exact hs.handed
      · rw [hstopres] at hend
        dsimp only at hend
        rw [blockStop_ends w c isRep hstopres] at hend
        cases hend
    | appTrap pc late =>
      rw [windowBlockLoop] at hend ⊢
      by_cases hstop : stopped = true ∧ w.stopForm = true ∧ st.stop = true
      · rw [hstopped hstop.1] at h
        rw [if_pos hstop]
        exact h.complete
      rw [if_neg hstop] at hend
      dsimp only at hend
      rcases hstopres : blockStop w c isRep true true p₀ ((st.execute pc).publishAll late) with
        ⟨st', _ | e⟩
      · rw [hstopres] at hend
        cases hend
      · rw [hstopres] at hend
        dsimp only at hend
        rw [blockStop_ends w c isRep hstopres] at hend
        cases hend
    | etrace =>
      rw [windowBlockLoop] at hend ⊢
      dsimp only at hend
      by_cases hstop : stopped = true ∧ w.stopForm = true ∧ st.stop = true
      · rw [hstopped hstop.1] at h
        exact h.complete
      · rw [if_neg hstop] at hend
        cases hend

end Blocks

section Whole

variable {c : Code}

theorem truncated_traceAppendBlock {t : Trace} {off : ℕ}
    (h : (traceAppendBlock t off).truncated = false) :
    t.truncated = false ∧ (traceAppendBlock t off).insns = t.insns := by
  rw [traceAppendBlock] at h ⊢
  cases hb : t.blocks with
  | none =>
    rw [hb] at h
    exact ⟨h, rfl⟩
  | some l =>
    rw [hb] at h
    dsimp only at h ⊢
    split_ifs at h ⊢
    · exact ⟨h, rfl⟩
    · exact ⟨h, rfl⟩
    · cases h

theorem truncated_traceAppendInsn {t : Trace} {off : ℕ}
    (h : (traceAppendInsn t off).truncated = false) :
    t.truncated = false ∧ ∀ l, t.insns = some l →
      (traceAppendInsn t off).insns = some (l ++ [off]) := by
  rw [traceAppendInsn] at h ⊢
  cases hi : t.insns with
  | none =>
    rw [hi] at h
    exact ⟨h, fun l hl => nomatch hl⟩
  | some l =>
    rw [hi] at h
    dsimp only at h ⊢
    split_ifs at h ⊢
    · refine ⟨h, fun l' hl' => ?_⟩
      cases hl'
      rfl
    · cases h

/-- A trace that is not marked took its whole stream, and the stream was not marked. -/
theorem materializeLoop_unmarked {t : Trace} {seq : BlockSeq} {overflow : Bool} {stream : List ℕ}
    (h : (materializeLoop c t seq overflow stream).truncated = false) :
    t.truncated = false ∧ overflow = false ∧ ∀ l, t.insns = some l →
      (materializeLoop c t seq overflow stream).insns = some (l ++ stream) := by
  induction stream generalizing t seq with
  | nil =>
    cases overflow with
    | false =>
      refine ⟨h, rfl, fun l hl => ?_⟩
      rw [List.append_nil]
      exact hl
    | true => cases h
  | cons pc stream ih =>
    rw [materializeLoop] at h ⊢
    obtain ⟨hmark, hov, hrest⟩ := ih h
    by_cases hl0 : (c.disasProbe pc).len = 0
    · rw [if_pos hl0] at hmark
      cases hmark
    rw [if_neg hl0] at hmark hrest ⊢
    obtain ⟨hblock, hinsn⟩ := truncated_traceAppendInsn hmark
    by_cases hb : (blockseqBoundary seq pc (c.disasProbe pc).len).1 = true
    · rw [if_pos hb] at hblock hinsn hrest ⊢
      obtain ⟨ht, hsame⟩ := truncated_traceAppendBlock hblock
      refine ⟨ht, hov, fun l hl => ?_⟩
      rw [hrest _ (hinsn l (hsame.trans hl)), List.append_assoc]
      rfl
    · rw [if_neg hb] at hblock hinsn hrest ⊢
      refine ⟨hblock, hov, fun l hl => ?_⟩
      rw [hrest _ (hinsn l hl), List.append_assoc]
      rfl

theorem resultTrace_unmarked {t t' : Trace} {r : St × End} (h : resultTrace c t r = some t')
    (ht : t'.truncated = false) :
    r.2 = .reached ∧ r.1.overflow = false ∧
      ∀ l, t.insns = some l → t'.insns = some (l ++ r.1.stream) := by
  rw [resultTrace] at h
  by_cases he : r.2 = .etrace
  · rw [if_pos he] at h
    cases h
  rw [if_neg he] at h
  cases h
  obtain ⟨-, hov, hinsns⟩ := materializeLoop_unmarked ht
  rw [endOverflow, Bool.or_eq_false_iff, decide_eq_false_iff_not, not_not] at hov
  exact ⟨hov.2, hov.1, hinsns⟩

/-- The channel at the start of a window -/
theorem chanOk_startSt (recs : ℕ → AddrRec) {log : List AddrRec} (hfit : log.length ≤ addrChanCap)
    (pc : ℕ) : ChanOk (startSt recs log pc) ∧ (startSt recs log pc).log = log ∧
      (startSt recs log pc).pc = pc ∧ (startSt recs log pc).ran = [] ∧
      (startSt recs log pc).stream = [] := by
  have hstart : ChanOk { chan := addrChannelInit recs, log := [], pc := pc } :=
    ⟨Nat.zero_le _, rfl, rfl, List.nil_prefix, fun i r hi => nomatch hi⟩
  obtain ⟨h1, -, h3, -, -, -, h7, h8⟩ :=
    publishAll_eq { chan := addrChannelInit recs, log := [], pc := pc } log
  refine ⟨hstart.publishAll ?_, h1, h7, h8, h3⟩
  rw [List.length_nil, Nat.zero_add]
  exact hfit

instance (st : St) : Decidable (Complete st) :=
  inferInstanceAs (Decidable (List.Sublist _ _))

/-- A frame of four instructions that calls a helper of two; the window ends at address 11. -/
def helperMem : Code :=
  Hwtrace.unitCode 1 [.plain, .call 8, .plain, .ret, .plain, .plain, .plain, .plain, .plain, .ret,
    .plain, .plain]

def helperWin : Win := ⟨0, 4, 11, false⟩

/-- The helper is published while the frame runs. -/
def helperEvs : List Ev :=
  [.retire ⟨0, 1, false⟩ [⟨8, 2, 1⟩], .retire ⟨1, 8, true⟩ [], .retire ⟨8, 9, false⟩ [],
    .retire ⟨9, 2, true⟩ [], .retire ⟨2, 3, false⟩ [], .retire ⟨3, 11, true⟩ []]

/-- A trace with room -/
def emptyTrace : Trace := ⟨some [], 16, 0, some [], 16, 0, false⟩

/-- By instruction, a window that is not marked leaves out an instruction of a published region. -/
def LosesUnmarked (log : List AddrRec) (evs : List Ev) : Prop :=
  (resultTrace helperMem emptyTrace
      (windowed helperWin (startSt (fun _ => ⟨0, 0, 0⟩) log 0) evs)).map Trace.truncated =
        some false ∧
    ¬Complete (windowed helperWin (startSt (fun _ => ⟨0, 0, 0⟩) log 0) evs).1

instance (log : List AddrRec) (evs : List Ev) : Decidable (LosesUnmarked log evs) :=
  inferInstanceAs (Decidable (_ ∧ _))

end Whole

end AsmTest.Window
