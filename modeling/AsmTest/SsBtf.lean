import Mathlib.Tactic
import Mathlib.Data.List.Basic
import AsmTest.BsRecon
import AsmTest.ReplayExact

/-!
# Branch-trap stops

A capture with branch traps gives the targets of the taken branches only. Pairing finds the
source of each, and the replay fills in the instructions between.
-/

namespace AsmTest.Hwtrace

open Code Lib

section Model

variable (c : Code) (base : ℕ)

/-- The pairing loop over the stops from the first one in the region on; the first argument is
the room left in `out`, the flag is `*gap`. -/
def pairLoop : ℕ → List ℕ → List BranchEntry × Bool
  | room + 1, prev :: s :: rest =>
    let r := bsScanTerminator c base s (prev - base)
    if r.1 = .ok then
      let e : BranchEntry := ⟨base + r.2.getD 0, s, false, 0⟩
      if c.InRegion base s then
        let p := pairLoop room (s :: rest)
        (e :: p.1, p.2)
      else ([e], false)
    else ([], true)
  | _, _ => ([], false)

/-- The pairs come newest first. -/
def ssBtfPairStops (stops : List ℕ) (outCap : ℕ) : List BranchEntry × Bool :=
  if c.ptr = 0 ∨ c.len = 0 ∨ outCap = 0 then ([], false)
  else
    let p := pairLoop c base outCap (stops.dropWhile fun s => ¬c.InRegion base s)
    (p.1.reverse, p.2)

end Model

/-- The replay of the pairs in `asmtest_ss_btf_trace`: without a pair the trace is marked and
nothing is decoded. -/
def ssBtfDecode (c : Code) (haveSpec : Bool) (pairs : List BranchEntry) (t : Trace) (gap : Bool) :
    HwStatus × Trace :=
  if pairs.length = 0 then (.ok, t.markTruncated) else amdDecodeStitched c haveSpec pairs t gap

section Capture

/-- `SS_BTF_STREAM_CAP` -/
def ssBtfStreamCap : ℕ := 2 ^ 16

/-- What happens on the thread while it is armed: an instruction, with what becomes of the write
in the handler should it trap, or a context switch, after which the kernel may not have put BTF
back. -/
inductive CapEvent where
  | insn (x : Step) (writeOk : Bool)
  | switch (restored : Bool)
deriving DecidableEq

structure CapState where
  stream : List ℕ := []
  overflow : Bool := false
  rearmFailed : Bool := false
  /-- BTF is set in `DEBUGCTL`: only a taken branch traps. -/
  btf : Bool := true
deriving DecidableEq

/-- `cap_on_sigtrap`: the trap has cleared BTF, and TF is set again in any case. -/
def capOnSigtrap (rip : ℕ) (writeOk : Bool) (s : CapState) : CapState :=
  let room := s.stream.length < ssBtfStreamCap
  { stream := if room then s.stream ++ [rip] else s.stream
    overflow := if room then s.overflow else true
    rearmFailed := s.rearmFailed || !writeOk
    btf := writeOk }

def capEvent (s : CapState) : CapEvent → CapState
  | .insn x writeOk => if x.taken ∨ s.btf = false then capOnSigtrap x.next writeOk s else s
  | .switch restored => { s with btf := s.btf && restored }

def capRun (events : List CapEvent) : CapState := events.foldl capEvent {}

/-- The instructions among the events -/
def capSteps (events : List CapEvent) : List Step :=
  events.filterMap fun
    | .insn x _ => some x
    | .switch _ => none

def CapEvent.isSwitch : CapEvent → Bool
  | .insn _ _ => false
  | .switch _ => true

/-- The pairs of the stops, if the array for them could be allocated -/
def ssBtfPairs (c : Code) (stops : List ℕ) (pairsAllocated : Bool) : List BranchEntry × Bool :=
  if stops.length > 0 ∧ pairsAllocated then ssBtfPairStops c c.ptr stops stops.length
  else ([], false)

/-- `asmtest_ss_btf_trace` once it is armed; a context switch may also fall between the counts and
the armed window. -/
def ssBtfTrace (c : Code) (haveSpec : Bool) (events : List CapEvent) (pairsAllocated around : Bool)
    (t : Trace) : HwStatus × Trace :=
  let s := capRun events
  let switched := around || events.any CapEvent.isSwitch
  let p := ssBtfPairs c s.stream pairsAllocated
  let r := ssBtfDecode c haveSpec p.1 t p.2
  (r.1, if s.overflow || s.rearmFailed || switched then r.2.markTruncated else r.2)

end Capture

/-- The stops of an execution: the branch into the region, then every taken branch. -/
def btfStops (entry : ℕ) (steps : List Step) : List ℕ :=
  entry :: (takenBranches steps).map Prod.snd

variable {c : Code} {base : ℕ}

/-- Pairing got through `done`, at the end of a run, with the true edges; given the whole of the
stops, only a gap stops it early. -/
structure Paired (haveSpec : Bool) (whole : Prop) (pairs : List BranchEntry × Bool)
    (done rest : List Step) : Prop where
  records : Records haveSpec pairs.1 (takenBranches done)
  closed : ∀ s, done.getLast? = some s → s.taken = true
  complete : whole → pairs.2 = false → rest = []

lemma dropped_zeroed (haveSpec : Bool) (a b : ℕ) : dropped haveSpec ⟨a, b, false, 0⟩ = false := by
  cases haveSpec <;> rfl

/-- One answer of the scan on a real run is the edge that ended it. -/
lemma bsScanTerminator_run {pc : ℕ} {q rest : List Step} {s : Step} (hrun : Run c base pc q s)
    (hres : NoResidual c base [] (q ++ s :: rest))
    (h : (bsScanTerminator c base s.next (pc - base)).1 = .ok) :
    base + (bsScanTerminator c base s.next (pc - base)).2.getD 0 = s.pc := by
  have hterm : (bsScanTerminator c base s.next (pc - base)).2 = some (s.pc - base) := by
    apply scanLoop_run hrun
    · exact fun ht => ⟨rfl, ((hres.run hrun).1 ht).2⟩
    · exact Prod.ext h rfl
  have hlo := hrun.stepOk.1.1
  rw [hterm, Option.getD_some]
  omega

/-- The first step of an execution stands at its start. -/
lemma Exec.head {pc fin : ℕ} {s : Step} {steps : List Step}
    (h : Exec c base pc (s :: steps) fin) : s.pc = pc :=
  (exec_cons_iff.mp h).1

/-- A leaf execution that is outside has ended. -/
lemma Exec.eq_nil_of_outside {pc fin : ℕ} {steps : List Step} (h : Exec c base pc steps fin)
    (hleaf : ∀ s ∈ steps, c.InRegion base s.pc) (hpc : ¬c.InRegion base pc) : steps = [] := by
  cases steps with
  | nil => rfl
  | cons s steps =>
    rw [← h.head] at hpc
    exact absurd (hleaf s List.mem_cons_self) hpc

lemma length_btfStops (entry : ℕ) (steps : List Step) :
    (btfStops entry steps).length = (takenBranches steps).length + 1 := by
  rw [btfStops, List.length_cons, List.length_map]

/-- Pairing the first stops of a leaf execution gives its first edges, up to a gap at the start of
a run. -/
theorem pairLoop_exec (haveSpec : Bool) (room : ℕ) {pc fin : ℕ} {steps : List Step}
    {stops tail : List ℕ} (h : Exec c base pc steps fin) (hpc : c.InRegion base pc)
    (hleaf : ∀ s ∈ steps, c.InRegion base s.pc) (hleave : ¬c.InRegion base fin)
    (hres : NoResidual c base [] steps) (hstops : stops <+: btfStops pc steps ++ tail) :
    ∃ done rest mid, steps = done ++ rest ∧ Exec c base pc done mid ∧ Exec c base mid rest fin ∧
      Paired haveSpec ((takenBranches steps).length < stops.length ∧
        (takenBranches steps).length ≤ room) (pairLoop c base room stops) done rest := by
  -- each pair closes one run, so the room bounds the runs and not the steps
  induction room generalizing pc steps stops with
  | zero =>
    obtain ⟨q, s, rest, rfl, hrun, -⟩ | ⟨hfin, -⟩ := h.split hpc
    · refine ⟨[], _, pc, rfl, .nil pc, h, ⟨by simp [pairLoop], rfl⟩, by simp, fun hwhole => ?_⟩
      simp [hrun.takenBranches_cons] at hwhole
    · exact absurd hfin hleave
  | succ room ih =>
    obtain ⟨q, s, rest, rfl, hrun, hrest⟩ | ⟨hfin, -⟩ := h.split hpc
    swap
    · exact absurd hfin hleave
    have hbtf : btfStops pc (q ++ s :: rest) ++ tail = pc :: (btfStops s.next rest ++ tail) := by
      rw [btfStops, hrun.takenBranches_cons]
      rfl
    rw [hrun.takenBranches_cons, List.length_cons]
    rw [hbtf] at hstops
    -- without a second stop there is no pair
    have hshort : stops.length ≤ 1 → ∃ done rest' mid, q ++ s :: rest = done ++ rest' ∧
        Exec c base pc done mid ∧ Exec c base mid rest' fin ∧
        Paired haveSpec ((takenBranches rest).length + 1 < stops.length ∧
          (takenBranches rest).length + 1 ≤ room + 1) ([], false) done rest' := fun hle =>
      ⟨[], _, pc, rfl, .nil pc, h, ⟨by simp, rfl⟩, by simp, fun hwhole => by omega⟩
    obtain _ | ⟨prev, stops⟩ := stops
    · exact hshort (Nat.zero_le 1)
    obtain _ | ⟨s', stops⟩ := stops
    · exact hshort le_rfl
    rw [List.cons_prefix_cons] at hstops
    obtain ⟨rfl, hstops⟩ := hstops
    obtain rfl : s' = s.next := (List.cons_prefix_cons.mp hstops).1
    rw [pairLoop]
    by_cases hscan : (bsScanTerminator c base s.next (prev - base)).1 = .ok
    swap
    · -- an ambiguous run: pairing stops before it, and everything from here is the rest
      rw [if_neg hscan]
      exact ⟨[], _, prev, rfl, .nil prev, h, ⟨by simp, rfl⟩, by simp, by simp⟩
    rw [if_pos hscan, bsScanTerminator_run hrun hres hscan]
    have hleaf' : ∀ x ∈ rest, c.InRegion base x.pc := fun x hx =>
      hleaf x (by simp [hx])
    by_cases hin : c.InRegion base s.next
    · rw [if_pos hin]
      obtain ⟨done, rest', mid, rfl, hdone, hrest', hp⟩ := ih hrest hin hleaf'
        (hres.run hrun).2 hstops
      refine ⟨q ++ s :: done, rest', mid, by simp, ?_, hrest', ?_, ?_, fun hwhole => ?_⟩
      · rw [List.append_cons]
        exact hrun.exec.append hdone
      · rw [hrun.takenBranches_cons]
        refine ⟨List.forall_mem_cons.mpr ⟨dropped_zeroed haveSpec _ _, hp.records.retired⟩, ?_⟩
        exact congrArg _ hp.records.edges
      · intro x hx
        rw [List.getLast?_append, List.getLast?_cons, Option.some_or] at hx
        cases hlast : done.getLast? with
        | none =>
          rw [hlast] at hx
          exact Option.some.inj hx ▸ hrun.taken
        | some y =>
          rw [hlast] at hx
          exact hp.closed x (hlast.trans hx)
      · have hlen : (s.next :: stops).length + 1 = (prev :: s.next :: stops).length := rfl
        exact hp.complete (by omega)
    · rw [if_neg hin]
      -- a leaf routine does not come back
      obtain rfl := hrest.eq_nil_of_outside hleaf' hin
      refine ⟨q ++ [s], [], s.next, by simp, hrun.exec, hrest, ?_, ?_, fun _ _ => rfl⟩
      · rw [hrun.takenBranches_cons]
        exact ⟨by simp [dropped_zeroed], rfl⟩
      · simpa using hrun.taken

section Tail

/-- On a real run the trailing fill finds its end, or nothing. -/
lemma tailScan_run {pc : ℕ} {q : List Step} {s : Step} (hrun : Run c base pc q s) (guard : ℕ) :
    tailScan c base guard (pc - base) = 0 ∨ tailScan c base guard (pc - base) =
      s.pc - base + (c.disasProbe (s.pc - base)).len := by
  induction hrun generalizing guard with
  | @last s hin hs hok =>
    cases guard with
    | zero => exact .inl rfl
    | succ guard =>
      have hd := hok.decodes hin
      have hlen : ¬(c.disasProbe (s.pc - base)).len = 0 := hd
      rw [tailScan, if_neg (Nat.not_le.mpr hd.lt)]
      dsimp only
      rw [if_neg hlen, if_pos (hok.jumps hin hs).1]
      split_ifs
      · exact .inr rfl
      · exact .inr rfl
      · exact .inl rfl
  | @cons x s q hin hx hok hrun ih =>
    cases guard with
    | zero => exact .inl rfl
    | succ guard =>
      have hd := hok.decodes hin
      have hlen : ¬(c.disasProbe (x.pc - base)).len = 0 := hd
      have hoff := hok.off_next hin hx
      rw [tailScan, if_neg (Nat.not_le.mpr hd.lt)]
      dsimp only
      rw [if_neg hlen]
      cases hb : c.disasIsBranch (x.pc - base) with
      | false =>
        have hret : ¬(c.disasProbe (x.pc - base)).isRet = true := fun h => by
          simp [c.ret_isBranch _ h] at hb
        rw [if_neg hret, if_neg Bool.false_ne_true, hoff]
        exact ih guard
      | true =>
        -- a conditional stops the fill: it may have been taken
        obtain ⟨hdirect, -, hjump⟩ := (hok.falls hin hx).2.2 hb
        have hret : ¬(c.disasProbe (x.pc - base)).isRet = true := fun h => by
          simp [c.ret_indirect base _ h] at hdirect
        rw [if_neg hret, if_pos rfl, if_neg (by simp [hjump])]
        exact .inl rfl

lemma runOffsets_run {pc : ℕ} {q : List Step} {s : Step} (hrun : Run c base pc q s) (fuel : ℕ) :
    runOffsets c (s.pc - base + (c.disasProbe (s.pc - base)).len) fuel (pc - base) <+:
      offsets base (q ++ [s]) := by
  induction hrun generalizing fuel with
  | @last s hin hs hok =>
    cases fuel with
    | zero => exact List.nil_prefix
    | succ fuel =>
      rw [runOffsets]
      split_ifs
      · exact List.nil_prefix
      · have hend : runOffsets c (s.pc - base + (c.disasProbe (s.pc - base)).len) fuel
            (s.pc - base + (c.disasProbe (s.pc - base)).len) = [] := by
          cases fuel with
          | zero => rfl
          | succ fuel => rw [runOffsets, if_pos (.inl le_rfl)]
        rw [hend]
        exact List.prefix_rfl
  | @cons x s q hin hx hok hrun ih =>
    have hoff := hok.off_next hin hx
    cases fuel with
    | zero => exact List.nil_prefix
    | succ fuel =>
      rw [runOffsets]
      split_ifs
      · exact List.nil_prefix
      · rw [hoff]
        exact (List.prefix_cons_inj _).mpr (ih fuel)

/-- The trailing fill commits a prefix of what was executed next. -/
lemma tailEvents_prefix {pc fin : ℕ} {steps : List Step} (h : Exec c base pc steps fin)
    (hleave : ¬c.InRegion base fin) :
    insnsOf (tailEvents c base pc) <+: execInsns c base steps := by
  rw [tailEvents]
  split_ifs with hgo
  · obtain ⟨q, s, rest, rfl, hrun, -⟩ | ⟨hfin, -⟩ := h.split hgo.1
    · obtain h0 | hend := tailScan_run hrun (c.len + 1)
      · rw [h0] at hgo
        omega
      · rw [hend, insnsOf, insnsOf_map_insn, List.append_cons, execInsns_append,
          hrun.execInsns_eq]
        exact (runOffsets_run hrun c.len).trans (List.prefix_append _ _)
    · exact absurd hfin hleave
  · exact List.nil_prefix

end Tail

/-- Pairing skips the glue before the region is entered. -/
lemma ssBtfPairStops_eq {outCap : ℕ} {glue stops : List ℕ} (hptr : c.ptr ≠ 0) (hlen : 0 < c.len)
    (hcap : 0 < outCap) (hglue : ∀ x ∈ glue, ¬c.InRegion base x)
    (hstops : ∀ x, stops.head? = some x → c.InRegion base x) :
    ssBtfPairStops c base (glue ++ stops) outCap =
      ((pairLoop c base outCap stops).1.reverse, (pairLoop c base outCap stops).2) := by
  have hdrop : (glue ++ stops).dropWhile (fun s => ¬c.InRegion base s) = stops := by
    rw [List.dropWhile_append_of_pos (by simpa using hglue)]
    cases stops with
    | nil => rfl
    | cons x stops =>
      rw [List.dropWhile_cons_of_neg]
      simpa using hstops x rfl
  rw [ssBtfPairStops, if_neg (by omega), hdrop]

lemma retired_reverse {haveSpec : Bool} {recs : List BranchEntry} {edges : List (ℕ × ℕ)}
    (h : Records haveSpec recs edges) : retired haveSpec recs.reverse = recs := by
  rw [retired, List.reverse_reverse, List.filter_eq_self]
  intro e he
  simp [h.retired e he]

/-- The trailing fill after the records of a part of an execution. -/
lemma Replayed.tail_prefix {done rest : List Step} {mid fin ip : ℕ} {evs : List Event}
    (h : Replayed c base done mid evs ip) (hrest : Exec c base mid rest fin)
    (hleave : ¬c.InRegion base fin) :
    insnsOf evs ++ insnsOf (tailEvents c base ip) <+: execInsns c base (done ++ rest) := by
  rw [h.insns, execInsns_append, List.prefix_append_right_inj]
  by_cases hmid : c.InRegion base mid
  · rw [h.inside hmid]
    exact tailEvents_prefix hrest hleave
  · rw [tailEvents, if_neg fun hgo => h.outside hmid hgo.1]
    exact List.nil_prefix

/-- The pairs of a leaf execution's stops, as the decoder reads them; of the stops the last may be
missing. -/
lemma ssBtfPairStops_exec (haveSpec : Bool) {steps : List Step} {fin outCap : ℕ}
    {glue stops tail : List ℕ} (hptr : c.ptr ≠ 0) (hbase : c.InRegion base base)
    (h : Exec c base base steps fin) (hleaf : ∀ s ∈ steps, c.InRegion base s.pc)
    (hleave : ¬c.InRegion base fin) (hres : NoResidual c base [] steps)
    (hglue : ∀ x ∈ glue, ¬c.InRegion base x) (hstops : stops <+: btfStops base steps ++ tail)
    (hcap : stops.length ≤ outCap) (hpos : 0 < outCap) :
    ∃ done rest mid, steps = done ++ rest ∧ Exec c base base done mid ∧ Exec c base mid rest fin ∧
      Paired haveSpec ((btfStops base steps).length ≤ stops.length)
        (retired haveSpec (ssBtfPairStops c base (glue ++ stops) outCap).1,
          (ssBtfPairStops c base (glue ++ stops) outCap).2) done rest := by
  obtain ⟨done, rest, mid, hsteps, hdone, hrest, hp⟩ :=
    pairLoop_exec haveSpec outCap h hbase hleaf hleave hres hstops
  refine ⟨done, rest, mid, hsteps, hdone, hrest, ?_⟩
  have hhead : ∀ x, stops.head? = some x → c.InRegion base x := by
    intro x hx
    obtain ⟨more, rfl⟩ := List.head?_eq_some_iff.mp hx
    rw [btfStops, List.cons_append, List.cons_prefix_cons] at hstops
    exact hstops.1 ▸ hbase
  have hlen := hbase.2
  rw [ssBtfPairStops_eq hptr (by omega) hpos hglue hhead, length_btfStops]
  dsimp only
  rw [retired_reverse hp.records]
  exact ⟨hp.records, hp.closed, fun hwhole => hp.complete (by omega)⟩

/-- All edges of an execution that leaves: the decoder appends what was executed. -/
lemma amdDecodeStitched_complete {haveSpec : Bool} {steps : List Step} {fin : ℕ} (hlen : 0 < c.len)
    (h : Exec c c.ptr c.ptr steps fin) (hleave : ¬c.InRegion c.ptr fin) {br : List BranchEntry}
    (hrecs : Records haveSpec (retired haveSpec br) (takenBranches steps)) (t : Trace) :
    br ≠ [] ∧ ∃ evs, insnsOf evs = execInsns c c.ptr steps ∧
      amdDecodeStitched c haveSpec br t false = (.ok, emitAll t evs) := by
  have hbase : c.InRegion c.ptr c.ptr := ⟨le_rfl, by omega⟩
  obtain ⟨hne, hptr, hav⟩ := h.leaves hbase hleave
  have hbr : br ≠ [] := by
    rintro rfl
    exact hne hrecs.edges.symm
  obtain ⟨evs, ip, entered, hrep, hreplay⟩ :=
    amdReplay_exec h (fun hin => absurd hin hleave) hbase hrecs t
  rw [tailFill_of_outside (hrep.outside hleave)] at hreplay
  refine ⟨hbr, .block 0 :: evs, hrep.insns, ?_⟩
  rw [amdDecodeStitched_eq hbr hptr hlen hav, if_neg Bool.false_ne_true, hreplay]

/-- The first edges of such an execution: the decoder appends a part of it from the start, and
marks the trace for a gap. -/
lemma amdDecodeStitched_part {haveSpec : Bool} {done rest : List Step} {mid fin : ℕ}
    (hlen : 0 < c.len) (hdone : Exec c c.ptr c.ptr done mid) (hrest : Exec c c.ptr mid rest fin)
    (hclosed : ∀ s, done.getLast? = some s → s.taken = true) (hleave : ¬c.InRegion c.ptr fin)
    {br : List BranchEntry} (hbr : br ≠ [])
    (hrecs : Records haveSpec (retired haveSpec br) (takenBranches done)) (t : Trace)
    (gap : Bool) :
    ∃ evs, insnsOf evs <+: execInsns c c.ptr (done ++ rest) ∧
      amdDecodeStitched c haveSpec br t gap =
        (.ok, if gap then (emitAll t evs).markTruncated else emitAll t evs) := by
  have hbase : c.InRegion c.ptr c.ptr := ⟨le_rfl, by omega⟩
  obtain ⟨-, hptr, hav⟩ := (hdone.append hrest).leaves hbase hleave
  obtain ⟨evs, ip, entered, hrep, hreplay⟩ := amdReplay_exec hdone (fun _ => hclosed) hbase hrecs t
  have hpre := hrep.tail_prefix hrest hleave
  rw [tailFill_eq] at hreplay
  rw [amdDecodeStitched_eq hbr hptr hlen hav, hreplay]
  by_cases htr : (emitAll t (.block 0 :: evs)).truncated = true
  · rw [if_pos htr]
    exact ⟨.block 0 :: evs, (List.prefix_append _ _).trans hpre, rfl⟩
  · refine ⟨.block 0 :: evs ++ tailEvents c c.ptr ip, ?_, ?_⟩
    · rw [insnsOf_append]
      exact hpre
    · rw [if_neg htr, emitAll_append]

section Honest

variable {steps : List Step} {t : Trace} {r : HwStatus × Trace} {whole : Prop} {l : List ℕ}

/-- A result for an execution: a part from the start was sent, and all of it unless there is a
mark, given the whole of the stops. -/
def Honest (c : Code) (base : ℕ) (steps : List Step) (t : Trace) (whole : Prop)
    (r : HwStatus × Trace) : Prop :=
  ∃ evs, insnsOf evs <+: execInsns c base steps ∧
    (r = (.ok, emitAll t evs) ∧ (whole → insnsOf evs = execInsns c base steps) ∨
      r = (.ok, (emitAll t evs).markTruncated))

lemma Honest.mark (h : Honest c base steps t whole r) :
    Honest c base steps t True (r.1, r.2.markTruncated) := by
  obtain ⟨evs, hevs, ⟨rfl, -⟩ | rfl⟩ := h
  · exact ⟨evs, hevs, .inr rfl⟩
  · exact ⟨evs, hevs, .inr rfl⟩

lemma Honest.imp {whole' : Prop} (h : Honest c base steps t whole r) (hwhole : whole' → whole) :
    Honest c base steps t whole' r := by
  obtain ⟨evs, hevs, ⟨rfl, hall⟩ | rfl⟩ := h
  · exact ⟨evs, hevs, .inl ⟨rfl, hall ∘ hwhole⟩⟩
  · exact ⟨evs, hevs, .inr rfl⟩

lemma Honest.stream (h : Honest c base steps t True r) (hl : t.insns = some l) :
    ∃ l', r.2.insns = some l' ∧ l <+: l' ∧ l' <+: l ++ execInsns c base steps ∧
      (r.2.truncated = false → l' = l ++ execInsns c base steps) := by
  obtain ⟨evs, hevs, hr⟩ := h
  have hpre : l ++ (insnsOf evs).take (t.insnsCap - l.length) <+: l ++ execInsns c base steps := by
    rw [List.prefix_append_right_inj]
    exact (List.take_prefix _ _).trans hevs
  obtain ⟨rfl, hall⟩ | rfl := hr
  · refine ⟨_, insns_emitAll evs hl, List.prefix_append _ _, hpre, fun htr => ?_⟩
    -- an unmarked trace dropped nothing
    have hext := (emitAll_extends evs htr).2.insns
    rw [insns_emitAll evs hl, hl, hall trivial] at hext
    rw [hall trivial]
    exact Option.some.inj hext
  · exact ⟨_, insns_emitAll evs hl, List.prefix_append _ _, hpre, fun htr => by cases htr⟩

/-- What the caller gets for the pairs of a leaf execution's stops. -/
lemma ssBtfDecode_honest (haveSpec pairsAllocated : Bool) {fin : ℕ} {glue stops tail : List ℕ}
    (hlen : 0 < c.len) (h : Exec c c.ptr c.ptr steps fin)
    (hleaf : ∀ s ∈ steps, c.InRegion c.ptr s.pc) (hleave : ¬c.InRegion c.ptr fin)
    (hres : NoResidual c c.ptr [] steps) (hglue : ∀ x ∈ glue, ¬c.InRegion c.ptr x)
    (hstops : stops <+: btfStops c.ptr steps ++ tail) (t : Trace) :
    let p := ssBtfPairs c (glue ++ stops) pairsAllocated
    Honest c c.ptr steps t ((btfStops c.ptr steps).length ≤ stops.length)
      (ssBtfDecode c haveSpec p.1 t p.2) := by
  intro p
  have hbase : c.InRegion c.ptr c.ptr := ⟨le_rfl, by omega⟩
  obtain ⟨-, hptr, -⟩ := h.leaves hbase hleave
  rw [ssBtfDecode]
  by_cases hsome : (glue ++ stops).length > 0 ∧ pairsAllocated = true
  swap
  · have hnone : p = ([], false) := if_neg hsome
    rw [hnone]
    exact ⟨[], List.nil_prefix, .inr rfl⟩
  have hp : p = ssBtfPairStops c c.ptr (glue ++ stops) (glue ++ stops).length := if_pos hsome
  obtain ⟨done, rest, mid, rfl, hdone, hrest, hrecs, hclosed, hcomplete⟩ :=
    ssBtfPairStops_exec haveSpec hptr hbase h hleaf hleave hres hglue hstops
      (by rw [List.length_append]; omega) hsome.1
  rw [← hp] at hrecs hcomplete
  by_cases hnil : p.1.length = 0
  · rw [if_pos hnil]
    exact ⟨[], List.nil_prefix, .inr rfl⟩
  · rw [if_neg hnil]
    have hpairs : p.1 ≠ [] := fun hp => hnil (by rw [hp]; rfl)
    by_cases hall : (btfStops c.ptr (done ++ rest)).length ≤ stops.length ∧ p.2 = false
    · obtain rfl := hcomplete hall.1 hall.2
      rw [List.append_nil] at h ⊢
      obtain ⟨-, evs, hevs, hdec⟩ := amdDecodeStitched_complete hlen h hleave hrecs t
      rw [hall.2]
      exact ⟨evs, hevs ▸ List.prefix_rfl, .inl ⟨hdec, fun _ => hevs⟩⟩
    · obtain ⟨evs, hevs, hdec⟩ :=
        amdDecodeStitched_part hlen hdone hrest hclosed hleave hpairs hrecs t p.2
      rw [hdec]
      cases hgap : p.2 with
      | false => exact ⟨evs, hevs, .inl ⟨rfl, fun hwhole => absurd ⟨hwhole, hgap⟩ hall⟩⟩
      | true => exact ⟨evs, hevs, .inr rfl⟩

end Honest

section Capture

variable {events : List CapEvent}

/-- Where the taken branches among some instructions go -/
def takenTargets (steps : List Step) : List ℕ := (takenBranches steps).map Prod.snd

lemma takenTargets_append (xs ys : List Step) :
    takenTargets (xs ++ ys) = takenTargets xs ++ takenTargets ys := by
  simp only [takenTargets, takenBranches, List.filter_append, List.map_append]

lemma takenTargets_singleton (x : Step) :
    takenTargets [x] = if x.taken then [x.next] else [] := by
  cases hx : x.taken <;> simp [takenTargets, takenBranches, hx]

lemma take_concat (stops : List ℕ) (x cap : ℕ) :
    (stops ++ [x]).take cap =
      if (stops.take cap).length < cap then stops.take cap ++ [x] else stops.take cap := by
  rw [List.take_append, List.length_take]
  split_ifs with hroom
  · have hone : [x].length ≤ cap - stops.length := by
      rw [List.length_singleton]
      omega
    rw [List.take_of_length_le hone]
  · rw [Nat.sub_eq_zero_of_le (by omega), List.take_zero, List.append_nil]

/-- While every trap could be armed again the stops are the targets of the taken branches, as far
as there is room. -/
lemma capRun_spec (hrestored : ∀ e ∈ events, e ≠ .switch false)
    (hrearm : (capRun events).rearmFailed = false) :
    (capRun events).btf = true ∧
      (capRun events).stream = (takenTargets (capSteps events)).take ssBtfStreamCap ∧
      ((capRun events).overflow = true ↔
        ssBtfStreamCap < (takenTargets (capSteps events)).length) := by
  induction events using List.reverseRecOn with
  | nil => exact ⟨rfl, rfl, by decide⟩
  | append_singleton events e ih =>
    have hlast : capRun (events ++ [e]) = capEvent (capRun events) e := by
      rw [capRun, List.foldl_append]
      rfl
    have hsteps : capSteps (events ++ [e]) = capSteps events ++ capSteps [e] :=
      List.filterMap_append
    rw [List.forall_mem_append, List.forall_mem_singleton] at hrestored
    rw [hlast] at hrearm ⊢
    rw [hsteps, takenTargets_append]
    cases e with
    | switch restored =>
      obtain ⟨hbtf, hstream, hover⟩ := ih hrestored.1 hrearm
      have hback : restored = true := by
        cases restored with
        | true => rfl
        | false => exact absurd rfl hrestored.2
      have hnone : takenTargets (capSteps [.switch restored]) = [] := rfl
      rw [hnone, List.append_nil]
      exact ⟨by rw [capEvent, hbtf, hback]; rfl, hstream, hover⟩
    | insn x writeOk =>
      have hone : takenTargets (capSteps [.insn x writeOk]) = if x.taken then [x.next] else [] :=
        takenTargets_singleton x
      rw [hone]
      rw [capEvent] at hrearm ⊢
      by_cases htrap : x.taken = true ∨ (capRun events).btf = false
      · rw [if_pos htrap] at hrearm ⊢
        have hboth : (capRun events).rearmFailed = false ∧ writeOk = true := by
          simpa [capOnSigtrap] using hrearm
        obtain ⟨hbtf, hstream, hover⟩ := ih hrestored.1 hboth.1
        rw [if_pos (htrap.resolve_right (by simp [hbtf])), take_concat, List.length_append]
        refine ⟨hboth.2, ?_, ?_⟩
        · simp only [capOnSigtrap, hstream]
        · have hlen : (capRun events).stream.length = min ssBtfStreamCap _ :=
            (congrArg List.length hstream).trans List.length_take
          simp only [capOnSigtrap, List.length_singleton]
          split_ifs with hroom
          · rw [hover]
            omega
          · exact iff_of_true rfl (by omega)
      · rw [if_neg htrap] at hrearm ⊢
        rw [if_neg fun htaken => htrap (.inl htaken), List.append_nil]
        exact ih hrestored.1 hrearm

lemma ssBtfDecode_ok {haveSpec gap : Bool} {pairs : List BranchEntry} {t : Trace} (hlen : 0 < c.len)
    (hptr : c.ptr ≠ 0) (hav : c.disasAvailable = true) :
    (ssBtfDecode c haveSpec pairs t gap).1 = .ok := by
  rw [ssBtfDecode]
  split_ifs with hnil
  · rfl
  · rw [amdDecodeStitched_eq (fun h => hnil (by rw [h]; rfl)) hptr hlen hav]

/-- While every trap could be armed again, the pairs are those of the execution. -/
lemma ssBtfTrace_rearmed (haveSpec pairsAllocated around : Bool) {pre steps post : List Step}
    {call : Step} {fin : ℕ} {t : Trace} (hlen : 0 < c.len)
    (hevents : capSteps events = pre ++ call :: steps ++ post)
    (hpre : ∀ x ∈ pre, x.taken = true → ¬c.InRegion c.ptr x.next)
    (hcall : call.taken = true ∧ call.next = c.ptr) (h : Exec c c.ptr c.ptr steps fin)
    (hleaf : ∀ s ∈ steps, c.InRegion c.ptr s.pc) (hleave : ¬c.InRegion c.ptr fin)
    (hres : NoResidual c c.ptr [] steps) (hrestored : ∀ e ∈ events, e ≠ .switch false)
    (hrearm : (capRun events).rearmFailed = false) :
    Honest c c.ptr steps t True (ssBtfTrace c haveSpec events pairsAllocated around t) := by
  obtain ⟨-, hstream, hover⟩ := capRun_spec hrestored hrearm
  have htargets : takenTargets (capSteps events) =
      takenTargets pre ++ (btfStops c.ptr steps ++ takenTargets post) := by
    have hcons : takenTargets (call :: steps) = btfStops c.ptr steps := by
      have hone := takenTargets_append [call] steps
      rw [takenTargets_singleton, if_pos hcall.1, hcall.2] at hone
      exact hone
    rw [hevents, takenTargets_append, takenTargets_append, hcons, List.append_assoc]
  rw [htargets] at hover
  rw [htargets, List.take_append] at hstream
  have hglue : ∀ x ∈ (takenTargets pre).take ssBtfStreamCap, ¬c.InRegion c.ptr x := by
    intro x hx
    simp only [takenTargets, takenBranches, List.map_map] at hx
    obtain ⟨y, hy, rfl⟩ := List.mem_map.mp (List.mem_of_mem_take hx)
    rw [List.mem_filter] at hy
    exact hpre y hy.1 hy.2
  have hdecode := ssBtfDecode_honest haveSpec pairsAllocated hlen h hleaf hleave hres hglue
    (List.take_prefix (ssBtfStreamCap - (takenTargets pre).length)
      (btfStops c.ptr steps ++ takenTargets post)) t
  rw [← hstream] at hdecode
  rw [ssBtfTrace]
  split_ifs with hlost
  · exact hdecode.mark
  · refine hdecode.imp fun _ => ?_
    have hroom : ¬(capRun events).overflow = true := fun hfull => hlost (by rw [hfull]; rfl)
    rw [hover, List.length_append, List.length_append] at hroom
    rw [List.length_take, List.length_append]
    omega

/-- What a capture of a leaf routine ends with, whatever befalls it: a full buffer, a failed
write and a context switch mark the trace; while the trap could be armed again each time, the
stream is a part of the one executed, from the start; and without a mark it is all of it. -/
theorem ssBtfTrace_honest (haveSpec pairsAllocated around : Bool) {pre steps post : List Step}
    {call : Step} {fin : ℕ} {t : Trace} {l : List ℕ} (hlen : 0 < c.len)
    (hevents : capSteps events = pre ++ call :: steps ++ post)
    (hpre : ∀ x ∈ pre, x.taken = true → ¬c.InRegion c.ptr x.next)
    (hcall : call.taken = true ∧ call.next = c.ptr) (h : Exec c c.ptr c.ptr steps fin)
    (hleaf : ∀ s ∈ steps, c.InRegion c.ptr s.pc) (hleave : ¬c.InRegion c.ptr fin)
    (hres : NoResidual c c.ptr [] steps) (hl : t.insns = some l) :
    let s := capRun events
    let switched := around || events.any CapEvent.isSwitch
    let r := ssBtfTrace c haveSpec events pairsAllocated around t
    r.1 = .ok ∧
      (s.overflow = true ∨ s.rearmFailed = true ∨ switched = true → r.2.truncated = true) ∧
      (s.rearmFailed = false → (∀ e ∈ events, e ≠ .switch false) →
        ∃ l', r.2.insns = some l' ∧ l <+: l' ∧ l' <+: l ++ execInsns c c.ptr steps) ∧
      (r.2.truncated = false → r.2.insns = some (l ++ execInsns c c.ptr steps)) := by
  intro s switched r
  have hbase : c.InRegion c.ptr c.ptr := ⟨le_rfl, by omega⟩
  obtain ⟨-, hptr, hav⟩ := h.leaves hbase hleave
  have hhonest : s.rearmFailed = false → (∀ e ∈ events, e ≠ .switch false) →
      Honest c c.ptr steps t True r := fun hrearm hrestored =>
    ssBtfTrace_rearmed haveSpec pairsAllocated around hlen hevents hpre hcall h hleaf hleave hres
      hrestored hrearm
  have hmark : s.overflow = true ∨ s.rearmFailed = true ∨ switched = true →
      r.2.truncated = true := by
    intro hlost
    have hflags : (s.overflow || s.rearmFailed || switched) = true := by
      simpa [or_assoc] using hlost
    simp only [r, ssBtfTrace]
    rw [if_pos hflags]
    rfl
  refine ⟨ssBtfDecode_ok hlen hptr hav, hmark, fun hrearm hrestored => ?_, fun htr => ?_⟩
  · obtain ⟨l', hl', hle, hpart, -⟩ := (hhonest hrearm hrestored).stream hl
    exact ⟨l', hl', hle, hpart⟩
  · -- without a mark no trap was lost
    have hnone : ¬(s.overflow = true ∨ s.rearmFailed = true ∨ switched = true) := fun hlost => by
      rw [hmark hlost] at htr
      cases htr
    have hrestored : ∀ e ∈ events, e ≠ .switch false := by
      rintro e he rfl
      refine hnone (.inr (.inr ?_))
      simp only [switched, Bool.or_eq_true, List.any_eq_true]
      exact .inr ⟨_, he, rfl⟩
    have hrearm : s.rearmFailed = false :=
      Bool.eq_false_of_not_eq_true fun h => hnone (.inr (.inl h))
    obtain ⟨l', hl', -, -, hall⟩ := (hhonest hrearm hrestored).stream hl
    rw [hl', hall htr]

end Capture

/-- A loop taken once. The write fails at the stop that enters the region, and the next instruction
traps as well. -/
theorem ssBtfTrace_honest_rearm :
    let c := unitCode 100 [.plain, .jcc 100, .ret]
    let steps : List Step := [⟨100, 101, false⟩, ⟨101, 100, true⟩, ⟨100, 101, false⟩,
      ⟨101, 102, false⟩, ⟨102, 900, true⟩]
    let events : List CapEvent := .insn ⟨7, 8, false⟩ true :: .insn ⟨8, 100, true⟩ false ::
      steps.map fun x => .insn x true
    let t : Trace := ⟨some [], 8, 0, some [], 8, 0, false⟩
    let r := ssBtfTrace c true events true false t
    (capRun events).stream = [100, 101, 100, 900] ∧ r.1 = .ok ∧ r.2.truncated = true := by
  intro c steps events t r
  have hevents : capSteps events = [⟨7, 8, false⟩] ++ ⟨8, 100, true⟩ :: steps ++ [] := rfl
  have hexec : Exec c c.ptr c.ptr steps 900 := by decide
  obtain ⟨hok, hmark, -⟩ := ssBtfTrace_honest true true false (by decide) hevents (by decide)
    (by decide) hexec (by decide) (by decide) (by decide) (rfl : t.insns = some [])
  exact ⟨by decide, hok, hmark (.inr (.inl (by decide)))⟩

/-- Branch-trap stops, paired and replayed, refine single-stepping a leaf routine: without a gap
the stream is the one executed, after a gap it is a marked prefix. A gap before the first edge
leaves nothing to replay; the decoder refuses that and the caller marks the trace. -/
theorem ss_btf_refines_single_step (c : Code) (haveSpec : Bool) (steps : List Step) (fin : ℕ)
    (glue tail : List ℕ) (outCap : ℕ) (t : Trace) (hlen : 0 < c.len)
    (hexec : Exec c c.ptr c.ptr steps fin) (hleaf : ∀ s ∈ steps, c.InRegion c.ptr s.pc)
    (hleave : ¬c.InRegion c.ptr fin) (hres : NoResidual c c.ptr [] steps)
    (hglue : ∀ x ∈ glue, ¬c.InRegion c.ptr x)
    (hcap : (glue ++ btfStops c.ptr steps ++ tail).length ≤ outCap) :
    let p := ssBtfPairStops c c.ptr (glue ++ btfStops c.ptr steps ++ tail) outCap
    let r := amdDecodeStitched c haveSpec p.1 t p.2
    (p.2 = false → r.1 = .ok ∧ ∀ l, t.insns = some l →
      l.length + (execInsns c c.ptr steps).length ≤ t.insnsCap →
        r.2.insns = some (l ++ execInsns c c.ptr steps)) ∧
    (p.2 = true → p.1 ≠ [] → r.1 = .ok ∧ r.2.truncated = true ∧ ∀ l, t.insns = some l →
      ∃ l', r.2.insns = some l' ∧ l <+: l' ∧ l' <+: l ++ execInsns c c.ptr steps) ∧
    (p.1 = [] → p.2 = true ∧ r = (.edecode, t) ∧
      ssBtfDecode c haveSpec p.1 t p.2 = (.ok, t.markTruncated)) := by
  intro p r
  have hbase : c.InRegion c.ptr c.ptr := ⟨le_rfl, by omega⟩
  obtain ⟨-, hptr, -⟩ := hexec.leaves hbase hleave
  have hlength := length_btfStops c.ptr steps
  simp only [List.length_append] at hcap
  have hstops : (btfStops c.ptr steps ++ tail).length ≤ outCap := by
    rw [List.length_append]
    omega
  have hpairs := ssBtfPairStops_exec haveSpec hptr hbase hexec hleaf hleave hres hglue
    List.prefix_rfl hstops (by omega)
  rw [← List.append_assoc glue] at hpairs
  obtain ⟨done, rest, mid, rfl, hdone, hrest, hrecs, hclosed, hwhole⟩ := hpairs
  have hcomplete := hwhole (by rw [List.length_append]; exact Nat.le_add_right ..)
  -- no gap means that nothing was left over
  have hfull : p.2 = false → p.1 ≠ [] ∧ ∃ evs, insnsOf evs = execInsns c c.ptr (done ++ rest) ∧
      amdDecodeStitched c haveSpec p.1 t false = (.ok, emitAll t evs) := by
    intro hgap
    obtain rfl := hcomplete hgap
    rw [List.append_nil] at hexec ⊢
    exact amdDecodeStitched_complete hlen hexec hleave hrecs t
  refine ⟨fun hgap => ?_, fun hgap hpairs => ?_, fun hnil => ?_⟩
  · obtain ⟨-, evs, hevs, hdec⟩ := hfull hgap
    have hr : r = (.ok, emitAll t evs) := by
      rw [← hdec, ← hgap]
    refine ⟨by rw [hr], fun l hl hroom => ?_⟩
    rw [hr, insns_emitAll evs hl, hevs, List.take_of_length_le (by omega)]
  · obtain ⟨evs, hevs, hdec⟩ :=
      amdDecodeStitched_part hlen hdone hrest hclosed hleave hpairs hrecs t true
    rw [if_pos rfl] at hdec
    have hr : r = (.ok, (emitAll t evs).markTruncated) := by
      rw [← hdec, ← hgap]
    refine ⟨by rw [hr], by rw [hr]; rfl, fun l hl => ⟨_, by rw [hr]; exact insns_emitAll evs hl,
      List.prefix_append _ _, ?_⟩⟩
    rw [List.prefix_append_right_inj]
    exact (List.take_prefix _ _).trans hevs
  · -- without a gap there is at least the edge that leaves
    have hgap : p.2 = true := by
      by_contra hgap
      exact (hfull (by simpa using hgap)).1 hnil
    refine ⟨hgap, ?_, ?_⟩
    · show amdDecodeStitched c haveSpec p.1 t p.2 = _
      rw [hnil, amdDecodeStitched, if_pos (.inl rfl)]
    · rw [hnil, ssBtfDecode, if_pos List.length_nil]

/-- A loop taken once, with glue before and after it. -/
theorem ss_btf_refines_single_step_loop :
    let c := unitCode 100 [.plain, .jcc 100, .ret]
    let steps : List Step := [⟨100, 101, false⟩, ⟨101, 100, true⟩, ⟨100, 101, false⟩,
      ⟨101, 102, false⟩, ⟨102, 900, true⟩]
    let t : Trace := ⟨some [], 8, 0, some [], 8, 0, false⟩
    let p := ssBtfPairStops c c.ptr ([7, 8] ++ btfStops c.ptr steps ++ [5]) 6
    p.2 = false ∧ (amdDecodeStitched c true p.1 t p.2).2.insns = some [0, 1, 0, 1, 2] := by
  intro c steps t p
  have h := ss_btf_refines_single_step c true steps 900 [7, 8] [5] 6 t (by decide) (by decide)
    (by decide) (by decide) (by decide) (by decide) (by decide)
  have hgap : p.2 = false := by decide
  have hroom : ([] : List ℕ).length + (execInsns c c.ptr steps).length ≤ t.insnsCap := by decide
  have hstream : execInsns c c.ptr steps = [0, 1, 0, 1, 2] := by decide
  refine ⟨hgap, ?_⟩
  rw [(h.1 hgap).2 [] rfl hroom, hstream]
  rfl

/-- Two conditionals of the first run go to the same place: pairing reports a gap and no edge,
and the decoder refuses the empty array without a mark. -/
theorem ss_btf_first_run_ambiguous :
    let c := unitCode 100 [.jcc 103, .jcc 103, .plain, .ret]
    let steps : List Step := [⟨100, 101, false⟩, ⟨101, 103, true⟩, ⟨103, 900, true⟩]
    let t : Trace := ⟨some [], 8, 0, some [], 8, 0, false⟩
    let p := ssBtfPairStops c 100 (btfStops 100 steps) 3
    Exec c 100 100 steps 900 ∧ (∀ s ∈ steps, c.InRegion 100 s.pc) ∧ NoResidual c 100 [] steps ∧
      p = ([], true) ∧ amdDecodeStitched c true p.1 t p.2 = (.edecode, t) ∧
      (amdDecodeStitched c true p.1 t p.2).2.truncated = false := by
  decide

end AsmTest.Hwtrace
