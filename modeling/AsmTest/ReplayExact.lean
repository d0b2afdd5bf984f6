import Mathlib.Tactic
import Mathlib.Data.List.Basic
import AsmTest.AmdReplay
import AsmTest.Execution

/-!
# The replay of a complete branch array

When every taken branch of an execution is recorded, each run between two records is the
run that was executed, and the replay gives the execution back.
-/

namespace AsmTest.Hwtrace

open Code Lib

variable {c : Code} {base : ℕ}

/-- The offsets of some steps. -/
def offsets (base : ℕ) (steps : List Step) : List ℕ :=
  steps.map fun s => s.pc - base

lemma walkNext_of_falls {x : Step} {fromOff : ℕ} (hin : c.InRegion base x.pc)
    (hx : x.taken = false) (hok : StepOk c base x) (hle : x.next - base ≤ fromOff) :
    walkNext c base fromOff (x.pc - base) = some (x.next - base) := by
  obtain ⟨-, -, hcond⟩ := hok.falls hin hx
  rw [walkNext, if_pos, if_neg, hok.off_next hin hx, if_pos hle]
  · intro hj
    rw [(hcond hj.1).2.2] at hj
    exact absurd hj.2 (by simp)
  · refine ⟨hok.decodes hin, fun hrec => ?_⟩
    obtain ⟨hdirect, hcall, -⟩ := hcond hrec.1
    simp [hdirect, hcall] at hrec

/-- A run of an execution is a walk to its last instruction. -/
lemma Run.leads {pc : ℕ} {q : List Step} {s : Step} (h : Run c base pc q s) :
    Leads c base (s.pc - base) (pc - base) (offsets base (q ++ [s])) := by
  induction h with
  | last hin _ hok => exact ⟨hok.decodes hin, .here⟩
  | @cons x s q hin hx hok hrun ih =>
    have hlo := hin.1
    have hdec : (c.disasProbe (x.pc - base)).len ≠ 0 := hok.decodes hin
    have hnext := (hok.falls hin hx).1
    have hle := hrun.le
    exact ⟨ih.1, .step (by omega) (walkNext_of_falls hin hx hok (by omega)) ih.2⟩

lemma Run.execInsns_eq {pc : ℕ} {q : List Step} {s : Step} (h : Run c base pc q s) :
    execInsns c base (q ++ [s]) = offsets base (q ++ [s]) := by
  have hall : ∀ x ∈ q ++ [s], c.InRegion base x.pc := by
    induction h with
    | last hin => simpa using hin
    | cons hin _ _ _ ih => exact List.forall_mem_cons.mpr ⟨hin, ih⟩
  rw [execInsns, offsets, List.filter_eq_self.mpr]
  intro x hx
  simpa using hall x hx

/-- A run starts a block after each conditional that fell through. -/
lemma Run.blocksOf_pathEvents {pc : ℕ} {q : List Step} {s : Step} (h : Run c base pc q s) :
    blocksOf (pathEvents c (offsets base (q ++ [s]))) = execStarts c base q := by
  induction h with
  | last => rfl
  | @cons x s q hin hx hok hrun ih =>
    have hhead := hrun.leads.2.head?_eq
    have hcons : offsets base (x :: q ++ [s]) = (x.pc - base) :: offsets base (q ++ [s]) := rfl
    have hstarts : execStarts c base (x :: q) = stepStarts c base x ++ execStarts c base q := rfl
    rw [hcons, pathEvents_cons hhead, blocksOf_append, ih, hstarts, stepStarts, hx]
    by_cases hb : c.disasIsBranch (x.pc - base) = true <;> simp [hb, hin, blocksOf]

lemma blocksOf_landEvents {s : Step} (h : s.taken = true) :
    blocksOf (landEvents c base s.next) = stepStarts c base s := by
  rw [landEvents, stepStarts, if_pos h]
  split_ifs <;> rfl

lemma insnsOf_landEvents (toIp : ℕ) : insnsOf (landEvents c base toIp) = [] := by
  rw [landEvents]
  split_ifs <;> rfl

/-- What the replay appends for a run and the branch that ends it. -/
def runEvents (c : Code) (base : ℕ) (q : List Step) (s : Step) : List Event :=
  pathEvents c (offsets base (q ++ [s])) ++ landEvents c base s.next

lemma Run.insnsOf_events {pc : ℕ} {q : List Step} {s : Step} (h : Run c base pc q s) :
    insnsOf (runEvents c base q s) = execInsns c base (q ++ [s]) := by
  rw [runEvents, insnsOf_append, insnsOf_pathEvents, insnsOf_landEvents, List.append_nil,
    h.execInsns_eq]

lemma Run.blocksOf_events {pc : ℕ} {q : List Step} {s : Step} (h : Run c base pc q s) :
    blocksOf (runEvents c base q s) = execStarts c base (q ++ [s]) := by
  rw [runEvents, blocksOf_append, h.blocksOf_pathEvents, blocksOf_landEvents h.taken,
    execStarts_append]
  simp [execStarts]

/-- The round of the record that ends a run. -/
lemma replayStep_run {haveSpec : Bool} {pc : ℕ} {q : List Step} {x : Step} (h : Run c base pc q x)
    {s : ReplayState} (hip : s.ip = pc) {e : BranchEntry} (hret : dropped haveSpec e = false)
    (hfrom : e.fromAddr = x.pc) (hto : e.toAddr = x.next) :
    replayStep c base haveSpec s e =
      .ok ⟨emitAll s.trace (runEvents c base q x), x.next, true⟩ := by
  have hw : Walked c base s.ip e := by
    rw [Walked, hip, hfrom]
    exact ⟨h.inRegion, h.le, h.stepOk.1.2⟩
  have hleads : Leads c base (e.fromAddr - base) (s.ip - base) (offsets base (q ++ [x])) := by
    rw [hip, hfrom]
    exact h.leads
  rw [replayStep_of_leads hret hw hleads, hto, runEvents]

/-- The round of a branch executed outside. -/
lemma replayStep_outside {haveSpec : Bool} {s : ReplayState} (hip : ¬c.InRegion base s.ip)
    (hent : s.entered = true) {e : BranchEntry} (hret : dropped haveSpec e = false) :
    replayStep c base haveSpec s e =
      .ok ⟨emitAll s.trace (landEvents c base e.toAddr), e.toAddr, true⟩ := by
  rw [replayStep_of_not_walked hret fun hw => hip hw.1, replayLand_of_entered hent, hent]

/-- These records are retired ones, with these edges. -/
structure Records (haveSpec : Bool) (recs : List BranchEntry) (edges : List (ℕ × ℕ)) : Prop where
  retired : ∀ e ∈ recs, dropped haveSpec e = false
  edges : recs.map (fun e => (e.fromAddr, e.toAddr)) = edges

lemma Records.cons {haveSpec : Bool} {recs : List BranchEntry} {a b : ℕ} {edges : List (ℕ × ℕ)}
    (h : Records haveSpec recs ((a, b) :: edges)) :
    ∃ e recs', recs = e :: recs' ∧ dropped haveSpec e = false ∧ e.fromAddr = a ∧ e.toAddr = b ∧
      Records haveSpec recs' edges := by
  obtain ⟨hret, hedges⟩ := h
  cases recs with
  | nil => cases hedges
  | cons e recs' =>
    obtain ⟨he, hrest⟩ := List.cons.inj hedges
    exact ⟨e, recs', rfl, hret e List.mem_cons_self, congrArg Prod.fst he, congrArg Prod.snd he,
      fun x hx => hret x (List.mem_cons_of_mem e hx), hrest⟩

/-- What a replay has after the records of an execution. -/
structure Replayed (c : Code) (base : ℕ) (steps : List Step) (fin : ℕ) (evs : List Event)
    (ip : ℕ) : Prop where
  insns : insnsOf evs = execInsns c base steps
  blocks : blocksOf evs = execStarts c base steps
  inside : c.InRegion base fin → ip = fin
  outside : ¬c.InRegion base fin → ¬c.InRegion base ip

lemma Replayed.append {p steps : List Step} {fin ip : ℕ} {a b : List Event}
    (hi : insnsOf a = execInsns c base p) (hb : blocksOf a = execStarts c base p)
    (h : Replayed c base steps fin b ip) : Replayed c base (p ++ steps) fin (a ++ b) ip where
  insns := by rw [insnsOf_append, execInsns_append, hi, h.insns]
  blocks := by rw [blocksOf_append, execStarts_append, hb, h.blocks]
  inside := h.inside
  outside := h.outside

lemma Replayed.nil {pc ip : ℕ} (hin : c.InRegion base pc → ip = pc)
    (hout : ¬c.InRegion base pc → ¬c.InRegion base ip) : Replayed c base [] pc [] ip :=
  ⟨rfl, rfl, hin, hout⟩

/-- The branch loop over the records of an execution. Between records the replay stands where
control entered the run; outside the region it only has to be outside too. -/
theorem replayLoop_exec {haveSpec : Bool} {pc fin : ℕ} {steps : List Step}
    (h : Exec c base pc steps fin) (hc : Closed c base steps fin) {s : ReplayState}
    (hin : c.InRegion base pc → s.ip = pc)
    (hout : ¬c.InRegion base pc → ¬c.InRegion base s.ip ∧ s.entered = true)
    {recs : List BranchEntry} (hrecs : Records haveSpec recs (takenBranches steps)) :
    ∃ evs ip entered, Replayed c base steps fin evs ip ∧
      replayLoop c base haveSpec s recs = .ok ⟨emitAll s.trace evs, ip, entered⟩ := by
  -- a record takes a whole run of steps at once, so the induction is on their number
  induction hn : steps.length using Nat.strong_induction_on
    generalizing pc steps s recs with
  | _ n ih =>
  by_cases hnil : steps = []
  · subst hnil
    cases h
    have hrecs' : recs = [] := List.map_eq_nil_iff.mp hrecs.edges
    subst hrecs'
    exact ⟨[], s.ip, s.entered, .nil hin fun h => (hout h).1, rfl⟩
  by_cases hpc : c.InRegion base pc
  · -- the next record ends the run that starts here
    obtain ⟨q, x, rest, rfl, hrun, hrest⟩ := h.split_closed hpc hnil hc
    rw [hrun.takenBranches_cons] at hrecs
    obtain ⟨e, recs', rfl, hret, hfrom, hto, hrecs'⟩ := hrecs.cons
    rw [List.append_cons] at hc ⊢
    obtain ⟨evs, ip, entered, hrep, hloop⟩ := ih rest.length (by simp at hn; omega) hrest hc.tail
      (s := ⟨emitAll s.trace (runEvents c base q x), x.next, true⟩)
      (fun _ => rfl) (fun h => ⟨h, rfl⟩) hrecs' rfl
    refine ⟨runEvents c base q x ++ evs, ip, entered,
      .append hrun.insnsOf_events hrun.blocksOf_events hrep, ?_⟩
    rw [replayLoop_cons, replayStep_run hrun (hin hpc) hret hfrom hto]
    dsimp only
    rw [hloop, ← emitAll_append]
  · obtain ⟨hip, hent⟩ := hout hpc
    cases h with
    | nil => exact absurd rfl hnil
    | @cons x rest _ hok hrest =>
      -- outside, a branch is recorded but nothing is appended unless it comes back
      have hclosed : Closed c base rest fin := Closed.tail (p := [x]) hc
      have hinsns : execInsns c base [x] = [] := by simp [execInsns, hpc]
      cases hx : x.taken with
      | true =>
        have hbr : takenBranches (x :: rest) = (x.pc, x.next) :: takenBranches rest := by
          simp [takenBranches, hx]
        rw [hbr] at hrecs
        obtain ⟨e, recs', rfl, hret, hfrom, hto, hrecs'⟩ := hrecs.cons
        obtain ⟨evs, ip, entered, hrep, hloop⟩ := ih rest.length (by simp at hn; omega) hrest
          hclosed (s := ⟨emitAll s.trace (landEvents c base x.next), x.next, true⟩)
          (fun _ => rfl) (fun h => ⟨h, rfl⟩) hrecs' rfl
        have hstarts : blocksOf (landEvents c base x.next) = execStarts c base [x] := by
          rw [blocksOf_landEvents hx]
          simp [execStarts]
        refine ⟨landEvents c base x.next ++ evs, ip, entered,
          .append (by rw [insnsOf_landEvents, hinsns]) hstarts hrep, ?_⟩
        rw [replayLoop_cons, replayStep_outside hip hent hret, hto]
        dsimp only
        rw [hloop, ← emitAll_append]
      | false =>
        have hnext := hok.outside hpc hx
        have hbr : takenBranches (x :: rest) = takenBranches rest := by
          simp [takenBranches, hx]
        obtain ⟨evs, ip, entered, hrep, hloop⟩ := ih rest.length (by simp at hn; omega) hrest
          hclosed (s := s) (fun h => absurd h hnext) (fun _ => ⟨hip, hent⟩) (hbr ▸ hrecs) rfl
        have hstarts : execStarts c base [x] = [] := by simp [execStarts, stepStarts, hx, hpc]
        exact ⟨evs, ip, entered, .append (p := [x]) (a := []) hinsns.symm hstarts.symm hrep, hloop⟩

/-- The replay of the records of an execution that enters at the base: what was executed,
then the trailing fill. -/
theorem amdReplay_exec {haveSpec : Bool} {fin : ℕ} {steps : List Step}
    (h : Exec c base base steps fin) (hc : Closed c base steps fin)
    (hbase : c.InRegion base base) {br : List BranchEntry}
    (hrecs : Records haveSpec (retired haveSpec br) (takenBranches steps)) (t : Trace) :
    ∃ evs ip entered, Replayed c base steps fin evs ip ∧
      (amdReplay c base haveSpec br t).1 =
        (tailFill c base ⟨emitAll t (.block 0 :: evs), ip, entered⟩).1 := by
  obtain ⟨evs, ip, entered, hrep, hloop⟩ := replayLoop_exec h hc
    (s := ⟨emitAll t [.block 0], base, false⟩) (fun _ => rfl) (fun h => absurd hbase h) hrecs
  refine ⟨evs, ip, entered, hrep, ?_⟩
  rw [amdReplay_eq, hloop]
  rfl

lemma tailFill_of_outside {s : ReplayState} (h : ¬c.InRegion base s.ip) :
    (tailFill c base s).1 = s.trace := by
  rw [tailFill, if_neg fun hgo => h hgo.2]

/-- An execution that leaves the region has a taken branch in it, and its code decodes. -/
lemma Exec.leaves {fin : ℕ} {steps : List Step} (h : Exec c base base steps fin)
    (hbase : c.InRegion base base) (hleave : ¬c.InRegion base fin) :
    takenBranches steps ≠ [] ∧ c.ptr ≠ 0 ∧ c.disasAvailable = true := by
  obtain ⟨q, x, rest, rfl, hrun, -⟩ | ⟨hfin, -⟩ := h.split hbase
  · refine ⟨?_, (hrun.stepOk.2.decodes hrun.stepOk.1).present⟩
    rw [hrun.takenBranches_cons]
    simp
  · exact absurd hfin hleave

lemma records_retired {haveSpec : Bool} {br : List BranchEntry} {edges : List (ℕ × ℕ)}
    (h : (retired haveSpec br).map (fun e => (e.fromAddr, e.toAddr)) = edges) :
    Records haveSpec (retired haveSpec br) edges where
  retired e he := by simpa using (List.mem_filter.mp he).2
  edges := h

/-- The decoder gets as far as the replay on the records of an execution that leaves. -/
lemma amdDecodeStitched_eq {haveSpec gap : Bool} {br : List BranchEntry} (hbr : br ≠ [])
    (hptr : c.ptr ≠ 0) (hlen : 0 < c.len) (hav : c.disasAvailable = true) (t : Trace) :
    amdDecodeStitched c haveSpec br t gap =
      (.ok, if gap then (amdReplay c c.ptr haveSpec br t).1.markTruncated
        else (amdReplay c c.ptr haveSpec br t).1) := by
  have hlen' : br.length ≠ 0 := fun h => hbr (List.length_eq_zero_iff.mp h)
  rw [amdDecodeStitched, if_neg (by omega), if_neg (by simp [hav])]

/-- Replaying the complete branch array of an execution that enters the region at its base and
leaves it appends exactly what was executed; aborted and wrong-path records may stand between
the recorded branches. -/
theorem amd_decode_stitched_exact (c : Code) (haveSpec : Bool) (br : List BranchEntry) (t : Trace)
    (steps : List Step) (fin : ℕ) (hlen : 0 < c.len) (hexec : Exec c c.ptr c.ptr steps fin)
    (hleave : ¬c.InRegion c.ptr fin)
    (hrecs : (retired haveSpec br).map (fun e => (e.fromAddr, e.toAddr)) = takenBranches steps)
    (hinsns : ∀ l, t.insns = some l →
      l.length + (execInsns c c.ptr steps).length ≤ t.insnsCap)
    (hblocks : ∀ l, t.blocks = some l →
      l.length + ((0 :: execStarts c c.ptr steps).toFinset \ l.toFinset).card ≤ t.blocksCap)
    (htr : t.truncated = false) :
    (amdDecodeStitched c haveSpec br t false).1 = .ok ∧
    (amdDecodeStitched c haveSpec br t false).2.truncated = false ∧
    (amdDecodeStitched c haveSpec br t false).2.insns =
      t.insns.map (· ++ execInsns c c.ptr steps) ∧
    ∀ l, t.blocks = some l → ∃ l', (amdDecodeStitched c haveSpec br t false).2.blocks = some l' ∧
      ∀ x, x ∈ l' ↔ x ∈ l ∨ x = 0 ∨ x ∈ execStarts c c.ptr steps := by
  have hbase : c.InRegion c.ptr c.ptr := ⟨le_rfl, by omega⟩
  obtain ⟨hne, hptr, hav⟩ := hexec.leaves hbase hleave
  have hbr : br ≠ [] := by
    rintro rfl
    exact hne hrecs.symm
  obtain ⟨evs, ip, entered, hrep, hreplay⟩ := amdReplay_exec hexec (fun h => absurd h hleave) hbase
    (records_retired hrecs) t
  rw [tailFill_of_outside (hrep.outside hleave)] at hreplay
  have hroom : Room t (.block 0 :: evs) := by
    refine ⟨fun l hl => ?_, fun l hl => ?_⟩
    · rw [insnsOf, hrep.insns]
      exact hinsns l hl
    · rw [blocksOf, hrep.blocks]
      exact hblocks l hl
  have hfalse : (emitAll t (.block 0 :: evs)).truncated = false := by
    rw [truncated_emitAll_of_room hroom, htr]
  have hext := (emitAll_extends _ hfalse).2
  rw [amdDecodeStitched_eq hbr hptr hlen hav, if_neg Bool.false_ne_true, hreplay]
  refine ⟨rfl, hfalse, ?_, fun l hl => ?_⟩
  · rw [hext.insns, insnsOf, hrep.insns]
  · obtain ⟨l', hl', hmem⟩ := hext.blocks_some l hl
    refine ⟨l', hl', fun x => ?_⟩
    rw [hmem, blocksOf, hrep.blocks, List.mem_cons]

/-- A loop that is taken once, a call out of the region and the return from it; a wrong-path
record stands in between. -/
theorem amd_decode_stitched_exact_loop :
    let c := unitCode 100 [.plain, .jcc 100, .call 500, .ret]
    let t : Trace := ⟨some [], 8, 0, some [], 8, 0, false⟩
    let br : List BranchEntry := [⟨103, 900, false, 0⟩, ⟨500, 103, false, 0⟩, ⟨102, 500, false, 0⟩,
      ⟨101, 100, false, 1⟩, ⟨101, 100, false, 0⟩]
    (amdDecodeStitched c true br t false).2.insns = some [0, 1, 0, 1, 2, 3] ∧
      (amdDecodeStitched c true br t false).2.truncated = false := by
  intro c t br
  have h := amd_decode_stitched_exact c true br t
    [⟨100, 101, false⟩, ⟨101, 100, true⟩, ⟨100, 101, false⟩, ⟨101, 102, false⟩, ⟨102, 500, true⟩,
      ⟨500, 103, true⟩, ⟨103, 900, true⟩] 900
    (by decide) (by decide) (by decide) (by decide) (by decide) (by decide) rfl
  refine ⟨?_, h.2.1⟩
  rw [h.2.2.1]
  decide

end AsmTest.Hwtrace
