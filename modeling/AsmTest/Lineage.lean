import AsmTest.FabricHops
import AsmTest.Lib.Bfs

/-!
# The zeroization audit

`loom_audit` lights the lanes whose resident span at the playhead was defined in the forward closure
of a birth step. The resident span is the latest write on the lane.
-/

namespace AsmTest.Loom

open Lib
open Dataflow (ValRec ValTrace DefUse DefUseEdge Cell LastWriterOf WritesCell defuseBuild footprint
  appendAll valtraceNew)

section Walk

structure Adj where
  fwd : List (ℕ × List ℕ)
  bwd : List (ℕ × List ℕ)

def adjOf (src dst : DefUseEdge → ℕ) (edges : List DefUseEdge) : List (ℕ × List ℕ) :=
  edges.foldl (fun m e => mapInsert (src e) ((mapFind (src e) m).getD [] ++ [dst e]) m) []

def adj (edges : List DefUseEdge) : Adj :=
  ⟨adjOf DefUseEdge.fromStep DefUseEdge.toStep edges,
    adjOf DefUseEdge.toStep DefUseEdge.fromStep edges⟩

/-- Sorted and without repetition -/
def nextSteps (adj : List (ℕ × List ℕ)) (s : ℕ) : List ℕ :=
  match mapFind s adj with
  | none => []
  | some next => (next.insertionSort (· ≤ ·)).dedup

def walkStep (adj : List (ℕ × List ℕ)) (sign : ℤ) (nsteps s : ℕ) (st : Bfs.State) : Bfs.State :=
  (nextSteps adj s).foldl (fun st t => if nsteps ≤ t then st else Bfs.visit sign s st t) st

/-- A step is put in the queue at most once, so `nsteps + 1` turns are enough. -/
def walk (adj : List (ℕ × List ℕ)) (origin : ℕ) (sign : ℤ) (nsteps : ℕ) :
    Option (List (ℕ × ℤ)) :=
  (Bfs.run (walkStep adj sign nsteps) (nsteps + 1) ⟨[origin], [(origin, 0)]⟩).map Bfs.State.depth

end Walk

section Audit

structure LoomLit where
  lane : ℕ
  span : ℕ
  /-- The resident value was never captured. -/
  hollow : Bool
deriving DecidableEq, Repr

def litLane (f : LoomFabric) (depth : List (ℕ × ℤ)) (playhead lane : ℕ) : Option LoomLit :=
  let span := f.resident lane playhead
  if span = kLoomNoSpan then none
  else match f.spans[span]? with
    | none => none
    | some s =>
      -- nothing is known about where a value from before the trace comes from
      if s.bornUntraced = true ∨ (mapFind s.tWrite depth).isNone then none
      else some { lane, span, hollow := !s.valueValid }

def loomAudit (f : LoomFabric) (edges : List DefUseEdge) (birthStep playhead : ℕ) :
    Option (List LoomLit) := do
  let depth ← walk (adj edges).fwd birthStep 1 f.steps
  return (List.range f.lanes.length).filterMap (litLane f depth playhead)

def loomAuditLanes (f : LoomFabric) (edges : List DefUseEdge) (birthStep playhead : ℕ) :
    Option (List ℕ) :=
  (loomAudit f edges birthStep playhead).map fun lit => lit.map LoomLit.lane

end Audit

section Closure

/-- A step in the forward closure of the birth step -/
def Descends (edges : List DefUseEdge) (birthStep k : ℕ) : Prop :=
  Relation.ReflTransGen (fun a b => ∃ e ∈ edges, e.fromStep = a ∧ e.toStep = b) birthStep k

theorem mem_adjOf {src dst : DefUseEdge → ℕ} {edges : List DefUseEdge} {s t : ℕ} :
    t ∈ (mapFind s (adjOf src dst edges)).getD [] ↔ ∃ e ∈ edges, src e = s ∧ dst e = t := by
  rw [adjOf]
  induction edges using List.reverseRecOn with
  | nil => simp [mapFind]
  | append_singleton edges x ih =>
    rw [List.foldl_append, List.foldl_cons, List.foldl_nil, mapFind_mapInsert]
    by_cases hs : s = src x
    · rw [if_pos hs, Option.getD_some, List.mem_append, ← hs, ih, List.mem_singleton]
      constructor
      · rintro (⟨e, he, h⟩ | rfl)
        · exact ⟨e, List.mem_append_left _ he, h⟩
        · exact ⟨x, by simp, hs.symm, rfl⟩
      · rintro ⟨e, he, h1, h2⟩
        rcases List.mem_append.1 he with he | he
        · exact .inl ⟨e, he, h1, h2⟩
        · rw [List.mem_singleton.1 he] at h2
          exact .inr h2.symm
    · rw [if_neg hs, ih]
      constructor
      · rintro ⟨e, he, h⟩
        exact ⟨e, List.mem_append_left _ he, h⟩
      · rintro ⟨e, he, h1, h2⟩
        rcases List.mem_append.1 he with he | he
        · exact ⟨e, he, h1, h2⟩
        · rw [List.mem_singleton.1 he] at h1
          exact absurd h1.symm hs

theorem mem_nextSteps {adj : List (ℕ × List ℕ)} {s t : ℕ} :
    t ∈ nextSteps adj s ↔ t ∈ (mapFind s adj).getD [] := by
  rw [nextSteps]
  cases mapFind s adj with
  | none => rfl
  | some l => rw [Option.getD_some, List.mem_dedup, List.mem_insertionSort]

theorem walkStep_visits (adj : List (ℕ × List ℕ)) (sign : ℤ) (nsteps : ℕ) :
    Bfs.Visits (walkStep adj sign nsteps)
      (fun s => (nextSteps adj s).filter fun t => t < nsteps) sign := by
  intro s st
  rw [walkStep, List.foldl_filter]
  congr 1
  funext st t
  simp only [decide_eq_true_eq]
  by_cases ht : t < nsteps
  · rw [if_neg (Nat.not_le.2 ht), if_pos ht]
  · rw [if_pos (Nat.not_lt.1 ht), if_neg ht]

/-- The walk ends with the forward closure of the birth step. -/
theorem walk_spec {edges : List DefUseEdge} {n : ℕ} (hn : ∀ e ∈ edges, e.toStep < n)
    (birthStep : ℕ) :
    ∃ depth, walk (adj edges).fwd birthStep 1 n = some depth ∧
      ∀ k, (mapFind k depth).isSome ↔ Descends edges birthStep k := by
  obtain ⟨st, hst, hseen⟩ := Bfs.run_start n birthStep (walkStep_visits (adj edges).fwd 1 n)
    fun a b hb => of_decide_eq_true (List.mem_filter.1 hb).2
  refine ⟨st.depth, by rw [walk, hst]; rfl, fun k => (hseen k).trans ?_⟩
  have hstep : (fun a b => b ∈ (nextSteps (adj edges).fwd a).filter fun t => t < n) =
      fun a b => ∃ e ∈ edges, e.fromStep = a ∧ e.toStep = b := by
    funext a b
    rw [List.mem_filter, mem_nextSteps, adj, mem_adjOf, decide_eq_true_eq, eq_iff_iff]
    constructor
    · exact fun h => h.1
    · rintro ⟨e, he, h1, h2⟩
      exact ⟨⟨e, he, h1, h2⟩, h2 ▸ hn e he⟩
  rw [Bfs.Reaches, Descends, hstep]

end Closure

section Residency

variable {lanes : List LoomLane} {recs : List ValRec}

/-- The latest write on a lane up to a time: by step and, within a step, by position -/
structure LatestWrite (lanes : List LoomLane) (recs : List ValRec) (lane t i : ℕ) (w : ValRec) :
    Prop where
  record : recs[i]? = some w
  isWrite : w.isWrite = true
  onLane : laneOf lanes w = lane
  step : w.step ≤ t
  latest : ∀ (j : ℕ) w', recs[j]? = some w' → w'.isWrite = true → laneOf lanes w' = lane → w'.step ≤ t →
    w'.step < w.step ∨ w'.step = w.step ∧ j ≤ i

/-- A write ends at a later write on its lane, if at all. -/
theorem tEnd_of_write {s : LoomSpan} (hs : s ∈ fabricSpans lanes recs)
    (hborn : s.bornUntraced = false) :
    s.tEnd = kLoomAlive ∨ ∃ (i : ℕ) (w : ValRec), recs[i]? = some w ∧ w.isWrite = true ∧ laneOf lanes w = s.lane ∧
      w.step = s.tEnd ∧ s.tWrite < w.step := by
  rw [fabricSpans_eq] at hs
  obtain ⟨s₀, -, rfl⟩ := List.mem_map.1 hs
  have hborn₀ : s₀.bornUntraced = false := by
    obtain ⟨e, he⟩ := closeSpan_keeps lanes (sortedSpans lanes recs) s₀
    rw [he] at hborn
    exact hborn
  rw [closeSpan, if_neg (by rw [hborn₀]; exact Bool.noConfusion)]
  dsimp only
  have hmin := List.min?_eq_some_iff.1 (@List.min?_cons' ℕ kLoomAlive _
    (((sortedSpans lanes recs).filter (endsSpan lanes s₀)).map LoomSpan.tWrite))
  rcases List.mem_cons.1 hmin.1 with h | h
  · exact .inl h
  · obtain ⟨o, ho, heq⟩ := List.mem_map.1 h
    obtain ⟨ho, hends⟩ := List.mem_filter.1 ho
    rw [endsSpan, decide_eq_true_eq] at hends
    have hwrites : o ∈ writeSpans lanes recs := by
      rcases mem_sortedSpans.1 ho with ho | ⟨lane, -, ho⟩
      · exact ho
      · rw [(entrySpan_born ho).1] at hends
        cases hends.2.1
    obtain ⟨w, hw⟩ := fromWrite_of_mem_writeSpans hwrites
    refine .inr ⟨o.recIdx, w, hw.record, hw.isWrite, hw.lane.symm.trans hends.1, ?_, ?_⟩
    · rw [← heq, hw.step]
    · rw [← hw.step]
      exact hends.2.2.1

/-- A value from before the trace ends with the first write on its lane. -/
theorem tEnd_of_born {s : LoomSpan} (hs : s ∈ fabricSpans lanes recs)
    (hborn : s.bornUntraced = true) :
    s.tWrite = 0 ∧ ∀ (i : ℕ) w, recs[i]? = some w → w.isWrite = true → laneOf lanes w = s.lane →
      laneOf lanes w ≠ kLoomNoSpan → s.tEnd ≤ w.step := by
  rw [fabricSpans_eq] at hs
  obtain ⟨s₀, hs₀, rfl⟩ := List.mem_map.1 hs
  obtain ⟨e, he⟩ := closeSpan_keeps lanes (sortedSpans lanes recs) s₀
  have hborn₀ : s₀.bornUntraced = true := by
    rw [he] at hborn
    exact hborn
  rw [closeSpan, if_pos hborn₀]
  rcases mem_sortedSpans.1 hs₀ with hs₀ | ⟨lane, -, hs₀⟩
  · obtain ⟨w, hw⟩ := fromWrite_of_mem_writeSpans hs₀
    rw [hw.traced] at hborn₀
    cases hborn₀
  · obtain ⟨-, hlane, hzero, hend⟩ := entrySpan_born hs₀
    refine ⟨hzero, fun i w hi hwr hl hne => ?_⟩
    obtain ⟨o, ho, -, hfrom⟩ := exists_writeSpan hi hwr hne
    rw [hend, ← hfrom.step]
    apply (List.min?_eq_some_iff.1 (@List.min?_cons' ℕ kLoomAlive _ _)).2
    refine List.mem_cons_of_mem _ (List.mem_map_of_mem (List.mem_filter.2 ⟨ho, ?_⟩))
    rw [decide_eq_true_eq, hfrom.lane, hl, hlane]

/-- The last write span in time is the latest write, and it is still alive. -/
theorem exists_latestWrite (hlen : (fabricSpans lanes recs).length < 2 ^ 32) {lane : ℕ}
    (hlane : lane ≠ kLoomNoSpan) (t : ℕ) :
    (∃ (j : ℕ) (s : LoomSpan) (w : ValRec), (fabricSpans lanes recs)[j]? = some s ∧
      FromWrite lanes recs s w ∧ LatestWrite lanes recs lane t s.recIdx w ∧
      (s.tEnd = kLoomAlive ∨ t < s.tEnd)) ∨
    ∀ w ∈ recs, w.isWrite = true → laneOf lanes w = lane → t < w.step := by
  rcases lastSpan_spec (fun s => s.lane = lane ∧ s.tWrite ≤ t ∧ s.bornUntraced = false) hlen with
    ⟨-, hnone⟩ | ⟨s, hs, hp, -, hlast⟩
  · refine .inr fun w hw hwr hl => ?_
    by_contra hle
    obtain ⟨i, hi⟩ := List.mem_iff_getElem?.1 hw
    obtain ⟨s, hs, -, hfrom⟩ := exists_span_of_write hi hwr (hl.trans_ne hlane)
    have hp := hnone s hs
    rw [decide_eq_false_iff_not] at hp
    exact hp ⟨hfrom.lane.trans hl, by rw [hfrom.step]; omega, hfrom.traced⟩
  · rw [decide_eq_true_eq] at hp
    obtain ⟨hsl, hst, hsb⟩ := hp
    have hmem := List.mem_of_getElem? hs
    obtain ⟨w, hw⟩ := exists_fromWrite hmem hsb
    have hlatest : LatestWrite lanes recs lane t s.recIdx w := by
      refine ⟨hw.record, hw.isWrite, hw.lane.symm.trans hsl, hw.step ▸ hst, ?_⟩
      intro j w' hj hwr' hl' hle'
      obtain ⟨s', hs', hidx', hfrom'⟩ := exists_span_of_write hj hwr' (hl'.trans_ne hlane)
      obtain ⟨k, hk⟩ := List.mem_iff_getElem?.1 hs'
      have horder : spanLe s' s := by
        refine spanLe_of_le ?_ hk hs
        by_contra hlt
        have hp' := hlast k s' (Nat.not_le.1 hlt) hk
        rw [decide_eq_false_iff_not] at hp'
        exact hp' ⟨hfrom'.lane.trans hl', by rw [hfrom'.step]; exact hle', hfrom'.traced⟩
      rw [spanLe, hfrom'.lane, hl', hsl, hfrom'.step, hw.step, hidx'] at horder
      omega
    refine .inl ⟨_, s, w, hs, hw, hlatest, ?_⟩
    rcases tEnd_of_write hmem hsb with h | ⟨i, w', hi, hwr', hl', hend, hlt⟩
    · exact .inl h
    · right
      by_contra hle
      have hlast' := hlatest.latest i w' hi hwr' (hl'.trans hsl) (by omega)
      rw [hw.step] at hlt
      omega

/-- If the lane has a write up to `t` then the span it holds is the latest of them; otherwise it is
a value from before the trace, or none. -/
theorem resident_spec (hlen : (fabricSpans lanes recs).length < 2 ^ 32) {f : LoomFabric}
    (hf : f.spans = fabricSpans lanes recs) {lane : ℕ} (hlane : lane ≠ kLoomNoSpan) (t : ℕ) :
    (∃ i w s, LatestWrite lanes recs lane t i w ∧ f.resident lane t ≠ kLoomNoSpan ∧
      f.spans[f.resident lane t]? = some s ∧ FromWrite lanes recs s w) ∨
    (∀ w ∈ recs, w.isWrite = true → laneOf lanes w = lane → t < w.step) ∧
      (f.resident lane t = kLoomNoSpan ∨
        ∃ s, f.spans[f.resident lane t]? = some s ∧ s.bornUntraced = true) := by
  rw [LoomFabric.resident, hf]
  rcases exists_latestWrite hlen hlane t with ⟨j, s, w, hs, hw, hlatest, halive⟩ | hnone
  · have hsl : s.lane = lane := hw.lane.trans hlatest.onLane
    have hst : s.tWrite ≤ t := hw.step ▸ hlatest.step
    have hmem := List.mem_of_getElem? hs
    left
    rcases lastSpan_spec
      (fun s => s.lane = lane ∧ s.tWrite ≤ t ∧ (s.tEnd = kLoomAlive ∨ t < s.tEnd)) hlen with
      ⟨-, h⟩ | ⟨s', hs', hp', hne, hlast'⟩
    · have hp := h s hmem
      rw [decide_eq_false_iff_not] at hp
      exact absurd ⟨hsl, hst, halive⟩ hp
    · rw [decide_eq_true_eq] at hp'
      obtain ⟨hsl', hst', halive'⟩ := hp'
      have hmem' := List.mem_of_getElem? hs'
      -- the span that was found stands at or behind the latest write
      have horder : spanLe s s' := by
        refine spanLe_of_le ?_ hs hs'
        by_contra hlt
        have hp := hlast' _ s (Nat.not_le.1 hlt) hs
        rw [decide_eq_false_iff_not] at hp
        exact hp ⟨hsl, hst, halive⟩
      rw [spanLe, hsl, hsl'] at horder
      have hsb' : s'.bornUntraced = false := by
        by_contra hb
        obtain ⟨hzero, hend⟩ := tEnd_of_born hmem' (by simpa using hb)
        have hle := hend _ w hw.record hw.isWrite (hlatest.onLane.trans hsl'.symm) hw.found
        rw [hw.step] at hst horder
        rw [kLoomAlive] at halive'
        omega
      obtain ⟨w', hw'⟩ := exists_fromWrite hmem' hsb'
      have hle := hlatest.latest _ w' hw'.record hw'.isWrite (hw'.lane.symm.trans hsl')
        (hw'.step ▸ hst')
      rw [hw.step, hw'.step] at horder
      have hidx : s'.recIdx = s.recIdx := by omega
      have hww : w' = w := by
        have hrec := hw'.record
        rw [hidx, hw.record] at hrec
        exact (Option.some.inj hrec).symm
      exact ⟨s.recIdx, w, s', hlatest, hne, hs', hww ▸ hw'⟩
  · refine .inr ⟨hnone, ?_⟩
    rcases lastSpan_spec
      (fun s => s.lane = lane ∧ s.tWrite ≤ t ∧ (s.tEnd = kLoomAlive ∨ t < s.tEnd)) hlen with
      ⟨h, -⟩ | ⟨s, hs, hp, -⟩
    · exact .inl h
    · refine .inr ⟨s, hs, ?_⟩
      rw [decide_eq_true_eq] at hp
      by_contra hb
      obtain ⟨w, hw⟩ := exists_fromWrite (List.mem_of_getElem? hs) (by simpa using hb)
      have hlt := hnone w (List.mem_of_getElem? hw.record) hw.isWrite (hw.lane.symm.trans hp.1)
      have hle := hp.2.1
      rw [hw.step] at hle
      omega

end Residency

section Lit

theorem fields_of_build {v : ValTrace} {g : DefUse} {prov : LoomProvenance} {f : LoomFabric}
    (hf : loomFabricBuild v g prov = .ok f) :
    f.lanes = fabricLanes v ∧ f.spans = fabricSpans (fabricLanes v) v.recs ∧
      f.steps = fabricSteps v := by
  rw [loomFabricBuild] at hf
  split_ifs at hf
  obtain rfl := Except.ok.inj hf
  exact ⟨rfl, rfl, rfl⟩

/-- A byte of the lane -/
def LaneCell (v : ValTrace) (lanes : List LoomLane) (lane : ℕ) (c : Cell) : Prop :=
  ∃ r ∈ v.recs, laneOf lanes r = lane ∧ c ∈ footprint r

/-- A byte of the lane that was last written, up to the playhead, by the descendant `s` of the
birth step -/
def Tainted (v : ValTrace) (lanes : List LoomLane) (edges : List DefUseEdge)
    (birthStep playhead lane : ℕ) (c : Cell) (s : ℕ) : Prop :=
  LaneCell v lanes lane c ∧ LastWriterOf v (playhead + 1) c s ∧ Descends edges birthStep s

theorem mem_stepRecs {v : ValTrace} {t : ℕ} {r : ValRec} :
    r ∈ v.stepRecs t ↔ r ∈ v.recs ∧ r.step = t := by
  rw [ValTrace.stepRecs, List.mem_filter, decide_eq_true_eq]

theorem exists_mem_footprint (r : ValRec) : ∃ c, c ∈ footprint r := by
  have hmap : ∀ (n : ℕ) (F : ℕ → Cell), 0 < n → ∃ c, c ∈ (List.range n).map F := by
    intro n F hn
    exact ⟨F 0, List.mem_map_of_mem (List.mem_range.2 hn)⟩
  rw [footprint]
  by_cases hk : r.kind = .reg
  · rw [if_pos hk]
    cases hs : Dataflow.regSlice r.reg with
    | none => exact ⟨_, List.mem_singleton_self _⟩
    | some s =>
      apply hmap
      have hcases := (Dataflow.regSlice_cases hs).2
      split_ifs <;> omega
  · rw [if_neg hk]
    apply hmap
    omega

/-- Records that share a byte are on one lane. -/
theorem laneOf_eq_of_cell {v : ValTrace} (htop : ClearOfTop v.recs) {w r : ValRec} (hw : w ∈ v.recs)
    (hr : r ∈ v.recs) {c : Cell} (hcw : c ∈ footprint w) (hcr : c ∈ footprint r) :
    laneOf (fabricLanes v) w = laneOf (fabricLanes v) r := by
  have hkey : ∀ {r : ValRec}, c ∈ footprint r → Dataflow.cellKey c ∈ Dataflow.lwKeys r := by
    intro r hc
    rw [Dataflow.lwKeys_eq_map]
    exact List.mem_map_of_mem hc
  apply laneOf_congr htop hw hr
  exact meet_of_key htop hw hr (hkey hcw) (hkey hcr)

theorem toStep_lt {v : ValTrace} (hsteps : v.stepsLen < 2 ^ 32) {g : DefUse}
    (hg : defuseBuild v = some g) : ∀ e ∈ g.edges, e.toStep < fabricSteps v := by
  intro e he
  rw [Dataflow.defuseBuild_of_lt hsteps, Option.some.injEq] at hg
  subst hg
  obtain ⟨⟨s, t, r⟩, hmem, rfl⟩ := List.mem_map.1 he
  have hlt : t < v.stepsLen := ((LastWriter.mem_edges _ _).1 hmem).1
  have hle : ∀ (l : List ValRec) n, n ≤ l.foldl (fun n r => max n ((r.step + 1) % 2 ^ 32)) n := by
    intro l
    induction l with
    | nil => exact fun n => le_rfl
    | cons r l ih => exact fun n => (le_max_left _ _).trans (ih _)
  have hfold := hle v.recs (v.stepsLen % 2 ^ 32)
  rw [Nat.mod_eq_of_lt hsteps] at hfold
  rw [fabricSteps, Nat.mod_eq_of_lt hsteps]
  exact hlt.trans_le hfold

theorem mem_litLanes {f : LoomFabric} {depth : List (ℕ × ℤ)} {playhead lane : ℕ} :
    lane ∈ ((List.range f.lanes.length).filterMap (litLane f depth playhead)).map LoomLit.lane ↔
      lane < f.lanes.length ∧ (litLane f depth playhead lane).isSome := by
  have hfield : ∀ l r, litLane f depth playhead l = some r → r.lane = l := by
    intro l r h
    rw [litLane] at h
    split_ifs at h
    split at h
    · cases h
    · split_ifs at h
      rw [← Option.some.inj h]
  rw [List.mem_map]
  constructor
  · rintro ⟨r, hr, rfl⟩
    obtain ⟨l, hl, hlit⟩ := List.mem_filterMap.1 hr
    rw [hfield l r hlit]
    exact ⟨List.mem_range.1 hl, by rw [hlit]; rfl⟩
  · rintro ⟨hlt, hsome⟩
    obtain ⟨r, hr⟩ := Option.isSome_iff_exists.1 hsome
    exact ⟨r, List.mem_filterMap.2 ⟨lane, List.mem_range.2 hlt, hr⟩, hfield lane r hr⟩

/-- A lane is lit if the latest write on it is by a step in the map. -/
theorem litLane_isSome_iff {lanes : List LoomLane} {recs : List ValRec}
    (hlen : (fabricSpans lanes recs).length < 2 ^ 32) {f : LoomFabric}
    (hf : f.spans = fabricSpans lanes recs) {lane : ℕ} (hlane : lane ≠ kLoomNoSpan)
    (depth : List (ℕ × ℤ)) (playhead : ℕ) :
    (litLane f depth playhead lane).isSome ↔
      ∃ i w, LatestWrite lanes recs lane playhead i w ∧ (mapFind w.step depth).isSome := by
  rcases resident_spec hlen hf hlane playhead with ⟨i, w, s, hlatest, hne, hs, hfrom⟩ | ⟨hnone, hres⟩
  · have hlit : (litLane f depth playhead lane).isSome ↔ (mapFind w.step depth).isSome := by
      rw [litLane]
      simp only [if_neg hne, hs, hfrom.traced, hfrom.step, Bool.false_eq_true, false_or]
      cases mapFind w.step depth <;> simp
    rw [hlit]
    constructor
    · exact fun h => ⟨i, w, hlatest, h⟩
    · rintro ⟨i', w', hlatest', h⟩
      have h1 := hlatest.latest i' w' hlatest'.record hlatest'.isWrite hlatest'.onLane hlatest'.step
      have h2 := hlatest'.latest i w hlatest.record hlatest.isWrite hlatest.onLane hlatest.step
      have hstep : w'.step = w.step := by omega
      rwa [← hstep]
  · constructor
    · intro h
      rw [litLane] at h
      rcases hres with hres | ⟨s, hs, hb⟩
      · simp [hres] at h
      · simp [hs, hb] at h
    · rintro ⟨i, w, hlatest, -⟩
      have hlt := hnone w (List.mem_of_getElem? hlatest.record) hlatest.isWrite hlatest.onLane
      have hle := hlatest.step
      omega

/-- A lane is lit if and only if the latest write on it, up to the playhead, is by a descendant of
the birth step. Such a lane has a byte that a descendant wrote last. A lane with such a byte is lit
unless the lane was written again later, wherever on it, by a step that is no descendant. -/
theorem loom_audit_lights_latest_writes (v : ValTrace) (g : DefUse) (hg : defuseBuild v = some g)
    (prov : LoomProvenance) (f : LoomFabric) (hf : loomFabricBuild v g prov = .ok f)
    (htop : ClearOfTop v.recs) (hlen : v.recs.length < 2 ^ 30) (hsteps : v.stepsLen < 2 ^ 32)
    (birthStep playhead : ℕ) :
    ∃ lit, loomAuditLanes f g.edges birthStep playhead = some lit ∧
      (∀ lane ∈ lit, lane < f.lanes.length) ∧ ∀ lane < f.lanes.length,
        (lane ∈ lit ↔ ∃ i w, LatestWrite f.lanes v.recs lane playhead i w ∧
          Descends g.edges birthStep w.step) ∧
        (lane ∈ lit → ∃ c s, Tainted v f.lanes g.edges birthStep playhead lane c s) ∧
        ∀ c s, Tainted v f.lanes g.edges birthStep playhead lane c s → lane ∈ lit ∨
          ∃ w ∈ v.recs, w.isWrite = true ∧ laneOf f.lanes w = lane ∧ s < w.step ∧
            w.step ≤ playhead ∧ ¬ Descends g.edges birthStep w.step := by
  obtain ⟨hlanes, hspans, hn⟩ := fields_of_build hf
  have hll := length_fabricLanes_le v
  have hsl := length_fabricSpans_le (fabricLanes v) v.recs
  obtain ⟨depth, hwalk, hdepth⟩ := walk_spec (toStep_lt hsteps hg) birthStep
  refine ⟨_, by rw [loomAuditLanes, loomAudit, hn, hwalk]; rfl, fun lane h => ?_, ?_⟩
  · exact (mem_litLanes.1 h).1
  intro lane hlane
  have hne : lane ≠ kLoomNoSpan := by
    rw [hlanes] at hlane
    rw [kLoomNoSpan]
    omega
  have hiff : lane ∈ ((List.range f.lanes.length).filterMap (litLane f depth playhead)).map
      LoomLit.lane ↔ ∃ i w, LatestWrite f.lanes v.recs lane playhead i w ∧
        Descends g.edges birthStep w.step := by
    rw [mem_litLanes, litLane_isSome_iff (show _ < 2 ^ 32 by omega) hspans hne, hlanes]
    simp only [hdepth]
    rw [hlanes] at hlane
    exact and_iff_right hlane
  refine ⟨hiff, fun hlit => ?_, ?_⟩
  · obtain ⟨i, w, hlatest, hdesc⟩ := hiff.1 hlit
    have hw := List.mem_of_getElem? hlatest.record
    obtain ⟨c, hc⟩ := exists_mem_footprint w
    refine ⟨c, w.step, ⟨w, hw, hlatest.onLane, hc⟩, ⟨?_, ?_, ?_⟩, hdesc⟩
    · exact Nat.lt_succ_of_le hlatest.step
    · exact ⟨w, mem_stepRecs.2 ⟨hw, rfl⟩, hlatest.isWrite, hc⟩
    · rintro u hu hup ⟨w', hw', hwr', hc'⟩
      obtain ⟨hmem', rfl⟩ := mem_stepRecs.1 hw'
      obtain ⟨j, hj⟩ := List.mem_iff_getElem?.1 hmem'
      have hl' : laneOf f.lanes w' = lane := by
        rw [← hlatest.onLane, hlanes]
        exact laneOf_eq_of_cell htop hmem' hw hc' hc
      have hle := hlatest.latest j w' hj hwr' hl' (by omega)
      omega
  · rintro c s ⟨⟨r, hr, hrl, hrc⟩, ⟨hsp, ⟨w, hw, hwr, hwc⟩, -⟩, hdesc⟩
    obtain ⟨hmem, rfl⟩ := mem_stepRecs.1 hw
    have hwl : laneOf f.lanes w = lane := by
      rw [← hrl, hlanes]
      exact laneOf_eq_of_cell htop hmem hr hwc hrc
    rcases exists_latestWrite (show (fabricSpans (fabricLanes v) v.recs).length < 2 ^ 32 by omega)
      hne playhead with ⟨j, s', w', -, -, hlatest, -⟩ | hnone
    · rw [← hlanes] at hlatest
      by_cases hdesc' : Descends g.edges birthStep w'.step
      · exact .inl (hiff.2 ⟨_, w', hlatest, hdesc'⟩)
      · obtain ⟨k, hk⟩ := List.mem_iff_getElem?.1 hmem
        have hle := hlatest.latest k w hk hwr hwl (by omega)
        have hstep : w.step ≠ w'.step := fun h => hdesc' (h ▸ hdesc)
        exact .inr ⟨w', List.mem_of_getElem? hlatest.record, hlatest.isWrite, hlatest.onLane,
          by omega, hlatest.step, hdesc'⟩
    · have hlt := hnone w hmem hwr (hlanes ▸ hwl)
      omega

/-- `mov rax, ..; mov [0x1000], rax; xor eax, eax`: the secret is gone from `rax` and still in
memory. -/
theorem loom_audit_lights_latest_writes_spill :
    let v := appendAll (valtraceNew 4 4)
      [(0, [{ kind := .reg, reg := 35, isWrite := true, size := 8 }]),
       (7, [{ kind := .reg, reg := 35, size := 8 },
         { kind := .memAbs, addr := 0x1000, size := 8, isWrite := true }]),
       (11, [{ kind := .reg, reg := 19, isWrite := true, size := 4 }])]
    ∃ g f, defuseBuild v = some g ∧ loomFabricBuild v g ⟨"replay", true⟩ = .ok f ∧
      ClearOfTop v.recs ∧ v.recs.length < 2 ^ 30 ∧ v.stepsLen < 2 ^ 32 ∧
      ∃ lit, loomAuditLanes f g.edges 0 2 = some lit ∧
        (∀ lane ∈ lit, lane < f.lanes.length) ∧ ∀ lane < f.lanes.length,
          (lane ∈ lit ↔ ∃ i w, LatestWrite f.lanes v.recs lane 2 i w ∧
            Descends g.edges 0 w.step) ∧
          (lane ∈ lit → ∃ c s, Tainted v f.lanes g.edges 0 2 lane c s) ∧
          ∀ c s, Tainted v f.lanes g.edges 0 2 lane c s → lane ∈ lit ∨
            ∃ w ∈ v.recs, w.isWrite = true ∧ laneOf f.lanes w = lane ∧ s < w.step ∧
              w.step ≤ 2 ∧ ¬ Descends g.edges 0 w.step := by
  intro v
  have htop : ClearOfTop v.recs := by
    unfold ClearOfTop
    decide
  have hlen : v.recs.length < 2 ^ 30 := by decide
  have hsteps : v.stepsLen < 2 ^ 32 := by decide
  obtain ⟨g, hg⟩ : ∃ g, defuseBuild v = some g := ⟨_, Dataflow.defuseBuild_eq v⟩
  obtain ⟨f, hf⟩ : ∃ f, loomFabricBuild v g ⟨"replay", true⟩ = .ok f := ⟨_, rfl⟩
  exact ⟨g, f, hg, hf, htop, hlen, hsteps,
    loom_audit_lights_latest_writes v g hg _ f hf htop hlen hsteps 0 2⟩

/-- `mov rax, ..; mov al, ..`: seven bytes of the secret are left in `rax`, and its lane is reported
clear. -/
theorem audit_clear_with_tainted_byte :
    let v := appendAll (valtraceNew 2 2)
      [(0, [{ kind := .reg, reg := 35, isWrite := true, size := 8 }]),
       (7, [{ kind := .reg, reg := 2, isWrite := true, size := 1 }])]
    ∃ g f, defuseBuild v = some g ∧ loomFabricBuild v g ⟨"replay", true⟩ = .ok f ∧
      0 < f.lanes.length ∧ loomAuditLanes f g.edges 0 1 = some [] ∧
      Tainted v f.lanes g.edges 0 1 0 (.regByte 35 7) 0 := by
  intro v
  have hbuild : defuseBuild v = some ⟨[], 2⟩ := by decide +kernel
  refine ⟨_, _, hbuild, rfl, by decide +kernel, by decide +kernel, ?_, ⟨?_, ?_, ?_⟩, ?_⟩
  · exact ⟨{ kind := .reg, reg := 35, isWrite := true, size := 8 }, by decide, by decide +kernel,
      by decide⟩
  · decide
  · unfold WritesCell
    decide
  · intro u hu hu'
    obtain rfl : u = 1 := by omega
    unfold WritesCell
    decide
  · exact Relation.ReflTransGen.refl

end Lit

end AsmTest.Loom
