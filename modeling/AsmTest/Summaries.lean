import AsmTest.Helpers

namespace AsmTest.Dataflow

open LastWriter ProbeTable

/-! ## The summarized graph is the graph of the rewritten stream -/

variable {v : ValTrace} {helpers : List Helper} {hi : List ℤ}

lemma rewritten_eq_nil (hv : Stamped v) (hlen : hi.length = v.stepsLen) {s : ℕ} (hs : v.stepsLen ≤ s) :
    rewritten v helpers hi s = [] := by
  rw [rewritten, List.getD_eq_default _ _ (by omega), if_pos (by decide), ValTrace.stepRecs,
    List.filter_eq_nil_iff]
  intro r hr
  have := hv.lt r hr
  simp only [decide_eq_true_eq]
  omega

/-- A log written step by step is grouped and ascending. -/
lemma stamped_flatMap {log : ℕ → List ValRec} (hlog : ∀ s, ∀ r ∈ log s, r.step = s) (n : ℕ) :
    Stamped ⟨List.replicate n 0, 0, 0, (List.range n).flatMap log, 0, 0, false, .memAbs⟩ := by
  constructor
  · rw [List.pairwise_flatMap]
    refine ⟨fun s _ => List.pairwise_of_forall_mem_list fun a ha b hb => ?_, ?_⟩
    · rw [hlog s a ha, hlog s b hb]
    · apply List.pairwise_lt_range.imp
      intro s s' hlt a ha b hb
      rw [hlog s a ha, hlog s' b hb]
      exact hlt.le
  · intro r hr
    obtain ⟨s, hs, hr⟩ := List.mem_flatMap.mp hr
    rw [hlog s r hr]
    simpa [ValTrace.stepsLen] using hs

/-- Picking one index out of a range. -/
lemma flatMap_range_ite {β : Type*} (f : ℕ → List β) {n t : ℕ} (hn : n ≤ t → f t = []) :
    (List.range n).flatMap (fun s => if s = t then f s else []) = f t := by
  by_cases ht : t < n
  · rw [show n = t + 1 + (n - (t + 1)) by omega, List.range_add, List.range_succ]
    simp only [List.flatMap_append, List.flatMap_map, List.flatMap_singleton, if_true]
    have hbefore : (List.range t).flatMap (fun s => if s = t then f s else []) = [] := by
      rw [List.flatMap_eq_nil_iff]
      intro s hs
      rw [if_neg (by have := List.mem_range.mp hs; omega)]
    have hafter : (List.range (n - (t + 1))).flatMap
        (fun s => if t + 1 + s = t then f (t + 1 + s) else []) = [] := by
      rw [List.flatMap_eq_nil_iff]
      intro s _
      rw [if_neg (by omega)]
    rw [hbefore, hafter, List.nil_append, List.append_nil]
  · rw [hn (not_lt.mp ht), List.flatMap_eq_nil_iff]
    intro s hs
    rw [if_neg (by have := List.mem_range.mp hs; omega)]

/-- A stream that lists its steps in order is grouped step by step. -/
lemma groupAt_flatMap {log : ℕ → List ValRec} (hlog : ∀ s, ∀ r ∈ log s, r.step = s) {n : ℕ}
    (hn : ∀ s, n ≤ s → log s = []) : groupAt ((List.range n).flatMap log) = log := by
  funext t
  have hstep : ∀ s, (log s).filter (fun r => r.step = t) = if s = t then log s else [] := by
    intro s
    split_ifs with hst
    · rw [List.filter_eq_self]
      intro r hr
      simpa [hst] using hlog s r hr
    · rw [List.filter_eq_nil_iff]
      intro r hr
      simpa [hlog s r hr] using hst
  have hgroup := groupAt_eq_stepRecs (stamped_flatMap hlog n) t
  rw [ValTrace.stepRecs, List.filter_flatMap] at hgroup
  simp only [hstep] at hgroup
  rw [hgroup, flatMap_range_ite log (hn t)]

lemma stepHelpers_neg (v : ValTrace) {methods : List Method} {helpers : List Helper}
    (h : helpers = [] ∨ methods = []) (s : ℕ) : (stepHelpers v methods helpers).getD s (-1) < 0 := by
  have hidx : ∀ pc, helperIndex methods helpers pc = -1 := by
    intro pc
    rcases h with rfl | rfl
    · unfold helperIndex helperMatch
      dsimp only
      split_ifs
      · cases methods[(methodResolvePc methods pc).toNat]?.bind Method.name <;> rfl
      · rfl
    · rfl
  rw [stepHelpers, List.getD_eq_getElem?_getD, List.getElem?_map]
  cases v.insnOff[s]? with
  | none => simp
  | some pc => simp [hidx]

/-- Both paths of the builder return the edges of the rewritten stream. -/
theorem defuseBuildSummarized_eq (hv : Stamped v) (hn : v.stepsLen < 2 ^ 32) (methods : List Method)
    (helpers : List Helper) :
    defuseBuildSummarized v methods helpers =
      some ⟨(edges ValRec.isWrite lwKeys (rewritten v helpers (stepHelpers v methods helpers))
        v.stepsLen).map toEdge, v.stepsLen⟩ := by
  have hlen : (stepHelpers v methods helpers).length = v.stepsLen := by
    rw [stepHelpers, List.length_map, ValTrace.stepsLen]
  unfold defuseBuildSummarized
  split_ifs with hempty
  · have hplain : groupAt v.recs = rewritten v helpers (stepHelpers v methods helpers) := by
      funext s
      rw [groupAt_eq_stepRecs hv, rewritten, if_pos (stepHelpers_neg v hempty s)]
    rw [defuseBuild_of_lt hn, hplain]
  · have hinv : SumInv v helpers (stepHelpers v methods helpers) ⟨0, [], Table.empty⟩ :=
      ⟨rfl, Table.ok_empty, rfl, fun h => absurd h.2.1 (lt_irrefl 0)⟩
    obtain ⟨st, h1, h2⟩ := sumLoop_spec hv (hlen.trans_lt hn) v.stepsLen _ hinv (Nat.zero_le _)
      (by dsimp only; omega)
    have hgroup : groupAt st.out = rewritten v helpers (stepHelpers v methods helpers) := by
      rw [h2, hlen]
      exact groupAt_flatMap (fun s r hr => rewritten_step hr)
        (fun s hs => rewritten_eq_nil hv hlen hs)
    dsimp only
    rw [h1, Option.bind_eq_bind, Option.bind_some, ← hgroup]
    exact defuseBuild_of_lt hn

/-! ## Each run replaced by one step -/

/-- The steps that are not inside a run. -/
def keptSteps (hi : List ℤ) : List ℕ := (List.range hi.length).filter fun s => ¬ RunTail hi s

/-- The trace with one step for each run, carrying the declared reads and writes. -/
def runsCollapsed (v : ValTrace) (helpers : List Helper) (hi : List ℤ) : ValTrace :=
  let calls := (keptSteps hi).map fun s => (v.insnOff.getD s 0, rewritten v helpers hi s)
  appendAll (valtraceNew calls.length (calls.flatMap Prod.snd).length) calls

/-- An edge of the collapsed trace in the step numbers of the original. -/
def renumber (kept : List ℕ) (e : DefUseEdge) : DefUseEdge :=
  ⟨kept.getD e.fromStep 0, kept.getD e.toStep 0, { e.loc with step := kept.getD e.toStep 0 }⟩

/-- The records of step `i` of the collapsed trace. -/
def collapsedLog (v : ValTrace) (helpers : List Helper) (hi : List ℤ) (i : ℕ) : List ValRec :=
  if i < (keptSteps hi).length then
    (rewritten v helpers hi ((keptSteps hi).getD i 0)).map fun r => { r with step := i }
  else []

lemma keptSteps_length_le (hi : List ℤ) : (keptSteps hi).length ≤ hi.length := by
  have := List.length_filter_le (fun s => decide ¬ RunTail hi s) (List.range hi.length)
  rwa [List.length_range] at this

lemma runsCollapsed_spec (v : ValTrace) (helpers : List Helper) (hn : hi.length < 2 ^ 32) :
    (runsCollapsed v helpers hi).stepsLen = (keptSteps hi).length ∧
      groupAt (runsCollapsed v helpers hi).recs = collapsedLog v helpers hi := by
  have hle := keptSteps_length_le hi
  obtain ⟨w, h1, h2, -, -, -, h6⟩ := appendAll_of_room
    ((keptSteps hi).map fun s => (v.insnOff.getD s 0, rewritten v helpers hi s)) le_rfl
    (by rw [List.length_map]; omega) le_rfl
  rw [List.length_map] at h2 h6
  have hw : runsCollapsed v helpers hi = w := h1
  have hlog : ∀ i < (keptSteps hi).length,
      (((keptSteps hi).map fun s => (v.insnOff.getD s 0, rewritten v helpers hi s)).getD i (0, [])).2.map
        (fun r : ValRec => { r with step := i }) = collapsedLog v helpers hi i := by
    intro i hlt
    rw [collapsedLog, if_pos hlt, List.getD_eq_getElem _ _ (by simpa using hlt), List.getElem_map,
      List.getD_eq_getElem _ _ hlt]
  rw [hw]
  refine ⟨h2, ?_⟩
  rw [h6, List.flatMap_congr fun i hmem => hlog i (List.mem_range.mp hmem)]
  apply groupAt_flatMap
  · intro i r hr
    unfold collapsedLog at hr
    split_ifs at hr
    · obtain ⟨r', -, rfl⟩ := List.mem_map.mp hr
      rfl
    · simp at hr
  · intro i hge
    rw [collapsedLog, if_neg (by omega)]

lemma collapse_runs (hlen : hi.length = v.stepsLen) :
    Collapse ValRec.isWrite lwKeys (rewritten v helpers hi) (collapsedLog v helpers hi) v.stepsLen
      (keptSteps hi) (fun i r => { r with step := (keptSteps hi).getD i 0 }) where
  kept_eq := ⟨fun s => ¬ RunTail hi s, by rw [keptSteps, hlen]⟩
  dropped := by
    intro t ht hk
    apply rewritten_runTail
    by_contra hr
    exact hk (List.mem_filter.mpr ⟨List.mem_range.mpr (by omega), by simpa using hr⟩)
  renumbered := by
    intro i hlt
    rw [collapsedLog, if_pos hlt, List.map_map]
    refine (List.map_id _).symm.trans (List.map_congr_left ?_)
    -- restamping a record with its own step changes nothing
    intro r hr
    show r = { r with step := (keptSteps hi).getD i 0 }
    rw [← rewritten_step hr]
  isWrite_stamp _ _ := rfl
  cells_stamp _ _ := rfl

/-! ## Soundness -/

lemma mem_rewritten_head {s : ℕ} (h : RunHead hi s) {r : ValRec} (hr : r ∈ rewritten v helpers hi s) :
    (r.isWrite = false ∧ ∃ loc ∈ (helperAt helpers hi s).ins,
        declared (captured v hi s) false s loc = some r) ∨
      (r.isWrite = true ∧ ∃ loc ∈ (helperAt helpers hi s).outs,
        declared (captured v hi s) true s loc = some r) := by
  have htail : ¬ RunTail hi s := by
    rintro ⟨-, h1, h2⟩
    rcases h.2 with h3 | h3
    · omega
    · exact h3 h2
  rw [rewritten, if_neg (not_lt.mpr h.1), if_neg htail, summary, List.mem_append, List.mem_filterMap,
    List.mem_filterMap] at hr
  rcases hr with ⟨loc, h1, h2⟩ | ⟨loc, h1, h2⟩
  · exact Or.inl ⟨(declared_step h2).2, loc, h1, h2⟩
  · exact Or.inr ⟨(declared_step h2).2, loc, h1, h2⟩

/-- An edge of the rewritten stream: a read of the later step, a write of the earlier one. -/
lemma edge_rewritten {n : ℕ} {e : DefUseEdge}
    (he : e ∈ (edges ValRec.isWrite lwKeys (rewritten v helpers hi) n).map toEdge) :
    (e.loc ∈ rewritten v helpers hi e.toStep ∧ e.loc.isWrite = false) ∧
      ∃ w ∈ rewritten v helpers hi e.fromStep, w.isWrite = true ∧ ∃ c ∈ lwKeys e.loc, c ∈ lwKeys w := by
  obtain ⟨⟨s, t, r⟩, hmem, rfl⟩ := List.mem_map.mp he
  obtain ⟨-, hr, hread, c, hc, -, hw, -⟩ := (mem_edges ValRec.isWrite lwKeys).mp hmem
  obtain ⟨w, hwmem, hcw⟩ := List.mem_flatMap.mp hw
  obtain ⟨hw1, hw2⟩ := List.mem_filter.mp hwmem
  exact ⟨⟨hr, hread⟩, w, hw1, hw2, c, hc, hcw⟩

/-- What the summarized graph `g` says about the helper runs of `v`. -/
structure SummarizedSound (v : ValTrace) (methods : List Method) (helpers : List Helper) (g : DefUse) :
    Prop where
  nsteps : g.nsteps = v.stepsLen
  /-- No edge ends inside a run. -/
  inside : ∀ e ∈ g.edges, ¬ RunTail (stepHelpers v methods helpers) e.fromStep ∧
    ¬ RunTail (stepHelpers v methods helpers) e.toStep
  /-- An edge into a run is read by a declared input. -/
  input : ∀ e ∈ g.edges, RunHead (stepHelpers v methods helpers) e.toStep →
    ∃ loc ∈ (helperAt helpers (stepHelpers v methods helpers) e.toStep).ins,
      declared (captured v (stepHelpers v methods helpers) e.toStep) false e.toStep loc = some e.loc
  /-- An edge out of a run leaves a declared output that overlaps the read. -/
  output : ∀ e ∈ g.edges, RunHead (stepHelpers v methods helpers) e.fromStep →
    ∃ loc ∈ (helperAt helpers (stepHelpers v methods helpers) e.fromStep).outs, ∃ w,
      declared (captured v (stepHelpers v methods helpers) e.fromStep) true e.fromStep loc = some w ∧
        ∃ c ∈ lwKeys e.loc, c ∈ lwKeys w
  /-- The edges are those of the trace with one step for each run. -/
  collapsed : ∃ g', defuseBuild (runsCollapsed v helpers (stepHelpers v methods helpers)) = some g' ∧
    g.edges = g'.edges.map (renumber (keptSteps (stepHelpers v methods helpers)))
  /-- Without helper steps it is the plain graph. -/
  plain : (∀ s < v.stepsLen, (stepHelpers v methods helpers).getD s (-1) < 0) → defuseBuild v = some g

/-- The summarized builder always returns a graph and the graph is sound for the runs. -/
theorem defuse_build_summarized_sound (v : ValTrace) (methods : List Method) (helpers : List Helper)
    (hv : Stamped v) (hn : v.stepsLen < 2 ^ 32) :
    ∃ g, defuseBuildSummarized v methods helpers = some g ∧ SummarizedSound v methods helpers g := by
  have hlen : (stepHelpers v methods helpers).length = v.stepsLen := by
    rw [stepHelpers, List.length_map, ValTrace.stepsLen]
  refine ⟨_, defuseBuildSummarized_eq hv hn methods helpers, rfl, ?_, ?_, ?_, ?_, ?_⟩
  · intro e he
    obtain ⟨⟨h1, -⟩, w, h2, -⟩ := edge_rewritten he
    refine ⟨fun ht => ?_, fun ht => ?_⟩
    · rw [rewritten_runTail ht] at h2
      simp at h2
    · rw [rewritten_runTail ht] at h1
      simp at h1
  · intro e he hhead
    obtain ⟨⟨h1, h2⟩, -⟩ := edge_rewritten he
    rcases mem_rewritten_head hhead h1 with ⟨-, h⟩ | ⟨h3, -⟩
    · exact h
    · rw [h2] at h3
      cases h3
  · intro e he hhead
    obtain ⟨-, w, h1, h2, h3⟩ := edge_rewritten he
    rcases mem_rewritten_head hhead h1 with ⟨h4, -⟩ | ⟨-, loc, h5, h6⟩
    · rw [h2] at h4
      cases h4
    · exact ⟨loc, h5, w, h6, h3⟩
  · obtain ⟨h1, h2⟩ := runsCollapsed_spec v helpers (hlen.trans_lt hn)
    have hk := keptSteps_length_le (stepHelpers v methods helpers)
    refine ⟨_, defuseBuild_of_lt (by omega), ?_⟩
    rw [h1, h2, (collapse_runs hlen).edges_eq, List.map_map, List.map_map]
    rfl
  · intro hord
    have hplain : groupAt v.recs = rewritten v helpers (stepHelpers v methods helpers) := by
      funext s
      rw [groupAt_eq_stepRecs hv, rewritten]
      by_cases hs : s < v.stepsLen
      · rw [if_pos (hord s hs)]
      · rw [if_pos (by rw [List.getD_eq_default _ _ (by omega)]; decide)]
    rw [defuseBuild_of_lt hn, hplain]

/-- A caller step, two steps inside an allocation helper, and a read of its result -/
def allocTrace : ValTrace :=
  appendAll (valtraceNew 8 8)
    [(0x10, [{ kind := .reg, reg := 39, isWrite := true, valueValid := true, value := 0x5000 }]),
      (0x100, [{ kind := .reg, reg := 39 }, { kind := .reg, reg := 38, isWrite := true }]),
      (0x104, [{ kind := .reg, reg := 38 }, { kind := .reg, reg := 35, isWrite := true }]),
      (0x14, [{ kind := .reg, reg := 35 }])]

def allocMethods : List Method :=
  [⟨0x100, 0x20, some ['N', 'e', 'w', '1'], 0⟩]

def allocHelpers : List Helper :=
  [⟨some ['N', 'e', 'w', '*'], [⟨.reg, 39, 0⟩], [⟨.reg, 35, 0⟩]⟩]

/-- The edges of a graph with the registers that are read -/
def edgeRegs (g : DefUse) : List (ℕ × ℕ × BitVec 32) :=
  g.edges.map fun e => (e.fromStep, e.toStep, e.loc.reg)

/-- The run is one node between the argument and the result; in the plain graph the helper's second
step has edges of its own. -/
theorem defuse_build_summarized_sound_alloc :
    Stamped allocTrace ∧ allocTrace.stepsLen < 2 ^ 32 ∧
      (defuseBuild allocTrace).map edgeRegs = some [(0, 1, 39), (1, 2, 38), (2, 3, 35)] ∧
      ∃ g, defuseBuildSummarized allocTrace allocMethods allocHelpers = some g ∧
        edgeRegs g = [(0, 1, 39), (1, 3, 35)] ∧
        SummarizedSound allocTrace allocMethods allocHelpers g := by
  have hn : allocTrace.stepsLen < 2 ^ 32 := by decide
  have hv : Stamped allocTrace := stamped_appendAll 8 8 _ hn
  have hedges : (defuseBuildSummarized allocTrace allocMethods allocHelpers).map edgeRegs =
      some [(0, 1, 39), (1, 3, 35)] := by decide +kernel
  obtain ⟨g, hg, hsound⟩ :=
    defuse_build_summarized_sound allocTrace allocMethods allocHelpers hv hn
  rw [hg, Option.map_some, Option.some.injEq] at hedges
  exact ⟨hv, hn, by decide +kernel, g, hg, hedges, hsound⟩

end AsmTest.Dataflow
