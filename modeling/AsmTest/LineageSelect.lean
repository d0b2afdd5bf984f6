import AsmTest.Lineage

/-!
# Selection and its generations

`loom_select` walks the def-use graph from the step that wrote the selected value, once to its
producers and once to its consumers, and gives each step it meets a generation: the hops to it,
negative among the producers.
-/

namespace AsmTest.Loom

open Lib
open Dataflow (DefUseEdge appendAll valtraceNew defuseBuild)

section Source

structure LoomSelection where
  originStep : ℕ := 0
  originSpan : ℕ := kLoomNoSpan
  steps : List ℕ := []
  generation : List ℤ := []
  genLo : ℤ := 0
  genHi : ℤ := 0
  genView : ℤ := 0
  bornUntraced : Bool := false
  note : String := ""
deriving DecidableEq, Repr

/-- The depths of a walk are of type `int`; `none` when one of them leaves it. -/
def walkInt (adj : List (ℕ × List ℕ)) (origin : ℕ) (sign : ℤ) (nsteps : ℕ) :
    Option (List (ℕ × ℤ)) :=
  (walk adj origin sign nsteps).filter fun depth =>
    depth.all fun e => -2 ^ 31 ≤ e.2 ∧ e.2 < 2 ^ 31

/-- `std::abs` on an `int` -/
def absInt (x : ℤ) : Option ℕ :=
  if x = -2 ^ 31 then none else some x.natAbs

/-- Of a step met both ways the nearer ring wins, and the producers' on a tie. -/
def mergeRing (depth : List (ℕ × ℤ)) (kv : ℕ × ℤ) : Option (List (ℕ × ℤ)) :=
  match mapFind kv.1 depth with
  | none => some (mapInsert kv.1 kv.2 depth)
  | some w => do
    let a ← absInt kv.2
    let b ← absInt w
    return if a < b then mapInsert kv.1 kv.2 depth else depth

def selectNote : String :=
  "born of untraced state — this worldline has no producer " ++
    "inside the recorded window, so it has no ancestry to walk"

/-- What is returned and what is left in `*out`; `out` is `none` for a null pointer. The whole is
`none` where the source computes an `int` that does not exist. -/
def loomSelect (f : LoomFabric) (edges : List DefUseEdge) (lane step : ℕ)
    (out : Option LoomSelection) : Option (Bool × Option LoomSelection) :=
  if out.isNone ∨ f.lanes.length ≤ lane then some (false, out)
  else
    let span := f.resident lane step
    if span = kLoomNoSpan then some (false, some {})
    else do
      let s ← f.spans[span]?
      let sel : LoomSelection := { originSpan := span, originStep := s.tWrite }
      if s.bornUntraced then
        return (true, some { sel with bornUntraced := true, note := selectNote })
      -- a visited set of its own for each direction
      let back ← walkInt (adj edges).bwd s.tWrite (-1) f.steps
      let fwd ← walkInt (adj edges).fwd s.tWrite 1 f.steps
      let depth ← fwd.foldlM mergeRing back
      return (true, some { sel with
        steps := depth.map Prod.fst
        generation := depth.map Prod.snd
        genLo := (depth.map Prod.snd).foldl min 0
        genHi := (depth.map Prod.snd).foldl max 0 })

end Source

section Rings

/-- The steps a step is defined from, and those that use it, inside the window -/
def producers (edges : List DefUseEdge) (nsteps s : ℕ) : List ℕ :=
  ((edges.filter fun e => e.toStep = s).map DefUseEdge.fromStep).filter fun t => t < nsteps

def consumers (edges : List DefUseEdge) (nsteps s : ℕ) : List ℕ :=
  ((edges.filter fun e => e.fromStep = s).map DefUseEdge.toStep).filter fun t => t < nsteps

lemma mem_producers {edges : List DefUseEdge} {nsteps s t : ℕ} :
    t ∈ producers edges nsteps s ↔
      t ∈ (nextSteps (adj edges).bwd s).filter fun t => t < nsteps := by
  rw [producers, List.mem_filter, List.mem_filter, mem_nextSteps, adj, mem_adjOf]
  simp [and_assoc]

lemma mem_consumers {edges : List DefUseEdge} {nsteps s t : ℕ} :
    t ∈ consumers edges nsteps s ↔
      t ∈ (nextSteps (adj edges).fwd s).filter fun t => t < nsteps := by
  rw [consumers, List.mem_filter, List.mem_filter, mem_nextSteps, adj, mem_adjOf]
  simp [and_assoc]

/-- A walk has the hop distances with its sign, where they are numbers an `int` can hold. -/
lemma walkInt_spec (nbrs : ℕ → List ℕ) {adj : List (ℕ × List ℕ)} {nsteps : ℕ}
    (hadj : ∀ s t, t ∈ (nextSteps adj s).filter (fun t => t < nsteps) ↔ t ∈ nbrs s) (origin : ℕ)
    {sign : ℤ} (hsign : sign = 1 ∨ sign = -1)
    (hfit : ∀ k d, Hops.IsDist nbrs origin k d → d < 2 ^ 31) :
    ∃ depth, walkInt adj origin sign nsteps = some depth ∧ KeysSorted depth ∧
      ∀ k v, mapFind k depth = some v ↔ ∃ d : ℕ, Hops.IsDist nbrs origin k d ∧ v = sign * d := by
  obtain ⟨st, hst, hsorted, hdepth⟩ := Bfs.run_depths nsteps origin
    (walkStep_visits adj sign nsteps) fun a b hb => of_decide_eq_true (List.mem_filter.1 hb).2
  have hdepth' : ∀ k v, mapFind k st.depth = some v ↔
      ∃ d : ℕ, Hops.IsDist nbrs origin k d ∧ v = sign * d := by
    intro k v
    rw [hdepth]
    simp only [Hops.isDist_congr hadj]
  refine ⟨st.depth, ?_, hsorted, hdepth'⟩
  rw [walkInt, walk, hst, Option.map_some, Option.filter_some, if_pos]
  rw [List.all_eq_true]
  rintro ⟨k, v⟩ he
  obtain ⟨d, hd, rfl⟩ := (hdepth' k v).1 (mapFind_of_mem hsorted he)
  have := hfit k d hd
  rw [decide_eq_true_eq]
  rcases hsign with rfl | rfl <;> constructor <;> dsimp only <;> omega

/-- The nearer of two depths, the first on a tie -/
def nearer (w v : ℤ) : ℤ :=
  if v.natAbs < w.natAbs then v else w

def mergedDepth (back fwd : Option ℤ) : Option ℤ :=
  match fwd, back with
  | none, b => b
  | some v, none => some v
  | some v, some w => some (nearer w v)

lemma mergeRing_spec {depth : List (ℕ × ℤ)} {kv : ℕ × ℤ} (hkv : -2 ^ 31 < kv.2)
    (hdepth : ∀ k v, mapFind k depth = some v → -2 ^ 31 < v) (hsorted : KeysSorted depth) :
    ∃ depth', mergeRing depth kv = some depth' ∧ KeysSorted depth' ∧
      (∀ k, k ≠ kv.1 → mapFind k depth' = mapFind k depth) ∧
      mapFind kv.1 depth' = mergedDepth (mapFind kv.1 depth) (some kv.2) := by
  rw [mergeRing]
  cases hw : mapFind kv.1 depth with
  | none =>
    refine ⟨_, rfl, keysSorted_mapInsert _ _ hsorted, fun k hk => ?_, ?_⟩
    · rw [mapFind_mapInsert, if_neg hk]
    · rw [mapFind_mapInsert, if_pos rfl]
      rfl
  | some w =>
    have ha : absInt kv.2 = some kv.2.natAbs := if_neg (by omega)
    have hb : absInt w = some w.natAbs := if_neg (by have := hdepth _ w hw; omega)
    dsimp only [mergedDepth]
    rw [ha, hb, nearer]
    dsimp only [Option.bind_eq_bind, Option.bind_some, Option.pure_def]
    split_ifs with hlt
    · refine ⟨_, rfl, keysSorted_mapInsert _ _ hsorted, fun k hk => ?_, ?_⟩
      · rw [mapFind_mapInsert, if_neg hk]
      · rw [mapFind_mapInsert, if_pos rfl]
    · exact ⟨_, rfl, hsorted, fun _ _ => rfl, hw⟩

lemma foldlM_mergeRing {fwd : List (ℕ × ℤ)} (hfwd : KeysSorted fwd)
    (hpos : ∀ e ∈ fwd, -2 ^ 31 < e.2) {back : List (ℕ × ℤ)} (hback : KeysSorted back)
    (hneg : ∀ k v, mapFind k back = some v → -2 ^ 31 < v) :
    ∃ depth, fwd.foldlM mergeRing back = some depth ∧ KeysSorted depth ∧
      ∀ k, mapFind k depth = mergedDepth (mapFind k back) (mapFind k fwd) := by
  induction fwd generalizing back with
  | nil => exact ⟨back, rfl, hback, fun k => by cases h : mapFind k back <;> rfl⟩
  | cons kv fwd ih =>
    rw [List.forall_mem_cons] at hpos
    obtain ⟨hlt, hrest⟩ := List.pairwise_cons.1 hfwd
    obtain ⟨back', hb, hsorted, hother, hself⟩ := mergeRing_spec hpos.1 hneg hback
    have hneg' : ∀ k v, mapFind k back' = some v → -2 ^ 31 < v := by
      intro k v hk
      by_cases hkk : k = kv.1
      · rw [hkk, hself] at hk
        cases hw : mapFind kv.1 back with
        | none =>
          rw [hw] at hk
          cases hk
          exact hpos.1
        | some w =>
          rw [hw] at hk
          cases hk
          rw [nearer]
          split_ifs
          · exact hpos.1
          · exact hneg _ w hw
      · exact hneg k v ((hother k hkk).symm.trans hk)
    obtain ⟨depth, hd, hds, hdepth⟩ := ih hrest hpos.2 hsorted hneg'
    refine ⟨depth, by rw [List.foldlM_cons, hb]; exact hd, hds, fun k => ?_⟩
    rw [hdepth]
    by_cases hkk : k = kv.1
    · have hnone : mapFind kv.1 fwd = none :=
        mapFind_eq_none_iff.2 fun e he => (hlt e he).ne'
      rw [hkk, hself, hnone, mapFind, if_pos rfl]
      cases mapFind kv.1 back <;> rfl
    · rw [hother k hkk, mapFind, if_neg hkk]

/-- The shorter of the two distances, negative for a producer, who wins a tie -/
def GenerationOf (edges : List DefUseEdge) (nsteps origin k : ℕ) (g : ℤ) : Prop :=
  (∃ a : ℕ, Hops.IsDist (producers edges nsteps) origin k a ∧ g = -a ∧
    ∀ d, Hops.IsDist (consumers edges nsteps) origin k d → a ≤ d) ∨
  ∃ d : ℕ, Hops.IsDist (consumers edges nsteps) origin k d ∧ g = d ∧
    ∀ a, Hops.IsDist (producers edges nsteps) origin k a → d < a

lemma generationOf_iff {edges : List DefUseEdge} {nsteps origin k : ℕ} {back fwd : Option ℤ}
    (hback : ∀ v, back = some v ↔
      ∃ d : ℕ, Hops.IsDist (producers edges nsteps) origin k d ∧ v = -1 * d)
    (hfwd : ∀ v, fwd = some v ↔
      ∃ d : ℕ, Hops.IsDist (consumers edges nsteps) origin k d ∧ v = 1 * d) (g : ℤ) :
    mergedDepth back fwd = some g ↔ GenerationOf edges nsteps origin k g := by
  have hno : ∀ {nbrs : ℕ → List ℕ} {sign : ℤ} {o : Option ℤ},
      (∀ v, o = some v ↔ ∃ d : ℕ, Hops.IsDist nbrs origin k d ∧ v = sign * d) → o = none →
      ∀ d, ¬ Hops.IsDist nbrs origin k d := by
    intro nbrs sign o ho hnone d hd
    have := (ho _).2 ⟨d, hd, rfl⟩
    rw [hnone] at this
    cases this
  cases hb : back with
  | none =>
    have hback' := hno hback hb
    cases hf : fwd with
    | none =>
      have hfwd' := hno hfwd hf
      refine iff_of_false (fun h => by cases h) ?_
      rintro (⟨a, ha, -⟩ | ⟨d, hd, -⟩)
      · exact hback' a ha
      · exact hfwd' d hd
    | some v =>
      obtain ⟨d, hd, rfl⟩ := (hfwd v).1 hf
      rw [one_mul]
      constructor
      · intro h
        cases h
        exact .inr ⟨d, hd, rfl, fun a ha => absurd ha (hback' a)⟩
      · rintro (⟨a, ha, -⟩ | ⟨d', hd', rfl, -⟩)
        · exact absurd ha (hback' a)
        · rw [hd'.unique hd]
          rfl
  | some w =>
    obtain ⟨a, ha, rfl⟩ := (hback w).1 hb
    rw [neg_one_mul]
    cases hf : fwd with
    | none =>
      have hfwd' := hno hfwd hf
      constructor
      · intro h
        cases h
        exact .inl ⟨a, ha, rfl, fun d hd => absurd hd (hfwd' d)⟩
      · rintro (⟨a', ha', rfl, -⟩ | ⟨d, hd, -⟩)
        · rw [ha'.unique ha]
          rfl
        · exact absurd hd (hfwd' d)
    | some v =>
      obtain ⟨d, hd, rfl⟩ := (hfwd v).1 hf
      rw [one_mul]
      dsimp only [mergedDepth]
      rw [nearer, Int.natAbs_neg, Int.natAbs_natCast, Int.natAbs_natCast, Option.some_inj]
      constructor
      · intro h
        subst h
        split_ifs with hlt
        · exact .inr ⟨d, hd, rfl, fun a' ha' => ha.unique ha' ▸ hlt⟩
        · exact .inl ⟨a, ha, rfl, fun d' hd' => hd.unique hd' ▸ not_lt.1 hlt⟩
      · rintro (⟨a', ha', rfl, hle⟩ | ⟨d', hd', rfl, hlt⟩)
        · rw [ha'.unique ha] at hle ⊢
          rw [if_neg (not_lt.2 (hle d hd))]
        · rw [hd'.unique hd] at hlt ⊢
          rw [if_pos (hlt a ha)]

end Rings

section Select

/-- Reached from the origin over producers, or over consumers -/
def Ancestor (edges : List DefUseEdge) (nsteps origin k : ℕ) : Prop :=
  Relation.ReflTransGen (fun a b => b < nsteps ∧ ∃ e ∈ edges, e.toStep = a ∧ e.fromStep = b)
    origin k

def Descendant (edges : List DefUseEdge) (nsteps origin k : ℕ) : Prop :=
  Relation.ReflTransGen (fun a b => b < nsteps ∧ ∃ e ∈ edges, e.fromStep = a ∧ e.toStep = b)
    origin k

/-- The selection from `origin`: the two closures, each step with its generation -/
structure SelectedFrom (edges : List DefUseEdge) (nsteps origin : ℕ) (sel : LoomSelection) :
    Prop where
  ascending : sel.steps.Pairwise (· < ·)
  parallel : sel.generation.length = sel.steps.length
  closure : ∀ k, k ∈ sel.steps ↔
    Ancestor edges nsteps origin k ∨ Descendant edges nsteps origin k
  generation : ∀ k g, (k, g) ∈ sel.steps.zip sel.generation ↔
    GenerationOf edges nsteps origin k g

variable {edges : List DefUseEdge} {nsteps origin : ℕ}

lemma ancestor_iff {k : ℕ} :
    Ancestor edges nsteps origin k ↔ ∃ d, Hops.IsDist (producers edges nsteps) origin k d := by
  rw [Hops.exists_isDist_iff, Ancestor]
  have hrel : (fun a b => b < nsteps ∧ ∃ e ∈ edges, e.toStep = a ∧ e.fromStep = b) =
      fun a b => b ∈ producers edges nsteps a := by
    funext a b
    rw [producers, List.mem_filter, List.mem_map]
    simp only [List.mem_filter, decide_eq_true_eq, and_assoc]
    exact propext ⟨fun ⟨hb, e, he⟩ => ⟨⟨e, he⟩, hb⟩, fun ⟨⟨e, he⟩, hb⟩ => ⟨hb, e, he⟩⟩
  rw [hrel]

lemma descendant_iff {k : ℕ} :
    Descendant edges nsteps origin k ↔ ∃ d, Hops.IsDist (consumers edges nsteps) origin k d := by
  rw [Hops.exists_isDist_iff, Descendant]
  have hrel : (fun a b => b < nsteps ∧ ∃ e ∈ edges, e.fromStep = a ∧ e.toStep = b) =
      fun a b => b ∈ consumers edges nsteps a := by
    funext a b
    rw [consumers, List.mem_filter, List.mem_map]
    simp only [List.mem_filter, decide_eq_true_eq, and_assoc]
    exact propext ⟨fun ⟨hb, e, he⟩ => ⟨⟨e, he⟩, hb⟩, fun ⟨⟨e, he⟩, hb⟩ => ⟨hb, e, he⟩⟩
  rw [hrel]

lemma exists_generationOf {k : ℕ} :
    (∃ g, GenerationOf edges nsteps origin k g) ↔
      Ancestor edges nsteps origin k ∨ Descendant edges nsteps origin k := by
  rw [ancestor_iff, descendant_iff]
  constructor
  · rintro ⟨g, ⟨a, ha, -⟩ | ⟨d, hd, -⟩⟩
    · exact .inl ⟨a, ha⟩
    · exact .inr ⟨d, hd⟩
  · intro h
    by_cases ha : ∃ a, Hops.IsDist (producers edges nsteps) origin k a
    · obtain ⟨a, ha⟩ := ha
      by_cases hd : ∃ d, Hops.IsDist (consumers edges nsteps) origin k d ∧ d < a
      · obtain ⟨d, hd, hlt⟩ := hd
        exact ⟨d, .inr ⟨d, hd, rfl, fun a' ha' => ha.unique ha' ▸ hlt⟩⟩
      · refine ⟨-a, .inl ⟨a, ha, rfl, fun d hd' => ?_⟩⟩
        by_contra hlt
        exact hd ⟨d, hd', not_le.1 hlt⟩
    · obtain ⟨d, hd⟩ := h.resolve_left ha
      exact ⟨d, .inr ⟨d, hd, rfl, fun a ha' => absurd ⟨a, ha'⟩ ha⟩⟩

/-- Every hop distance from the origin is a number an `int` can hold. -/
def FitsInt (edges : List DefUseEdge) (nsteps origin : ℕ) : Prop :=
  ∀ k d, Hops.IsDist (producers edges nsteps) origin k d ∨
    Hops.IsDist (consumers edges nsteps) origin k d → d < 2 ^ 31

lemma mem_zip_map_fst_snd {m : List (ℕ × ℤ)} {e : ℕ × ℤ} :
    e ∈ (m.map Prod.fst).zip (m.map Prod.snd) ↔ e ∈ m := by
  rw [List.zip_map', List.map_id'']
  exact fun _ => rfl

/-- The selection of a value written inside the window -/
lemma loomSelect_written {f : LoomFabric} {lane step span : ℕ} {s : LoomSpan}
    (hlane : lane < f.lanes.length) (hspan : f.resident lane step = span)
    (hres : span ≠ kLoomNoSpan) (hs : f.spans[span]? = some s) (hborn : s.bornUntraced = false)
    (hfit : FitsInt edges f.steps s.tWrite) (out : LoomSelection) :
    ∃ sel, loomSelect f edges lane step (some out) = some (true, some sel) ∧
      sel.originSpan = span ∧ sel.originStep = s.tWrite ∧ sel.bornUntraced = false ∧
      SelectedFrom edges f.steps s.tWrite sel := by
  obtain ⟨back, hback, hbsorted, hbdepth⟩ := walkInt_spec (producers edges f.steps)
    (fun _ _ => mem_producers.symm) s.tWrite (.inr rfl) fun k d hd => hfit k d (.inl hd)
  obtain ⟨fwd, hfwd, hfsorted, hfdepth⟩ := walkInt_spec (consumers edges f.steps)
    (fun _ _ => mem_consumers.symm) s.tWrite (.inl rfl) fun k d hd => hfit k d (.inr hd)
  have hpos : ∀ e ∈ fwd, -2 ^ 31 < e.2 := by
    rintro ⟨k, v⟩ he
    obtain ⟨d, hd, rfl⟩ := (hfdepth k v).1 (mapFind_of_mem hfsorted he)
    dsimp only
    omega
  have hneg : ∀ k v, mapFind k back = some v → -2 ^ 31 < v := by
    intro k v hk
    obtain ⟨d, hd, rfl⟩ := (hbdepth k v).1 hk
    have := hfit k d (.inl hd)
    omega
  obtain ⟨depth, hdepth, hsorted, hmerged⟩ := foldlM_mergeRing hfsorted hpos hbsorted hneg
  have hgen : ∀ k g, (k, g) ∈ depth ↔ GenerationOf edges f.steps s.tWrite k g := by
    intro k g
    rw [← generationOf_iff (hbdepth k) (hfdepth k), ← hmerged]
    exact ⟨mapFind_of_mem hsorted, mem_of_mapFind⟩
  refine ⟨{ originSpan := span
            originStep := s.tWrite
            steps := depth.map Prod.fst
            generation := depth.map Prod.snd
            genLo := (depth.map Prod.snd).foldl min 0
            genHi := (depth.map Prod.snd).foldl max 0 }, ?_, rfl, rfl, rfl, ?_, ?_, fun k => ?_,
    fun k g => ?_⟩
  · rw [loomSelect, if_neg (by simp [hlane])]
    simp only [hspan, hres, hs, hborn, hback, hfwd, hdepth, if_false, Bool.false_eq_true,
      Option.bind_eq_bind, Option.bind_some, Option.pure_def]
  · exact List.pairwise_map.2 hsorted
  · rw [List.length_map, List.length_map]
  · rw [← exists_generationOf, List.mem_map]
    simp only [← hgen]
    exact ⟨fun ⟨⟨k, g⟩, he, h⟩ => ⟨g, by cases h; exact he⟩, fun ⟨g, he⟩ => ⟨(k, g), he, rfl⟩⟩
  · rw [mem_zip_map_fst_snd, hgen]

/-- A selection that holds a value labels the lineage of the step that wrote it. A value from before
the trace has none: its selection is empty, and says so. -/
theorem loom_select_labels_generations (f : LoomFabric) (edges : List DefUseEdge) (lane step : ℕ)
    (out : LoomSelection) (hlane : lane < f.lanes.length) (span : ℕ)
    (hspan : f.resident lane step = span) (hres : span ≠ kLoomNoSpan) (s : LoomSpan)
    (hs : f.spans[span]? = some s) (hfit : FitsInt edges f.steps s.tWrite) :
    ∃ sel, loomSelect f edges lane step (some out) = some (true, some sel) ∧
      sel.originSpan = span ∧ sel.originStep = s.tWrite ∧ sel.bornUntraced = s.bornUntraced ∧
      (s.bornUntraced = false → SelectedFrom edges f.steps s.tWrite sel) ∧
      (s.bornUntraced = true → sel.steps = [] ∧ sel.generation = [] ∧ sel.note = selectNote) := by
  cases hborn : s.bornUntraced with
  | false =>
    obtain ⟨sel, hsel, hspan', hstep, hb, hfrom⟩ :=
      loomSelect_written hlane hspan hres hs hborn hfit out
    exact ⟨sel, hsel, hspan', hstep, hb, fun _ => hfrom, fun h => absurd h Bool.false_ne_true⟩
  | true =>
    refine ⟨{ originSpan := span, originStep := s.tWrite, bornUntraced := true,
              note := selectNote }, ?_, rfl, rfl, rfl, fun h => absurd h.symm Bool.false_ne_true,
      fun _ => ⟨rfl, rfl, rfl⟩⟩
    rw [loomSelect, if_neg (by simp [hlane])]
    simp only [hspan, hres, hs, hborn, if_false, if_true, Option.bind_eq_bind, Option.bind_some,
      Option.pure_def]

/-- A window of fewer than `2 ^ 31` steps has no distance an `int` cannot hold. -/
lemma fitsInt_of_lt (hn : nsteps < 2 ^ 31) : FitsInt edges nsteps origin := by
  have hcard : (insert origin (Finset.range nsteps)).card ≤ nsteps + 1 := by
    have := Finset.card_insert_le origin (Finset.range nsteps)
    rwa [Finset.card_range] at this
  have hin : ∀ {t : ℕ}, t < nsteps → t ∈ insert origin (Finset.range nsteps) :=
    fun ht => Finset.mem_insert_of_mem (Finset.mem_range.2 ht)
  rintro k d (h | h)
  · have := h.lt_card (Finset.mem_insert_self origin _) fun a _ b hb =>
      hin (of_decide_eq_true (List.mem_filter.1 hb).2)
    omega
  · have := h.lt_card (Finset.mem_insert_self origin _) fun a _ b hb =>
      hin (of_decide_eq_true (List.mem_filter.1 hb).2)
    omega

/-- `mov rax, ..; mov [0x1000], rax`: the store is the first generation after the load of `rax`. -/
theorem loom_select_labels_store :
    let v := appendAll (valtraceNew 4 4)
      [(0, [{ kind := .reg, reg := 35, isWrite := true, size := 8 }]),
       (7, [{ kind := .reg, reg := 35, size := 8 },
         { kind := .memAbs, addr := 0x1000, size := 8, isWrite := true }])]
    let s : LoomSpan := { lane := 0, tWrite := 0, recIdx := 0, valueValid := false, value := 0 }
    ∃ g f, defuseBuild v = some g ∧ loomFabricBuild v g ⟨"replay", true⟩ = .ok f ∧
      0 < f.lanes.length ∧ f.resident 0 1 = 0 ∧ f.spans[0]? = some s ∧
      ∃ sel, loomSelect f g.edges 0 1 (some {}) = some (true, some sel) ∧
        sel.originSpan = 0 ∧ sel.originStep = s.tWrite ∧ sel.bornUntraced = s.bornUntraced ∧
        (s.bornUntraced = false → SelectedFrom g.edges f.steps s.tWrite sel) ∧
        (s.bornUntraced = true → sel.steps = [] ∧ sel.generation = [] ∧ sel.note = selectNote) := by
  intro v s
  obtain ⟨g, hg⟩ : ∃ g, defuseBuild v = some g := ⟨_, Dataflow.defuseBuild_eq v⟩
  obtain ⟨f, hf⟩ : ∃ f, loomFabricBuild v g ⟨"replay", true⟩ = .ok f := ⟨_, rfl⟩
  obtain ⟨hlanes, hspans, hsteps⟩ := fields_of_build hf
  have hlane : 0 < f.lanes.length := by
    rw [hlanes]
    decide +kernel
  have hres : f.resident 0 1 = 0 := by
    rw [LoomFabric.resident, hspans]
    decide +kernel
  have hs : f.spans[0]? = some s := by
    rw [hspans]
    decide +kernel
  have hn : f.steps < 2 ^ 31 := by
    rw [hsteps]
    decide +kernel
  exact ⟨g, f, hg, hf, hlane, hres, hs, loom_select_labels_generations f g.edges 0 1 {} hlane 0 hres
    (by decide) s hs (fitsInt_of_lt hn)⟩

/-- A lone read of `rax`: its value comes from before the trace, and not even the origin step is
selected. -/
theorem loom_select_born_untraced_empty :
    let v := appendAll (valtraceNew 4 4) [(0, [{ kind := .reg, reg := 35, size := 8 }])]
    ∃ g f sel, defuseBuild v = some g ∧ loomFabricBuild v g ⟨"replay", true⟩ = .ok f ∧
      loomSelect f g.edges 0 0 (some {}) = some (true, some sel) ∧ sel.originStep = 0 ∧
      ¬ ∀ k, k ∈ sel.steps ↔ Ancestor g.edges f.steps sel.originStep k ∨
        Descendant g.edges f.steps sel.originStep k := by
  intro v
  have hbuild : defuseBuild v = some ⟨[], 1⟩ := by decide +kernel
  refine ⟨_, _, { originSpan := 0, bornUntraced := true, note := selectNote }, hbuild, rfl,
    by decide +kernel, rfl, fun h => ?_⟩
  exact absurd ((h 0).2 (.inl Relation.ReflTransGen.refl)) List.not_mem_nil

end Select

end AsmTest.Loom
