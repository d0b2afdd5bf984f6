import AsmTest.Lib.Csr
import AsmTest.Lib.Worklist
import AsmTest.DefUse
import Mathlib.Data.List.Sort

/-!
# The two slicers

The engine's `slice_dir` rescans every edge for each dequeued step; the viewer's
`closure` builds a compressed adjacency with 32-bit counters once. Allocations
are taken to succeed.
-/

namespace AsmTest.Dataflow

open Worklist

/-! ## The engine -/

/-- The body of the edge loop of `slice_dir`. -/
def sliceEdge (forward : Bool) (ns u : ℕ) (st : State) (e : DefUseEdge) : State :=
  let a := if forward then e.fromStep else e.toStep
  let b := if forward then e.toStep else e.fromStep
  if a = u ∧ b < ns ∧ st.vis.getD b false = false then ⟨st.vis.set b true, st.q ++ [b], st.qh⟩
  else st

/-- `qsort` with `cmp_u32` -/
def sortU32 (steps : List ℕ) : List ℕ := steps.mergeSort fun a b => decide (a ≤ b)

def visited (vis : List Bool) (ns : ℕ) : List ℕ := (List.range ns).filter fun k => vis.getD k false

def sliceDir (g : DefUse) (origin : ℕ) (forward : Bool) : Option (List ℕ) :=
  let ns := g.nsteps
  if ns ≤ origin then some []
  else
    let body u st := g.edges.foldl (sliceEdge forward ns u) st
    (run body ns (start ns origin)).map fun st => sortU32 (visited st.vis ns)

def sliceForward (g : DefUse) (seed : ValRec) : Option (List ℕ) := sliceDir g seed.step true

def sliceBackward (g : DefUse) (sink : ValRec) : Option (List ℕ) := sliceDir g sink.step false

/-! ## The viewer -/

/-- `dt_edge` -/
structure DtEdge where
  fromStep : ℕ
  toStep : ℕ
  deriving DecidableEq, Repr

/-- An edge in the direction of the walk. -/
def DtEdge.ends (forward : Bool) (e : DtEdge) : ℕ × ℕ :=
  (if forward then e.fromStep else e.toStep, if forward then e.toStep else e.fromStep)

/-- The counters of `build_adjacency` are 32 bits wide. -/
def buildAdjacency (edges : List DtEdge) (nsteps : ℕ) (forward : Bool) : Option Csr.Adjacency :=
  Csr.build (2 ^ 32) nsteps (edges.map (DtEdge.ends forward))

def closureVisit (st : State) (v : ℕ) : State :=
  if st.vis.getD v false = false then ⟨st.vis.set v true, st.q ++ [v], st.qh⟩ else st

/-- `none` when `build_adjacency` writes outside its target array. -/
def closure (edges : List DtEdge) (nsteps origin : ℕ) (forward : Bool) : Option (List ℕ) :=
  if nsteps ≤ origin then some []
  else do
    let adj ← buildAdjacency edges nsteps forward
    let body u st := (Csr.row adj u).foldl closureVisit st
    let st ← run body nsteps (start nsteps origin)
    return visited st.vis nsteps

def dtSliceForward (edges : List DtEdge) (nsteps origin : ℕ) : Option (List ℕ) :=
  closure edges nsteps origin true

def dtSliceBackward (edges : List DtEdge) (nsteps origin : ℕ) : Option (List ℕ) :=
  closure edges nsteps origin false

/-! ## Both walk the same graph -/

/-- The edge as the viewer records it. -/
def DefUseEdge.dt (e : DefUseEdge) : DtEdge := ⟨e.fromStep, e.toStep⟩

/-- The steps below `ns` that one edge leads to from `u`. -/
def nbrs (edges : List DefUseEdge) (ns : ℕ) (forward : Bool) (u : ℕ) : List ℕ :=
  Csr.targets ns (edges.map fun e => e.dt.ends forward) u

/-- Reachable from `origin` along `edges`, staying below `ns`. -/
def InSlice (edges : List DefUseEdge) (ns : ℕ) (forward : Bool) (origin k : ℕ) : Prop :=
  origin < ns ∧ Relation.ReflTransGen
    (fun a b => a < ns ∧ b < ns ∧ ∃ e ∈ edges, e.dt.ends forward = (a, b)) origin k

lemma inSlice_iff {edges : List DefUseEdge} {ns origin k : ℕ} {forward : Bool} (ho : origin < ns) :
    InSlice edges ns forward origin k ↔ Reaches (nbrs edges ns forward) origin k := by
  have hrel : (fun a b => a < ns ∧ b < ns ∧ ∃ e ∈ edges, e.dt.ends forward = (a, b)) =
      fun a b => b ∈ nbrs edges ns forward a := by
    funext a b
    rw [nbrs, Csr.mem_targets, List.mem_map]
    exact propext ⟨fun h => ⟨h.2.2, h.1, h.2.1⟩, fun h => ⟨h.2.1, h.2.2, h.1⟩⟩
  rw [InSlice, hrel]
  exact and_iff_right ho

lemma inSlice_lt {edges : List DefUseEdge} {ns origin k : ℕ} {forward : Bool}
    (h : InSlice edges ns forward origin k) : k < ns := by
  obtain ⟨ho, hr⟩ := h
  cases hr with
  | refl => exact ho
  | tail _ hab => exact hab.2.1

/-- Reversing every edge exchanges the ends of a walk. -/
lemma inSlice_swap {edges : List DefUseEdge} {ns s t : ℕ} :
    InSlice edges ns true s t ↔ InSlice edges ns false t s := by
  have hends : ∀ (e : DefUseEdge) (a b : ℕ) (d : Bool), e.dt.ends d = (a, b) → e.dt.ends (!d) = (b, a) := by
    intro e a b d h
    cases d <;> simp_all [DtEdge.ends]
  have hrev : ∀ (d : Bool) {a b : ℕ}, InSlice edges ns d a b → InSlice edges ns (!d) b a := by
    intro d a b h
    refine ⟨inSlice_lt h, ?_⟩
    induction h.2 with
    | refl => exact Relation.ReflTransGen.refl
    | tail hab hbc ih =>
      obtain ⟨h1, h2, e, he, hd⟩ := hbc
      exact (ih ⟨h.1, hab⟩).head ⟨h2, h1, e, he, hends e _ _ d hd⟩
  exact ⟨hrev true, hrev false⟩

lemma nbrs_cons (e : DefUseEdge) (edges : List DefUseEdge) (ns : ℕ) (forward : Bool) (u : ℕ) :
    nbrs (e :: edges) ns forward u =
      Csr.targets ns [e.dt.ends forward] u ++ nbrs edges ns forward u := by
  rw [nbrs, nbrs, List.map_cons, ← List.singleton_append, Csr.targets_append]

lemma closureVisit_eq : closureVisit = visit := by
  funext st v
  by_cases hv : st.vis.getD v false
  · simp only [closureVisit, visit, hv, if_true, Bool.true_eq_false, if_false]
  · simp only [closureVisit, visit, hv, if_true, Bool.false_eq_true, if_false]

lemma foldl_sliceEdge (forward : Bool) (ns : ℕ) (edges : List DefUseEdge) {u : ℕ} (hu : u < ns)
    (st : State) :
    edges.foldl (sliceEdge forward ns u) st = (nbrs edges ns forward u).foldl visit st := by
  induction edges generalizing st with
  | nil => rfl
  | cons e edges ih =>
    rw [List.foldl_cons, ih, nbrs_cons, List.foldl_append, Csr.targets_singleton]
    congr 1
    simp only [sliceEdge, DtEdge.ends, DefUseEdge.dt, ← closureVisit_eq]
    by_cases ha : (if forward then e.fromStep else e.toStep) = u
    · subst ha
      by_cases hb : (if forward then e.toStep else e.fromStep) < ns
      · simp only [hu, hb, true_and, and_true, if_true, List.foldl_cons, List.foldl_nil, closureVisit]
      · simp [hb]
    · simp [ha]

/-! ## The result of a walk -/

/-- The steps of the slice in ascending order, each once; none without a recorded origin. -/
structure IsSlice (edges : List DefUseEdge) (ns : ℕ) (forward : Bool) (origin : ℕ)
    (steps : List ℕ) : Prop where
  ascending : steps.Pairwise (· < ·)
  exact : ∀ k, k ∈ steps ↔ InSlice edges ns forward origin k
  empty : steps = [] ↔ ns ≤ origin

lemma isSlice_nil {edges : List DefUseEdge} {ns origin : ℕ} {forward : Bool} (ho : ns ≤ origin) :
    IsSlice edges ns forward origin [] := by
  refine ⟨List.Pairwise.nil, fun k => ?_, by simpa using ho⟩
  constructor
  · intro hk
    simp at hk
  · intro h
    have := h.1
    omega

lemma IsSlice.unique {edges : List DefUseEdge} {ns origin : ℕ} {forward : Bool} {l l' : List ℕ}
    (h : IsSlice edges ns forward origin l) (h' : IsSlice edges ns forward origin l') : l = l' := by
  apply List.Perm.eq_of_pairwise' h.ascending h'.ascending
  rw [List.perm_ext_iff_of_nodup (h.ascending.imp Nat.ne_of_lt) (h'.ascending.imp Nat.ne_of_lt)]
  intro k
  rw [h.exact, h'.exact]

lemma visited_ascending (vis : List Bool) (ns : ℕ) : (visited vis ns).Pairwise (· < ·) :=
  List.pairwise_lt_range.filter _

lemma sortU32_visited (vis : List Bool) (ns : ℕ) : sortU32 (visited vis ns) = visited vis ns := by
  apply List.mergeSort_of_pairwise
  apply (visited_ascending vis ns).imp
  intro a b hab
  simpa using hab.le

/-- A search whose body visits the neighbours collects the slice. -/
lemma run_isSlice {edges : List DefUseEdge} {ns origin : ℕ} {forward : Bool}
    {body : ℕ → State → State} (hv : Visits ns body (nbrs edges ns forward)) (ho : origin < ns) :
    ∃ st, run body ns (start ns origin) = some st ∧
      IsSlice edges ns forward origin (visited st.vis ns) := by
  have hn : ∀ a < ns, ∀ b ∈ nbrs edges ns forward a, b < ns :=
    fun a _ b hb => (Csr.mem_targets.mp hb).2.2
  obtain ⟨st, h1, -, h3⟩ := run_start hv hn ho
  have hmem : ∀ k, k ∈ visited st.vis ns ↔ InSlice edges ns forward origin k := by
    intro k
    rw [visited, List.mem_filter, List.mem_range, h3, ← inSlice_iff ho]
    exact and_iff_right_of_imp inSlice_lt
  refine ⟨st, h1, visited_ascending _ _, hmem, ?_⟩
  have horigin : origin ∈ visited st.vis ns := (hmem origin).mpr ⟨ho, Relation.ReflTransGen.refl⟩
  exact ⟨fun h => by simp [h] at horigin, fun h => by omega⟩

lemma sliceDir_isSlice (g : DefUse) (origin : ℕ) (forward : Bool) :
    ∃ steps, sliceDir g origin forward = some steps ∧
      IsSlice g.edges g.nsteps forward origin steps := by
  by_cases ho : g.nsteps ≤ origin
  · exact ⟨[], by simp [sliceDir, ho], isSlice_nil ho⟩
  · have hv : Visits g.nsteps (fun u st => g.edges.foldl (sliceEdge forward g.nsteps u) st)
        (nbrs g.edges g.nsteps forward) := fun u hu st => foldl_sliceEdge forward g.nsteps g.edges hu st
    obtain ⟨st, h1, h2⟩ := run_isSlice hv (not_le.mp ho)
    refine ⟨visited st.vis g.nsteps, ?_, h2⟩
    simp only [sliceDir, if_neg ho, h1, Option.map_some, sortU32_visited]

/-- The edges with both ends below `nsteps` -/
def storedDtEdges (edges : List DtEdge) (nsteps : ℕ) : ℕ :=
  edges.countP fun e => e.fromStep < nsteps ∧ e.toStep < nsteps

lemma inRange_dtEnds (edges : List DtEdge) (nsteps : ℕ) (forward : Bool) :
    Csr.inRange nsteps (edges.map (DtEdge.ends forward)) = storedDtEdges edges nsteps := by
  rw [Csr.inRange, storedDtEdges, List.countP_map]
  apply List.countP_congr
  intro e _
  cases forward
  · simp [DtEdge.ends, and_comm]
  · simp [DtEdge.ends]

/-- The edges with both ends below `ns`, which are those the viewer stores. -/
def storedEdges (edges : List DefUseEdge) (ns : ℕ) : ℕ :=
  edges.countP fun e => e.fromStep < ns ∧ e.toStep < ns

lemma storedDtEdges_map (edges : List DefUseEdge) (ns : ℕ) :
    storedDtEdges (edges.map DefUseEdge.dt) ns = storedEdges edges ns :=
  List.countP_map

lemma closure_isSlice (edges : List DefUseEdge) (ns origin : ℕ) (forward : Bool)
    (h : ns ≤ origin ∨ storedEdges edges ns < 2 ^ 32) :
    ∃ steps, closure (edges.map DefUseEdge.dt) ns origin forward = some steps ∧
      IsSlice edges ns forward origin steps := by
  by_cases ho : ns ≤ origin
  · exact ⟨[], by simp [closure, ho], isSlice_nil ho⟩
  · have hN := h.resolve_left ho
    rw [← storedDtEdges_map, ← inRange_dtEnds _ ns forward] at hN
    obtain ⟨adj, h1, h2⟩ := Csr.build_spec hN
    have hv : Visits ns (fun u st => (Csr.row adj u).foldl closureVisit st)
        (nbrs edges ns forward) := by
      intro u hu st
      dsimp only
      rw [h2 u hu, closureVisit_eq, nbrs, List.map_map]
      rfl
    obtain ⟨st, h3, h4⟩ := run_isSlice hv (not_le.mp ho)
    refine ⟨visited st.vis ns, ?_, h4⟩
    simp only [closure, if_neg ho, buildAdjacency, h1, h3, Option.bind_eq_bind, Option.bind_some,
      Option.pure_def]

/-- From `2 ^ 32` stored edges on the counters wrap and the fill pass overruns. -/
lemma closure_eq_none {edges : List DefUseEdge} {ns origin : ℕ} {forward : Bool} (ho : origin < ns)
    (h : 2 ^ 32 ≤ storedEdges edges ns) :
    closure (edges.map DefUseEdge.dt) ns origin forward = none := by
  rw [← storedDtEdges_map, ← inRange_dtEnds _ ns forward] at h
  simp only [closure, if_neg (not_le.mpr ho), buildAdjacency,
    Csr.build_eq_none (Nat.two_pow_pos 32) h, Option.bind_eq_bind, Option.bind_none]

/-- The two slicers on one graph: forward from the seed, backward from the sink. -/
def SlicersExact (edges : List DefUseEdge) (nsteps : ℕ) (seed sink : ValRec) : Prop :=
  ∃ fwd bwd,
    sliceForward ⟨edges, nsteps⟩ seed = some fwd ∧
    dtSliceForward (edges.map DefUseEdge.dt) nsteps seed.step = some fwd ∧
    sliceBackward ⟨edges, nsteps⟩ sink = some bwd ∧
    dtSliceBackward (edges.map DefUseEdge.dt) nsteps sink.step = some bwd ∧
    IsSlice edges nsteps true seed.step fwd ∧ IsSlice edges nsteps false sink.step bwd ∧
    (sink.step ∈ fwd ↔ seed.step ∈ bwd)

/-- The slicers agree and are exact just when the viewer's 32-bit edge counters
do not wrap, or neither walk gets as far as counting. -/
theorem slicers_exact_iff (edges : List DefUseEdge) (nsteps : UInt32) (seed sink : ValRec) :
    SlicersExact edges nsteps.toNat seed sink ↔
      (nsteps.toNat ≤ seed.step ∧ nsteps.toNat ≤ sink.step) ∨
        storedEdges edges nsteps.toNat < 2 ^ 32 := by
  constructor
  · rintro ⟨fwd, bwd, -, hf, -, hb, -⟩
    by_contra hcon
    obtain ⟨hout, hN⟩ := not_or.mp hcon
    by_cases hs : nsteps.toNat ≤ seed.step
    · have ht : sink.step < nsteps.toNat := not_le.mp fun ht => hout ⟨hs, ht⟩
      rw [dtSliceBackward, closure_eq_none ht (not_lt.mp hN)] at hb
      cases hb
    · rw [dtSliceForward, closure_eq_none (not_le.mp hs) (not_lt.mp hN)] at hf
      cases hf
  · intro h
    obtain ⟨fwd, hf1, hf2⟩ := sliceDir_isSlice ⟨edges, nsteps.toNat⟩ seed.step true
    obtain ⟨bwd, hb1, hb2⟩ := sliceDir_isSlice ⟨edges, nsteps.toNat⟩ sink.step false
    obtain ⟨fwd', hf3, hf4⟩ := closure_isSlice edges _ seed.step true (h.imp_left And.left)
    obtain ⟨bwd', hb3, hb4⟩ := closure_isSlice edges _ sink.step false (h.imp_left And.right)
    obtain rfl := hf4.unique hf2
    obtain rfl := hb4.unique hb2
    refine ⟨fwd', bwd', hf1, hf3, hb1, hb3, hf4, hb4, ?_⟩
    rw [hf4.exact, hb4.exact, inSlice_swap]

/-- `2 ^ 32` copies of one self edge: the engine answers, the viewer does not. -/
theorem slicers_disagree_on_repeated_edge :
    ¬ SlicersExact (List.replicate (2 ^ 32) ⟨0, 0, { kind := .reg }⟩) (1 : UInt32).toNat
      { kind := .reg } { kind := .reg } := by
  rintro ⟨fwd, bwd, -, hf, -⟩
  rw [dtSliceForward, closure_eq_none (by decide)] at hf
  · cases hf
  · rw [storedEdges, List.countP_replicate]
    decide

end AsmTest.Dataflow
