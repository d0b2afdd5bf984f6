import AsmTest.Slice
import AsmTest.Lib.Hops

/-!
# The viewer's walk with a depth limit

`dt_walk_depth` keeps the hop count of every step it meets and stops at `max_depth`. It is the
search with a limit, run on the viewer's adjacency.
-/

namespace AsmTest.Dataflow

section Source

/-- `hop` is -1 where a step is not visited. -/
structure HopState where
  hop : List ℤ
  queue : List ℕ
  qh : ℕ
  bounded : Bool

/-- The hop counts stay below `max_depth`, so `du + 1` does not leave its 32 bits. -/
def hopVisit (du : ℤ) (st : HopState) (v : ℕ) : HopState :=
  if st.hop.getD v (-1) < 0 then
    { st with hop := st.hop.set v (du + 1), queue := st.queue ++ [v] }
  else st

/-- The body of the loop of `dt_walk_depth`, `row` being the targets of `u` -/
def hopExpand (row : List ℕ) (maxDepth : ℤ) (u : ℕ) (st : HopState) : HopState :=
  let du := st.hop.getD u (-1)
  if maxDepth ≤ du then
    -- only a neighbour that is really there makes the walk bounded
    if row.any fun v => st.hop.getD v (-1) < 0 then { st with bounded := true } else st
  else row.foldl (hopVisit du) st

def hopLoop (rows : ℕ → List ℕ) (maxDepth : ℤ) : ℕ → HopState → Option HopState
  | 0, st => if st.qh < st.queue.length then none else some st
  | fuel + 1, st =>
    if st.qh < st.queue.length then
      let u := st.queue.getD st.qh 0
      hopLoop rows maxDepth fuel (hopExpand (rows u) maxDepth u { st with qh := st.qh + 1 })
    else some st

structure DtWalk where
  steps : List ℕ := []
  depth : List ℤ := []
  depthMin : ℤ := 0
  depthMax : ℤ := 0
  bounded : Bool := false
deriving DecidableEq, Repr

def signedHop (forward : Bool) (h : ℤ) : ℤ := if forward then h else -h

/-- The last loop; the flag is `first`. -/
def reportHop (forward : Bool) (hop : List ℤ) (st : DtWalk × Bool) (k : ℕ) : DtWalk × Bool :=
  let h := hop.getD k (-1)
  if h < 0 then st
  else
    let d := signedHop forward h
    let w := { st.1 with steps := st.1.steps ++ [k], depth := st.1.depth ++ [d] }
    if st.2 then ({ w with depthMin := d, depthMax := d }, false)
    else ({ w with depthMin := min w.depthMin d, depthMax := max w.depthMax d }, false)

/-- `none` when `build_adjacency` writes outside its target array. A step enters the queue once, so
`nsteps` turns are enough. -/
def dtWalkDepth (edges : List DtEdge) (nsteps origin : ℕ) (forward : Bool) (maxDepth : ℤ) :
    Option DtWalk :=
  if nsteps ≤ origin then some {}
  else do
    let adj ← buildAdjacency edges nsteps forward
    let st ← hopLoop (Csr.row adj) maxDepth nsteps
      ⟨(List.replicate nsteps (-1)).set origin 0, [origin], 0, false⟩
    return ((List.range nsteps).foldl (reportHop forward st.hop)
      ({ bounded := st.bounded }, true)).1

end Source

section Search

/-- The steps one hop from `u` in the walked direction -/
def hopNbrs (edges : List DtEdge) (nsteps : ℕ) (forward : Bool) (u : ℕ) : List ℕ :=
  Csr.targets nsteps (edges.map (DtEdge.ends forward)) u

def hopDist (hop : List ℤ) (k : ℕ) : Option ℕ :=
  if hop.getD k (-1) < 0 then none else some (hop.getD k (-1)).toNat

/-- The search a state stands for -/
def HopState.search (st : HopState) : Hops.Search ℕ :=
  ⟨hopDist st.hop, st.queue.drop st.qh, st.bounded⟩

structure HopWf (n : ℕ) (st : HopState) : Prop where
  length : st.hop.length = n
  qh : st.qh ≤ st.queue.length
  queued : ∀ u ∈ st.queue, u < n ∧ 0 ≤ st.hop.getD u (-1)

variable {n : ℕ} {st : HopState}

lemma getD_set_hop {hop : List ℤ} {v : ℕ} (hv : v < hop.length) (d : ℤ) (k : ℕ) :
    (hop.set v d).getD k (-1) = if k = v then d else hop.getD k (-1) := by
  rw [List.getD_eq_getElem?_getD, List.getD_eq_getElem?_getD, List.getElem?_set]
  by_cases hk : k = v
  · rw [hk, if_pos rfl, if_pos hv, if_pos rfl]
    rfl
  · rw [if_neg (Ne.symm hk), if_neg hk]

lemma hopVisit_wf (h : HopWf n st) {du : ℤ} (hdu : 0 ≤ du) {v : ℕ} (hv : v < n) :
    HopWf n (hopVisit du st v) := by
  rw [hopVisit]
  split_ifs with hhop
  · have hv' : v < st.hop.length := by rw [h.length]; exact hv
    refine ⟨by rw [List.length_set, h.length], ?_, fun u hu => ?_⟩
    · rw [List.length_append]
      exact h.qh.trans (Nat.le_add_right _ _)
    · rw [getD_set_hop hv']
      rcases List.mem_append.1 hu with hu | hu
      · refine ⟨(h.queued u hu).1, ?_⟩
        split_ifs
        · omega
        · exact (h.queued u hu).2
      · rw [List.mem_singleton.1 hu, if_pos rfl]
        exact ⟨hv, by omega⟩
  · exact h

lemma search_hopVisit (h : HopWf n st) {du : ℤ} (hdu : 0 ≤ du) {v : ℕ} (hv : v < n) :
    (hopVisit du st v).search = Hops.visit (du.toNat + 1) st.search v := by
  have hv' : v < st.hop.length := by rw [h.length]; exact hv
  rw [hopVisit, Hops.visit]
  by_cases hhop : st.hop.getD v (-1) < 0
  · have hnone : (st.search.dist v).isSome = false := by
      change (hopDist st.hop v).isSome = false
      rw [hopDist, if_pos hhop]
      rfl
    rw [if_pos hhop, if_neg (by rw [hnone]; exact Bool.false_ne_true), HopState.search]
    dsimp only
    congr 1
    · funext k
      change hopDist (st.hop.set v (du + 1)) k = Function.update (hopDist st.hop) v _ k
      rw [hopDist, getD_set_hop hv']
      by_cases hk : k = v
      · rw [hk, Function.update_self]
        simp only [if_true]
        rw [if_neg (by omega)]
        congr 1
        omega
      · rw [Function.update_of_ne hk]
        simp only [hk, if_false]
        rfl
    · exact List.drop_append_of_le_length h.qh
  · have hsome : (st.search.dist v).isSome := by
      change (hopDist st.hop v).isSome
      rw [hopDist, if_neg hhop]
      rfl
    rw [if_neg hhop, if_pos hsome]

lemma foldl_hopVisit {du : ℤ} (hdu : 0 ≤ du) (row : List ℕ) (hrow : ∀ v ∈ row, v < n)
    (h : HopWf n st) :
    HopWf n (row.foldl (hopVisit du) st) ∧
      (row.foldl (hopVisit du) st).search = row.foldl (Hops.visit (du.toNat + 1)) st.search := by
  induction row generalizing st with
  | nil => exact ⟨h, rfl⟩
  | cons v row ih =>
    rw [List.forall_mem_cons] at hrow
    rw [List.foldl_cons, List.foldl_cons, ← search_hopVisit h hdu hrow.1]
    exact ih hrow.2 (hopVisit_wf h hdu hrow.1)

/-- One turn of the loop is one vertex of the search. A negative limit is one of no hops. -/
lemma search_hopExpand {nbrs : ℕ → List ℕ} {u : ℕ} (hrow : ∀ v ∈ nbrs u, v < n) (h : HopWf n st)
    (hu : 0 ≤ st.hop.getD u (-1)) (maxDepth : ℤ) :
    HopWf n (hopExpand (nbrs u) maxDepth u st) ∧
      (hopExpand (nbrs u) maxDepth u st).search =
        Hops.expand nbrs (some maxDepth.toNat) u st.search := by
  have hdist : st.search.dist u = some (st.hop.getD u (-1)).toNat := if_neg (not_lt.2 hu)
  have hbelow : Hops.Below (some maxDepth.toNat) (st.hop.getD u (-1)).toNat ↔
      ¬ maxDepth ≤ st.hop.getD u (-1) := by
    simp only [Hops.Below, Option.mem_some_iff, forall_eq']
    omega
  rw [hopExpand, Hops.expand, hdist]
  dsimp only [Option.getD_some]
  by_cases hcap : maxDepth ≤ st.hop.getD u (-1)
  · rw [if_pos hcap, if_neg (fun hb => hbelow.1 hb hcap)]
    have hany : (nbrs u).any (fun v => decide (st.hop.getD v (-1) < 0)) =
        (nbrs u).any fun v => (st.search.dist v).isNone := by
      congr 1
      funext v
      change _ = (hopDist st.hop v).isNone
      rw [hopDist]
      split_ifs with hv
      · rw [decide_eq_true hv]
        rfl
      · rw [decide_eq_false hv]
        rfl
    rw [hany]
    by_cases hb : ((nbrs u).any fun v => (st.search.dist v).isNone) = true
    · rw [if_pos hb, hb, Bool.or_true]
      exact ⟨⟨h.length, h.qh, h.queued⟩, rfl⟩
    · rw [if_neg hb, Bool.eq_false_iff.2 hb, Bool.or_false]
      exact ⟨h, rfl⟩
  · rw [if_neg hcap, if_pos (hbelow.2 hcap)]
    exact foldl_hopVisit hu _ hrow h

lemma hopLoop_eq {nbrs rows : ℕ → List ℕ} (hrows : ∀ u < n, rows u = nbrs u)
    (hn : ∀ u, ∀ v ∈ nbrs u, v < n) (maxDepth : ℤ) (fuel : ℕ) (h : HopWf n st) {s : Hops.Search ℕ}
    (hs : Hops.run nbrs (some maxDepth.toNat) fuel st.search = some s) :
    ∃ st', hopLoop rows maxDepth fuel st = some st' ∧ st'.hop.length = n ∧ st'.search = s := by
  induction fuel generalizing st with
  | zero =>
    rw [hopLoop]
    split_ifs with hqh
    · rw [HopState.search, List.drop_eq_getElem_cons hqh] at hs
      cases hs
    · refine ⟨st, rfl, h.length, ?_⟩
      rw [HopState.search, List.drop_eq_nil_of_le (not_lt.1 hqh)] at hs ⊢
      exact Option.some.inj hs
  | succ fuel ih =>
    rw [hopLoop]
    split_ifs with hqh
    · rw [List.getD_eq_getElem _ _ hqh]
      obtain ⟨hlt, hpos⟩ := h.queued _ (List.getElem_mem hqh)
      have hwf : HopWf n { st with qh := st.qh + 1 } := ⟨h.length, hqh, h.queued⟩
      obtain ⟨hwf', hsearch⟩ := search_hopExpand (hn _) hwf hpos maxDepth
      dsimp only
      rw [hrows _ hlt]
      refine ih hwf' ?_
      rw [hsearch]
      rw [HopState.search, List.drop_eq_getElem_cons hqh, Hops.run] at hs
      exact hs
    · refine ⟨st, rfl, h.length, ?_⟩
      rw [HopState.search, List.drop_eq_nil_of_le (not_lt.1 hqh)] at hs ⊢
      exact Option.some.inj hs

end Search

section Report

lemma foldl_reportHop (forward : Bool) (hop : List ℤ) (l : List ℕ) (st : DtWalk × Bool) :
    (l.foldl (reportHop forward hop) st).1.steps =
      st.1.steps ++ l.filter (fun k => 0 ≤ hop.getD k (-1)) ∧
    (l.foldl (reportHop forward hop) st).1.depth =
      st.1.depth ++ (l.filter fun k => 0 ≤ hop.getD k (-1)).map
        (fun k => signedHop forward (hop.getD k (-1))) ∧
    (l.foldl (reportHop forward hop) st).1.bounded = st.1.bounded := by
  induction l generalizing st with
  | nil => simp
  | cons k l ih =>
    rw [List.foldl_cons]
    obtain ⟨h1, h2, h3⟩ := ih (reportHop forward hop st k)
    rw [h1, h2, h3]
    by_cases hk : hop.getD k (-1) < 0
    · have hskip : reportHop forward hop st k = st := by
        rw [reportHop]
        exact if_pos hk
      rw [hskip, List.filter_cons_of_neg (by simpa using hk)]
      exact ⟨rfl, rfl, rfl⟩
    · have hstep : (reportHop forward hop st k).1.steps = st.1.steps ++ [k] ∧
          (reportHop forward hop st k).1.depth =
            st.1.depth ++ [signedHop forward (hop.getD k (-1))] ∧
          (reportHop forward hop st k).1.bounded = st.1.bounded := by
        rw [reportHop]
        simp only [hk, if_false]
        split_ifs <;> exact ⟨rfl, rfl, rfl⟩
      obtain ⟨g1, g2, g3⟩ := hstep
      rw [g1, g2, g3, List.filter_cons_of_pos (by simpa using hk), List.map_cons, List.append_assoc,
        List.append_assoc]
      exact ⟨rfl, rfl, rfl⟩

/-- The reported range covers the reported depths. -/
lemma reportHop_range (forward : Bool) (hop : List ℤ) (l : List ℕ) {st : DtWalk × Bool}
    (hfirst : st.2 = true → st.1.depth = [])
    (hst : ∀ d ∈ st.1.depth, st.1.depthMin ≤ d ∧ d ≤ st.1.depthMax) :
    ∀ d ∈ (l.foldl (reportHop forward hop) st).1.depth,
      (l.foldl (reportHop forward hop) st).1.depthMin ≤ d ∧
        d ≤ (l.foldl (reportHop forward hop) st).1.depthMax := by
  induction l generalizing st with
  | nil => exact hst
  | cons k l ih =>
    rw [List.foldl_cons]
    apply ih
    · rw [reportHop]
      dsimp only
      split_ifs
      · exact hfirst
      · exact fun h => h.elim
      · exact fun h => h.elim
    · rw [reportHop]
      dsimp only
      generalize signedHop forward (hop.getD k (-1)) = e
      split_ifs with hk hf
      · exact hst
      · rw [hfirst hf]
        intro d hd
        rw [List.nil_append, List.mem_singleton] at hd
        rw [hd]
        exact ⟨le_rfl, le_rfl⟩
      · intro d hd
        rcases List.mem_append.1 hd with hd | hd
        · exact ⟨(min_le_left _ _).trans (hst d hd).1, (hst d hd).2.trans (le_max_left _ _)⟩
        · rw [List.mem_singleton.1 hd]
          exact ⟨min_le_right _ _, le_max_right _ _⟩

end Report

section Exact

/-- The hop distance of a recorded step from a recorded origin -/
def HopDist (edges : List DtEdge) (nsteps origin : ℕ) (forward : Bool) (k d : ℕ) : Prop :=
  origin < nsteps ∧ Hops.IsDist (hopNbrs edges nsteps forward) origin k d

structure WalkExact (edges : List DtEdge) (nsteps origin : ℕ) (forward : Bool) (maxDepth : ℤ)
    (w : DtWalk) : Prop where
  ascending : w.steps.Pairwise (· < ·)
  parallel : w.depth.length = w.steps.length
  depth : ∀ k d, (k, d) ∈ w.steps.zip w.depth →
    ∃ h : ℕ, HopDist edges nsteps origin forward k h ∧ d = signedHop forward h
  steps : ∀ k, k ∈ w.steps ↔
    ∃ h : ℕ, HopDist edges nsteps origin forward k h ∧ (h : ℤ) ≤ maxDepth
  bounded : w.bounded = true ↔
    ∃ k, ∃ h : ℕ, HopDist edges nsteps origin forward k h ∧ maxDepth < h

variable {edges : List DtEdge} {nsteps origin : ℕ} {forward : Bool} {maxDepth : ℤ}

lemma dtWalkDepth_eq_none (ho : origin < nsteps) (h : 2 ^ 32 ≤ storedDtEdges edges nsteps) :
    dtWalkDepth edges nsteps origin forward maxDepth = none := by
  rw [← inRange_dtEnds edges nsteps forward] at h
  simp only [dtWalkDepth, if_neg (not_le.mpr ho), buildAdjacency,
    Csr.build_eq_none (Nat.two_pow_pos 32) h, Option.bind_eq_bind, Option.bind_none]

lemma hopDist_start (ho : origin < nsteps) :
    HopState.search ⟨(List.replicate nsteps (-1)).set origin 0, [origin], 0, false⟩ =
      Hops.start origin := by
  rw [HopState.search, Hops.start]
  congr 1
  funext k
  have hlen : origin < (List.replicate nsteps (-1 : ℤ)).length := by
    rw [List.length_replicate]
    exact ho
  rw [hopDist, getD_set_hop hlen]
  by_cases hk : k = origin
  · simp [hk]
  · simp [hk]

/-- Where the adjacency is built, the walk has the hop distances up to the limit. -/
lemma dtWalkDepth_spec (forward : Bool) (maxDepth : ℤ) (ho : origin < nsteps)
    (h : storedDtEdges edges nsteps < 2 ^ 32) :
    ∃ w hop, dtWalkDepth edges nsteps origin forward maxDepth = some w ∧
      w.steps = (List.range nsteps).filter (fun k => 0 ≤ hop.getD k (-1)) ∧
      w.depth = w.steps.map (fun k => signedHop forward (hop.getD k (-1))) ∧
      (∀ k d, hopDist hop k = some d ↔ Hops.IsDist (hopNbrs edges nsteps forward) origin k d ∧
        d ≤ maxDepth.toNat) ∧
      (w.bounded = true ↔
        ∃ k d, Hops.IsDist (hopNbrs edges nsteps forward) origin k d ∧ maxDepth.toNat < d) := by
  rw [← inRange_dtEnds edges nsteps forward] at h
  obtain ⟨adj, hadj, hrows⟩ := Csr.build_spec h
  have hn : ∀ u, ∀ v ∈ hopNbrs edges nsteps forward u, v < nsteps :=
    fun u v hv => (Csr.mem_targets.mp hv).2.2
  obtain ⟨s, hrun, hinv, hq⟩ := Hops.run_start (some maxDepth.toNat)
    (Finset.mem_range.2 ho) (fun k _ b hb => Finset.mem_range.2 (hn k b hb))
    (Finset.card_range nsteps).le
  rw [← hopDist_start ho] at hrun
  have hwf : HopWf nsteps ⟨(List.replicate nsteps (-1)).set origin 0, [origin], 0, false⟩ := by
    refine ⟨by simp, Nat.zero_le _, fun u hu => ?_⟩
    rw [List.mem_singleton.1 hu, getD_set_hop (by simpa using ho), if_pos rfl]
    exact ⟨ho, le_rfl⟩
  obtain ⟨st, hloop, -, hsearch⟩ := hopLoop_eq hrows hn maxDepth nsteps hwf hrun
  obtain ⟨h1, h2, h3⟩ := foldl_reportHop forward st.hop (List.range nsteps)
    ({ bounded := st.bounded }, true)
  rw [List.nil_append] at h1 h2
  have hdist : hopDist st.hop = s.dist := congrArg Hops.Search.dist hsearch
  have hbounded : st.bounded = s.bounded := congrArg Hops.Search.bounded hsearch
  refine ⟨_, st.hop, ?_, h1, ?_, ?_, ?_⟩
  · simp only [dtWalkDepth, if_neg (not_le.mpr ho), buildAdjacency, hadj, hloop,
      Option.bind_eq_bind, Option.bind_some, Option.pure_def]
  · rw [h1, h2]
  · intro k d
    rw [hdist, hinv.dist_iff hq]
    simp
  · rw [h3, hbounded, hinv.bounded_iff hq]
    simp

/-- `depth_min` and `depth_max` enclose the reported depths. -/
theorem dtWalkDepth_range {w : DtWalk}
    (h : dtWalkDepth edges nsteps origin forward maxDepth = some w) :
    ∀ d ∈ w.depth, w.depthMin ≤ d ∧ d ≤ w.depthMax := by
  rw [dtWalkDepth] at h
  split_ifs at h
  · cases h
    exact fun d hd => absurd hd List.not_mem_nil
  · simp only [Option.bind_eq_bind, Option.bind_eq_some_iff, Option.pure_def] at h
    obtain ⟨adj, -, st, -, h⟩ := h
    cases h
    exact reportHop_range _ _ _ (fun _ => rfl) fun d hd => absurd hd List.not_mem_nil

lemma HopDist.unique {k d d' : ℕ} (h : HopDist edges nsteps origin forward k d)
    (h' : HopDist edges nsteps origin forward k d') : d = d' :=
  h.2.unique h'.2

lemma walk_lt {k d : ℕ} (ho : origin < nsteps)
    (h : Hops.Walk (hopNbrs edges nsteps forward) origin d k) : k < nsteps := by
  cases d with
  | zero =>
    cases h
    exact ho
  | succ d =>
    obtain ⟨a, -, hk⟩ := h
    exact (Csr.mem_targets.mp hk).2.2

lemma walkExact_empty (ho : nsteps ≤ origin) :
    WalkExact edges nsteps origin forward maxDepth {} := by
  have hno : ∀ k d, ¬ HopDist edges nsteps origin forward k d := fun k d h => by
    have := h.1
    omega
  refine ⟨List.Pairwise.nil, rfl, fun k d h => absurd h List.not_mem_nil, fun k => ?_, ?_⟩
  · refine iff_of_false List.not_mem_nil ?_
    rintro ⟨d, hd, -⟩
    exact hno k d hd
  · refine iff_of_false Bool.false_ne_true ?_
    rintro ⟨k, d, hd, -⟩
    exact hno k d hd

/-- With a limit that is not negative and fewer than `2 ^ 32` stored edges the walk is exact. -/
lemma dtWalkDepth_exact (ho : origin < nsteps) (h : storedDtEdges edges nsteps < 2 ^ 32)
    (hmax : 0 ≤ maxDepth) :
    ∃ w, dtWalkDepth edges nsteps origin forward maxDepth = some w ∧
      WalkExact edges nsteps origin forward maxDepth w := by
  obtain ⟨w, hop, hw, hsteps, hdepth, hdist, hbounded⟩ :=
    dtWalkDepth_spec forward maxDepth ho h
  have hmet : ∀ k, 0 ≤ hop.getD k (-1) → hopDist hop k = some (hop.getD k (-1)).toNat :=
    fun k hk => if_neg (not_lt.2 hk)
  refine ⟨w, hw, ?_, by rw [hdepth, List.length_map], ?_, ?_, ?_⟩
  · rw [hsteps]
    exact List.pairwise_lt_range.filter _
  · intro k d hkd
    rw [hdepth, ← List.map_prod_left_eq_zip, List.mem_map] at hkd
    obtain ⟨k, hk, hkd⟩ := hkd
    cases hkd
    rw [hsteps, List.mem_filter, decide_eq_true_eq] at hk
    refine ⟨_, ⟨ho, ((hdist k _).1 (hmet k hk.2)).1⟩, ?_⟩
    rw [Int.toNat_of_nonneg hk.2]
  · intro k
    rw [hsteps, List.mem_filter, List.mem_range, decide_eq_true_eq]
    constructor
    · rintro ⟨-, hk⟩
      obtain ⟨h1, h2⟩ := (hdist k _).1 (hmet k hk)
      exact ⟨_, ⟨ho, h1⟩, by omega⟩
    · rintro ⟨d, ⟨-, hd⟩, hle⟩
      have hk := (hdist k d).2 ⟨hd, by omega⟩
      rw [hopDist] at hk
      split_ifs at hk with hneg
      exact ⟨walk_lt ho hd.1, not_lt.1 hneg⟩
  · rw [hbounded]
    constructor
    · rintro ⟨k, d, hd, hlt⟩
      exact ⟨k, d, ⟨ho, hd⟩, by omega⟩
    · rintro ⟨k, d, ⟨-, hd⟩, hlt⟩
      exact ⟨k, d, hd, by omega⟩

/-- `dt_walk_depth` reports the hop distances up to the limit just when the origin is not recorded,
or the limit is a number of hops and the 32-bit edge counters do not wrap. -/
theorem dt_walk_depth_exact_iff (edges : List DtEdge) (nsteps origin : ℕ) (forward : Bool)
    (maxDepth : ℤ) :
    (∃ w, dtWalkDepth edges nsteps origin forward maxDepth = some w ∧
      WalkExact edges nsteps origin forward maxDepth w) ↔
    nsteps ≤ origin ∨ (storedDtEdges edges nsteps < 2 ^ 32 ∧ 0 ≤ maxDepth) := by
  constructor
  · rintro ⟨w, hw, hexact⟩
    by_cases ho : nsteps ≤ origin
    · exact .inl ho
    rw [not_le] at ho
    have hstored : storedDtEdges edges nsteps < 2 ^ 32 := by
      by_contra hge
      rw [dtWalkDepth_eq_none ho (not_lt.1 hge)] at hw
      cases hw
    refine .inr ⟨hstored, ?_⟩
    -- the origin is always reported
    obtain ⟨w', hop, hw', hsteps, -, hdist, -⟩ :=
      dtWalkDepth_spec forward maxDepth ho hstored
    rw [hw] at hw'
    cases hw'
    have hzero : Hops.IsDist (hopNbrs edges nsteps forward) origin origin 0 :=
      ⟨rfl, fun _ _ => Nat.zero_le _⟩
    have hmem : origin ∈ w.steps := by
      have hk := (hdist origin 0).2 ⟨hzero, Nat.zero_le _⟩
      rw [hopDist] at hk
      split_ifs at hk with hneg
      rw [hsteps, List.mem_filter, List.mem_range, decide_eq_true_eq]
      exact ⟨ho, not_lt.1 hneg⟩
    obtain ⟨d, hd, hle⟩ := (hexact.steps origin).1 hmem
    rw [hd.unique ⟨ho, hzero⟩] at hle
    exact hle
  · rintro (ho | ⟨hstored, hmax⟩)
    · exact ⟨{}, if_pos ho, walkExact_empty ho⟩
    · by_cases ho : nsteps ≤ origin
      · exact ⟨{}, if_pos ho, walkExact_empty ho⟩
      · exact dtWalkDepth_exact (not_le.1 ho) hstored hmax

/-- `2 ^ 32` copies of the edge from step 0 to itself -/
theorem dt_walk_depth_wraps_on_repeated_edge :
    ¬ ∃ w, dtWalkDepth (List.replicate (2 ^ 32) ⟨0, 0⟩) 1 0 true 1 = some w ∧
      WalkExact (List.replicate (2 ^ 32) ⟨0, 0⟩) 1 0 true 1 w := by
  rintro ⟨w, hw, -⟩
  rw [dtWalkDepth_eq_none (by decide)] at hw
  · cases hw
  · rw [storedDtEdges, List.countP_replicate]
    decide

end Exact

end AsmTest.Dataflow
