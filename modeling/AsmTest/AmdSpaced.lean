import AsmTest.AmdStitch

/-!
# Stitching spaced windows

With a sample period above one each window brings several new edges, and how many is not known. The
stitcher takes the smallest shift that fits. In a loop a smaller one may fit too, and then edges are
lost without a gap.
-/

namespace AsmTest.Hwtrace

open Code

section Spec

/-- The samples at `p`, `p + P`, …, as many as `n` -/
def spacedFrom (es : List BranchEntry) (D P : ℕ) : ℕ → ℕ → List (List BranchEntry)
  | _, 0 => []
  | p, n + 1 => sampleAt es D p :: spacedFrom es D P (p + P) n

/-- Stitching the `n` windows that end at `P`, `2 * P`, … leaves a gap or gives the edges up to the
last sample. -/
def NeverMisStitched (c : Code) (base : ℕ) (es : List BranchEntry) (D P n cap : ℕ) : Prop :=
  (amdStitch c base (spacedFrom es D P P n) cap).2 = true ∨
    (amdStitch c base (spacedFrom es D P P n) cap).1.map BranchEntry.edge =
      ((es.take (n * P)).map BranchEntry.edge).reverse

/-- The edges repeat with the period `P - d` up to `p + P - d`, for as long as a window shifted by
`d` overlaps what comes before `p`; and the splice decodes. -/
def Misfits (c : Code) (base : ℕ) (es : List BranchEntry) (D P p d : ℕ) : Prop :=
  D ≤ p + d ∧
    (between es (p + P - D) (p + P - d)).map BranchEntry.edge =
      (between es (p + d - D) p).map BranchEntry.edge ∧
    amdSpanDecodable c base (es[p - 1]?.elim 0 BranchEntry.toAddr)
      (es[p + P - d]?.elim 0 BranchEntry.fromAddr) = true

end Spec

variable {c : Code} {base : ℕ} {es out s r : List BranchEntry} {D P p d n cap : ℕ}

section Shift

/-- The ends of a list and of its suffix are the same. -/
lemma drop_of_suffix {α : Type*} {l l' : List α} (h : l <:+ l') {j : ℕ} (hj : j ≤ l.length) :
    l'.drop (l'.length - j) = l.drop (l.length - j) := by
  obtain ⟨pre, rfl⟩ := h
  rw [List.length_append, List.drop_append, List.drop_eq_nil_of_le (by omega), List.nil_append]
  congr 1
  omega

/-- The older part of a sample -/
lemma take_reverse_sampleAt (hp : p ≤ es.length) (hd : d ≤ D) (hdp : d ≤ p) :
    (sampleAt es D p).reverse.take ((sampleAt es D p).length - d) = between es (p - D) (p - d) := by
  rw [length_sampleAt hp, sampleAt, List.reverse_reverse, between, List.take_drop, List.take_take,
    between]
  congr 2
  omega

/-- The edge that a shift by `d` appends first -/
lemma getElem?_sampleAt (hp : p ≤ es.length) (hd : 1 ≤ d) (hdD : d ≤ D) (hdp : d ≤ p) :
    (sampleAt es D p)[d - 1]? = es[p - d]? := by
  have hlen : (between es (p - D) p).length = p - (p - D) := length_between hp
  rw [sampleAt, List.getElem?_reverse (by omega), hlen, between, List.getElem?_drop,
    List.getElem?_take, if_pos (by omega)]
  congr 1
  omega

lemma bestShift_le (hd : 1 ≤ d) (hs : d < s.length) (h : shiftFits c base out s d = true) :
    ∃ e ≤ d, bestShift c base out s = some e ∧
      ∀ e', 1 ≤ e' → e' < e → shiftFits c base out s e' = false := by
  cases hbest : bestShift c base out s with
  | none =>
    have hnone := List.find?_eq_none.1 hbest d (List.mem_range'_1.2 (by omega))
    exact absurd h hnone
  | some e =>
    obtain ⟨-, -, hmin⟩ := List.find?_range'_eq_some.1 hbest
    have hmin' : ∀ e', 1 ≤ e' → e' < e → shiftFits c base out s e' = false := by
      intro e' he' hlt
      have := hmin e' he' hlt
      rwa [Bool.not_eq_true_eq_eq_false] at this
    refine ⟨e, ?_, rfl, hmin'⟩
    by_contra hlt
    rw [hmin' d hd (not_le.1 hlt)] at h
    cases h

end Shift

section Fits

/-- Behind anything that ends with the sample before, the shift by the period fits. -/
lemma shiftFits_period (hP : 1 ≤ P) (hD : P < D) (hp : P ≤ p) (hlen : p + P ≤ es.length)
    (hchain : es.IsChain (Splices c base))
    (hsuf : BranchEntry.edges (sampleAt es D p) <:+ out.map BranchEntry.edge) :
    shiftFits c base out (sampleAt es D (p + P)) P = true := by
  have hwin : BranchEntry.edges (sampleAt es D p) =
      (between es (p - D) p).map BranchEntry.edge := by
    rw [BranchEntry.edges, sampleAt, List.reverse_reverse]
  have hwinLen : (between es (p - D) p).length = p - (p - D) := length_between (by omega)
  have hnextLen : (sampleAt es D (p + P)).length = p + P - (p + P - D) := length_sampleAt hlen
  have houtLen := hsuf.length_le
  rw [hwin, List.length_map, List.length_map, hwinLen] at houtLen
  rw [hwin] at hsuf
  obtain ⟨a, ha⟩ : ∃ a, es[p - 1]? = some a :=
    ⟨_, List.getElem?_eq_getElem (by omega : p - 1 < es.length)⟩
  obtain ⟨b, hb⟩ : ∃ b, es[p]? = some b := ⟨_, List.getElem?_eq_getElem (by omega : p < es.length)⟩
  have hwinLast : ((between es (p - D) p).map BranchEntry.edge).getLast? = some a.edge := by
    rw [List.getLast?_map, List.getLast?_eq_getElem?, hwinLen, between, List.getElem?_drop,
      List.getElem?_take, if_pos (by omega), show p - D + (p - (p - D) - 1) = p - 1 by omega, ha]
    rfl
  have hlast : (out.map BranchEntry.edge).getLast? = some a.edge := by
    obtain ⟨pre, hpre⟩ := hsuf
    rw [← hpre, List.getLast?_append, hwinLast]
    rfl
  have hto : out.getLast?.elim 0 BranchEntry.toAddr = a.toAddr := by
    rw [List.getLast?_map, Option.map_eq_some_iff] at hlast
    obtain ⟨x, hx, hxa⟩ := hlast
    rw [hx]
    exact (Prod.ext_iff.1 hxa).2
  have hnew : (sampleAt es D (p + P))[P - 1]? = some b := by
    rw [getElem?_sampleAt hlen hP hD.le (by omega), Nat.add_sub_cancel, hb]
  have hsplice : amdSpanDecodable c base a.toAddr b.fromAddr = true := by
    have hget := List.isChain_iff_getElem.1 hchain (p - 1) (by omega)
    have ha' := (List.getElem?_eq_some_iff.1 ha).2
    have hb' := (List.getElem?_eq_some_iff.1 hb).2
    have hidx : es[p - 1 + 1] = b := by
      rw [← hb']
      congr 1
      omega
    rw [ha', hidx] at hget
    exact hget
  rw [shiftFits, decide_eq_true_iff]
  refine ⟨by omega, ?_, ?_⟩
  · rw [take_reverse_sampleAt hlen hD.le (by omega), Nat.add_sub_cancel, hnextLen, List.map_drop]
    have hdrop := drop_of_suffix hsuf (j := p + P - (p + P - D) - P) (by
      rw [List.length_map, hwinLen]
      omega)
    rw [List.length_map] at hdrop
    rw [hdrop, List.length_map, hwinLen, ← List.map_drop, between, between, List.drop_drop]
    congr 2
    omega
  · rw [hto, hnew]
    exact hsplice

/-- Behind the true edges, a smaller shift fits exactly when the edges repeat. -/
lemma shiftFits_take_iff (hD : P < D) (hp : P ≤ p) (hlen : p + P ≤ es.length) (hd : 1 ≤ d)
    (hdP : d < P) :
    shiftFits c base (es.take p) (sampleAt es D (p + P)) d = true ↔
      Misfits c base es D P p d := by
  have hnextLen : (sampleAt es D (p + P)).length = p + P - (p + P - D) := length_sampleAt hlen
  have houtLen : (es.take p).length = p := by rw [List.length_take, min_eq_left (by omega)]
  have hlast : (es.take p).getLast? = es[p - 1]? := by
    rw [List.getLast?_eq_getElem?, houtLen, List.getElem?_take, if_pos (by omega)]
  rw [shiftFits, decide_eq_true_iff, Misfits, hlast,
    getElem?_sampleAt hlen hd (by omega) (by omega),
    take_reverse_sampleAt hlen (by omega) (by omega), houtLen, hnextLen]
  by_cases hroom : D ≤ p + d
  · have hle : p + P - (p + P - D) - d ≤ p := by omega
    have hdrop : (es.take p).drop (p - (p + P - (p + P - D) - d)) = between es (p + d - D) p := by
      rw [between]
      congr 1
      omega
    rw [hdrop, and_iff_right hle, and_iff_right hroom]
  · have hle : ¬p + P - (p + P - D) - d ≤ p := by omega
    rw [iff_false_left fun h => hle h.1]
    exact fun h => hroom h.1

/-- Taking the period keeps the true edges. -/
lemma take_append_sampleAt (hD : P < D) (hlen : p + P ≤ es.length) :
    es.take p ++ ((sampleAt es D (p + P)).take P).reverse = es.take (p + P) := by
  have hnew : ((sampleAt es D (p + P)).take P).reverse = between es p (p + P) := by
    rw [List.reverse_take, length_sampleAt hlen, sampleAt, List.reverse_reverse, between,
      List.drop_drop, between]
    congr 1
    omega
  have htake : es.take p = (es.take (p + P)).take p := by
    rw [List.take_take, min_eq_left (Nat.le_add_right p P)]
  rw [hnew, between, htake, List.take_append_drop]

end Fits

section Loop

lemma sampleAt_spaced_ne_nil (hP : 1 ≤ P) (hD : P < D) (hlen : p + P ≤ es.length) :
    sampleAt es D (p + P) ≠ [] :=
  sampleAt_ne_nil (by omega) (by omega) hlen

lemma edges_suffix_take :
    BranchEntry.edges (sampleAt es D p) <:+ (es.take p).map BranchEntry.edge := by
  rw [BranchEntry.edges, sampleAt, List.reverse_reverse, between]
  exact (List.drop_suffix _ _).map _

/-- The shift that is taken behind something that ends with the sample before -/
lemma bestShift_spaced (hP : 1 ≤ P) (hD : P < D) (hp : P ≤ p) (hlen : p + P ≤ es.length)
    (hchain : es.IsChain (Splices c base))
    (hsuf : BranchEntry.edges (sampleAt es D p) <:+ out.map BranchEntry.edge) :
    ∃ d ≤ P, bestShift c base out (sampleAt es D (p + P)) = some d ∧
      ∀ e, 1 ≤ e → e < d → shiftFits c base out (sampleAt es D (p + P)) e = false := by
  refine bestShift_le hP ?_ (shiftFits_period hP hD hp hlen hchain hsuf)
  rw [length_sampleAt hlen]
  omega

lemma appendEdges_room {new : List BranchEntry} (h : out.length + new.length ≤ cap) :
    appendEdges cap out false new = (out ++ new, false) := by
  induction new generalizing out with
  | nil => rw [appendEdges, List.append_nil]
  | cons e new ih =>
    rw [List.length_cons] at h
    rw [appendEdges, if_neg (by omega), ih, List.append_assoc, List.singleton_append]
    rw [List.length_append, List.length_singleton]
    omega

/-- A window for which there is room -/
lemma stitchLoop_room {samples : List (List BranchEntry)} (hd : bestShift c base out s = some d)
    (h : out.length + d ≤ cap) :
    stitchLoop c base cap out false (s :: samples) =
      stitchLoop c base cap (out ++ (s.take d).reverse) false samples := by
  obtain ⟨-, hlt, -⟩ := bestShift_some hd
  have hs : s ≠ [] := by
    rintro rfl
    exact absurd hlt (Nat.not_lt_zero d)
  rw [stitchLoop, if_neg hs, hd]
  dsimp only
  rw [appendEdges_room]
  rw [List.length_reverse, List.length_take, min_eq_left hlt.le]
  exact h

/-- Where no smaller shift fits, a loop without a gap gives the true edges. -/
lemma stitchLoop_spaced_exact (hP : 1 ≤ P) (hD : P < D) (hp : P ≤ p)
    (hlen : p + n * P ≤ es.length) (hchain : es.IsChain (Splices c base))
    (hno : ∀ j < n, ∀ d, 1 ≤ d → d < P → ¬Misfits c base es D P (p + j * P) d) {gap : Bool}
    (h : stitchLoop c base cap (es.take p) gap (spacedFrom es D P (p + P) n) = (r, false)) :
    r = es.take (p + n * P) := by
  induction n generalizing p gap with
  | zero =>
    rw [Nat.zero_mul, Nat.add_zero]
    exact (Prod.ext_iff.1 h).1.symm
  | succ n ih =>
    rw [Nat.succ_mul] at hlen
    have hlen' : p + P ≤ es.length := by omega
    obtain ⟨d, hd, hrest⟩ := stitchLoop_cons (sampleAt_spaced_ne_nil hP hD hlen') h
    obtain ⟨d', hd', hbest, -⟩ :=
      bestShift_spaced hP hD hp hlen' hchain edges_suffix_take
    obtain rfl := Option.some.inj (hbest.symm.trans hd)
    obtain ⟨hpos, -, hfits⟩ := bestShift_some hbest
    have hperiod : d' = P := by
      by_contra hne
      have hlt : d' < P := by omega
      have hmis := (shiftFits_take_iff hD hp hlen' hpos hlt).1 hfits
      have hnone := hno 0 (Nat.succ_pos n) d' hpos hlt
      rw [Nat.zero_mul] at hnone
      exact hnone hmis
    rw [hperiod, take_append_sampleAt hD hlen'] at hrest
    have hstep := ih (by omega) (by omega) (fun j hj e he heP => ?_) hrest
    · rw [hstep, Nat.succ_mul]
      congr 1
      omega
    · have hlater := hno (j + 1) (by omega) e he heP
      rwa [Nat.succ_mul, show p + (j * P + P) = p + P + j * P by omega] at hlater

/-- With room for them, the windows never bring more edges than there are, and leave no gap. -/
lemma stitchLoop_spaced_le (hP : 1 ≤ P) (hD : P < D) (hp : P ≤ p)
    (hlen : p + n * P ≤ es.length) (hchain : es.IsChain (Splices c base))
    (hcap : p + n * P ≤ cap) (hout : out.length ≤ p)
    (hsuf : BranchEntry.edges (sampleAt es D p) <:+ out.map BranchEntry.edge) :
    ∃ r, stitchLoop c base cap out false (spacedFrom es D P (p + P) n) = (r, false) ∧
      r.length ≤ out.length + n * P := by
  induction n generalizing p out with
  | zero => exact ⟨out, rfl, Nat.le_add_right _ _⟩
  | succ n ih =>
    rw [Nat.succ_mul] at hlen hcap ⊢
    have hlen' : p + P ≤ es.length := by omega
    obtain ⟨d, hd, hbest, -⟩ := bestShift_spaced hP hD hp hlen' hchain hsuf
    obtain ⟨-, hlt, hfits⟩ := bestShift_some hbest
    have hnew : (out ++ ((sampleAt es D (p + P)).take d).reverse).length = out.length + d := by
      rw [List.length_append, List.length_reverse, List.length_take, min_eq_left hlt.le]
    obtain ⟨r, hr, hle⟩ := ih (by omega) (by omega) (by omega) (by omega)
      (shiftFits_suffix hfits)
    refine ⟨r, ?_, by omega⟩
    rw [spacedFrom, stitchLoop_room hbest (by omega)]
    exact hr

/-- With room, the true edges come out only where no smaller shift fits. -/
lemma stitchLoop_spaced_noMisfit (hP : 1 ≤ P) (hD : P < D) (hp : P ≤ p)
    (hlen : p + n * P ≤ es.length) (hchain : es.IsChain (Splices c base))
    (hcap : p + n * P ≤ cap) :
    ∃ r, stitchLoop c base cap (es.take p) false (spacedFrom es D P (p + P) n) = (r, false) ∧
      (r.length = p + n * P →
        ∀ j < n, ∀ d, 1 ≤ d → d < P → ¬Misfits c base es D P (p + j * P) d) := by
  induction n generalizing p with
  | zero => exact ⟨es.take p, rfl, fun _ j hj => absurd hj (Nat.not_lt_zero j)⟩
  | succ n ih =>
    rw [Nat.succ_mul] at hlen hcap ⊢
    have hlen' : p + P ≤ es.length := by omega
    have houtLen : (es.take p).length = p := by rw [List.length_take, min_eq_left (by omega)]
    obtain ⟨d, hd, hbest, hmin⟩ := bestShift_spaced hP hD hp hlen' hchain edges_suffix_take
    obtain ⟨-, hlt, hfits⟩ := bestShift_some hbest
    rw [spacedFrom, stitchLoop_room hbest (by omega)]
    rcases hd.eq_or_lt with rfl | hless
    · obtain ⟨r, hr, hno⟩ := @ih (p + d) (by omega) (by omega) (by omega)
      rw [take_append_sampleAt hD hlen']
      refine ⟨r, hr, fun hrlen j hj e he heP => ?_⟩
      cases j with
      | zero =>
        rw [Nat.zero_mul, Nat.add_zero, ← shiftFits_take_iff hD hp hlen' he heP, hmin e he heP]
        exact Bool.false_ne_true
      | succ j =>
        rw [Nat.succ_mul, show p + (j * d + d) = p + d + j * d by omega]
        exact hno (by omega) j (by omega) e he heP
    · -- the window brings too few, and no later one brings more than the period
      have hnew : (es.take p ++ ((sampleAt es D (p + P)).take d).reverse).length = p + d := by
        rw [List.length_append, houtLen, List.length_reverse, List.length_take, min_eq_left hlt.le]
      obtain ⟨r, hr, hle⟩ := @stitchLoop_spaced_le c base es _ D P (p + P) n cap hP hD (by omega)
        (by omega) hchain (by omega) (by omega) (shiftFits_suffix hfits)
      exact ⟨r, hr, fun hrlen => by omega⟩

end Loop

section Spaced

/-- The first window is the edges up to its position. -/
lemma sampleAt_first (hD : P < D) : (sampleAt es D P).reverse = es.take P := by
  rw [sampleAt, List.reverse_reverse, between, Nat.sub_eq_zero_of_le hD.le, List.drop_zero]

lemma amdStitch_spaced_succ (hD : P < D) (hcap : 0 < cap) :
    amdStitch c base (spacedFrom es D P P (n + 1)) cap =
      ((stitchLoop c base cap ((es.take P).take cap) (cap < (es.take P).length)
        (spacedFrom es D P (P + P) n)).1.reverse,
      (stitchLoop c base cap ((es.take P).take cap) (cap < (es.take P).length)
        (spacedFrom es D P (P + P) n)).2) := by
  have hlen : (sampleAt es D P).length = (es.take P).length := by
    rw [← sampleAt_first hD, List.length_reverse]
  rw [spacedFrom, amdStitch, if_neg (by omega), sampleAt_first hD, hlen]

/-- Without a misfit the result is the edges, or a gap. -/
lemma neverMisStitched_of_noMisfit (hP : 1 ≤ P) (hD : P < D) (hlen : n * P ≤ es.length)
    (hchain : es.IsChain (Splices c base)) (hcap : 0 < cap)
    (hno : ∀ k d, 1 ≤ k → k < n → 1 ≤ d → d < P → ¬Misfits c base es D P (k * P) d) :
    NeverMisStitched c base es D P n cap := by
  cases n with
  | zero =>
    rw [NeverMisStitched, Nat.zero_mul]
    exact Or.inr rfl
  | succ n =>
    rw [NeverMisStitched, amdStitch_spaced_succ hD hcap]
    rw [Nat.succ_mul] at hlen
    generalize hr : stitchLoop c base cap ((es.take P).take cap) (cap < (es.take P).length)
      (spacedFrom es D P (P + P) n) = r
    by_cases hgap : r.2 = true
    · exact Or.inl hgap
    · right
      have hloop := hr.trans (Prod.ext rfl (Bool.eq_false_iff.2 hgap) : r = (r.1, false))
      have hseed := stitchLoop_gap hloop
      rw [decide_eq_false_iff_not, not_lt] at hseed
      rw [List.take_of_length_le hseed] at hloop
      have hexact := stitchLoop_spaced_exact hP hD le_rfl (by omega) hchain (fun j hj d hd hdP => by
        have hnone := hno (j + 1) d (by omega) (by omega) hd hdP
        rwa [Nat.succ_mul, Nat.add_comm] at hnone) hloop
      rw [hexact, List.map_reverse, Nat.succ_mul, Nat.add_comm]

/-- With room for all edges they come out, without a gap, only where there is no misfit. -/
lemma noMisfit_of_neverMisStitched (hP : 1 ≤ P) (hD : P < D) (hlen : n * P ≤ es.length)
    (hchain : es.IsChain (Splices c base)) (hcap : n * P ≤ cap)
    (h : NeverMisStitched c base es D P n cap) :
    ∀ k d, 1 ≤ k → k < n → 1 ≤ d → d < P → ¬Misfits c base es D P (k * P) d := by
  cases n with
  | zero => exact fun k d _ hk => absurd hk (Nat.not_lt_zero k)
  | succ n =>
    rw [Nat.succ_mul] at hlen hcap
    have hfirst : (es.take P).length = P := by rw [List.length_take, min_eq_left (by omega)]
    obtain ⟨r, hr, hno⟩ := @stitchLoop_spaced_noMisfit c base es D P P n cap hP hD le_rfl (by omega)
      hchain (by omega)
    have hseed : decide (cap < (es.take P).length) = false := by
      rw [decide_eq_false_iff_not, hfirst]
      omega
    rw [NeverMisStitched, amdStitch_spaced_succ hD (by omega), hseed,
      List.take_of_length_le (by omega), hr] at h
    rcases h with hgap | hedges
    · cases hgap
    · have hrlen := congrArg List.length hedges
      rw [List.length_map, List.length_reverse, List.length_reverse, List.length_map,
        List.length_take, Nat.succ_mul, min_eq_left hlen] at hrlen
      dsimp only at hrlen
      intro k d hk hkn hd hdP
      have hnone := hno (by omega) (k - 1) (by omega) d hd hdP
      rwa [Nat.add_comm, ← Nat.succ_mul, Nat.succ_eq_add_one, Nat.sub_add_cancel hk] at hnone

/-- For the branches of an execution: stitched with room for all, the windows give the edges or a
gap exactly when at no sample a smaller shift fits; and with any room at all when none does. -/
theorem amdStitch_spaced_iff
    (hjump : ∀ off, c.disasIsUncondJump off = true → c.disasIsBranch off = true)
    (hes : ∃ pc steps fin, Exec c base pc steps fin ∧
      es.map BranchEntry.edge = takenBranches steps)
    (hP : 1 ≤ P) (hD : P < D) (hlen : n * P ≤ es.length) (cap : ℕ) :
    (n * P ≤ cap → (NeverMisStitched c base es D P n cap ↔
      ∀ k d, 1 ≤ k → k < n → 1 ≤ d → d < P → ¬Misfits c base es D P (k * P) d)) ∧
    (0 < cap → (∀ k d, 1 ≤ k → k < n → 1 ≤ d → d < P → ¬Misfits c base es D P (k * P) d) →
      NeverMisStitched c base es D P n cap) := by
  obtain ⟨pc, steps, fin, hexec, hes⟩ := hes
  have hchain : es.IsChain (Splices c base) := by
    have h := takenBranches_isChain hjump hexec
    rwa [← hes, List.isChain_map] at h
  refine ⟨fun hcap => ⟨noMisfit_of_neverMisStitched hP hD hlen hchain hcap, fun hno => ?_⟩,
    neverMisStitched_of_noMisfit hP hD hlen hchain⟩
  cases n with
  | zero =>
    rw [NeverMisStitched, Nat.zero_mul]
    exact Or.inr rfl
  | succ n =>
    rw [Nat.succ_mul] at hcap
    exact neverMisStitched_of_noMisfit hP hD hlen hchain (by omega) hno

/-- A loop of an instruction and a branch back to it -/
def tightLoop : Code := unitCode 1 [.plain, .jcc 10]

/-- As many rounds of it -/
def tightLoopSteps : ℕ → List Step
  | 0 => []
  | n + 1 => ⟨10, 11, false⟩ :: ⟨11, 10, true⟩ :: tightLoopSteps n

/-- The branches taken in these rounds -/
def tightLoopEdges (n : ℕ) : List BranchEntry :=
  List.replicate n ⟨11, 10, false, 0⟩

/-- Before the windows are full, the period is the only shift. -/
theorem amdStitch_spaced_tightLoop :
    NeverMisStitched tightLoop 10 (tightLoopEdges 4) 4 2 2 4 := by
  refine ((amdStitch_spaced_iff (fun _ => unitCode_jump_isBranch)
    ⟨10, tightLoopSteps 4, 10, by decide, by decide⟩ (by decide) (by decide) (by decide) 4).1
      (by decide)).2 ?_
  intro k d hk hkn hd hdP hmis
  have hroom := hmis.1
  omega

/-- Then a shift of one fits as well: of six rounds five come out, without a gap. -/
theorem amdStitch_spaced_loses_rounds :
    Exec tightLoop 10 10 (tightLoopSteps 6) 10 ∧
      (tightLoopEdges 6).map BranchEntry.edge = takenBranches (tightLoopSteps 6) ∧
      amdStitch tightLoop 10 (spacedFrom (tightLoopEdges 6) 4 2 2 3) 100 =
        (tightLoopEdges 5, false) ∧
      ¬NeverMisStitched tightLoop 10 (tightLoopEdges 6) 4 2 3 100 := by
  refine ⟨by decide, by decide, by decide, ?_⟩
  rintro (hgap | hedges)
  · exact absurd hgap (by decide)
  · exact absurd hedges (by decide)

end Spaced

end AsmTest.Hwtrace
