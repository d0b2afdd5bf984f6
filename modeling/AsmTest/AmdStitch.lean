import Mathlib.Tactic
import Mathlib.Data.List.Basic
import AsmTest.AmdReplay
import AsmTest.Execution

/-!
# Stitching branch windows

Each sample holds the last taken branches, newest first. The stitcher merges the windows of
successive samples: it looks for the smallest shift at which a window overlaps what it has merged
so far, and takes it only if the code between the two branches it would splice decodes.
-/

namespace AsmTest.Hwtrace

open Code

/-- What `amd_edge_eq` compares -/
def BranchEntry.edge (e : BranchEntry) : ℕ × ℕ :=
  (e.fromAddr, e.toAddr)

section Model

variable (c : Code) (base : ℕ)

/-- The walk of `amd_span_decodable` from `o` to the source `fo`. A walk that uses up the guard
follows dropped jumps in a circle, which disproves nothing. -/
def spanLoop (fo : ℕ) : ℕ → ℕ → Bool
  | 0, _ => true
  | guard + 1, o =>
    if fo ≤ o then true
    else
      let l := (c.disasProbe o).len
      if l = 0 then false
      else
        match if c.disasIsUncondJump o then c.disasBranchTarget base o else none with
        | some tgt =>
          if ¬c.InRegion base tgt then true
          else if fo < tgt - base then false
          else spanLoop fo guard (tgt - base)
        | none => if fo < o + l then false else spanLoop fo guard (o + l)

def amdSpanDecodable (fromIp toIp : ℕ) : Bool :=
  if c.ptr = 0 ∨ c.len = 0 ∨ c.disasAvailable = false then true
  else if fromIp < base ∨ base + c.len ≤ fromIp ∨ toIp < base ∨ base + c.len < toIp then true
  else if toIp < fromIp then false
  else spanLoop c base (toIp - base) (c.len + 1) (fromIp - base)

/-- The window overlaps the merged edges when it is shifted by `d`, and the splice decodes. -/
def shiftFits (out s : List BranchEntry) (d : ℕ) : Bool :=
  s.length - d ≤ out.length ∧
    (s.reverse.take (s.length - d)).map BranchEntry.edge =
      (out.drop (out.length - (s.length - d))).map BranchEntry.edge ∧
    amdSpanDecodable c base (out.getLast?.elim 0 BranchEntry.toAddr)
      (s[d - 1]?.elim 0 BranchEntry.fromAddr)

/-- The smallest shift in `[1, m - 1]` that fits -/
def bestShift (out s : List BranchEntry) : Option ℕ :=
  (List.range' 1 (s.length - 1)).find? (shiftFits c base out s)

/-- The append loop; the flag is `*gap`. -/
def appendEdges (cap : ℕ) : List BranchEntry → Bool → List BranchEntry → List BranchEntry × Bool
  | out, gap, [] => (out, gap)
  | out, gap, e :: new =>
    if cap ≤ out.length then (out, true) else appendEdges cap (out ++ [e]) gap new

/-- The loop over the samples after the first, with the merged edges oldest first. -/
def stitchLoop (cap : ℕ) :
    List BranchEntry → Bool → List (List BranchEntry) → List BranchEntry × Bool
  | out, gap, [] => (out, gap)
  | out, gap, s :: samples =>
    if s = [] then stitchLoop cap out gap samples
    else
      match bestShift c base out s with
      | none => (out, true)
      | some d =>
        let r := appendEdges cap out gap (s.take d).reverse
        stitchLoop cap r.1 r.2 samples

/-- `asmtest_amd_stitch`: the merged edges, newest first, and `*gap`. -/
def amdStitch (samples : List (List BranchEntry)) (outCap : ℕ) : List BranchEntry × Bool :=
  match samples with
  | [] => ([], false)
  | s :: samples =>
    if outCap = 0 then ([], false)
    else
      let r := stitchLoop c base outCap (s.reverse.take outCap) (outCap < s.length) samples
      (r.1.reverse, r.2)

end Model

variable {c : Code} {base : ℕ}

section Sound

/-- The windows stand one after the other in the sequence, each one's last edge after the last edge
of the one before; both are oldest first. -/
def InOrder {α : Type*} (es : List α) : ℕ → List (List α) → Prop
  | _, [] => True
  | k, w :: ws =>
    (w = [] ∧ InOrder es k ws) ∨ ∃ e, k < e ∧ e ≤ es.length ∧ w <:+ es.take e ∧ InOrder es e ws

/-- A window, oldest first, as the merged sequence shows it -/
def BranchEntry.edges (s : List BranchEntry) : List (ℕ × ℕ) :=
  s.reverse.map BranchEntry.edge

variable {cap d : ℕ} {gap : Bool} {out new s r : List BranchEntry}

theorem appendEdges_ok (h : appendEdges cap out gap new = (r, false)) :
    gap = false ∧ r = out ++ new := by
  induction new generalizing out with
  | nil =>
    obtain ⟨hr, hgap⟩ := Prod.ext_iff.1 h
    exact ⟨hgap, hr.symm.trans (List.append_nil _).symm⟩
  | cons e new ih =>
    rw [appendEdges] at h
    by_cases hfull : cap ≤ out.length
    · rw [if_pos hfull] at h
      cases h
    · rw [if_neg hfull] at h
      obtain ⟨hgap, hr⟩ := ih h
      exact ⟨hgap, by rw [hr, List.append_assoc, List.singleton_append]⟩

theorem bestShift_some (h : bestShift c base out s = some d) :
    1 ≤ d ∧ d < s.length ∧ shiftFits c base out s d = true := by
  have hmem := List.mem_range'_1.1 (List.mem_of_find?_eq_some h)
  exact ⟨hmem.1, by omega, List.find?_some h⟩

/-- After a window is taken, it is the end of what is merged. -/
theorem shiftFits_suffix (h : shiftFits c base out s d = true) :
    BranchEntry.edges s <:+ (out ++ (s.take d).reverse).map BranchEntry.edge := by
  rw [shiftFits, decide_eq_true_iff] at h
  obtain ⟨-, hmatch, -⟩ := h
  have hnew : (s.take d).reverse = s.reverse.drop (s.length - d) := by
    rw [List.reverse_take]
  have hwin : BranchEntry.edges s =
      (out.drop (out.length - (s.length - d))).map BranchEntry.edge ++
        (s.take d).reverse.map BranchEntry.edge := by
    rw [← hmatch, hnew, ← List.map_append, List.take_append_drop]
    rfl
  rw [hwin, ← List.map_append]
  have hsuf : out.drop (out.length - (s.length - d)) <:+ out := List.drop_suffix _ _
  obtain ⟨pre, hpre⟩ := hsuf
  refine ⟨pre.map BranchEntry.edge, ?_⟩
  rw [← List.map_append, ← List.append_assoc, hpre]

theorem stitchLoop_gap {samples : List (List BranchEntry)}
    (h : stitchLoop c base cap out gap samples = (r, false)) : gap = false := by
  induction samples generalizing out gap with
  | nil => exact (Prod.ext_iff.1 h).2
  | cons s samples ih =>
    rw [stitchLoop] at h
    by_cases hs : s = []
    · rw [if_pos hs] at h
      exact ih h
    · rw [if_neg hs] at h
      cases hd : bestShift c base out s with
      | none =>
        rw [hd] at h
        cases h
      | some d =>
        rw [hd] at h
        have hgap : appendEdges cap out gap (s.take d).reverse =
            ((appendEdges cap out gap (s.take d).reverse).1, false) := Prod.ext rfl (ih h)
        exact (appendEdges_ok hgap).1

/-- One window of a loop that ends without a gap -/
theorem stitchLoop_cons {samples : List (List BranchEntry)} (hs : s ≠ [])
    (h : stitchLoop c base cap out gap (s :: samples) = (r, false)) :
    ∃ d, bestShift c base out s = some d ∧
      stitchLoop c base cap (out ++ (s.take d).reverse) false samples = (r, false) := by
  rw [stitchLoop, if_neg hs] at h
  cases hd : bestShift c base out s with
  | none =>
    rw [hd] at h
    cases h
  | some d =>
    rw [hd] at h
    have hgap := stitchLoop_gap h
    have happ : appendEdges cap out gap (s.take d).reverse =
        ((appendEdges cap out gap (s.take d).reverse).1, false) := Prod.ext rfl hgap
    have hout := (appendEdges_ok happ).2
    dsimp only at h
    rw [hgap, hout] at h
    exact ⟨d, rfl, h⟩

/-- A loop without a gap only adds edges, and each window that is not empty stands after the one
before it. -/
theorem stitchLoop_inOrder {samples : List (List BranchEntry)}
    (h : stitchLoop c base cap out gap samples = (r, false)) :
    out <+: r ∧ InOrder (r.map BranchEntry.edge) out.length (samples.map BranchEntry.edges) := by
  induction samples generalizing out gap with
  | nil =>
    obtain ⟨rfl, -⟩ := Prod.ext_iff.1 h
    exact ⟨List.prefix_rfl, trivial⟩
  | cons s samples ih =>
    by_cases hs : s = []
    · rw [stitchLoop, if_pos hs] at h
      obtain ⟨hpre, hord⟩ := ih h
      refine ⟨hpre, .inl ⟨?_, hord⟩⟩
      rw [hs]
      rfl
    · obtain ⟨d, hd, hrest⟩ := stitchLoop_cons hs h
      obtain ⟨hpos, hlt, hfits⟩ := bestShift_some hd
      obtain ⟨hpre, hord⟩ := ih hrest
      have hlen : (out ++ (s.take d).reverse).length = out.length + d := by
        rw [List.length_append, List.length_reverse, List.length_take, min_eq_left hlt.le]
      refine ⟨(List.prefix_append _ _).trans hpre, .inr ⟨out.length + d, by omega, ?_, ?_, ?_⟩⟩
      · rw [List.length_map, ← hlen]
        exact hpre.length_le
      · rw [← List.map_take, ← hlen, ← List.prefix_iff_eq_take.1 hpre]
        exact shiftFits_suffix hfits
      · rw [← hlen]
        exact hord

theorem not_inOrder_nil {k : ℕ} {ws : List (List (ℕ × ℕ))} :
    InOrder ([] : List (ℕ × ℕ)) k ws ↔ ∀ w ∈ ws, w = [] := by
  induction ws with
  | nil => exact ⟨fun _ => by simp, fun _ => trivial⟩
  | cons w ws ih =>
    rw [List.forall_mem_cons, ← ih]
    constructor
    · rintro (hw | ⟨e, hk, he, -⟩)
      · exact hw
      · rw [List.length_nil] at he
        omega
    · exact .inl

end Sound

section Complete

/-- The edges at the positions from `i` to before `j` -/
def between (es : List BranchEntry) (i j : ℕ) : List BranchEntry :=
  (es.take j).drop i

/-- The sample at position `p`: the last `min D p` edges before it, newest first -/
def sampleAt (es : List BranchEntry) (D p : ℕ) : List BranchEntry :=
  (between es (p - D) p).reverse

/-- The samples at `k + 1` successive positions -/
def samplesFrom (es : List BranchEntry) (D p k : ℕ) : List (List BranchEntry) :=
  (List.range' p (k + 1)).map (sampleAt es D)

/-- The splice of two successive edges decodes. -/
def Splices (c : Code) (base : ℕ) (a b : BranchEntry) : Prop :=
  amdSpanDecodable c base a.toAddr b.fromAddr = true

instance (a b : BranchEntry) : Decidable (Splices c base a b) :=
  inferInstanceAs (Decidable (_ = _))

variable {es out s r : List BranchEntry} {D p q k cap : ℕ} {a b : BranchEntry}

theorem length_between (h : p ≤ es.length) : (between es q p).length = p - q := by
  rw [between, List.length_drop, List.length_take, min_eq_left h]

theorem between_succ (hqp : q ≤ p) (hb : es[p]? = some b) :
    between es q (p + 1) = between es q p ++ [b] := by
  have hp := (List.getElem?_eq_some_iff.1 hb).1
  rw [between, List.take_add_one, hb, Option.toList_some, List.drop_append_of_le_length, between]
  rw [List.length_take, min_eq_left hp.le]
  exact hqp

theorem between_cons (ha : es[q]? = some a) (hqp : q < p) (hp : p ≤ es.length) :
    between es q p = a :: between es (q + 1) p := by
  have hlt : q < (es.take p).length := by
    rw [List.length_take, min_eq_left hp]
    exact hqp
  have hget : (es.take p)[q] = a := by
    rw [List.getElem_take]
    exact (List.getElem?_eq_some_iff.1 ha).2
  rw [between, List.drop_eq_getElem_cons hlt, hget]
  rfl

theorem length_sampleAt (h : p ≤ es.length) : (sampleAt es D p).length = p - (p - D) := by
  rw [sampleAt, List.length_reverse, length_between h]

/-- A sample one position on overlaps by all its edges but the newest; what decides is the
splice. -/
theorem shiftFits_one (hD : 2 ≤ D) (hp : 1 ≤ p) (hq : q ≤ p - D) (ha : es[p - 1]? = some a)
    (hb : es[p]? = some b) :
    shiftFits c base (between es q p) (sampleAt es D (p + 1)) 1 =
      amdSpanDecodable c base a.toAddr b.fromAddr := by
  have hlt : p < es.length := (List.getElem?_eq_some_iff.1 hb).1
  have hlen : (sampleAt es D (p + 1)).length - 1 = p - (p + 1 - D) := by
    rw [length_sampleAt hlt]
    omega
  have hout : (between es q p).length = p - q := length_between hlt.le
  have hover : (sampleAt es D (p + 1)).reverse.take (p - (p + 1 - D)) =
      between es (p + 1 - D) p := by
    rw [sampleAt, List.reverse_reverse, between, List.take_drop, List.take_take, between]
    congr 2
    omega
  have htail : (between es q p).drop (p - q - (p - (p + 1 - D))) = between es (p + 1 - D) p := by
    rw [between, List.drop_drop, between]
    congr 1
    omega
  have hlast : (between es q p).getLast? = some a := by
    rw [List.getLast?_eq_getElem?, hout, between, List.getElem?_drop, List.getElem?_take,
      if_pos (by omega), show q + (p - q - 1) = p - 1 by omega, ha]
  have hnew : (sampleAt es D (p + 1))[1 - 1]? = some b := by
    rw [sampleAt, between_succ (by omega) hb, List.reverse_append]
    rfl
  rw [shiftFits, hlen, hout, hover, htail, hlast, hnew]
  have hfit : p - (p + 1 - D) ≤ p - q := by omega
  simp only [Option.elim_some, true_and, hfit, Bool.decide_eq_true]

theorem bestShift_head (hs : 2 ≤ s.length) : bestShift c base out s =
    if shiftFits c base out s 1 then some 1
    else (List.range' 2 (s.length - 2)).find? (shiftFits c base out s) := by
  obtain ⟨m, hm⟩ : ∃ m, s.length - 1 = m + 1 := ⟨s.length - 2, by omega⟩
  rw [bestShift, hm, List.range'_succ, List.find?_cons, show s.length - 2 = m by omega]
  cases shiftFits c base out s 1 <;> rfl

/-- Without a gap every window adds an edge at least. -/
theorem stitchLoop_length {gap : Bool} {samples : List (List BranchEntry)}
    (hne : ∀ s ∈ samples, s ≠ []) (h : stitchLoop c base cap out gap samples = (r, false)) :
    out.length + samples.length ≤ r.length := by
  induction samples generalizing out gap with
  | nil =>
    have hr : out = r := (Prod.ext_iff.1 h).1
    rw [hr]
    exact le_rfl
  | cons s samples ih =>
    obtain ⟨hs, hne⟩ := List.forall_mem_cons.1 hne
    obtain ⟨d, hd, hrest⟩ := stitchLoop_cons hs h
    obtain ⟨hpos, hlt, -⟩ := bestShift_some hd
    have hlen := ih hne hrest
    rw [List.length_append, List.length_reverse, List.length_take, min_eq_left hlt.le] at hlen
    rw [List.length_cons]
    omega

theorem sampleAt_ne_nil (hD : 2 ≤ D) (hp : 1 ≤ p) (h : p ≤ es.length) : sampleAt es D p ≠ [] := by
  intro hnil
  have hlen := @length_sampleAt es D p h
  rw [hnil, List.length_nil] at hlen
  omega

/-- The loop over samples at successive positions merges the edges as they are exactly if every
splice decodes: a splice that does not leaves a gap, or edges too many. -/
theorem stitchLoop_samples (hD : 2 ≤ D) (hp : 1 ≤ p) (hq : q ≤ p - D) (hk : p + k ≤ es.length)
    (hcap : p + k - q ≤ cap) :
    stitchLoop c base cap (between es q p) false ((List.range' (p + 1) k).map (sampleAt es D)) =
        (between es q (p + k), false) ↔
      (between es (p - 1) (p + k)).IsChain (Splices c base) := by
  induction k generalizing p with
  | zero =>
    have hlt : p - 1 < es.length := by omega
    have hone : between es (p - 1) p = [es[p - 1]] := by
      rw [@between_cons es p (p - 1) _ (List.getElem?_eq_getElem hlt) (by omega) hk,
        show p - 1 + 1 = p by omega, between, List.drop_take_self]
    simp only [Nat.add_zero, hone, List.isChain_singleton, iff_true]
    rfl
  | succ k ih =>
    have hlt : p < es.length := by omega
    obtain ⟨b, hb⟩ : ∃ b, es[p]? = some b := ⟨_, List.getElem?_eq_getElem hlt⟩
    obtain ⟨a, ha⟩ : ∃ a, es[p - 1]? = some a :=
      ⟨_, List.getElem?_eq_getElem (by omega : p - 1 < es.length)⟩
    have hchain : between es (p - 1) (p + (k + 1)) =
        a :: b :: between es (p + 1) (p + (k + 1)) := by
      rw [between_cons ha (by omega) hk, show p - 1 + 1 = p by omega,
        between_cons hb (by omega) hk]
    have htail : b :: between es (p + 1) (p + (k + 1)) = between es (p + 1 - 1) (p + 1 + k) := by
      rw [Nat.add_sub_cancel, show p + 1 + k = p + (k + 1) by omega, between_cons hb (by omega) hk]
    have hs := @sampleAt_ne_nil es D (p + 1) hD (by omega) hlt
    have hlen : (sampleAt es D (p + 1)).length = p + 1 - (p + 1 - D) := length_sampleAt hlt
    have hbest := @bestShift_head c base (between es q p) (sampleAt es D (p + 1)) (by omega)
    have hone := @shiftFits_one c base es D p q a b hD hp hq ha hb
    rw [hchain, List.isChain_cons_cons, htail]
    rw [List.range'_succ, List.map_cons]
    by_cases hsplice : Splices c base a b
    · -- the sample adds its newest edge
      rw [hone, show amdSpanDecodable c base a.toAddr b.fromAddr = true from hsplice,
        if_pos rfl] at hbest
      have hnew : ((sampleAt es D (p + 1)).take 1).reverse = [b] := by
        rw [sampleAt, between_succ (by omega) hb, List.reverse_append]
        rfl
      have happend : appendEdges cap (between es q p) false [b] =
          (between es q (p + 1), false) := by
        rw [appendEdges, if_neg, between_succ (by omega) hb]
        · rfl
        · rw [length_between hlt.le]
          omega
      rw [stitchLoop, if_neg hs, hbest]
      dsimp only
      rw [hnew, happend, show p + (k + 1) = p + 1 + k by omega]
      dsimp only
      rw [@ih (p + 1) (by omega) (by omega) (by omega) (by omega)]
      exact (and_iff_right hsplice).symm
    · -- the next shift that fits brings edges that are merged already
      rw [iff_false_right (fun h => hsplice h.1)]
      intro h
      obtain ⟨d, hd, hrest⟩ := stitchLoop_cons hs h
      rw [hbest, hone, if_neg (show ¬amdSpanDecodable c base a.toAddr b.fromAddr = true from hsplice)]
        at hd
      have hge := (List.mem_range'_1.1 (List.mem_of_find?_eq_some hd)).1
      have hd' := (List.mem_range'_1.1 (List.mem_of_find?_eq_some hd)).2
      have hgrow := stitchLoop_length (fun s hmem => by
        obtain ⟨i, hi, rfl⟩ := List.mem_map.1 hmem
        have hi' := List.mem_range'_1.1 hi
        exact sampleAt_ne_nil hD (by omega) (by omega)) hrest
      rw [List.length_append, List.length_reverse, List.length_take, length_between hlt.le,
        length_between (by omega), List.length_map, List.length_range'] at hgrow
      omega

theorem amdStitch_samples (hD : 2 ≤ D) (hp : 1 ≤ p) (hk : p + k ≤ es.length)
    (hcap : p + k - (p - D) ≤ cap) :
    amdStitch c base (samplesFrom es D p k) cap = ((between es (p - D) (p + k)).reverse, false) ↔
      (between es (p - 1) (p + k)).IsChain (Splices c base) := by
  have hlen : (sampleAt es D p).length = p - (p - D) := length_sampleAt (by omega)
  have hfits : (sampleAt es D p).reverse.take cap = between es (p - D) p := by
    rw [List.take_of_length_le, sampleAt, List.reverse_reverse]
    rw [List.length_reverse, hlen]
    omega
  have hgap : decide (cap < (sampleAt es D p).length) = false := by
    rw [decide_eq_false_iff_not, hlen]
    omega
  rw [← @stitchLoop_samples c base es D p (p - D) k cap hD hp le_rfl hk hcap, samplesFrom,
    List.range'_succ, List.map_cons, amdStitch, if_neg (by omega)]
  dsimp only
  rw [hfits, hgap, Prod.ext_iff, Prod.ext_iff, List.reverse_inj]

end Complete

section Runs

/-- The span of a run is straight-line code. -/
theorem spanLoop_run (hjump : ∀ off, c.disasIsUncondJump off = true → c.disasIsBranch off = true)
    {pc : ℕ} {q : List Step} {s : Step} (hrun : Run c base pc q s) (guard : ℕ) :
    spanLoop c base (s.pc - base) guard (pc - base) = true := by
  induction hrun generalizing guard with
  | last =>
    cases guard with
    | zero => rfl
    | succ guard => rw [spanLoop, if_pos le_rfl]
  | @cons x s q hin hx hok hrun ih =>
    cases guard with
    | zero => rfl
    | succ guard =>
      have hd : (c.disasProbe (x.pc - base)).len ≠ 0 := hok.decodes hin
      have hoff := hok.off_next hin hx
      have hle := hrun.le
      have hlo := hrun.stepOk.1.1
      have hplain : ¬c.disasIsUncondJump (x.pc - base) = true := by
        intro huncond
        have hcond := (hok.falls hin hx).2.2 (hjump _ huncond)
        rw [hcond.2.2] at huncond
        cases huncond
      rw [spanLoop, if_neg (by omega)]
      dsimp only
      rw [if_neg hd, if_neg hplain]
      dsimp only
      rw [if_neg (by omega), hoff]
      exact ih guard

/-- From where a taken branch lands, the next taken branch is reached by code that decodes. -/
theorem amdSpanDecodable_exec
    (hjump : ∀ off, c.disasIsUncondJump off = true → c.disasIsBranch off = true)
    {pc fin : ℕ} {steps : List Step} (h : Exec c base pc steps fin) {e : ℕ × ℕ}
    (he : (takenBranches steps).head? = some e) : amdSpanDecodable c base pc e.1 = true := by
  rw [amdSpanDecodable]
  by_cases hoff : c.ptr = 0 ∨ c.len = 0 ∨ c.disasAvailable = false
  · rw [if_pos hoff]
  rw [if_neg hoff]
  by_cases hin : c.InRegion base pc
  · obtain ⟨q, s, rest, rfl, hrun, -⟩ | ⟨-, hall⟩ := h.split hin
    · rw [hrun.takenBranches_cons, List.head?_cons, Option.some.injEq] at he
      subst he
      have hs := hrun.stepOk.1
      have hle := hrun.le
      obtain ⟨hlo, hhi⟩ := hin
      obtain ⟨hslo, hshi⟩ := hs
      rw [if_neg (by omega), if_neg (by omega)]
      exact spanLoop_run hjump hrun _
    · have hnil : takenBranches steps = [] := by
        rw [takenBranches, List.filter_eq_nil_iff.2 fun x hx => by simp [hall x hx]]
        rfl
      rw [hnil] at he
      cases he
  · rw [if_pos]
    rw [InRegion, not_and_or] at hin
    omega

/-- The edges of the taken branches of an execution splice. -/
theorem takenBranches_isChain
    (hjump : ∀ off, c.disasIsUncondJump off = true → c.disasIsBranch off = true)
    {pc fin : ℕ} {steps : List Step} (h : Exec c base pc steps fin) :
    (takenBranches steps).IsChain fun a b => amdSpanDecodable c base a.2 b.1 = true := by
  induction h with
  | nil => exact .nil
  | @cons s steps fin hok hrest ih =>
    cases htk : s.taken with
    | true =>
      have hcons : takenBranches (s :: steps) = (s.pc, s.next) :: takenBranches steps := by
        rw [takenBranches, List.filter_cons_of_pos htk]
        rfl
      rw [hcons, List.isChain_cons]
      exact ⟨fun e he => amdSpanDecodable_exec hjump hrest he, ih⟩
    | false =>
      have hcons : takenBranches (s :: steps) = takenBranches steps := by
        rw [takenBranches, List.filter_cons_of_neg (by simp [htk])]
        rfl
      rw [hcons]
      exact ih

end Runs

section Exact

theorem amdStitch_sound_iff {samples : List (List BranchEntry)} {outCap : ℕ} :
    ((amdStitch c base samples outCap).2 = false →
      InOrder ((amdStitch c base samples outCap).1.reverse.map BranchEntry.edge) 0
        (samples.map BranchEntry.edges)) ↔
      0 < outCap ∨ ∀ s ∈ samples, s = [] := by
  have hnil : ∀ s : List BranchEntry, BranchEntry.edges s = [] ↔ s = [] := fun s => by
    rw [BranchEntry.edges, List.map_eq_nil_iff, List.reverse_eq_nil_iff]
  cases samples with
  | nil => exact ⟨fun _ => .inr (by simp), fun _ _ => trivial⟩
  | cons s samples =>
    rw [amdStitch]
    by_cases hcap : outCap = 0
    · rw [if_pos hcap]
      dsimp only
      rw [List.reverse_nil, List.map_nil, not_inOrder_nil, List.forall_mem_map]
      simp only [hnil, hcap, lt_irrefl, false_or, forall_const]
    · rw [if_neg hcap]
      dsimp only
      refine ⟨fun _ => .inl (by omega), fun _ hgap => ?_⟩
      rw [List.reverse_reverse]
      generalize hr : stitchLoop c base outCap (s.reverse.take outCap) (outCap < s.length)
        samples = r at hgap ⊢
      have hloop := hr.trans (show r = (r.1, false) from Prod.ext rfl hgap)
      obtain ⟨hpre, hord⟩ := stitchLoop_inOrder hloop
      have hseed := stitchLoop_gap hloop
      rw [decide_eq_false_iff_not, not_lt] at hseed
      rw [List.take_of_length_le (by rwa [List.length_reverse])] at hpre hord
      by_cases hs : s = []
      · refine .inl ⟨(hnil s).2 hs, ?_⟩
        rw [hs] at hord
        exact hord
      · refine .inr ⟨s.reverse.length, ?_, ?_, ?_, hord⟩
        · rw [List.length_reverse]
          exact List.length_pos_of_ne_nil hs
        · rw [List.length_map]
          exact hpre.length_le
        · rw [← List.map_take, ← List.prefix_iff_eq_take.1 hpre]
          exact List.suffix_rfl

theorem unitCode_jump_isBranch {ptr off : ℕ} {insns : List Insn}
    (h : (unitCode ptr insns).disasIsUncondJump off = true) :
    (unitCode ptr insns).disasIsBranch off = true := by
  simp only [unitCode] at h ⊢
  cases hi : insns[off]? with
  | none => simp [hi] at h
  | some i => cases i <;> simp [hi, Insn.isUncondJump, Insn.isBranch] at h ⊢

/-- A conditional forward, and a jump back to the `ret` before it -/
def jumpsBack : Code := unitCode 1 [.jcc 12, .ret, .plain, .jmp 11]

/-- A call of it at 5, by instruction -/
def jumpsBackSteps : List Step :=
  [⟨5, 10, true⟩, ⟨10, 12, true⟩, ⟨12, 13, false⟩, ⟨13, 11, true⟩, ⟨11, 6, true⟩]

/-- The reduced filter records every taken branch but the direct unconditional jumps. -/
def keptByFilter (c : Code) (base : ℕ) (e : ℕ × ℕ) : Bool :=
  ¬(c.InRegion base e.1 ∧ c.disasIsUncondJump (e.1 - base) = true ∧
    (c.disasBranchTarget base (e.1 - base)).isSome)

/-- What the reduced filter records of the call -/
def jumpsBackEdges : List BranchEntry :=
  [⟨5, 10, false, 0⟩, ⟨10, 12, false, 0⟩, ⟨11, 6, false, 0⟩]

/-- What is recorded of the call without a filter -/
def jumpsBackTaken : List BranchEntry :=
  [⟨5, 10, false, 0⟩, ⟨10, 12, false, 0⟩, ⟨13, 11, false, 0⟩, ⟨11, 6, false, 0⟩]

/-- The splice over the dropped jump back is taken for a gap. Without room for anything no gap is
reported. -/
theorem amdStitch_jumpsBack :
    Exec jumpsBack 10 5 jumpsBackSteps 6 ∧
      jumpsBackEdges.map BranchEntry.edge =
        (takenBranches jumpsBackSteps).filter (keptByFilter jumpsBack 10) ∧
      amdStitch jumpsBack 10 (samplesFrom jumpsBackEdges 16 1 2) 100 =
        ([⟨10, 12, false, 0⟩, ⟨5, 10, false, 0⟩], true) ∧
      amdStitch jumpsBack 10 (samplesFrom jumpsBackEdges 16 1 2) 100 ≠
        ((between jumpsBackEdges (1 - 16) (1 + 2)).reverse, false) ∧
      amdStitch jumpsBack 10 [[⟨5, 10, false, 0⟩]] 0 = ([], false) ∧
      ¬InOrder ([] : List (ℕ × ℕ)) 0 [[(5, 10)]] := by
  refine ⟨by decide, by decide, by decide, by decide, by decide, ?_⟩
  rw [not_inOrder_nil]
  decide

/-- Without a gap the windows stand in the merged sequence in sample order, unless there was no room
for anything. Samples at successive positions are merged into the edges they show, without a gap,
exactly if every splice decodes; and it does where the windows hold every taken branch of an
execution. -/
theorem amdStitch_exact (c : Code) (base : ℕ) :
    (∀ (samples : List (List BranchEntry)) (outCap : ℕ),
      ((amdStitch c base samples outCap).2 = false →
        InOrder ((amdStitch c base samples outCap).1.reverse.map BranchEntry.edge) 0
          (samples.map BranchEntry.edges)) ↔
        0 < outCap ∨ ∀ s ∈ samples, s = []) ∧
    (∀ (es : List BranchEntry) (D p k outCap : ℕ), 2 ≤ D → 1 ≤ p → p + k ≤ es.length →
      p + k - (p - D) ≤ outCap →
        (amdStitch c base (samplesFrom es D p k) outCap =
            ((between es (p - D) (p + k)).reverse, false) ↔
          (between es (p - 1) (p + k)).IsChain (Splices c base)) ∧
        ((∀ off, c.disasIsUncondJump off = true → c.disasIsBranch off = true) →
          (∃ pc steps fin, Exec c base pc steps fin ∧
            es.map BranchEntry.edge = takenBranches steps) →
          amdStitch c base (samplesFrom es D p k) outCap =
            ((between es (p - D) (p + k)).reverse, false))) := by
  refine ⟨fun samples outCap => amdStitch_sound_iff, ?_⟩
  intro es D p k outCap hD hp hk hcap
  refine ⟨amdStitch_samples hD hp hk hcap, ?_⟩
  rintro hjump ⟨pc, steps, fin, hexec, hes⟩
  refine (amdStitch_samples hD hp hk hcap).2 ?_
  have hchain := takenBranches_isChain hjump hexec
  rw [← hes, List.isChain_map] at hchain
  exact (hchain.take (p + k)).drop (p - 1)

/-- With every taken branch recorded the call is merged whole. -/
theorem amdStitch_exact_jumpsBack :
    amdStitch jumpsBack 10 (samplesFrom jumpsBackTaken 16 1 3) 4 =
      ((between jumpsBackTaken (1 - 16) (1 + 3)).reverse, false) :=
  ((amdStitch_exact jumpsBack 10).2 jumpsBackTaken 16 1 3 4 (by decide) (by decide) (by decide)
    (by decide)).2 (fun _ => unitCode_jump_isBranch) ⟨5, jumpsBackSteps, 6, by decide, by decide⟩

end Exact

end AsmTest.Hwtrace
