import AsmTest.TakeCone
import AsmTest.Lib.Endian

/-!
# What the verdicts of a take say

A step is `dim` if the writes to the places it shares with the base have the same bytes, and `hot`
if some of them differ. The view compares the inline 64 bits of a span, so it is right where these
tell the bytes of the operand.
-/

namespace AsmTest.Loom

open Lib
open Dataflow (ValRec ValTrace DefUse DefUseEdge)

section Captured

/-- A trace and the side buffer of its wide operands -/
structure WideTrace where
  trace : ValTrace
  wide : List UInt8
  /-- The field of a width has 16 bits. -/
  size_lt : ∀ r ∈ trace.recs, r.size < 2 ^ 16

/-- The bytes of an operand, if they were all captured; without a width they are those of the
inline value -/
def capturedBytes (wide : List UInt8) (r : ValRec) : Option (List UInt8) :=
  if r.valueValid = false then none
  else if r.wide then
    if r.size ≠ 0 ∧ r.wideOff.toNat + r.size ≤ wide.length then
      some ((wide.drop r.wideOff.toNat).take r.size)
    else none
  else if r.size ≤ 8 then some (Endian.leBytes (if r.size = 0 then 8 else r.size) r.value.toNat)
  else none

/-- The last write of a step to a place -/
def lastAt (v : ValTrace) (s : ℕ) (p : WKey) : Option ValRec :=
  lastWrite (v.stepRecs s) p

variable (b t : WideTrace) (s : ℕ)

/-- Both runs write the place at step `s`. -/
def Shared (p : WKey) (r r' : ValRec) : Prop :=
  lastAt b.trace s p = some r ∧ lastAt t.trace s p = some r'

def SameBytes (r r' : ValRec) : Prop :=
  ∃ bytes, capturedBytes b.wide r = some bytes ∧ capturedBytes t.wide r' = some bytes

def OtherBytes (r r' : ValRec) : Prop :=
  ∃ bytes bytes', capturedBytes b.wide r = some bytes ∧ capturedBytes t.wide r' = some bytes' ∧
    bytes ≠ bytes'

def DimTrue : Prop :=
  ∀ p r r', Shared b t s p r r' → SameBytes b t r r'

def HotTrue : Prop :=
  ∃ p r r', Shared b t s p r r' ∧ OtherBytes b t r r'

def VerdictsTrue (view : LoomTakeView) : Prop :=
  ∀ row ∈ view.steps, (row.verdict = .dim → DimTrue b t row.step) ∧
    (row.verdict = .hot → HotTrue b t row.step)

/-- Both fabrics show the place: the writes are on a lane. -/
def Shown (p : WKey) (r r' : ValRec) : Prop :=
  Shared b t s p r r' ∧ laneOf (fabricLanes b.trace) r ≠ kLoomNoSpan ∧
    laneOf (fabricLanes t.trace) r' ≠ kLoomNoSpan

/-- Two operands of one width that lie in the inline value -/
def Narrow (r r' : ValRec) : Prop :=
  r.wide = false ∧ r'.wide = false ∧ r.size = r'.size ∧ r.size ≤ 8

/-- Two operands that are their inline values -/
def Whole (r r' : ValRec) : Prop :=
  Narrow r r' ∧ (r.size = 0 ∨ r.size = 8)

/-- The inline values tell the bytes. If all places that are shown have the same inline values, the
shared places that are not shown or not narrow have the same bytes; if two inline values that are
not the whole operands differ, the bytes of some shared place differ. -/
structure InlineTells : Prop where
  dim : (∃ p r r', Shown b t s p r r') →
    (∀ p r r', Shown b t s p r r' →
      r.valueValid = true ∧ r'.valueValid = true ∧ r.value = r'.value) →
      ∀ p r r', Shared b t s p r r' → ¬(Shown b t s p r r' ∧ Narrow r r') → SameBytes b t r r'
  hot : ∀ p r r', Shown b t s p r r' → r.valueValid = true → r'.valueValid = true →
    r.value ≠ r'.value → ¬Whole r r' → HotTrue b t s

/-- The step follows from one of the seeds along the edges. -/
def InCone (edges : List DefUseEdge) (nsteps : ℕ) (seed : List ℕ) (s : ℕ) : Prop :=
  ∃ s₀ ∈ seed, s₀ < nsteps ∧
    Relation.ReflTransGen (fun i j => j < nsteps ∧ ∃ e ∈ edges, e.fromStep = i ∧ e.toStep = j) s₀ s

/-- The two runs agree up to the step, and the edited fact reaches it. -/
def Viewed (base take : LoomFabric) (edges : List DefUseEdge) (edit : LoomEditDesc) (s : ℕ) :
    Prop :=
  s < agreeing base.insnOff take.insnOff ∧
    InCone edges take.steps (takeSeed edit take (agreeing base.insnOff take.insnOff)) s

end Captured

/-! ## The writes of a step -/

section Writes

variable {v : ValTrace} {f : LoomFabric} {step : ℕ} {p : WKey}

/-- The place of a span, if it is a write of the step -/
def keyAt (f : LoomFabric) (step : ℕ) (s : LoomSpan) : Option WKey :=
  if s.bornUntraced = true ∨ s.tWrite ≠ step then none else keyOf f s

lemma writesAt_eq (f : LoomFabric) (step : ℕ) :
    writesAt f step = mapCollect (keyAt f step) f.spans [] := by
  rw [writesAt, mapCollect]
  congr 1
  funext m s
  rw [keyAt]
  split_ifs <;> rfl

lemma mapFind_writesAt (f : LoomFabric) (step : ℕ) (p : WKey) :
    mapFind p (writesAt f step) = (f.spans.filter fun s => keyAt f step s = some p).getLast? := by
  rw [writesAt_eq, mapFind_mapCollect]
  exact Option.or_none

lemma keysSorted_writesAt (f : LoomFabric) (step : ℕ) : KeysSorted (writesAt f step) := by
  rw [writesAt_eq]
  exact keysSorted_mapCollect _ _ keysSorted_nil

/-- Writes to one place are on one lane. -/
lemma onLane_of_place {r w : ValRec} (h : placeOf r = placeOf w) : onLane r = onLane w := by
  funext l
  rw [placeOf, placeOf] at h
  by_cases hr : r.kind = .reg <;> by_cases hw : w.kind = .reg
  · rw [if_pos hr, if_pos hw] at h
    have hreg : loomFoldReg r.reg.toNat = loomFoldReg w.reg.toNat := by simpa using h
    rw [onLane, onLane, if_pos hr, if_pos hw, hreg]
  · rw [if_pos hr, if_neg hw] at h
    simp at h
  · rw [if_neg hr, if_pos hw] at h
    simp at h
  · rw [if_neg hr, if_neg hw] at h
    obtain ⟨haddr, hwidth⟩ : r.addr.toNat = w.addr.toNat ∧ recWidth r = recWidth w := by
      simpa using h
    rw [onLane, onLane, if_neg hr, if_neg hw, recHi, recHi, haddr, hwidth]

lemma laneOf_of_place (lanes : List LoomLane) {r w : ValRec} (h : placeOf r = placeOf w) :
    laneOf lanes r = laneOf lanes w := by
  rw [laneOf, laneOf, onLane_of_place h]

/-- The key of a write span is the place of its record. -/
lemma keyOf_write (hf : f.lanes = fabricLanes v) (hlen : (fabricLanes v).length < 2 ^ 32)
    {s : LoomSpan} {w : ValRec} (hsize : w.size < 2 ^ 16)
    (h : FromWrite (fabricLanes v) v.recs s w) : keyOf f s = some (placeOf w) := by
  obtain ⟨l, hl, hon⟩ := onLane_of_laneOf hlen h.found
  rw [keyOf, hf, h.lane, hl, Option.map_some, placeOf]
  by_cases hk : w.kind = .reg
  · rw [onLane, if_pos hk] at hon
    obtain ⟨hkind, hreg⟩ := of_decide_eq_true hon
    rw [if_pos hk, if_pos hkind, hreg]
  · rw [onLane, if_neg hk] at hon
    obtain ⟨hkind, -, -⟩ := of_decide_eq_true hon
    have hne : l.kind ≠ .reg := by
      rw [hkind]
      decide
    have hwidth : recWidth w < 2 ^ 64 := by
      rw [recWidth]
      split_ifs <;> omega
    have haddr := w.addr.isLt
    have hdiff : ((w.addr.toNat + recWidth w) % 2 ^ 64 + (2 ^ 64 - w.addr.toNat)) % 2 ^ 64 =
        recWidth w := by omega
    rw [if_neg hk, if_neg hne, h.lo hk, h.hi hk, recHi, hdiff]

/-- A write of the step to the place that the fabric shows -/
def shows (v : ValTrace) (step : ℕ) (p : WKey) (r : ValRec) : Bool :=
  r.isWrite ∧ laneOf (fabricLanes v) r ≠ kLoomNoSpan ∧ r.step = step ∧ placeOf r = p

lemma keyAt_write (hf : f.lanes = fabricLanes v) (hlen : (fabricLanes v).length < 2 ^ 32)
    {s : LoomSpan} {w : ValRec} (hsize : w.size < 2 ^ 16)
    (h : FromWrite (fabricLanes v) v.recs s w) :
    keyAt f step s = some p ↔ shows v step p w = true := by
  rw [keyAt, h.traced, h.step, shows, decide_eq_true_eq]
  simp only [Bool.false_eq_true, false_or, ite_not]
  split_ifs with hstep
  · rw [keyOf_write hf hlen hsize h, Option.some.injEq]
    exact ⟨fun hp => ⟨h.isWrite, h.found, hstep, hp⟩, fun hp => hp.2.2.2⟩
  · exact ⟨fun hp => absurd hp (by simp), fun hp => absurd hp.2.2.1 hstep⟩

/-- What the view reads of a span -/
def inline (s : LoomSpan) : Bool × BitVec 64 :=
  (s.valueValid, s.value)

def inlineRec (r : ValRec) : Bool × BitVec 64 :=
  (r.valueValid, r.value)

lemma inline_closeSpan (lanes : List LoomLane) (spans : List LoomSpan) (s : LoomSpan) :
    inline (closeSpan lanes spans s) = inline s := by
  obtain ⟨e, he⟩ := closeSpan_keeps lanes spans s
  rw [he]
  rfl

lemma keyAt_closeSpan (lanes : List LoomLane) (spans : List LoomSpan) (s : LoomSpan) :
    keyAt f step (closeSpan lanes spans s) = keyAt f step s := by
  obtain ⟨e, he⟩ := closeSpan_keeps lanes spans s
  rw [he]
  rfl

/-- The write spans stand in the order of their records. -/
lemma writeSpans_sorted (lanes : List LoomLane) (recs : List ValRec) :
    (writeSpans lanes recs).Pairwise fun s s' => s.recIdx < s'.recIdx := by
  have hidx : recs.zipIdx.Pairwise fun a b => a.2 < b.2 := by
    rw [← List.pairwise_map, List.zipIdx_map_snd]
    exact List.pairwise_lt_range'
  have hrec : ∀ (r : ValRec) (i : ℕ) (s : LoomSpan), writeSpan lanes r i = some s →
      s.recIdx = i := by
    intro r i s hs
    rw [writeSpan] at hs
    by_cases hcond : r.isWrite = false ∨ laneOf lanes r = kLoomNoSpan
    · rw [if_pos hcond] at hs
      cases hs
    · rw [if_neg hcond] at hs
      obtain rfl := Option.some.inj hs
      rfl
  rw [writeSpans, List.pairwise_filterMap]
  apply hidx.imp
  intro a b hab s hs s' hs'
  rw [hrec _ _ _ hs, hrec _ _ _ hs']
  exact hab

/-- The write spans of the step to the place, as they stand in the fabric -/
lemma filter_fabricSpans (hf : f.lanes = fabricLanes v) (hlen : (fabricLanes v).length < 2 ^ 32)
    (hsize : ∀ r ∈ v.recs, r.size < 2 ^ 16) :
    (sortedSpans (fabricLanes v) v.recs).filter (fun s => keyAt f step s = some p) =
      (writeSpans (fabricLanes v) v.recs).filter fun s => keyAt f step s = some p := by
  generalize hlanes : fabricLanes v = lanes at *
  -- an entry span has no key
  have hentry : ((List.range lanes.length).filterMap (entrySpan lanes v.recs
      (writeSpans lanes v.recs))).filter (fun s => keyAt f step s = some p) = [] := by
    rw [List.filter_eq_nil_iff]
    intro s hs
    obtain ⟨lane, -, hs⟩ := List.mem_filterMap.1 hs
    rw [keyAt, if_pos (.inl (entrySpan_born hs).1)]
    simp
  have hperm : ((sortedSpans lanes v.recs).filter fun s => keyAt f step s = some p).Perm
      ((writeSpans lanes v.recs).filter fun s => keyAt f step s = some p) := by
    have := (List.perm_insertionSort spanLe (writeSpans lanes v.recs ++
      (List.range lanes.length).filterMap (entrySpan lanes v.recs
        (writeSpans lanes v.recs)))).filter fun s => keyAt f step s = some p
    rwa [List.filter_append, hentry, List.append_nil] at this
  -- the spans of the place are on one lane, by the positions of their records
  have hkey : ∀ s ∈ (writeSpans lanes v.recs).filter (fun s => keyAt f step s = some p),
      ∃ w, FromWrite lanes v.recs s w ∧ placeOf w = p ∧ w.step = step := by
    intro s hs
    obtain ⟨hs, hp⟩ := List.mem_filter.1 hs
    obtain ⟨w, hw⟩ := fromWrite_of_mem_writeSpans hs
    have hshows := (keyAt_write (v := v) (hlanes ▸ hf) (hlanes ▸ hlen)
      (hsize w (List.mem_of_getElem? hw.record)) (hlanes ▸ hw)).1 (of_decide_eq_true hp)
    obtain ⟨-, -, hstep, hplace⟩ := of_decide_eq_true hshows
    exact ⟨w, hw, hplace, hstep⟩
  have hsame : ∀ s ∈ (writeSpans lanes v.recs).filter (fun s => keyAt f step s = some p),
      ∀ s' ∈ (writeSpans lanes v.recs).filter (fun s => keyAt f step s = some p),
        s.lane = s'.lane ∧ s.tWrite = s'.tWrite := by
    intro s hs s' hs'
    obtain ⟨w, hw, hp, ht⟩ := hkey s hs
    obtain ⟨w', hw', hp', ht'⟩ := hkey s' hs'
    rw [hw.lane, hw'.lane, hw.step, hw'.step, ht, ht']
    exact ⟨laneOf_of_place lanes (hp.trans hp'.symm), rfl⟩
  have hidx := (writeSpans_sorted lanes v.recs).filter fun s => keyAt f step s = some p
  have hinj : ∀ s ∈ (writeSpans lanes v.recs).filter (fun s => keyAt f step s = some p),
      ∀ s' ∈ (writeSpans lanes v.recs).filter (fun s => keyAt f step s = some p),
        s.recIdx = s'.recIdx → s = s' := by
    intro s hs s' hs' heq
    exact List.inj_on_of_nodup_map ((List.pairwise_map.2 hidx).imp fun hlt => hlt.ne) hs hs' heq
  apply List.Perm.eq_of_pairwise ?_ ((List.pairwise_insertionSort spanLe _).filter _) ?_ hperm
  · intro s s' hs hs' hle hge
    have hs := hperm.mem_iff.1 hs
    obtain ⟨hlane, hstep⟩ := hsame s hs s' hs'
    refine hinj s hs s' hs' ?_
    rw [spanLe] at hle hge
    omega
  · rw [List.pairwise_iff_getElem] at hidx ⊢
    intro i j hi hj hij
    obtain ⟨hlane, hstep⟩ := hsame _ (List.getElem_mem hi) _ (List.getElem_mem hj)
    exact .inr ⟨hlane, .inr ⟨hstep, (hidx i j hi hj hij).le⟩⟩

/-- The inline values of the write spans at a place are those of its records. -/
lemma inline_writeSpans (hf : f.lanes = fabricLanes v) (hlen : (fabricLanes v).length < 2 ^ 32)
    (hsize : ∀ r ∈ v.recs, r.size < 2 ^ 16) {l : List (ValRec × ℕ)}
    (hl : ∀ a ∈ l, v.recs[a.2]? = some a.1) :
    ((l.filterMap fun a => writeSpan (fabricLanes v) a.1 a.2).filter
      fun s => keyAt f step s = some p).map inline =
      ((l.map Prod.fst).filter (shows v step p)).map inlineRec := by
  induction l with
  | nil => rfl
  | cons a l ih =>
    rw [List.forall_mem_cons] at hl
    have ih := ih hl.2
    rw [List.map_cons, List.filterMap_cons]
    cases hs : writeSpan (fabricLanes v) a.1 a.2 with
    | none =>
      have hno : ¬shows v step p a.1 = true := by
        intro hshows
        obtain ⟨hw, hlane, -⟩ := of_decide_eq_true hshows
        rw [writeSpan, if_neg (by simp [hw, hlane])] at hs
        cases hs
      rw [List.filter_cons_of_neg hno]
      exact ih
    | some s =>
      have hfrom := fromWrite_of_writeSpan hl.1 hs
      have hkey : keyAt f step s = some p ↔ shows v step p a.1 = true :=
        keyAt_write hf hlen (hsize _ (List.mem_of_getElem? hl.1)) hfrom
      dsimp only
      by_cases hshows : shows v step p a.1 = true
      · rw [List.filter_cons_of_pos (by simpa using hkey.2 hshows),
          List.filter_cons_of_pos hshows, List.map_cons, List.map_cons, ih, inline, inlineRec,
          hfrom.valueValid, hfrom.value]
      · rw [List.filter_cons_of_neg (by simpa using fun h => hshows (hkey.1 h)),
          List.filter_cons_of_neg hshows, ih]

/-- What the view finds at a place: the inline value of the last write there that is shown -/
lemma find_writesAt (hf : f.lanes = fabricLanes v)
    (hspans : f.spans = fabricSpans (fabricLanes v) v.recs)
    (hlen : (fabricLanes v).length < 2 ^ 32) (hsize : ∀ r ∈ v.recs, r.size < 2 ^ 16) :
    (mapFind p (writesAt f step)).map inline =
      ((v.recs.filter (shows v step p)).getLast?).map inlineRec := by
  have hclose : ((sortedSpans (fabricLanes v) v.recs).map (closeSpan (fabricLanes v)
      (sortedSpans (fabricLanes v) v.recs))).filter (fun s => keyAt f step s = some p) =
      ((sortedSpans (fabricLanes v) v.recs).filter fun s => keyAt f step s = some p).map
        (closeSpan (fabricLanes v) (sortedSpans (fabricLanes v) v.recs)) := by
    rw [List.filter_map]
    congr 2
    funext s
    rw [Function.comp_apply, keyAt_closeSpan]
  rw [mapFind_writesAt, hspans, fabricSpans_eq, hclose, filter_fabricSpans hf hlen hsize,
    ← List.getLast?_map, ← List.getLast?_map, List.map_map]
  have hinline : inline ∘ closeSpan (fabricLanes v) (sortedSpans (fabricLanes v) v.recs) =
      inline := by
    funext s
    exact inline_closeSpan _ _ s
  rw [hinline, writeSpans,
    inline_writeSpans hf hlen hsize fun a ha => List.mem_zipIdx_iff_getElem?.1 ha,
    List.zipIdx_map_fst]

/-- The last write that is shown is the last write, if it is shown. -/
lemma getLast?_shows {r : ValRec} :
    (v.recs.filter (shows v step p)).getLast? = some r ↔
      lastAt v step p = some r ∧ laneOf (fabricLanes v) r ≠ kLoomNoSpan := by
  have hlast : lastAt v step p =
      (v.recs.filter fun r => r.isWrite ∧ r.step = step ∧ placeOf r = p).getLast? := by
    rw [lastAt, lastWrite, ValTrace.stepRecs, List.filter_filter]
    congr 2
    funext r
    rw [Bool.and_eq_decide, decide_eq_decide]
    simp only [decide_eq_true_eq]
    tauto
  have hplace : ∀ r ∈ v.recs.filter (fun r => r.isWrite ∧ r.step = step ∧ placeOf r = p),
      placeOf r = p := fun r hr => (of_decide_eq_true (List.mem_filter.1 hr).2).2.2
  by_cases hlane : ∃ w ∈ v.recs.filter (fun r => r.isWrite ∧ r.step = step ∧ placeOf r = p),
      laneOf (fabricLanes v) w ≠ kLoomNoSpan
  · obtain ⟨w, hw, hfound⟩ := hlane
    have hall : v.recs.filter (shows v step p) =
        v.recs.filter fun r => r.isWrite ∧ r.step = step ∧ placeOf r = p := by
      apply List.filter_congr
      intro r hr
      rw [shows, decide_eq_decide]
      refine ⟨fun h => ⟨h.1, h.2.2⟩, fun h => ⟨h.1, ?_, h.2⟩⟩
      rwa [laneOf_of_place _ (h.2.2.trans (hplace w hw).symm)]
    rw [hall, hlast]
    refine ⟨fun h => ⟨h, ?_⟩, fun h => h.1⟩
    rwa [laneOf_of_place _ ((hplace r (List.mem_of_getLast? h)).trans (hplace w hw).symm)]
  · have hnone : v.recs.filter (shows v step p) = [] := by
      rw [List.filter_eq_nil_iff]
      intro r hr hshows
      obtain ⟨hw, hfound, hrest⟩ := of_decide_eq_true hshows
      exact hlane ⟨r, List.mem_filter.2 ⟨hr, decide_eq_true ⟨hw, hrest⟩⟩, hfound⟩
    rw [hnone, hlast]
    refine ⟨fun h => (by cases h), fun h => ?_⟩
    exact absurd ⟨r, List.mem_of_getLast? h.1, h.2⟩ hlane

end Writes

/-! ## The verdict of a step -/

section Verdict

variable {b t : WideTrace} {fb ft : LoomFabric} {s : ℕ}

/-- The fabric of a trace -/
structure FabricOf (v : ValTrace) (f : LoomFabric) : Prop where
  lanes : f.lanes = fabricLanes v
  spans : f.spans = fabricSpans (fabricLanes v) v.recs
  few : (fabricLanes v).length < 2 ^ 32

/-- The view finds a span at a place exactly if the last write there is shown. -/
lemma find_iff (h : FabricOf b.trace fb) {p : WKey} {x : Bool × BitVec 64} :
    (mapFind p (writesAt fb s)).map inline = some x ↔
      ∃ r, lastAt b.trace s p = some r ∧ laneOf (fabricLanes b.trace) r ≠ kLoomNoSpan ∧
        inlineRec r = x := by
  rw [find_writesAt h.lanes h.spans h.few b.size_lt, Option.map_eq_some_iff]
  simp only [getLast?_shows, and_assoc]

/-- The pairs that the view compares, by their inline values -/
def Compared (fb ft : LoomFabric) (s : ℕ) (x y : Bool × BitVec 64) : Prop :=
  ∃ p, (mapFind p (writesAt fb s)).map inline = some x ∧
    (mapFind p (writesAt ft s)).map inline = some y

lemma compared_iff (hb : FabricOf b.trace fb) (ht : FabricOf t.trace ft)
    {x y : Bool × BitVec 64} :
    Compared fb ft s x y ↔
      ∃ p r r', Shown b t s p r r' ∧ inlineRec r = x ∧ inlineRec r' = y := by
  constructor
  · rintro ⟨p, hx, hy⟩
    obtain ⟨r, hr, hlane, rfl⟩ := (find_iff hb).1 hx
    obtain ⟨r', hr', hlane', rfl⟩ := (find_iff ht).1 hy
    exact ⟨p, r, r', ⟨⟨hr, hr'⟩, hlane, hlane'⟩, rfl, rfl⟩
  · rintro ⟨p, r, r', ⟨⟨hr, hr'⟩, hlane, hlane'⟩, rfl, rfl⟩
    exact ⟨p, (find_iff hb).2 ⟨r, hr, hlane, rfl⟩, (find_iff ht).2 ⟨r', hr', hlane', rfl⟩⟩

/-- The pairs of spans in the comparison of a step -/
def pairsAt (fb ft : LoomFabric) (s : ℕ) : List (LoomSpan × LoomSpan) :=
  (writesAt fb s).filterMap fun e => (mapFind e.1 (writesAt ft s)).map fun x => (e.2, x)

lemma exists_pair_iff (Q : Bool × BitVec 64 → Bool × BitVec 64 → Prop) :
    (∃ q ∈ pairsAt fb ft s, Q (inline q.1) (inline q.2)) ↔
      ∃ x y, Compared fb ft s x y ∧ Q x y := by
  constructor
  · rintro ⟨q, hq, hQ⟩
    obtain ⟨⟨p, x⟩, he, hmap⟩ := List.mem_filterMap.1 hq
    obtain ⟨y, hy, rfl⟩ := Option.map_eq_some_iff.1 hmap
    refine ⟨inline x, inline y, ⟨p, ?_, ?_⟩, hQ⟩
    · rw [mapFind_of_mem (keysSorted_writesAt fb s) he]
      rfl
    · rw [hy]
      rfl
  · rintro ⟨x, y, ⟨p, hx, hy⟩, hQ⟩
    obtain ⟨a, ha, rfl⟩ := Option.map_eq_some_iff.1 hx
    obtain ⟨c, hc, rfl⟩ := Option.map_eq_some_iff.1 hy
    refine ⟨(a, c), List.mem_filterMap.2 ⟨(p, a), mem_of_mapFind ha, ?_⟩, hQ⟩
    rw [hc]
    rfl

lemma takeVerdict_eq :
    (takeVerdict (writesAt fb s) (writesAt ft s)).1 =
      if ((pairsAt fb ft s).filter fun q => q.1.valueValid && q.2.valueValid).any
        (fun q => q.1.value ≠ q.2.value) then .hot
      else if pairsAt fb ft s ≠ [] ∧
          ((pairsAt fb ft s).filter fun q => q.1.valueValid && q.2.valueValid).length =
            (pairsAt fb ft s).length then .dim
      else .neutral :=
  rfl

lemma any_differs_iff :
    (((pairsAt fb ft s).filter fun q => q.1.valueValid && q.2.valueValid).any
      fun q => q.1.value ≠ q.2.value) = true ↔
      ∃ x y, Compared fb ft s x y ∧ x.1 = true ∧ y.1 = true ∧ x.2 ≠ y.2 := by
  rw [← exists_pair_iff fun x y => x.1 = true ∧ y.1 = true ∧ x.2 ≠ y.2]
  simp only [List.any_eq_true, List.mem_filter, Bool.and_eq_true, decide_eq_true_eq, and_assoc,
    inline]

lemma verdict_hot_iff :
    (takeVerdict (writesAt fb s) (writesAt ft s)).1 = .hot ↔
      ∃ x y, Compared fb ft s x y ∧ x.1 = true ∧ y.1 = true ∧ x.2 ≠ y.2 := by
  rw [takeVerdict_eq, ← any_differs_iff]
  split_ifs with h1 h2
  · exact iff_of_true rfl h1
  · exact iff_of_false (by decide) h1
  · exact iff_of_false (by decide) h1

lemma verdict_dim_iff :
    (takeVerdict (writesAt fb s) (writesAt ft s)).1 = .dim ↔
      (∃ x y, Compared fb ft s x y) ∧
        ∀ x y, Compared fb ft s x y → x.1 = true ∧ y.1 = true ∧ x.2 = y.2 := by
  have hne : pairsAt fb ft s ≠ [] ↔ ∃ x y, Compared fb ft s x y := by
    have hiff := @exists_pair_iff fb ft s fun _ _ => True
    simp only [and_true] at hiff
    rw [← hiff]
    exact ⟨fun h => List.exists_mem_of_ne_nil _ h, fun ⟨q, hq⟩ => List.ne_nil_of_mem hq⟩
  have hvalid : ((pairsAt fb ft s).filter fun q => q.1.valueValid && q.2.valueValid).length =
      (pairsAt fb ft s).length ↔
        ¬∃ x y, Compared fb ft s x y ∧ ¬(x.1 = true ∧ y.1 = true) := by
    rw [← exists_pair_iff fun x y => ¬(x.1 = true ∧ y.1 = true),
      List.length_filter_eq_length_iff]
    simp only [Bool.and_eq_true, inline]
    push Not
    rfl
  rw [takeVerdict_eq]
  split_ifs with h1 h2
  · rw [any_differs_iff] at h1
    obtain ⟨x, y, hxy, -, -, hne⟩ := h1
    exact iff_of_false (by decide) fun h => hne (h.2 x y hxy).2.2
  · rw [any_differs_iff] at h1
    rw [hne, hvalid] at h2
    refine iff_of_true rfl ⟨h2.1, fun x y hxy => ?_⟩
    have hboth : x.1 = true ∧ y.1 = true := by
      by_contra hno
      exact h2.2 ⟨x, y, hxy, hno⟩
    refine ⟨hboth.1, hboth.2, ?_⟩
    by_contra hdiff
    exact h1 ⟨x, y, hxy, hboth.1, hboth.2, hdiff⟩
  · rw [hne, hvalid] at h2
    refine iff_of_false (by decide) fun h => h2 ⟨h.1, ?_⟩
    rintro ⟨x, y, hxy, hno⟩
    exact hno ⟨(h.2 x y hxy).1, (h.2 x y hxy).2.1⟩

end Verdict

/-! ## The view -/

section View

variable {b t : WideTrace} {fb ft : LoomFabric}

/-- The closure has the steps that follow from the seeds, and no others. -/
lemma mem_forward_iff {edges : List DefUseEdge} {nsteps : ℕ} {seed : List ℕ} {cone : Finset ℕ}
    (h : forward edges nsteps seed = some cone) (s : ℕ) :
    s ∈ cone ↔ InCone edges nsteps seed s := by
  constructor
  · revert s
    refine Closure.run_sound (P := InCone edges nsteps seed) h ?_ ?_
    · exact fun k hk hlt => ⟨k, hk, hlt, .refl⟩
    · rintro k ⟨s₀, hs₀, hlt, hpath⟩ j hj hjn
      rw [adj, mem_adjOf] at hj
      exact ⟨s₀, hs₀, hlt, hpath.tail ⟨hjn, hj⟩⟩
  · rintro ⟨s₀, hs₀, hlt, hpath⟩
    obtain ⟨out, hout, hseed, hclosed⟩ := forward_spec edges nsteps seed
    rw [h, Option.some.injEq] at hout
    rw [← hout] at hseed hclosed
    induction hpath with
    | refl => exact hseed s₀ hs₀ hlt
    | tail _ hstep ih =>
      obtain ⟨hjn, e, he, rfl, rfl⟩ := hstep
      exact hclosed e he ih hjn

/-- The verdict of a row -/
lemma verdict_takeStep (shared : ℕ) (cone : Finset ℕ) (s : ℕ) (d : TakeVerdict)
    (hd : d ≠ .neutral) :
    (takeStep fb ft shared cone s).verdict = d ↔
      (s ∈ cone ∧ s < shared) ∧ (takeVerdict (writesAt fb s) (writesAt ft s)).1 = d := by
  have hrow : (takeStep fb ft shared cone s).verdict =
      if s ∈ cone ∧ s < shared then (takeVerdict (writesAt fb s) (writesAt ft s)).1
      else .neutral := by
    rw [takeStep]
    dsimp only
    simp only [decide_eq_true_eq, decide_eq_false_iff_not, not_le]
    split_ifs <;> rfl
  rw [hrow]
  split_ifs with hin
  · exact (and_iff_right hin).symm
  · exact iff_of_false (Ne.symm hd) fun h => hin h.1

lemma step_takeStep (shared : ℕ) (cone : Finset ℕ) (s : ℕ) :
    (takeStep fb ft shared cone s).step = s := by
  rw [takeStep]
  dsimp only
  split_ifs <;> rfl

/-- A narrow pair of valid operands has the same bytes if it has the same inline value. -/
lemma sameBytes_of_narrow {r r' : ValRec} (hr : r.valueValid = true) (hr' : r'.valueValid = true)
    (hvalue : r.value = r'.value) (h : Narrow r r') : SameBytes b t r r' := by
  obtain ⟨hw, hw', hsize, hle⟩ := h
  have hle' : r'.size ≤ 8 := hsize ▸ hle
  refine ⟨Endian.leBytes (if r.size = 0 then 8 else r.size) r.value.toNat, ?_, ?_⟩
  · simp [capturedBytes, hr, hw, hle]
  · simp [capturedBytes, hr', hw', hle', hvalue, hsize]

/-- Two operands that are their inline values have other bytes if these differ. -/
lemma otherBytes_of_whole {r r' : ValRec} (hr : r.valueValid = true) (hr' : r'.valueValid = true)
    (hvalue : r.value ≠ r'.value) (h : Whole r r') : OtherBytes b t r r' := by
  obtain ⟨⟨hw, hw', hsize, hle⟩, hwhole⟩ := h
  have hlen : (if r.size = 0 then 8 else r.size) = 8 := by
    rcases hwhole with h0 | h8
    · rw [if_pos h0]
    · rw [h8]
      rfl
  have hlen' : (if r'.size = 0 then 8 else r'.size) = 8 := hsize ▸ hlen
  have hle' : r'.size ≤ 8 := hsize ▸ hle
  refine ⟨Endian.leBytes 8 r.value.toNat, Endian.leBytes 8 r'.value.toNat, ?_, ?_, fun heq => ?_⟩
  · simp [capturedBytes, hr, hw, hle, hlen]
  · simp [capturedBytes, hr', hw', hle', hlen']
  · have hnum := congrArg Endian.ofLe heq
    rw [Endian.ofLe_leBytes (by simpa using r.value.isLt),
      Endian.ofLe_leBytes (by simpa using r'.value.isLt)] at hnum
    exact hvalue (BitVec.eq_of_toNat_eq hnum)

/-- The verdict of a step is right exactly if the inline values tell the bytes. -/
lemma verdict_true_iff (hb : FabricOf b.trace fb) (ht : FabricOf t.trace ft) (s : ℕ) :
    (((takeVerdict (writesAt fb s) (writesAt ft s)).1 = .dim → DimTrue b t s) ∧
      ((takeVerdict (writesAt fb s) (writesAt ft s)).1 = .hot → HotTrue b t s)) ↔
      InlineTells b t s := by
  rw [verdict_dim_iff, verdict_hot_iff]
  constructor
  · rintro ⟨hdim, hhot⟩
    constructor
    · rintro ⟨p, r, r', hshown⟩ hall q w w' hshared -
      refine hdim ⟨⟨_, _, (compared_iff hb ht).2 ⟨p, r, r', hshown, rfl, rfl⟩⟩, ?_⟩ q w w' hshared
      intro x y hxy
      obtain ⟨p, r, r', hshown, rfl, rfl⟩ := (compared_iff hb ht).1 hxy
      exact hall p r r' hshown
    · rintro p r r' hshown hr hr' hne -
      exact hhot ⟨_, _, (compared_iff hb ht).2 ⟨p, r, r', hshown, rfl, rfl⟩, hr, hr', hne⟩
  · rintro ⟨hdim, hhot⟩
    constructor
    · rintro ⟨⟨x, y, hxy⟩, hall⟩ p r r' hshared
      have hshown : ∀ p r r', Shown b t s p r r' →
          r.valueValid = true ∧ r'.valueValid = true ∧ r.value = r'.value :=
        fun p r r' h => hall _ _ ((compared_iff hb ht).2 ⟨p, r, r', h, rfl, rfl⟩)
      obtain ⟨q, w, w', hw, -, -⟩ := (compared_iff hb ht).1 hxy
      by_cases hnarrow : Shown b t s p r r' ∧ Narrow r r'
      · obtain ⟨hr, hr', hvalue⟩ := hshown p r r' hnarrow.1
        exact sameBytes_of_narrow hr hr' hvalue hnarrow.2
      · exact hdim ⟨q, w, w', hw⟩ hshown p r r' hshared hnarrow
    · rintro ⟨x, y, hxy, hx, hy, hne⟩
      obtain ⟨p, r, r', hshown, rfl, rfl⟩ := (compared_iff hb ht).1 hxy
      by_cases hwhole : Whole r r'
      · exact ⟨p, r, r', hshown.1, otherBytes_of_whole hx hy hne hwhole⟩
      · exact hhot p r r' hshown hx hy hne hwhole

lemma insnOff_length_of_build {v : ValTrace} {g : DefUse} {prov : LoomProvenance} {f : LoomFabric}
    (h : loomFabricBuild v g prov = .ok f) :
    f.insnOff.length = f.steps ∧ f.insnOff.length < 2 ^ 32 := by
  have hsteps : fabricSteps v < 2 ^ 32 := by
    have hfold : ∀ (l : List ValRec) (n : ℕ), n < 2 ^ 32 →
        l.foldl (fun n r => max n ((r.step + 1) % 2 ^ 32)) n < 2 ^ 32 := by
      intro l
      induction l with
      | nil => exact fun n hn => hn
      | cons r l ih => exact fun n hn => ih _ (max_lt hn (Nat.mod_lt _ (by decide)))
    exact hfold _ _ (Nat.mod_lt _ (by decide))
  rw [loomFabricBuild] at h
  split_ifs at h
  cases h
  dsimp only
  rw [List.length_map, List.length_range]
  exact ⟨rfl, hsteps⟩

/-- The verdicts of a view are right exactly if at every step in the shared prefix and the cone the
inline values tell the bytes. -/
theorem take_verdicts_iff (b t : WideTrace) {gb gt : DefUse} {pb pt : LoomProvenance}
    {fb ft : LoomFabric} (hb : loomFabricBuild b.trace gb pb = .ok fb)
    (ht : loomFabricBuild t.trace gt pt = .ok ft)
    (hlanes : (fabricLanes b.trace).length < 2 ^ 32)
    (hlanes' : (fabricLanes t.trace).length < 2 ^ 32) (baseTruncated takeTruncated : Bool)
    (edges : List DefUseEdge) (edit : LoomEditDesc) (fault err : String) :
    ∃ view, loomTakeView fb ft baseTruncated takeTruncated edges edit fault err = some view ∧
      (VerdictsTrue b t view ↔ ∀ s, Viewed fb ft edges edit s → InlineTells b t s) := by
  obtain ⟨hfl, hfs, -⟩ := fields_of_build hb
  obtain ⟨hfl', hfs', -⟩ := fields_of_build ht
  have hfb : FabricOf b.trace fb := ⟨hfl, hfs, hlanes⟩
  have hft : FabricOf t.trace ft := ⟨hfl', hfs', hlanes'⟩
  obtain ⟨hlen, hlt⟩ := insnOff_length_of_build hb
  by_cases hzero : ft.steps = 0
  · rw [loomTakeView]
    dsimp only
    rw [if_pos hzero]
    refine ⟨_, rfl, iff_of_true (fun row hrow => absurd hrow List.not_mem_nil) ?_⟩
    rintro s ⟨-, s₀, -, hs₀, -⟩
    omega
  · have hshared := @sharedPrefix_eq fb ft baseTruncated takeTruncated _ rfl hlt
    obtain ⟨cone, hcone, -, -⟩ := forward_spec edges ft.steps
      (takeSeed edit ft (agreeing fb.insnOff ft.insnOff))
    have hmem := mem_forward_iff hcone
    rw [loomTakeView]
    dsimp only
    rw [if_neg hzero, hshared, hcone]
    refine ⟨_, rfl, ?_⟩
    rw [VerdictsTrue]
    dsimp only
    rw [List.forall_mem_map]
    simp only [step_takeStep, verdict_takeStep _ _ _ .dim (by decide),
      verdict_takeStep _ _ _ .hot (by decide)]
    constructor
    · rintro hall s ⟨hs, hin⟩
      have hstep : s < fb.steps := by
        have := (agreeing_spec fb.insnOff ft.insnOff).1
        omega
      obtain ⟨hdim, hhot⟩ := hall s (List.mem_range.2 hstep)
      exact (verdict_true_iff hfb hft s).1
        ⟨fun hv => hdim ⟨⟨(hmem s).2 hin, hs⟩, hv⟩, fun hv => hhot ⟨⟨(hmem s).2 hin, hs⟩, hv⟩⟩
    · intro hall s _
      constructor
      · rintro ⟨⟨hin, hs⟩, hv⟩
        exact ((verdict_true_iff hfb hft s).2 (hall s ⟨hs, (hmem s).1 hin⟩)).1 hv
      · rintro ⟨⟨hin, hs⟩, hv⟩
        exact ((verdict_true_iff hfb hft s).2 (hall s ⟨hs, (hmem s).1 hin⟩)).2 hv

end View

section Sample

/-- One step with one record -/
def oneStep (r : ValRec) (wide : List UInt8) (h : r.size < 2 ^ 16) : WideTrace where
  trace := ⟨[0], 1, 1, [r], 1, 1, false, .memAbs⟩
  wide
  size_lt := fun _ hq => List.mem_singleton.1 hq ▸ h

/-- `mov eax, 5` -/
def raxWrite : ValRec :=
  { kind := .reg, reg := 35, isWrite := true, valueValid := true, value := 5 }

/-- `movdqu xmm0, [rdi]` -/
def xmmWrite : ValRec :=
  { kind := .reg, reg := 122, size := 16, isWrite := true, valueValid := true, wide := true }

def raxStep : WideTrace :=
  oneStep raxWrite [] (by decide)

def xmmStep (n : UInt8) : WideTrace :=
  oneStep xmmWrite (List.replicate 16 n) (by decide)

/-- The edit before the only step -/
def firstStepEdit : LoomEditDesc :=
  { fromStepEdit := true }

theorem take_verdicts_rax :
    ∃ f view, loomFabricBuild raxStep.trace ⟨[], 1⟩ exactProv = .ok f ∧
      loomTakeView f f false false [] firstStepEdit "" "" = some view ∧
      VerdictsTrue raxStep raxStep view := by
  obtain ⟨view, hview, hiff⟩ := @take_verdicts_iff raxStep raxStep ⟨[], 1⟩ ⟨[], 1⟩ exactProv
    exactProv _ _ rfl rfl (by decide +kernel) (by decide +kernel) false false [] firstStepEdit "" ""
  refine ⟨_, view, rfl, hview, hiff.2 fun s _ => ?_⟩
  have hrec : ∀ p r, lastAt raxStep.trace s p = some r → r = raxWrite := by
    intro p r hr
    have hmem := List.mem_of_mem_filter (List.mem_of_mem_filter (List.mem_of_getLast? hr))
    exact List.mem_singleton.1 hmem
  constructor
  · rintro - - p r r' ⟨hr, hr'⟩ -
    rw [hrec p r hr, hrec p r' hr']
    exact ⟨_, rfl, rfl⟩
  · rintro p r r' ⟨⟨hr, hr'⟩, -⟩ - - hne
    rw [hrec p r hr, hrec p r' hr'] at hne
    exact absurd rfl hne

/-- Two steps that write different bytes to `xmm0` are called equal. -/
theorem take_verdicts_xmm :
    ∃ f view, loomFabricBuild (xmmStep 1).trace ⟨[], 1⟩ exactProv = .ok f ∧
      loomFabricBuild (xmmStep 2).trace ⟨[], 1⟩ exactProv = .ok f ∧
      loomTakeView f f false false [] firstStepEdit "" "" = some view ∧
      view.steps = [⟨0, .dim, true, false, false⟩] ∧
      ¬VerdictsTrue (xmmStep 1) (xmmStep 2) view := by
  refine ⟨_, _, rfl, rfl, rfl, by decide +kernel, fun h => ?_⟩
  have hdim := (h ⟨0, .dim, true, false, false⟩ (by decide +kernel)).1 rfl
  obtain ⟨bytes, h1, h2⟩ := hdim (toLex (0, toLex (122, 0))) xmmWrite xmmWrite
    ⟨by decide +kernel, by decide +kernel⟩
  have hones : capturedBytes (xmmStep 1).wide xmmWrite = some (List.replicate 16 1) := by
    decide +kernel
  have htwos : capturedBytes (xmmStep 2).wide xmmWrite = some (List.replicate 16 2) := by
    decide +kernel
  rw [hones, Option.some.injEq] at h1
  rw [htwos, Option.some.injEq, ← h1] at h2
  exact absurd h2 (by decide)

end Sample

end AsmTest.Loom
