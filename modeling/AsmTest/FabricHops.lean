import AsmTest.Fabric

/-!
# Hops of the fabric

Every def-use edge has its hop. Records that share a key of the last-writer map are on one lane, so
the lane of the read record holds a span of the step the edge starts at.
-/

namespace AsmTest.Loom

open Lib
open Dataflow (ValRec ValTrace DefUse DefUseEdge LocKind regSlice defuseBuild footprint lwKeys
  groupAt appendAll valtraceNew)

section Bands

instance : Std.Total rangeLe where
  total a b := by
    rw [rangeLe, rangeLe]
    omega

instance : IsTrans MemRange rangeLe where
  trans a b c := by
    rw [rangeLe, rangeLe, rangeLe]
    omega

/-- Well inside the address space: neither the end of the range nor the gap behind it wraps. -/
def MemRange.Ok (r : MemRange) : Prop :=
  r.lo < r.hi ∧ r.hi + kBandGap < 2 ^ 64

/-- Every range lies in a band, and the bands are apart. -/
lemma coalesce_spec (cur : MemRange) (rs : List MemRange) (hcur : cur.Ok) (hrs : ∀ r ∈ rs, r.Ok)
    (hlo : ∀ r ∈ rs, cur.lo ≤ r.lo) (hsorted : rs.Pairwise fun a b => a.lo ≤ b.lo) :
    (∀ r ∈ cur :: rs, ∃ b ∈ coalesce cur rs, b.lo ≤ r.lo ∧ r.hi ≤ b.hi) ∧
      (coalesce cur rs).Pairwise (fun a b => a.hi < b.lo) ∧
      ∀ b ∈ coalesce cur rs, cur.lo ≤ b.lo ∧ b.lo < b.hi := by
  -- the next range is merged into `cur` or begins a band of its own
  induction rs generalizing cur with
  | nil =>
    rw [coalesce]
    refine ⟨fun r hr => ⟨cur, List.mem_singleton_self _, ?_⟩, List.pairwise_singleton _ _, ?_⟩
    · rw [List.mem_singleton.1 hr]
      exact ⟨le_rfl, le_rfl⟩
    · intro b hb
      rw [List.mem_singleton.1 hb]
      exact ⟨le_rfl, hcur.1⟩
  | cons r rs ih =>
    rw [List.forall_mem_cons] at hrs hlo
    rw [List.pairwise_cons] at hsorted
    have hmod : (cur.hi + kBandGap) % 2 ^ 64 = cur.hi + kBandGap := Nat.mod_eq_of_lt hcur.2
    rw [coalesce, hmod]
    obtain ⟨hc1, hc2⟩ := hcur
    obtain ⟨hr1, hr2⟩ := hrs.1
    split_ifs with hgap
    · have hok : MemRange.Ok ⟨cur.lo, max cur.hi r.hi, min cur.firstStep r.firstStep⟩ := by
        refine ⟨?_, ?_⟩ <;> dsimp only <;> omega
      obtain ⟨hin, hapart, hbelow⟩ := ih _ hok hrs.2 hlo.2 hsorted.2
      refine ⟨?_, hapart, hbelow⟩
      obtain ⟨⟨b, hb, hb1, hb2⟩, hin⟩ := List.forall_mem_cons.1 hin
      dsimp only at hb1 hb2
      rw [List.forall_mem_cons, List.forall_mem_cons]
      exact ⟨⟨b, hb, hb1, by omega⟩, ⟨b, hb, by omega, by omega⟩, hin⟩
    · obtain ⟨hin, hapart, hbelow⟩ := ih r ⟨hr1, hr2⟩ hrs.2 hsorted.1 hsorted.2
      refine ⟨?_, ?_, ?_⟩
      · rw [List.forall_mem_cons]
        refine ⟨⟨cur, List.mem_cons_self, le_rfl, le_rfl⟩, fun x hx => ?_⟩
        obtain ⟨b, hb, hb'⟩ := hin x hx
        exact ⟨b, List.mem_cons_of_mem _ hb, hb'⟩
      · refine List.pairwise_cons.2 ⟨fun b hb => ?_, hapart⟩
        have := (hbelow b hb).1
        omega
      · rw [List.forall_mem_cons]
        refine ⟨⟨le_rfl, hc1⟩, fun b hb => ?_⟩
        have := hbelow b hb
        omega

/-- Two bands that share an address are the same band. -/
def Apart (bands : List MemRange) : Prop :=
  ∀ a ∈ bands, ∀ b ∈ bands, ∀ x, a.lo ≤ x → x < a.hi → b.lo ≤ x → x < b.hi → a = b

lemma apart_of_pairwise {bands : List MemRange} (h : bands.Pairwise fun a b => a.hi < b.lo) :
    Apart bands := by
  intro a ha b hb x h1 h2 h3 h4
  obtain ⟨i, hi, rfl⟩ := List.mem_iff_getElem.1 ha
  obtain ⟨j, hj, rfl⟩ := List.mem_iff_getElem.1 hb
  rw [List.pairwise_iff_getElem] at h
  rcases lt_trichotomy i j with hij | rfl | hij
  · have := h i j hi hj hij
    omega
  · rfl
  · have := h j i hj hi hij
    omega

/-- The trace stays clear of the end of the address space. -/
def ClearOfTop (recs : List ValRec) : Prop :=
  ∀ r ∈ recs, r.kind ≠ .reg → r.addr.toNat + recWidth r + kBandGap < 2 ^ 64

lemma recWidth_pos (r : ValRec) : 0 < recWidth r := by
  rw [recWidth]
  split_ifs with h
  · exact Nat.pos_of_ne_zero h
  · exact Nat.one_pos

lemma recHi_eq {recs : List ValRec} (h : ClearOfTop recs) {r : ValRec} (hr : r ∈ recs)
    (hk : r.kind ≠ .reg) : recHi r = r.addr.toNat + recWidth r := by
  have := h r hr hk
  rw [recHi, Nat.mod_eq_of_lt (by omega)]

lemma memBands_spec {recs : List ValRec} (h : ClearOfTop recs) :
    (∀ r ∈ recs, r.kind ≠ .reg →
      ∃ b ∈ memBands recs, b.lo ≤ r.addr.toNat ∧ r.addr.toNat + recWidth r ≤ b.hi) ∧
    Apart (memBands recs) ∧ ∀ b ∈ memBands recs, b.lo < b.hi := by
  have hok : ∀ m ∈ memRanges recs, m.Ok := by
    intro m hm
    obtain ⟨r, hr, rfl⟩ := List.mem_map.1 hm
    rw [List.mem_filter, decide_eq_true_eq] at hr
    have hlt := h r hr.1 hr.2
    have hpos := recWidth_pos r
    rw [MemRange.Ok, memRange, recHi_eq h hr.1 hr.2]
    dsimp only
    omega
  have hperm := List.perm_insertionSort rangeLe (memRanges recs)
  have hmem : ∀ r ∈ recs, r.kind ≠ .reg → memRange r ∈ (memRanges recs).insertionSort rangeLe := by
    intro r hr hk
    refine hperm.mem_iff.2 (List.mem_map_of_mem (List.mem_filter.2 ⟨hr, by simpa using hk⟩))
  have hsorted : ((memRanges recs).insertionSort rangeLe).Pairwise fun a b => a.lo ≤ b.lo := by
    refine (List.pairwise_insertionSort rangeLe _).imp fun hab => ?_
    rw [rangeLe] at hab
    omega
  rw [memBands]
  split
  next heq =>
    rw [heq] at hmem
    exact ⟨fun r hr hk => absurd (hmem r hr hk) List.not_mem_nil,
      fun a ha => absurd ha List.not_mem_nil, fun a ha => absurd ha List.not_mem_nil⟩
  next m ms heq =>
    rw [heq] at hmem hsorted hperm
    have hall : ∀ x ∈ m :: ms, x.Ok := fun x hx => hok x (hperm.mem_iff.1 hx)
    rw [List.forall_mem_cons] at hall
    rw [List.pairwise_cons] at hsorted
    obtain ⟨hin, hapart, hpos⟩ := coalesce_spec m ms hall.1 hall.2 hsorted.1 hsorted.2
    have hbperm := List.perm_insertionSort bandLe (coalesce m ms)
    refine ⟨fun r hr hk => ?_, ?_, fun b hb => (hpos b (hbperm.mem_iff.1 hb)).2⟩
    · obtain ⟨b, hb, hb1, hb2⟩ := hin _ (hmem r hr hk)
      rw [memRange] at hb1 hb2
      dsimp only at hb1 hb2
      rw [recHi_eq h hr hk] at hb2
      exact ⟨b, hbperm.mem_iff.2 hb, hb1, hb2⟩
    · intro a ha b hb
      exact apart_of_pairwise hapart a (hbperm.mem_iff.1 ha) b (hbperm.mem_iff.1 hb)

end Bands

section LaneOf

lemma loomFoldReg_of_regSlice {reg : BitVec 32} {s : Dataflow.RegSlice}
    (h : regSlice reg = some s) : loomFoldReg reg.toNat = s.container := by
  have hall : ∀ c ∈ Dataflow.containerCases, ∀ n ∈ c.2, loomFoldReg n = c.1 := by decide
  simp only [regSlice, Option.bind_eq_bind, Option.bind_eq_some_iff, Option.pure_def,
    Option.some.injEq] at h
  obtain ⟨c, hc, p, -, rfl⟩ := h
  obtain ⟨e, he, rfl⟩ := Option.map_eq_some_iff.1 hc
  have hmem := List.find?_some he
  exact hall e (List.mem_of_find?_eq_some he) _ (of_decide_eq_true hmem)

/-- One record's step of `regFirst`. -/
def firstTouch (m : List (ℕ × ℕ)) (r : ValRec) : List (ℕ × ℕ) :=
  let c := loomFoldReg r.reg.toNat
  match mapFind c m with
  | none => mapInsert c r.step m
  | some s => mapInsert c (min s r.step) m

lemma regFirst_eq (recs : List ValRec) :
    regFirst recs = (recs.filter fun r => r.kind = .reg).foldl firstTouch [] := rfl

lemma mem_regFirst {recs : List ValRec} {r : ValRec} (hr : r ∈ recs) (hk : r.kind = .reg) :
    (mapFind (loomFoldReg r.reg.toNat) (regFirst recs)).isSome := by
  have hacc : ∀ (l : List ValRec) (m : List (ℕ × ℕ)) (c : ℕ),
      (mapFind c m).isSome ∨ (∃ r ∈ l, loomFoldReg r.reg.toNat = c) →
      (mapFind c (l.foldl firstTouch m)).isSome := by
    intro l
    induction l with
    | nil =>
      rintro m c (h | ⟨r, hr, -⟩)
      · exact h
      · exact absurd hr List.not_mem_nil
    | cons x l ih =>
      intro m c h
      rw [List.foldl_cons]
      refine ih _ c ?_
      dsimp only [firstTouch]
      by_cases hx : loomFoldReg x.reg.toNat = c
      · left
        split <;> simp [hx]
      · rcases h with h | ⟨r, hr, hc⟩
        · left
          split <;> simpa [Ne.symm hx] using h
        · rcases List.mem_cons.1 hr with rfl | hr
          · exact absurd hc hx
          · exact .inr ⟨r, hr, hc⟩
  rw [regFirst_eq]
  exact hacc _ [] _ (.inr ⟨r, List.mem_filter.2 ⟨hr, by simpa using hk⟩, rfl⟩)

/-- Every register that a record names has a lane. -/
lemma exists_regLane {v : ValTrace} {r : ValRec} (hr : r ∈ v.recs) (hk : r.kind = .reg) :
    ∃ l ∈ fabricLanes v, onLane r l = true := by
  obtain ⟨s, hs⟩ := Option.isSome_iff_exists.1 (mem_regFirst hr hk)
  refine ⟨regLane (loomFoldReg r.reg.toNat) s, ?_, by simp [onLane, hk, regLane]⟩
  rw [fabricLanes]
  by_cases hdeck : loomFoldReg r.reg.toNat ∈ loomRegDeck
  · refine List.mem_append_left _ (List.mem_append_left _ (List.mem_filterMap.2 ⟨_, hdeck, ?_⟩))
    rw [hs, Option.map_some]
  · refine List.mem_append_left _ (List.mem_append_right _ ?_)
    refine List.mem_map.2 ⟨(loomFoldReg r.reg.toNat, s), ?_, rfl⟩
    rw [List.mem_insertionSort]
    exact List.mem_filter.2 ⟨mem_of_mapFind hs, by simpa using hdeck⟩

lemma mem_fabricLanes_memBand {v : ValTrace} {l : LoomLane} (hl : l ∈ fabricLanes v)
    (hk : l.kind = .memBand) : ∃ b ∈ memBands v.recs, l.lo = b.lo ∧ l.hi = b.hi := by
  rw [fabricLanes] at hl
  rcases List.mem_append.1 hl with hl | hl
  · have hreg : l.kind = .reg := by
      rcases List.mem_append.1 hl with hl | hl
      · obtain ⟨c, -, hc⟩ := List.mem_filterMap.1 hl
        obtain ⟨s, -, rfl⟩ := Option.map_eq_some_iff.1 hc
        rfl
      · obtain ⟨e, -, rfl⟩ := List.mem_map.1 hl
        rfl
    rw [hreg] at hk
    cases hk
  · obtain ⟨b, hb, rfl⟩ := List.mem_map.1 hl
    exact ⟨b, hb, rfl, rfl⟩

/-- A record touches the band it lies in and no other. -/
lemma onLane_mem_iff {v : ValTrace} (htop : ClearOfTop v.recs) {r : ValRec} (hr : r ∈ v.recs)
    (hk : r.kind ≠ .reg) {l : LoomLane} (hl : l ∈ fabricLanes v) :
    onLane r l = true ↔ l.kind = .memBand ∧ l.lo ≤ r.addr.toNat ∧ r.addr.toNat < l.hi := by
  have hpos := recWidth_pos r
  simp only [onLane, if_neg hk, decide_eq_true_eq, recHi_eq htop hr hk]
  constructor
  · rintro ⟨hkind, h1, h2⟩
    obtain ⟨hin, hapart, hband⟩ := memBands_spec htop
    obtain ⟨b, hb, hb1, hb2⟩ := hin r hr hk
    obtain ⟨b', hb', hlo, hhi⟩ := mem_fabricLanes_memBand hl hkind
    have hpos' := hband b' hb'
    -- the larger of the two starts is in both ranges
    obtain rfl := hapart b hb b' hb' (max r.addr.toNat b'.lo) (by omega) (by omega) (by omega)
      (by omega)
    exact ⟨hkind, by omega, by omega⟩
  · rintro ⟨hkind, h1, h2⟩
    exact ⟨hkind, h2, by omega⟩

lemma exists_lane {v : ValTrace} (htop : ClearOfTop v.recs) {r : ValRec} (hr : r ∈ v.recs) :
    ∃ l ∈ fabricLanes v, onLane r l = true := by
  by_cases hk : r.kind = .reg
  · exact exists_regLane hr hk
  · obtain ⟨b, hb, hb1, hb2⟩ := (memBands_spec htop).1 r hr hk
    have hpos := recWidth_pos r
    refine ⟨bandLane _ b, List.mem_append_right _ (List.mem_map_of_mem hb), ?_⟩
    simp only [onLane, if_neg hk, decide_eq_true_eq, recHi_eq htop hr hk, bandLane]
    exact ⟨trivial, by omega, by omega⟩

/-- An address of the record -/
def Covers (r : ValRec) (a : ℕ) : Prop :=
  r.addr.toNat ≤ a ∧ a < r.addr.toNat + recWidth r

/-- Two records meet: in a register container, or in a byte of memory. -/
def Meet (w r : ValRec) : Prop :=
  if r.kind = .reg then w.kind = .reg ∧ loomFoldReg w.reg.toNat = loomFoldReg r.reg.toNat
  else w.kind ≠ .reg ∧ ∃ a, Covers w a ∧ Covers r a

/-- Records that meet are on the same lanes. -/
lemma onLane_congr {v : ValTrace} (htop : ClearOfTop v.recs) {w r : ValRec} (hw : w ∈ v.recs)
    (hr : r ∈ v.recs) (hmeet : Meet w r) {l : LoomLane} (hl : l ∈ fabricLanes v) :
    onLane w l = onLane r l := by
  rw [Meet] at hmeet
  split_ifs at hmeet with hk
  · simp only [onLane, if_pos hk, if_pos hmeet.1, hmeet.2]
  · obtain ⟨hkw, a, ⟨hwa, hwa'⟩, hra, hra'⟩ := hmeet
    obtain ⟨hin, hapart, -⟩ := memBands_spec htop
    -- the byte that they share is in one band only
    have hband : ∀ x ∈ v.recs, x.kind ≠ .reg → x.addr.toNat ≤ a →
        a < x.addr.toNat + recWidth x →
        (onLane x l = true ↔ l.kind = .memBand ∧ l.lo ≤ a ∧ a < l.hi) := by
      intro x hx hkx hxa hxa'
      rw [onLane_mem_iff htop hx hkx hl]
      obtain ⟨b, hb, hb1, hb2⟩ := hin x hx hkx
      constructor
      · rintro ⟨hkind, h1, h2⟩
        obtain ⟨b', hb', hlo, hhi⟩ := mem_fabricLanes_memBand hl hkind
        obtain rfl := hapart b hb b' hb' x.addr.toNat (by omega) (by omega) (by omega) (by omega)
        exact ⟨hkind, by omega, by omega⟩
      · rintro ⟨hkind, h1, h2⟩
        obtain ⟨b', hb', hlo, hhi⟩ := mem_fabricLanes_memBand hl hkind
        obtain rfl := hapart b hb b' hb' a (by omega) (by omega) (by omega) (by omega)
        exact ⟨hkind, by omega, by omega⟩
    rw [Bool.eq_iff_iff, hband w hw hkw hwa hwa', hband r hr hk hra hra']

lemma findIdx?_congr {α : Type} {p q : α → Bool} {l : List α} (h : ∀ x ∈ l, p x = q x) :
    l.findIdx? p = l.findIdx? q := by
  induction l with
  | nil => rfl
  | cons a l ih =>
    rw [List.forall_mem_cons] at h
    rw [List.findIdx?_cons, List.findIdx?_cons, h.1, ih h.2]

lemma laneOf_congr {v : ValTrace} (htop : ClearOfTop v.recs) {w r : ValRec} (hw : w ∈ v.recs)
    (hr : r ∈ v.recs) (hmeet : Meet w r) :
    laneOf (fabricLanes v) w = laneOf (fabricLanes v) r := by
  rw [laneOf, laneOf, findIdx?_congr fun l hl => onLane_congr htop hw hr hmeet hl]

/-- A lane that is found is one that the record touches. -/
lemma onLane_of_laneOf {lanes : List LoomLane} (hlen : lanes.length < 2 ^ 32) {r : ValRec}
    (h : laneOf lanes r ≠ kLoomNoSpan) :
    ∃ l, lanes[laneOf lanes r]? = some l ∧ onLane r l = true := by
  rw [laneOf] at h ⊢
  cases hidx : lanes.findIdx? (onLane r) with
  | none => exact absurd (by rw [hidx]) h
  | some i =>
    obtain ⟨hi, hon, -⟩ := List.findIdx?_eq_some_iff_getElem.1 hidx
    simp only [Nat.mod_eq_of_lt (hi.trans hlen)]
    exact ⟨lanes[i], List.getElem?_eq_getElem hi, hon⟩

lemma laneOf_ne {v : ValTrace} (htop : ClearOfTop v.recs) (hlen : (fabricLanes v).length < 2 ^ 32)
    {r : ValRec} (hr : r ∈ v.recs) : laneOf (fabricLanes v) r ≠ kLoomNoSpan := by
  rw [laneOf]
  cases hidx : (fabricLanes v).findIdx? (onLane r) with
  | none =>
    obtain ⟨l, hl, hon⟩ := exists_lane htop hr
    rw [List.findIdx?_eq_none_iff] at hidx
    rw [hidx l hl] at hon
    cases hon
  | some i =>
    obtain ⟨hi, -⟩ := List.findIdx?_eq_some_iff_getElem.1 hidx
    simp only [Nat.mod_eq_of_lt (hi.trans hlen), kLoomNoSpan]
    omega

end LaneOf

section Spans

/-- What a span keeps of the write it comes from -/
structure FromWrite (lanes : List LoomLane) (recs : List ValRec) (s : LoomSpan) (w : ValRec) :
    Prop where
  record : recs[s.recIdx]? = some w
  isWrite : w.isWrite = true
  lane : s.lane = laneOf lanes w
  found : laneOf lanes w ≠ kLoomNoSpan
  step : s.tWrite = w.step
  lo : w.kind ≠ .reg → s.lo = w.addr.toNat
  hi : w.kind ≠ .reg → s.hi = recHi w
  valueValid : s.valueValid = w.valueValid
  value : s.value = w.value
  traced : s.bornUntraced = false

lemma fromWrite_of_writeSpan {lanes : List LoomLane} {recs : List ValRec} {w : ValRec} {i : ℕ}
    {s : LoomSpan} (hi : recs[i]? = some w) (h : writeSpan lanes w i = some s) :
    FromWrite lanes recs s w := by
  rw [writeSpan] at h
  by_cases hcond : w.isWrite = false ∨ laneOf lanes w = kLoomNoSpan
  · rw [if_pos hcond] at h
    cases h
  · rw [if_neg hcond] at h
    obtain rfl := Option.some.inj h
    rw [not_or] at hcond
    exact ⟨hi, by simpa using hcond.1, rfl, hcond.2, rfl, fun hk => if_neg hk, fun hk => if_neg hk,
      rfl, rfl, rfl⟩

lemma fromWrite_of_mem_writeSpans {lanes : List LoomLane} {recs : List ValRec} {s : LoomSpan}
    (h : s ∈ writeSpans lanes recs) : ∃ w, FromWrite lanes recs s w := by
  obtain ⟨⟨w, i⟩, hmem, hs⟩ := List.mem_filterMap.1 h
  exact ⟨w, fromWrite_of_writeSpan (List.mem_zipIdx_iff_getElem?.1 hmem) hs⟩

lemma exists_writeSpan {lanes : List LoomLane} {recs : List ValRec} {i : ℕ} {w : ValRec}
    (hi : recs[i]? = some w) (hwr : w.isWrite = true) (hlane : laneOf lanes w ≠ kLoomNoSpan) :
    ∃ s ∈ writeSpans lanes recs, s.recIdx = i ∧ FromWrite lanes recs s w := by
  have hspan : writeSpan lanes w i = some _ := if_neg (by simp [hwr, hlane])
  refine ⟨_, List.mem_filterMap.2 ⟨(w, i), ?_, hspan⟩, rfl, fromWrite_of_writeSpan hi hspan⟩
  exact List.mem_zipIdx_iff_getElem?.2 hi

lemma entrySpan_born {lanes : List LoomLane} {recs : List ValRec} {writes : List LoomSpan}
    {lane : ℕ} {s : LoomSpan} (h : entrySpan lanes recs writes lane = some s) :
    s.bornUntraced = true ∧ s.lane = lane ∧ s.tWrite = 0 ∧
      s.tEnd = ((writes.filter fun s => s.lane = lane).map LoomSpan.tWrite).foldl min kLoomAlive := by
  rw [entrySpan] at h
  split at h
  · split_ifs at h
    obtain rfl := Option.some.inj h
    exact ⟨rfl, rfl, rfl, rfl⟩
  · cases h

/-- The spans in order, before their ends are known -/
def sortedSpans (lanes : List LoomLane) (recs : List ValRec) : List LoomSpan :=
  (writeSpans lanes recs ++ (List.range lanes.length).filterMap
    (entrySpan lanes recs (writeSpans lanes recs))).insertionSort spanLe

lemma fabricSpans_eq (lanes : List LoomLane) (recs : List ValRec) :
    fabricSpans lanes recs =
      (sortedSpans lanes recs).map (closeSpan lanes (sortedSpans lanes recs)) :=
  rfl

lemma mem_sortedSpans {lanes : List LoomLane} {recs : List ValRec} {s : LoomSpan} :
    s ∈ sortedSpans lanes recs ↔ s ∈ writeSpans lanes recs ∨
      ∃ lane < lanes.length, entrySpan lanes recs (writeSpans lanes recs) lane = some s := by
  rw [sortedSpans, List.mem_insertionSort, List.mem_append, List.mem_filterMap]
  simp only [List.mem_range]

lemma closeSpan_keeps (lanes : List LoomLane) (spans : List LoomSpan) (s : LoomSpan) :
    ∃ e, closeSpan lanes spans s = { s with tEnd := e } := by
  rw [closeSpan]
  split_ifs
  · exact ⟨s.tEnd, rfl⟩
  · exact ⟨_, rfl⟩

lemma FromWrite.close {lanes : List LoomLane} {recs : List ValRec} {spans : List LoomSpan}
    {s : LoomSpan} {w : ValRec} (h : FromWrite lanes recs s w) :
    FromWrite lanes recs (closeSpan lanes spans s) w := by
  obtain ⟨e, he⟩ := closeSpan_keeps lanes spans s
  rw [he]
  exact ⟨h.record, h.isWrite, h.lane, h.found, h.step, h.lo, h.hi, h.valueValid, h.value, h.traced⟩

/-- A span that was not there from the start comes from a write. -/
lemma exists_fromWrite {lanes : List LoomLane} {recs : List ValRec} {s : LoomSpan}
    (hs : s ∈ fabricSpans lanes recs) (hborn : s.bornUntraced = false) :
    ∃ w, FromWrite lanes recs s w := by
  rw [fabricSpans_eq] at hs
  obtain ⟨s₀, hs₀, rfl⟩ := List.mem_map.1 hs
  rcases mem_sortedSpans.1 hs₀ with hs₀ | ⟨lane, -, hs₀⟩
  · obtain ⟨w, hw⟩ := fromWrite_of_mem_writeSpans hs₀
    exact ⟨w, hw.close⟩
  · obtain ⟨e, he⟩ := closeSpan_keeps lanes (sortedSpans lanes recs) s₀
    rw [he] at hborn
    rw [(entrySpan_born hs₀).1] at hborn
    cases hborn

/-- Every write that is on a lane has its span. -/
lemma exists_span_of_write {lanes : List LoomLane} {recs : List ValRec} {i : ℕ} {w : ValRec}
    (hi : recs[i]? = some w) (hwr : w.isWrite = true) (hlane : laneOf lanes w ≠ kLoomNoSpan) :
    ∃ s ∈ fabricSpans lanes recs, s.recIdx = i ∧ FromWrite lanes recs s w := by
  obtain ⟨s, hs, hidx, hfrom⟩ := exists_writeSpan hi hwr hlane
  obtain ⟨e, he⟩ := closeSpan_keeps lanes (sortedSpans lanes recs) s
  rw [fabricSpans_eq]
  refine ⟨_, List.mem_map_of_mem (mem_sortedSpans.2 (.inl hs)), ?_, hfrom.close⟩
  rw [he]
  exact hidx

instance : Std.Total spanLe where
  total a b := by
    rw [spanLe, spanLe]
    omega

instance : IsTrans LoomSpan spanLe where
  trans a b c := by
    rw [spanLe, spanLe, spanLe]
    omega

/-- A span that stands later in the list does not come before. -/
lemma spanLe_of_le {lanes : List LoomLane} {recs : List ValRec} {j k : ℕ} {s s' : LoomSpan}
    (hjk : j ≤ k) (hs : (fabricSpans lanes recs)[j]? = some s)
    (hs' : (fabricSpans lanes recs)[k]? = some s') : spanLe s s' := by
  have hsorted : (fabricSpans lanes recs).Pairwise spanLe := by
    rw [fabricSpans_eq, List.pairwise_map]
    apply (List.pairwise_insertionSort spanLe _).imp
    intro a b hab
    obtain ⟨ea, ha⟩ := closeSpan_keeps lanes (sortedSpans lanes recs) a
    obtain ⟨eb, hb⟩ := closeSpan_keeps lanes (sortedSpans lanes recs) b
    rw [ha, hb]
    exact hab
  obtain ⟨hj, rfl⟩ := List.getElem?_eq_some_iff.1 hs
  obtain ⟨hk, rfl⟩ := List.getElem?_eq_some_iff.1 hs'
  rcases Nat.lt_or_eq_of_le hjk with hlt | rfl
  · exact List.pairwise_iff_getElem.1 hsorted j k hj hk hlt
  · exact .inr ⟨rfl, .inr ⟨rfl, le_rfl⟩⟩

end Spans

section Hops

/-- The last span that passes a test, or none does. -/
lemma lastSpan_spec (p : LoomSpan → Bool) {spans : List LoomSpan} (hlen : spans.length < 2 ^ 32) :
    (lastSpan p spans = kLoomNoSpan ∧ ∀ s ∈ spans, p s = false) ∨
      ∃ s, spans[lastSpan p spans]? = some s ∧ p s = true ∧
        lastSpan p spans ≠ kLoomNoSpan ∧
        ∀ (j : ℕ) s', lastSpan p spans < j → spans[j]? = some s' → p s' = false := by
  -- a span added at the end is the last that passes, or changes nothing
  induction spans using List.reverseRecOn with
  | nil => exact .inl ⟨rfl, by simp⟩
  | append_singleton spans x ih =>
    rw [List.length_append, List.length_singleton] at hlen
    have hlast : lastSpan p (spans ++ [x]) =
        if p x = true then spans.length else lastSpan p spans := by
      rw [lastSpan, List.zipIdx_append, List.foldl_append]
      simp only [List.zipIdx_singleton, List.foldl_cons, List.foldl_nil, Nat.zero_add,
        Nat.mod_eq_of_lt (show spans.length < 2 ^ 32 by omega)]
      rfl
    rw [hlast]
    by_cases hx : p x = true
    · rw [if_pos hx]
      refine .inr ⟨x, by simp, hx, by rw [kLoomNoSpan]; omega, fun j s' hj hs' => ?_⟩
      rw [List.getElem?_eq_none (by simp; omega)] at hs'
      cases hs'
    · rw [if_neg hx]
      rcases ih (by omega) with ⟨h1, h2⟩ | ⟨s, h1, h2, h3, h4⟩
      · refine .inl ⟨h1, fun s hs => ?_⟩
        rcases List.mem_append.1 hs with hs | hs
        · exact h2 s hs
        · rw [List.mem_singleton.1 hs]
          exact Bool.eq_false_iff.2 hx
      · have hlt : lastSpan p spans < spans.length := (List.getElem?_eq_some_iff.1 h1).1
        refine .inr ⟨s, by rw [List.getElem?_append_left hlt, h1], h2, h3, fun j s' hj hs' => ?_⟩
        by_cases hjl : j < spans.length
        · rw [List.getElem?_append_left hjl] at hs'
          exact h4 j s' hj hs'
        · have hmem : s' ∈ [x] := by
            rw [List.getElem?_append_right (by omega)] at hs'
            exact List.mem_of_getElem? hs'
          rw [List.mem_singleton.1 hmem]
          exact Bool.eq_false_iff.2 hx

section Edges

lemma mem_groupAt {recs : List ValRec} {t : ℕ} {r : ValRec} (h : r ∈ groupAt recs t) :
    r ∈ recs ∧ r.step = t := by
  have hrest : ∀ t, (Dataflow.restAt recs t).Sublist recs := by
    intro t
    induction t with
    | zero => exact List.Sublist.refl _
    | succ t ih => exact (List.dropWhile_sublist _).trans ih
  have hstep := List.mem_takeWhile_imp h
  exact ⟨((List.takeWhile_sublist _).trans (hrest t)).subset h, of_decide_eq_true hstep⟩

lemma mem_footprint_reg {r : ValRec} {c : Dataflow.Cell} (hc : c ∈ footprint r)
    (hk : r.kind = .reg) :
    (∃ s off, regSlice r.reg = some s ∧ c = .regByte s.container off) ∨
      regSlice r.reg = none ∧ c = .rawReg r.reg := by
  rw [footprint, if_pos hk] at hc
  cases hs : regSlice r.reg with
  | none =>
    rw [hs] at hc
    exact .inr ⟨rfl, List.mem_singleton.1 hc⟩
  | some s =>
    rw [hs] at hc
    obtain ⟨b, -, rfl⟩ := List.mem_map.1 hc
    exact .inl ⟨s, _, rfl, rfl⟩

lemma mem_footprint_mem {recs : List ValRec} (htop : ClearOfTop recs) {r : ValRec} (hr : r ∈ recs)
    {c : Dataflow.Cell} (hc : c ∈ footprint r) (hk : r.kind ≠ .reg) :
    ∃ a, c = .mem r.kind a ∧ Covers r a.toNat := by
  have hlt := htop r hr hk
  rw [footprint, if_neg hk] at hc
  obtain ⟨b, hb, rfl⟩ := List.mem_map.1 hc
  have hwidth : b < recWidth r := by
    rw [List.mem_range] at hb
    rw [recWidth]
    split_ifs <;> omega
  refine ⟨_, rfl, ?_⟩
  rw [Covers, BitVec.toNat_add, BitVec.toNat_ofNat]
  omega

/-- Records that share a key of the last-writer map meet. -/
lemma meet_of_key {recs : List ValRec} (htop : ClearOfTop recs) {w r : ValRec} (hw : w ∈ recs)
    (hr : r ∈ recs) {key : Dataflow.LwKey} (hkw : key ∈ lwKeys w) (hkr : key ∈ lwKeys r) :
    Meet w r := by
  rw [Dataflow.lwKeys_eq_map, List.mem_map] at hkw hkr
  obtain ⟨c, hc, rfl⟩ := hkw
  obtain ⟨c', hc', hkey⟩ := hkr
  rw [Meet]
  rcases Dataflow.cellKey_inj (Dataflow.footprint_small hc') (Dataflow.footprint_small hc) hkey with
    rfl | ⟨sp, sp', a, rfl, rfl⟩
  · split_ifs with hk
    · by_cases hkw : w.kind = .reg
      · refine ⟨hkw, ?_⟩
        rcases mem_footprint_reg hc hkw with ⟨s, off, hs, rfl⟩ | ⟨hs, rfl⟩
        · rcases mem_footprint_reg hc' hk with ⟨s', off', hs', heq⟩ | ⟨-, heq⟩
          · rw [loomFoldReg_of_regSlice hs, loomFoldReg_of_regSlice hs']
            exact (Dataflow.Cell.regByte.inj heq).1
          · cases heq
        · rcases mem_footprint_reg hc' hk with ⟨s', off', -, heq⟩ | ⟨-, heq⟩
          · cases heq
          · rw [Dataflow.Cell.rawReg.inj heq]
      · obtain ⟨a, rfl, -⟩ := mem_footprint_mem htop hw hc hkw
        exact absurd hk (Dataflow.kind_of_mem_footprint hc').2
    · obtain ⟨a, rfl, hcov⟩ := mem_footprint_mem htop hr hc' hk
      have hkw := (Dataflow.kind_of_mem_footprint hc).2
      obtain ⟨a', heq, hcov'⟩ := mem_footprint_mem htop hw hc hkw
      obtain rfl := (Dataflow.Cell.mem.inj heq).2
      exact ⟨hkw, _, hcov', hcov⟩
  · have hk := (Dataflow.kind_of_mem_footprint hc').2
    have hkw := (Dataflow.kind_of_mem_footprint hc).2
    obtain ⟨a₁, h₁, hcov₁⟩ := mem_footprint_mem htop hr hc' hk
    obtain ⟨a₂, h₂, hcov₂⟩ := mem_footprint_mem htop hw hc hkw
    obtain rfl := (Dataflow.Cell.mem.inj h₁).2
    obtain rfl := (Dataflow.Cell.mem.inj h₂).2
    rw [if_neg hk]
    exact ⟨hkw, _, hcov₂, hcov₁⟩

/-- A write of the edge's first step that meets the read record -/
structure Producer (v : ValTrace) (e : DefUseEdge) (i : ℕ) (w : ValRec) : Prop where
  record : v.recs[i]? = some w
  isWrite : w.isWrite = true
  step : w.step = e.fromStep
  meet : Meet w e.loc

/-- An edge starts at a step that wrote what the edge's read record reads. -/
lemma exists_producer {v : ValTrace} (htop : ClearOfTop v.recs) {g : DefUse}
    (hg : defuseBuild v = some g) {e : DefUseEdge} (he : e ∈ g.edges) :
    e.loc ∈ v.recs ∧ ∃ i w, Producer v e i w ∧ ∃ key ∈ lwKeys w, key ∈ lwKeys e.loc := by
  rw [Dataflow.defuseBuild_eq, Option.some.injEq] at hg
  subst hg
  obtain ⟨⟨s, t, r⟩, hmem, rfl⟩ := List.mem_map.1 he
  obtain ⟨-, hr, -, key, hkr, -, hkw, -⟩ := (LastWriter.mem_edges _ _).1 hmem
  obtain ⟨w, hw, hkw⟩ := List.mem_flatMap.1 hkw
  obtain ⟨hw, hwr⟩ := List.mem_filter.1 hw
  obtain ⟨hw, hstep⟩ := mem_groupAt hw
  have hrec := (mem_groupAt hr).1
  obtain ⟨i, hi⟩ := List.mem_iff_getElem?.1 hw
  exact ⟨hrec, i, w, ⟨hi, hwr, hstep, meet_of_key htop hw hrec hkw hkr⟩, key, hkw, hkr⟩

end Edges

section Lengths

lemma length_regFirst_le (recs : List ValRec) : (regFirst recs).length ≤ recs.length := by
  have hacc : ∀ (l : List ValRec) (m : List (ℕ × ℕ)),
      (l.foldl firstTouch m).length ≤ l.length + m.length := by
    intro l
    induction l with
    | nil => simp
    | cons r l ih =>
      intro m
      rw [List.foldl_cons, List.length_cons]
      refine (ih _).trans ?_
      dsimp only [firstTouch]
      split
      · have := length_mapInsert_le (loomFoldReg r.reg.toNat) r.step m
        omega
      next s _ =>
        have := length_mapInsert_le (loomFoldReg r.reg.toNat) (min s r.step) m
        omega
  rw [regFirst_eq]
  exact (hacc _ []).trans (List.length_filter_le _ _)

lemma length_coalesce_le (cur : MemRange) (rs : List MemRange) :
    (coalesce cur rs).length ≤ rs.length + 1 := by
  induction rs generalizing cur with
  | nil => simp [coalesce]
  | cons r rs ih =>
    rw [coalesce]
    split_ifs
    · exact (ih _).trans (by simp)
    · simpa using ih r

lemma length_memBands_le (recs : List ValRec) : (memBands recs).length ≤ recs.length := by
  have hranges : (memRanges recs).length ≤ recs.length := by
    rw [memRanges, List.length_map]
    exact List.length_filter_le _ _
  have hsort := List.length_insertionSort rangeLe (memRanges recs)
  rw [memBands]
  split
  next => exact Nat.zero_le _
  next m ms heq =>
    rw [heq, List.length_cons] at hsort
    rw [List.length_insertionSort]
    have := length_coalesce_le m ms
    omega

lemma length_fabricLanes_le (v : ValTrace) :
    (fabricLanes v).length ≤ 18 + 2 * v.recs.length := by
  have hdeck : (deckLanes (regFirst v.recs)).length ≤ 18 := List.length_filterMap_le _ _
  have hextra : (extraLanes (regFirst v.recs)).length ≤ (regFirst v.recs).length := by
    rw [extraLanes, List.length_map, List.length_insertionSort]
    exact List.length_filter_le _ _
  have hfirst := length_regFirst_le v.recs
  have hbands := length_memBands_le v.recs
  simp only [fabricLanes, List.length_append, List.length_map]
  omega

lemma length_fabricSpans_le (lanes : List LoomLane) (recs : List ValRec) :
    (fabricSpans lanes recs).length ≤ recs.length + lanes.length := by
  have hwrites : (writeSpans lanes recs).length ≤ recs.length := by
    have := List.length_filterMap_le (fun p : ValRec × ℕ => writeSpan lanes p.1 p.2) recs.zipIdx
    rwa [List.length_zipIdx] at this
  have hentries := List.length_filterMap_le (entrySpan lanes recs (writeSpans lanes recs))
    (List.range lanes.length)
  rw [List.length_range] at hentries
  rw [fabricSpans_eq, List.length_map, sortedSpans, List.length_insertionSort, List.length_append]
  omega

end Lengths

/-- The producing span of an edge: the last of the writes of the step that the edge starts at that
meet the read record, on its lane. If it is the only one it shares a byte with the read. -/
def Produces (v : ValTrace) (f : LoomFabric) (e : DefUseEdge) (s : LoomSpan) : Prop :=
  s.tWrite = e.fromStep ∧ s.lane = laneOf f.lanes e.loc ∧ s.lane < f.lanes.length ∧
    ∃ w, FromWrite f.lanes v.recs s w ∧ Meet w e.loc ∧
      (∀ i w', Producer v e i w' → i ≤ s.recIdx) ∧
      ((∀ i w', Producer v e i w' → i = s.recIdx) → ∃ key ∈ lwKeys w, key ∈ lwKeys e.loc)

lemma meet_of_producesEdge {v : ValTrace} (htop : ClearOfTop v.recs)
    (hlen : (fabricLanes v).length < 2 ^ 32) {e : DefUseEdge} (he : e.loc ∈ v.recs) {s : LoomSpan}
    {w : ValRec} (hw : FromWrite (fabricLanes v) v.recs s w)
    (h : producesEdge (fabricLanes v) (laneOf (fabricLanes v) e.loc) e s = true) :
    Meet w e.loc := by
  have hmem : w ∈ v.recs := List.mem_of_getElem? hw.record
  rw [producesEdge, decide_eq_true_eq] at h
  obtain ⟨hlane, -, -, hmem'⟩ := h
  obtain ⟨l, hl, hon⟩ := onLane_of_laneOf hlen hw.found
  obtain ⟨l', hl', hon'⟩ := onLane_of_laneOf hlen (laneOf_ne htop hlen he)
  rw [← hw.lane, hlane, hl'] at hl
  obtain rfl := Option.some.inj hl
  rw [hl'] at hmem'
  rw [Meet]
  split_ifs with hk
  · simp only [onLane, if_pos hk, decide_eq_true_eq] at hon'
    by_cases hkw : w.kind = .reg
    · simp only [onLane, if_pos hkw, decide_eq_true_eq] at hon
      exact ⟨hkw, hon.2.symm.trans hon'.2⟩
    · simp only [onLane, if_neg hkw, decide_eq_true_eq] at hon
      rw [hon.1] at hon'
      cases hon'.1
  · simp only [onLane, if_neg hk, decide_eq_true_eq] at hon'
    by_cases hkw : w.kind = .reg
    · simp only [onLane, if_pos hkw, decide_eq_true_eq] at hon
      rw [hon.1] at hon'
      cases hon'.1
    · obtain ⟨h1, h2⟩ := hmem' (by rw [Option.map_some, hon'.1])
      rw [hw.hi hkw, recHi_eq htop hmem hkw] at h1
      rw [hw.lo hkw, recHi_eq htop he hk] at h2
      have hpos := recWidth_pos w
      have hpos' := recWidth_pos e.loc
      -- the larger of the two starts is in both
      refine ⟨hkw, max w.addr.toNat e.loc.addr.toNat, ?_, ?_⟩ <;> rw [Covers] <;> omega

/-- The span of a producer can be the hop's. -/
lemma Producer.producesEdge {v : ValTrace} (htop : ClearOfTop v.recs)
    (hlen : (fabricLanes v).length < 2 ^ 32) {e : DefUseEdge} (hloc : e.loc ∈ v.recs) {i : ℕ}
    {w : ValRec} (h : Producer v e i w) {s : LoomSpan} (hs : FromWrite (fabricLanes v) v.recs s w) :
    producesEdge (fabricLanes v) (laneOf (fabricLanes v) e.loc) e s = true := by
  have hw : w ∈ v.recs := List.mem_of_getElem? h.record
  rw [Loom.producesEdge, decide_eq_true_eq]
  refine ⟨hs.lane.trans (laneOf_congr htop hw hloc h.meet), hs.step.trans h.step, hs.traced,
    fun hband => ?_⟩
  obtain ⟨l, hl, hon⟩ := onLane_of_laneOf hlen (laneOf_ne htop hlen hloc)
  rw [hl, Option.map_some, Option.some.injEq] at hband
  have hk : e.loc.kind ≠ .reg := by
    intro hk
    simp only [onLane, if_pos hk, decide_eq_true_eq] at hon
    rw [hband] at hon
    cases hon.1
  have hmeet := h.meet
  rw [Meet, if_neg hk] at hmeet
  obtain ⟨hkw, a, ⟨h1, h2⟩, h3, h4⟩ := hmeet
  rw [hs.hi hkw, hs.lo hkw, recHi_eq htop hw hkw, recHi_eq htop hloc hk]
  omega

/-- Every edge has a hop, and its producing span is as it should be. -/
lemma fabricHop_spec {v : ValTrace} (htop : ClearOfTop v.recs) (hlen : v.recs.length < 2 ^ 30)
    {g : DefUse} (hg : defuseBuild v = some g) {e : DefUseEdge} (he : e ∈ g.edges) (i : ℕ) :
    ∃ h s, fabricHop (fabricLanes v) (fabricSpans (fabricLanes v) v.recs) e i = some h ∧
      h.edge = i % 2 ^ 32 ∧ (fabricSpans (fabricLanes v) v.recs)[h.fromSpan]? = some s ∧
      s.tWrite = e.fromStep ∧ s.lane = laneOf (fabricLanes v) e.loc ∧
      s.lane < (fabricLanes v).length ∧
      ∃ w, FromWrite (fabricLanes v) v.recs s w ∧ Meet w e.loc ∧
        (∀ i w', Producer v e i w' → i ≤ s.recIdx) ∧
        ((∀ i w', Producer v e i w' → i = s.recIdx) →
          ∃ key ∈ lwKeys w, key ∈ lwKeys e.loc) := by
  have hll := length_fabricLanes_le v
  have hlane32 : (fabricLanes v).length < 2 ^ 32 := by omega
  obtain ⟨hloc, k, w, hw, hkey⟩ := exists_producer htop hg he
  have hlane := laneOf_ne htop hlane32 hloc
  have hspan : ∀ {j : ℕ} {w' : ValRec}, Producer v e j w' →
      ∃ s ∈ fabricSpans (fabricLanes v) v.recs, s.recIdx = j ∧
        FromWrite (fabricLanes v) v.recs s w' := fun h =>
    exists_span_of_write h.record h.isWrite
      ((laneOf_congr htop (List.mem_of_getElem? h.record) hloc h.meet).trans_ne hlane)
  have hsl := length_fabricSpans_le (fabricLanes v) v.recs
  obtain ⟨s₀, hs₀, -, hfrom₀⟩ := hspan hw
  rcases lastSpan_spec (producesEdge (fabricLanes v) (laneOf (fabricLanes v) e.loc) e)
    (show (fabricSpans (fabricLanes v) v.recs).length < 2 ^ 32 by omega) with
    ⟨-, hnone⟩ | ⟨s, hs, hp, hne, hlast⟩
  · have hp₀ := hw.producesEdge htop hlane32 hloc hfrom₀
    rw [hnone s₀ hs₀] at hp₀
    cases hp₀
  · have hprod := hp
    rw [producesEdge, decide_eq_true_eq] at hp
    obtain ⟨w', hw'⟩ := exists_fromWrite (List.mem_of_getElem? hs) hp.2.2.1
    obtain ⟨l, hl, -⟩ := onLane_of_laneOf hlane32 hlane
    refine ⟨_, s, if_neg (not_or.2 ⟨hlane, hne⟩), rfl, hs, hp.2.1, hp.1, ?_, w', hw',
      meet_of_producesEdge htop hlane32 hloc hw' hprod, fun j x hx => ?_, fun hsole => ?_⟩
    · rw [hp.1]
      exact (List.getElem?_eq_some_iff.1 hl).1
    · -- a later producer would have a later span
      obtain ⟨t, ht, rfl, hfrom⟩ := hspan hx
      obtain ⟨m, hm⟩ := List.mem_iff_getElem?.1 ht
      have hpt := hx.producesEdge htop hlane32 hloc hfrom
      have hle : m ≤ lastSpan (producesEdge (fabricLanes v) (laneOf (fabricLanes v) e.loc) e)
          (fabricSpans (fabricLanes v) v.recs) := by
        by_contra hlt
        rw [hlast m t (by omega) hm] at hpt
        cases hpt
      rw [producesEdge, decide_eq_true_eq] at hpt
      have hord := spanLe_of_le hle hm hs
      rw [spanLe, hpt.1, hp.1, hpt.2.1, hp.2.1] at hord
      omega
    · have hrec := hw'.record
      rw [← hsole k w hw, hw.record, Option.some.injEq] at hrec
      rw [← hrec]
      exact hkey

lemma filterMap_zipIdx_of_some {α β : Type} {f : α × ℕ → Option β} {l : List α}
    (h : ∀ i a, l[i]? = some a → (f (a, i)).isSome) :
    (l.zipIdx.filterMap f).length = l.length ∧
      ∀ i a, l[i]? = some a → (l.zipIdx.filterMap f)[i]? = f (a, i) := by
  induction l using List.reverseRecOn with
  | nil => exact ⟨rfl, by simp⟩
  | append_singleton l x ih =>
    obtain ⟨hlen, hget⟩ := ih fun i a hi =>
      h i a (by rw [List.getElem?_append_left (List.getElem?_eq_some_iff.1 hi).1, hi])
    obtain ⟨b, hb⟩ := Option.isSome_iff_exists.1 (h l.length x (by simp))
    have hmap : (l ++ [x]).zipIdx.filterMap f = l.zipIdx.filterMap f ++ [b] := by
      rw [List.zipIdx_append, List.filterMap_append]
      simp [hb]
    rw [hmap]
    refine ⟨by simp [hlen], fun i a hi => ?_⟩
    by_cases hil : i < l.length
    · rw [List.getElem?_append_left hil] at hi
      rw [List.getElem?_append_left (hil.trans_eq hlen.symm), hget i a hi]
    · have hlt := (List.getElem?_eq_some_iff.1 hi).1
      rw [List.length_append, List.length_singleton] at hlt
      obtain rfl : i = l.length := by omega
      simp only [List.getElem?_concat_length, Option.some.injEq] at hi
      rw [← hlen, List.getElem?_concat_length, hlen, ← hi, hb]

/-- Over a trace and its own def-use graph the fabric has one hop for each edge, in the order of the
edges. The span a hop comes from is a write of the edge's first step on the lane of the read record:
the same register container, or a range of memory that shares a byte with the read. Of several such
writes it is the last, and one that is alone shares a byte with the read. -/
theorem fabric_hops_lossless (v : ValTrace) (g : DefUse) (hg : defuseBuild v = some g)
    (prov : LoomProvenance) (hprov : prov.exact = true) (htop : ClearOfTop v.recs)
    (hlen : v.recs.length < 2 ^ 30) :
    ∃ f, loomFabricBuild v g prov = .ok f ∧ f.hops.length = g.edges.length ∧
      ∀ i e, g.edges[i]? = some e → ∃ h s, f.hops[i]? = some h ∧ h.edge = i % 2 ^ 32 ∧
        f.spans[h.fromSpan]? = some s ∧ Produces v f e s := by
  have hbuild : loomFabricBuild v g prov = .ok _ := if_neg (by rw [hprov]; exact Bool.noConfusion)
  refine ⟨_, hbuild, ?_⟩
  dsimp only
  have hspec : ∀ i e, g.edges[i]? = some e → _ := fun i e he =>
    fabricHop_spec htop hlen hg (List.mem_of_getElem? he) i
  have hsome : ∀ i e, g.edges[i]? = some e →
      (fabricHop (fabricLanes v) (fabricSpans (fabricLanes v) v.recs) e i).isSome := by
    intro i e he
    obtain ⟨h, s, hhop, -⟩ := hspec i e he
    exact Option.isSome_iff_exists.2 ⟨h, hhop⟩
  obtain ⟨hcount, hget⟩ := filterMap_zipIdx_of_some
    (f := fun p => fabricHop (fabricLanes v) (fabricSpans (fabricLanes v) v.recs) p.1 p.2) hsome
  refine ⟨hcount, fun i e he => ?_⟩
  obtain ⟨h, s, hhop, hedge, hs, hprod⟩ := hspec i e he
  exact ⟨h, s, (hget i e he).trans hhop, hedge, hs, hprod⟩

/-- `mov eax, ..; mov al, ..; mov [0x1000], rax; mov cl, [0x1003]`: three edges over three lanes -/
theorem fabric_hops_lossless_store :
    let v := appendAll (valtraceNew 8 8)
      [(0, [{ kind := .reg, reg := 19, isWrite := true, size := 4 }]),
       (5, [{ kind := .reg, reg := 2, isWrite := true, size := 1 }]),
       (7, [{ kind := .reg, reg := 35, size := 8 },
         { kind := .memAbs, addr := 0x1000, size := 8, isWrite := true }]),
       (11, [{ kind := .memAbs, addr := 0x1003, size := 1 },
         { kind := .reg, reg := 10, isWrite := true, size := 1 }])]
    ClearOfTop v.recs ∧ v.recs.length < 2 ^ 30 ∧
      ∃ g, defuseBuild v = some g ∧ g.edges.length = 3 ∧
        ∃ f, loomFabricBuild v g ⟨"replay", true⟩ = .ok f ∧ f.hops.length = g.edges.length ∧
          ∀ i e, g.edges[i]? = some e → ∃ h s, f.hops[i]? = some h ∧ h.edge = i % 2 ^ 32 ∧
            f.spans[h.fromSpan]? = some s ∧ Produces v f e s := by
  intro v
  have htop : ClearOfTop v.recs := by
    unfold ClearOfTop
    decide
  have hlen : v.recs.length < 2 ^ 30 := by decide
  have hbuild : ((defuseBuild v).map fun g => g.edges.length) = some 3 := by decide +kernel
  obtain ⟨g, hg, hedges⟩ := Option.map_eq_some_iff.1 hbuild
  exact ⟨htop, hlen, g, hg, hedges, fabric_hops_lossless v g hg _ rfl htop hlen⟩

/-- `xchg al, ah; mov .., al`: the edge is the write of `al`, but the span the hop comes from is the
write of `ah` that the same step makes after it, and no byte of `ah` is read. -/
theorem hop_from_other_half :
    let v := appendAll (valtraceNew 2 4)
      [(0, [{ kind := .reg, reg := 2, isWrite := true, size := 1 },
         { kind := .reg, reg := 1, isWrite := true, size := 1 }]),
       (2, [{ kind := .reg, reg := 2, size := 1 }])]
    ClearOfTop v.recs ∧ ∃ g f e h s w, defuseBuild v = some g ∧
      loomFabricBuild v g ⟨"replay", true⟩ = .ok f ∧ g.edges[0]? = some e ∧
      f.hops[0]? = some h ∧ f.spans[h.fromSpan]? = some s ∧ v.recs[s.recIdx]? = some w ∧
      ∀ c ∈ footprint w, c ∉ footprint e.loc := by
  intro v
  have htop : ClearOfTop v.recs := by
    unfold ClearOfTop
    decide
  have hbuild : defuseBuild v =
      some ⟨[⟨0, 1, { kind := .reg, reg := 2, size := 1, step := 1 }⟩], 2⟩ := by
    decide +kernel
  let s : LoomSpan := { lane := 0, tWrite := 0, recIdx := 1, valueValid := false, value := 0 }
  let w : ValRec := { kind := .reg, reg := 1, isWrite := true, size := 1 }
  refine ⟨htop, _, _, _, ⟨1, kLoomNoSpan, 0⟩, s, w, hbuild, rfl, rfl, ?_, ?_, rfl, by decide⟩
  · decide +kernel
  · decide +kernel

end Hops

end AsmTest.Loom
