import AsmTest.Lib.LastWriter
import AsmTest.LwMap
import AsmTest.RegSlice
import AsmTest.ValTrace
import Mathlib.Data.List.TakeWhile

namespace AsmTest.Dataflow

open LastWriter

/-- `asmtest_defuse_edge_t` -/
structure DefUseEdge where
  fromStep : ℕ
  toStep : ℕ
  loc : ValRec
  deriving DecidableEq, Repr

/-- `asmtest_defuse_t` -/
structure DefUse where
  edges : List DefUseEdge
  nsteps : ℕ
  deriving DecidableEq, Repr

/-- Clamp a byte width to the tracked window. -/
def recBytes (r : ValRec) : ℕ :=
  let s := if r.size ≠ 0 then r.size else 1
  if s > 64 then 64 else s

/-- `((uint64_t)container << 8) | off` -/
def containerBase (s : RegSlice) : BitVec 64 := BitVec.ofNat 64 s.container <<< 8 ||| BitVec.ofNat 64 s.off

/-- One byte of the `collect_distinct` loop. -/
def collectByte (map : LwMap) (kind : BitVec 8) (base : BitVec 64) (prod : List ℕ) (b : ℕ) :
    Option (List ℕ) := do
  match ← lwGet map ⟨kind, base + BitVec.ofNat 64 b⟩ with
  | none => return prod
  | some p => return if ¬ p ∈ prod ∧ prod.length < 64 then prod ++ [p] else prod

def collectDistinct (map : LwMap) (kind : BitVec 8) (base : BitVec 64) (n : ℕ) : Option (List ℕ) :=
  (List.range n).foldlM (collectByte map kind base) []

def putRange (map : LwMap) (kind : BitVec 8) (base : BitVec 64) (n step : ℕ) : Option LwMap :=
  (List.range n).foldlM (fun m b => lwPut m ⟨kind, base + BitVec.ofNat 64 b⟩ step) map

def emitRead (rec : ValRec) (map : LwMap) (ev : List DefUseEdge) (step : ℕ) :
    Option (List DefUseEdge) := do
  if rec.kind = .reg then
    match regSlice rec.reg with
    | some s =>
      let prod ← collectDistinct map 2#8 (containerBase s) s.len
      return ev ++ prod.map fun p => ⟨p, step, rec⟩
    | none =>
      match ← lwGet map ⟨0#8, rec.reg.setWidth 64⟩ with
      | some p => return ev ++ [⟨p, step, rec⟩]
      | none => return ev
  else
    let prod ← collectDistinct map 1#8 rec.addr (recBytes rec)
    return ev ++ prod.map fun p => ⟨p, step, rec⟩

def applyWrite (rec : ValRec) (map : LwMap) (step : ℕ) : Option LwMap :=
  if rec.kind = .reg then
    match regSlice rec.reg with
    | some s =>
      -- a 32-bit write zero-extends into the whole container
      let writeLen := if s.len = 4 then 8 else s.len
      putRange map 2#8 (containerBase s) writeLen step
    | none => lwPut map ⟨0#8, rec.reg.setWidth 64⟩ step
  else putRange map 1#8 rec.addr (recBytes rec) step

/-- The unread records, the last-writer map and the edges so far. -/
structure BuildState where
  rest : List ValRec
  map : LwMap
  ev : List DefUseEdge

/-- One step of `asmtest_defuse_build`: its run of records, reads first, then writes. -/
def buildStep (st : BuildState) (step : ℕ) : Option BuildState := do
  let group := st.rest.takeWhile fun r => r.step = step
  let ev ← group.foldlM (fun ev r => if r.isWrite then some ev else emitRead r st.map ev step) st.ev
  let map ← group.foldlM (fun m r => if r.isWrite then applyWrite r m step else some m) st.map
  return ⟨st.rest.dropWhile fun r => r.step = step, map, ev⟩

def defuseBuild (v : ValTrace) : Option DefUse := do
  let st ← (List.range (v.stepsLen % 2 ^ 32)).foldlM buildStep ⟨v.recs, ProbeTable.Table.empty, []⟩
  return ⟨st.ev, v.stepsLen⟩

/-! ## One record against the map -/

/-- The map keys a record reads, or writes when it is a write. -/
def lwKeys (r : ValRec) : List LwKey :=
  if r.kind = .reg then
    match regSlice r.reg with
    | some s =>
      (List.range (if r.isWrite ∧ s.len = 4 then 8 else s.len)).map fun b =>
        ⟨2#8, containerBase s + BitVec.ofNat 64 b⟩
    | none => [⟨0#8, r.reg.setWidth 64⟩]
  else (List.range (recBytes r)).map fun b => ⟨1#8, r.addr + BitVec.ofNat 64 b⟩

lemma recBytes_le (r : ValRec) : recBytes r ≤ 64 := by
  unfold recBytes
  dsimp only
  split_ifs <;> omega

/-- While fewer than 64 producers are held, a byte adds its producer if it is new. -/
lemma collectByte_eq {map : LwMap} (hm : map.Ok) (kind : BitVec 8) (base : BitVec 64)
    {prod : List ℕ} (hp : prod.length < 64) (b : ℕ) :
    collectByte map kind base prod b =
      some ((map.view ⟨kind, base + BitVec.ofNat 64 b⟩).elim prod (addNew prod)) := by
  rw [collectByte, LwMap.lwGet_eq hm]
  cases map.view ⟨kind, base + BitVec.ofNat 64 b⟩ with
  | none => rfl
  | some p =>
    by_cases hmem : p ∈ prod
    · simp [addNew, hmem]
    · simp [addNew, hmem, hp]

lemma length_addNew_le (acc : List ℕ) (p : ℕ) : (addNew acc p).length ≤ acc.length + 1 := by
  unfold addNew
  split_ifs <;> simp

lemma foldlM_collectByte {map : LwMap} (hm : map.Ok) (kind : BitVec 8) (base : BitVec 64)
    (bs : List ℕ) {acc : List ℕ} (hlen : acc.length + bs.length ≤ 64) :
    bs.foldlM (collectByte map kind base) acc =
      some ((bs.filterMap fun b => map.view ⟨kind, base + BitVec.ofNat 64 b⟩).foldl addNew acc) := by
  induction bs generalizing acc with
  | nil => rfl
  | cons b bs ih =>
    rw [List.length_cons] at hlen
    rw [List.foldlM_cons, collectByte_eq hm kind base (by omega)]
    cases hv : map.view ⟨kind, base + BitVec.ofNat 64 b⟩ with
    | none =>
      have hrec := ih (show acc.length + bs.length ≤ 64 by omega)
      simpa [hv] using hrec
    | some p =>
      have := length_addNew_le acc p
      have hrec := ih (show (addNew acc p).length + bs.length ≤ 64 by omega)
      simpa [hv] using hrec

lemma collectDistinct_eq {map : LwMap} (hm : map.Ok) (kind : BitVec 8) (base : BitVec 64)
    {n : ℕ} (hn : n ≤ 64) :
    collectDistinct map kind base n =
      some (distinct (((List.range n).map fun b => (⟨kind, base + BitVec.ofNat 64 b⟩ : LwKey)).filterMap
        map.view)) := by
  rw [collectDistinct, foldlM_collectByte hm kind base _ (by simpa using hn), distinct,
    List.filterMap_map]
  rfl

/-- A read pushes one edge per distinct producer of its keys. -/
theorem emitRead_eq {r : ValRec} (hr : r.isWrite = false) {map : LwMap} (hm : map.Ok)
    (ev : List DefUseEdge) (step : ℕ) :
    emitRead r map ev step =
      some (ev ++ (distinct ((lwKeys r).filterMap map.view)).map fun p => ⟨p, step, r⟩) := by
  unfold emitRead lwKeys
  by_cases hk : r.kind = .reg
  · rw [if_pos hk, if_pos hk]
    cases hs : regSlice r.reg with
    | some s =>
      have hlen : s.len ≤ 64 := by have := regSlice_cases hs; omega
      simp [hr, collectDistinct_eq hm 2#8 (containerBase s) hlen]
    | none =>
      rw [LwMap.lwGet_eq hm]
      cases hv : map.view ⟨0#8, r.reg.setWidth 64⟩ with
      | none => simp [hv, distinct]
      | some p => simp [hv, distinct, addNew]
  · rw [if_neg hk, if_neg hk, collectDistinct_eq hm 1#8 r.addr (recBytes_le r)]
    rfl

lemma foldlM_lwPut {α : Type*} (key : α → LwKey) (step : ℕ) (l : List α) {m : LwMap} (hm : m.Ok) :
    ∃ m', l.foldlM (fun m b => lwPut m (key b) step) m = some m' ∧ m'.Ok ∧
      m'.view = fun k => if k ∈ l.map key then some step else m.view k := by
  induction l generalizing m with
  | nil => exact ⟨m, rfl, hm, by simp⟩
  | cons b l ih =>
    obtain ⟨m₁, h1, h2, h3⟩ := LwMap.lwPut_spec hm (key b) step
    obtain ⟨m₂, g1, g2, g3⟩ := ih h2
    refine ⟨m₂, by simp [h1, g1], g2, ?_⟩
    rw [g3, h3]
    funext k
    by_cases hk : k = key b
    · subst hk
      simp
    · simp [hk]

/-- A write makes its step the last writer of its keys and of nothing else. -/
theorem applyWrite_spec {r : ValRec} (hr : r.isWrite = true) {map : LwMap} (hm : map.Ok) (step : ℕ) :
    ∃ map', applyWrite r map step = some map' ∧ map'.Ok ∧
      map'.view = fun k => if k ∈ lwKeys r then some step else map.view k := by
  unfold applyWrite lwKeys
  by_cases hk : r.kind = .reg
  · simp only [if_pos hk]
    cases hs : regSlice r.reg with
    | some s =>
      simpa [hr, putRange] using foldlM_lwPut (fun b => ⟨2#8, containerBase s + BitVec.ofNat 64 b⟩) step
        (List.range (if s.len = 4 then 8 else s.len)) hm
    | none => simpa using foldlM_lwPut (fun k => k) step [⟨0#8, r.reg.setWidth 64⟩] hm
  · simp only [if_neg hk]
    exact foldlM_lwPut (fun b => ⟨1#8, r.addr + BitVec.ofNat 64 b⟩) step (List.range (recBytes r)) hm

/-! ## The step loop -/

/-- What the step loop has not consumed when it reaches step `t`. -/
def restAt (recs : List ValRec) : ℕ → List ValRec
  | 0 => recs
  | t + 1 => (restAt recs t).dropWhile fun r => r.step = t

/-- The run of records the step loop takes as step `t`. -/
def groupAt (recs : List ValRec) (t : ℕ) : List ValRec :=
  (restAt recs t).takeWhile fun r => r.step = t

def toEdge (e : ℕ × ℕ × ValRec) : DefUseEdge := ⟨e.1, e.2.1, e.2.2⟩

lemma foldlM_emitRead {map : LwMap} (hm : map.Ok) (step : ℕ) (l : List ValRec) (ev : List DefUseEdge) :
    l.foldlM (fun ev r => if r.isWrite then some ev else emitRead r map ev step) ev =
      some (ev ++ (l.filter fun r => !r.isWrite).flatMap fun r =>
        (distinct ((lwKeys r).filterMap map.view)).map fun p => ⟨p, step, r⟩) := by
  induction l generalizing ev with
  | nil => simp
  | cons r l ih =>
    cases hr : r.isWrite with
    | false => simp [hr, emitRead_eq hr hm, ih]
    | true => simp [hr, ih]

lemma foldlM_applyWrite (step : ℕ) (l : List ValRec) {map : LwMap} (hm : map.Ok) :
    ∃ map', l.foldlM (fun m r => if r.isWrite then applyWrite r m step else some m) map = some map' ∧
      map'.Ok ∧ map'.view = fun k =>
        if k ∈ (l.filter ValRec.isWrite).flatMap lwKeys then some step else map.view k := by
  induction l generalizing map with
  | nil => exact ⟨map, rfl, hm, by simp⟩
  | cons r l ih =>
    cases hr : r.isWrite with
    | false =>
      obtain ⟨map', h1, h2, h3⟩ := ih hm
      refine ⟨map', by simp [hr, h1], h2, ?_⟩
      rw [h3, List.filter_cons_of_neg (by simp [hr])]
    | true =>
      obtain ⟨map₁, g1, g2, g3⟩ := applyWrite_spec hr hm step
      obtain ⟨map', h1, h2, h3⟩ := ih g2
      refine ⟨map', by simp [hr, g1, h1], h2, ?_⟩
      rw [h3, g3, List.filter_cons_of_pos hr, List.flatMap_cons]
      funext k
      by_cases hk : k ∈ lwKeys r
      · simp only [hk, ↓reduceIte, ite_self, List.mem_append, true_or]
      · simp only [hk, ↓reduceIte, List.mem_append, false_or]

/-- The loop invariant: before step `t` the map is the last-writer table of the groups
taken so far and the edges are theirs. -/
structure AtStep (recs : List ValRec) (t : ℕ) (st : BuildState) : Prop where
  rest : st.rest = restAt recs t
  ok : st.map.Ok
  view : st.map.view = table (writesOf ValRec.isWrite lwKeys (groupAt recs)) t
  ev : st.ev = (edges ValRec.isWrite lwKeys (groupAt recs) t).map toEdge

lemma buildStep_spec {recs : List ValRec} {t : ℕ} {st : BuildState} (h : AtStep recs t st) :
    ∃ st', buildStep st t = some st' ∧ AtStep recs (t + 1) st' := by
  have hgroup : (st.rest.takeWhile fun r => r.step = t) = groupAt recs t := by
    rw [h.rest, groupAt]
  obtain ⟨map', h1, h2, h3⟩ := foldlM_applyWrite t (groupAt recs t) h.ok
  have hev : st.ev ++ ((groupAt recs t).filter fun r => !r.isWrite).flatMap (fun r =>
        (distinct ((lwKeys r).filterMap st.map.view)).map fun p => ⟨p, t, r⟩) =
      (edges ValRec.isWrite lwKeys (groupAt recs) (t + 1)).map toEdge := by
    rw [h.ev, h.view, edges, edges, List.range_succ, List.flatMap_append, List.map_append]
    simp [stepEdges, producers, List.map_flatMap, toEdge, Function.comp_def]
  refine ⟨⟨restAt recs (t + 1), map', _⟩, ?_, rfl, h2, ?_, hev⟩
  · rw [buildStep, hgroup, foldlM_emitRead h.ok, h.rest, restAt]
    dsimp only [Option.bind_eq_bind, Option.bind_some]
    rw [h1]
    rfl
  · rw [h3, h.view]
    rfl

/-- The loop runs to its end, whatever the records, and returns the last-writer edges of
the groups. -/
theorem defuseBuild_eq (v : ValTrace) :
    defuseBuild v = some ⟨(edges ValRec.isWrite lwKeys (groupAt v.recs)
      (v.stepsLen % 2 ^ 32)).map toEdge, v.stepsLen⟩ := by
  have hrun : ∀ n, ∃ st, (List.range n).foldlM buildStep ⟨v.recs, ProbeTable.Table.empty, []⟩ =
      some st ∧ AtStep v.recs n st := by
    intro n
    induction n with
    | zero => exact ⟨_, rfl, rfl, LwMap.ok_empty, rfl, rfl⟩
    | succ n ih =>
      obtain ⟨st, h1, h2⟩ := ih
      obtain ⟨st', g1, g2⟩ := buildStep_spec h2
      exact ⟨st', by simp [List.range_succ, h1, g1], g2⟩
  obtain ⟨st, h1, h2⟩ := hrun (v.stepsLen % 2 ^ 32)
  rw [defuseBuild, h1]
  simp [h2.ev]

lemma defuseBuild_of_lt {v : ValTrace} (hn : v.stepsLen < 2 ^ 32) :
    defuseBuild v = some ⟨(edges ValRec.isWrite lwKeys (groupAt v.recs) v.stepsLen).map toEdge,
      v.stepsLen⟩ := by
  rw [defuseBuild_eq, Nat.mod_eq_of_lt hn]

/-! ## Groups of a stamped trace -/

/-- In a sorted list an initial segment predicate selects an initial segment. -/
lemma takeWhile_dropWhile_eq_filter {α : Type*} {R : α → α → Prop} {p : α → Bool} {l : List α}
    (hs : l.Pairwise R) (hp : ∀ a ∈ l, ∀ b ∈ l, R a b → p b → p a) :
    l.takeWhile p = l.filter p ∧ l.dropWhile p = l.filter fun a => !p a := by
  induction l with
  | nil => exact ⟨rfl, rfl⟩
  | cons a l ih =>
    rw [List.pairwise_cons] at hs
    have hrec := ih hs.2 fun x hx y hy => hp x (by simp [hx]) y (by simp [hy])
    cases ha : p a with
    | true => simp [ha, hrec]
    | false =>
      have hnone : ∀ x ∈ l, p x = false := by
        intro x hx
        by_contra hpx
        have := hp a (by simp) x (by simp [hx]) (hs.1 x hx) (by simpa using hpx)
        simp [this] at ha
      have hall : l.filter (fun x => !p x) = l := by simpa using hnone
      simpa [ha, hall] using hnone

lemma restAt_eq_filter {recs : List ValRec} (hs : recs.Pairwise fun a b => a.step ≤ b.step) (t : ℕ) :
    restAt recs t = recs.filter fun r => t ≤ r.step := by
  induction t with
  | zero => simp [restAt]
  | succ t ih =>
    have hp : ∀ a ∈ recs.filter (fun r => t ≤ r.step), ∀ b ∈ recs.filter (fun r => t ≤ r.step),
        a.step ≤ b.step → decide (b.step = t) → decide (a.step = t) := by
      simp only [List.mem_filter, decide_eq_true_eq]
      omega
    rw [restAt, ih, (takeWhile_dropWhile_eq_filter (hs.filter _) hp).2, List.filter_filter]
    apply List.filter_congr
    intro r _
    simp only [← decide_not, Bool.and_eq_decide, decide_eq_decide, decide_eq_true_eq]
    omega

/-- Of sorted records the loop sees exactly those of each step. -/
lemma groupAt_of_sorted {recs : List ValRec} (hs : recs.Pairwise fun a b => a.step ≤ b.step)
    (t : ℕ) : groupAt recs t = recs.filter fun r => r.step = t := by
  have hp : ∀ a ∈ recs.filter (fun r => t ≤ r.step), ∀ b ∈ recs.filter (fun r => t ≤ r.step),
      a.step ≤ b.step → decide (b.step = t) → decide (a.step = t) := by
    simp only [List.mem_filter, decide_eq_true_eq]
    omega
  rw [groupAt, restAt_eq_filter hs, (takeWhile_dropWhile_eq_filter (hs.filter _) hp).1,
    List.filter_filter]
  apply List.filter_congr
  intro r _
  simp only [Bool.and_eq_decide, decide_eq_decide, decide_eq_true_eq]
  omega

/-- Under the append contract the loop sees exactly the records of each step. -/
lemma groupAt_eq_stepRecs {v : ValTrace} (hv : Stamped v) (t : ℕ) :
    groupAt v.recs t = v.stepRecs t :=
  groupAt_of_sorted hv.sorted t

end AsmTest.Dataflow
