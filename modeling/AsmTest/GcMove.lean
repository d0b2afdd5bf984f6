import AsmTest.DefUse
import Mathlib.Data.List.Sort

/-!
# GC-move address canonicalization

A record made before a compaction names its byte by the address the byte had
then; forwarding it through every later batch names it by its final address.
-/

namespace AsmTest.Dataflow

/-- `asmtest_gcmove_t` -/
structure GcMove where
  oldBase : BitVec 64
  newBase : BitVec 64
  len : BitVec 64
  step : ℕ
  deriving DecidableEq, Repr

namespace GcMove

def covers (m : GcMove) (x : BitVec 64) : Bool := m.oldBase ≤ x ∧ x - m.oldBase < m.len

/-- `y` is one of the `len` addresses from `new_base` on. -/
def newCovers (m : GcMove) (y : BitVec 64) : Bool := y - m.newBase < m.len

def forward (m : GcMove) (x : BitVec 64) : BitVec 64 := m.newBase + (x - m.oldBase)

end GcMove

/-- At most one relocation per batch: the first range that covers the address. -/
def relocate (batch : List GcMove) (cur : BitVec 64) : BitVec 64 :=
  match batch.find? fun m => m.covers cur with
  | some m => m.forward cur
  | none => cur

/-- The batch loop of `asmtest_gcmove_canon`, for at most `fuel` batches. -/
def canonLoop (step : ℕ) : ℕ → List GcMove → BitVec 64 → BitVec 64
  | _, [], cur => cur
  | 0, _ :: _, cur => cur
  | fuel + 1, m :: moves, cur =>
    let batch := (m :: moves).takeWhile fun k => k.step = m.step
    let rest := (m :: moves).dropWhile fun k => k.step = m.step
    canonLoop step fuel rest (if step < m.step then relocate batch cur else cur)

def gcmoveCanon (moves : List GcMove) (step : ℕ) (phys : BitVec 64) : BitVec 64 :=
  canonLoop step moves.length moves phys

/-- `qsort` with `gcmove_cmp_step`: some ascending rearrangement, ties in any order. -/
structure StepSort where
  sort : List GcMove → List GcMove
  perm : ∀ l, (sort l).Perm l
  sorted : ∀ l, (sort l).Pairwise fun a b => a.step ≤ b.step

/-- No entry is before its predecessor. -/
def ordered (moves : List GcMove) : Bool := moves.IsChain fun a b => a.step ≤ b.step

/-- The array handed to `asmtest_gcmove_canon`; `alloc` tells whether the sort copy was allocated. -/
def preparedMoves (Q : StepSort) (alloc : Bool) (moves : List GcMove) : List GcMove :=
  if ordered moves then moves else if alloc then Q.sort moves else moves

/-- The record loop of the passes that give absolute memory a key: one record, and the count
of changed addresses. -/
def rekeyRec (key : ℕ → BitVec 64 → BitVec 64) (st : List ValRec × ℕ) (r : ValRec) :
    List ValRec × ℕ :=
  if r.kind = .memAbs then
    let after := key r.step r.addr
    if after ≠ r.addr then (st.1 ++ [{ r with addr := after }], st.2 + 1) else (st.1 ++ [r], st.2)
  else (st.1 ++ [r], st.2)

def canonRec (sorted : List GcMove) : List ValRec × ℕ → ValRec → List ValRec × ℕ :=
  rekeyRec (gcmoveCanon sorted)

def gcmoveCanonicalize (Q : StepSort) (alloc : Bool) (v : ValTrace) (moves : List GcMove) :
    ValTrace × ℕ :=
  if moves = [] then (v, 0)
  else
    let res := v.recs.foldl (canonRec (preparedMoves Q alloc moves)) ([], 0)
    ({ v with recs := res.1 }, res.2)

/-! ## Batches -/

def batchAt (moves : List GcMove) (b : ℕ) : List GcMove := moves.filter fun m => m.step = b

/-- The old ranges of each batch are disjoint. -/
def DisjointOld (moves : List GcMove) : Prop :=
  moves.Pairwise fun m m' => m.step = m'.step → ∀ x, ¬ (m.covers x ∧ m'.covers x)

/-- The new ranges of each batch are disjoint. -/
def DisjointNew (moves : List GcMove) : Prop :=
  moves.Pairwise fun m m' => m.step = m'.step → ∀ y, ¬ (m.newCovers y ∧ m'.newCovers y)

lemma DisjointOld.perm {l l' : List GcMove} (h : DisjointOld l) (hp : l.Perm l') : DisjointOld l' :=
  (hp.pairwise_iff fun hab hs x hx => hab hs.symm x hx.symm).mp h

lemma DisjointNew.not_both {l : List GcMove} (h : DisjointNew l) {m m' : GcMove} (hm : m ∈ l)
    (hm' : m' ∈ l) (hne : m ≠ m') (hs : m.step = m'.step) (y : BitVec 64) :
    ¬ (m.newCovers y ∧ m'.newCovers y) := by
  have hsymm : Std.Symm fun m m' : GcMove =>
      m.step = m'.step → ∀ y, ¬ (m.newCovers y ∧ m'.newCovers y) :=
    ⟨fun _ _ hab hs y hy => hab hs.symm y hy.symm⟩
  exact List.Pairwise.forall h hm hm' hne hs y

/-- In a disjoint batch the range that covers an address is found in any order. -/
lemma find?_covers_eq_some {moves : List GcMove} (h : DisjointOld moves) {b : ℕ} {x : BitVec 64}
    {m : GcMove} (hm : m ∈ moves) (hb : m.step = b) (hx : m.covers x) :
    ((batchAt moves b).find? fun m => m.covers x) = some m := by
  induction moves with
  | nil => simp at hm
  | cons a l ih =>
    have h' := List.pairwise_cons.mp h
    unfold batchAt at ih ⊢
    by_cases hab : a.step = b
    · rw [List.filter_cons_of_pos (by simpa using hab)]
      cases hax : a.covers x with
      | true =>
        rcases List.mem_cons.mp hm with rfl | hml
        · exact List.find?_cons_of_pos (by simpa using hx)
        · exact absurd ⟨hax, hx⟩ (h'.1 m hml (hab.trans hb.symm) x)
      | false =>
        rw [List.find?_cons_of_neg (by simp [hax])]
        rcases List.mem_cons.mp hm with rfl | hml
        · simp [hax] at hx
        · exact ih h'.2 hml
    · rw [List.filter_cons_of_neg (by simpa using hab)]
      rcases List.mem_cons.mp hm with rfl | hml
      · exact absurd hb hab
      · exact ih h'.2 hml

lemma relocate_of_covers {moves : List GcMove} (h : DisjointOld moves) {b : ℕ} {x : BitVec 64}
    {m : GcMove} (hm : m ∈ moves) (hb : m.step = b) (hx : m.covers x) :
    relocate (batchAt moves b) x = m.forward x := by
  rw [relocate, find?_covers_eq_some h hm hb hx]

lemma relocate_of_not_covers {moves : List GcMove} {b : ℕ} {x : BitVec 64}
    (h : ∀ m ∈ moves, m.step = b → ¬ m.covers x) : relocate (batchAt moves b) x = x := by
  have hnone : ((batchAt moves b).find? fun m => m.covers x) = none := by
    rw [List.find?_eq_none]
    intro m hm
    obtain ⟨h1, h2⟩ := List.mem_filter.mp hm
    exact h m h1 (by simpa using h2)
  rw [relocate, hnone]

lemma relocate_perm {l l' : List GcMove} (h : DisjointOld l) (hp : l.Perm l') (b : ℕ) (x : BitVec 64) :
    relocate (batchAt l b) x = relocate (batchAt l' b) x := by
  by_cases hex : ∃ m ∈ l, m.step = b ∧ m.covers x
  · obtain ⟨m, hm, hb, hx⟩ := hex
    rw [relocate_of_covers h hm hb hx, relocate_of_covers (h.perm hp) (hp.subset hm) hb hx]
  · rw [relocate_of_not_covers fun m hm hb hx => hex ⟨m, hm, hb, hx⟩,
      relocate_of_not_covers fun m hm hb hx => hex ⟨m, hp.symm.subset hm, hb, hx⟩]

/-! ## The walk as a fold over steps -/

/-- What the boundary `b` does to an address seen at `step`. -/
def cross (moves : List GcMove) (step : ℕ) (cur : BitVec 64) (b : ℕ) : BitVec 64 :=
  if step < b then relocate (batchAt moves b) cur else cur

lemma cross_nil_batch {moves : List GcMove} {step b : ℕ} (h : ∀ m ∈ moves, m.step ≠ b) (x : BitVec 64) :
    cross moves step x b = x := by
  rw [cross, relocate_of_not_covers fun m hm hb => absurd hb (h m hm), ite_self]

lemma foldl_cross_congr {l l' : List GcMove} {step : ℕ} (bs : List ℕ)
    (h : ∀ b ∈ bs, batchAt l b = batchAt l' b) (x : BitVec 64) :
    bs.foldl (cross l step) x = bs.foldl (cross l' step) x := by
  apply List.foldl_ext
  intro cur b hb
  rw [cross, cross, h b hb]

lemma foldl_cross_nil (step : ℕ) (bs : List ℕ) (x : BitVec 64) : bs.foldl (cross [] step) x = x := by
  induction bs generalizing x with
  | nil => rfl
  | cons b bs ih => rw [List.foldl_cons, cross_nil_batch (by simp), ih]

/-- The first batch of a sorted array, when its step is the least one possible. -/
lemma first_batch {m : GcMove} {l : List GcMove}
    (hs : (m :: l).Pairwise fun a b => a.step ≤ b.step) (hm : ∀ a ∈ m :: l, m.step ≤ a.step) :
    (m :: l).takeWhile (fun a => a.step = m.step) = batchAt (m :: l) m.step ∧
      (m :: l).dropWhile (fun a => a.step = m.step) =
        (m :: l).filter fun a => !decide (a.step = m.step) := by
  apply takeWhile_dropWhile_eq_filter hs
  intro a ha b _ hab hbm
  have hle := hm a ha
  simp only [decide_eq_true_eq] at hbm ⊢
  omega

/-- Dropping one batch leaves the later ones. -/
lemma batchAt_rest (l : List GcMove) {b b' : ℕ} (h : b < b') :
    batchAt (l.filter fun a => !decide (a.step = b)) b' = batchAt l b' := by
  rw [batchAt, batchAt, List.filter_filter]
  apply List.filter_congr
  intro a _
  simp only [← decide_not, Bool.and_eq_decide, decide_eq_decide, decide_eq_true_eq]
  omega

/-- On a sorted array the batch loop visits the boundaries in order. -/
lemma canonLoop_eq {step k : ℕ} : ∀ {fuel lo : ℕ} {l : List GcMove},
    (l.Pairwise fun a b => a.step ≤ b.step) → (∀ m ∈ l, lo ≤ m.step ∧ m.step < lo + k) →
    l.length ≤ fuel → ∀ x, canonLoop step fuel l x = (List.range' lo k).foldl (cross l step) x := by
  -- on the number of boundaries left; the array shrinks only where one has a batch
  induction k with
  | zero =>
    intro fuel lo l _ hb _ x
    cases l with
    | nil => cases fuel <;> rfl
    | cons m l =>
      have hm := hb m (by simp)
      omega
  | succ k ih =>
    intro fuel lo l hs hb hf x
    rw [List.range'_succ, List.foldl_cons]
    cases l with
    | nil =>
      rw [cross_nil_batch (by simp), foldl_cross_nil]
      cases fuel <;> rfl
    | cons m l =>
      have hleast : ∀ a ∈ m :: l, m.step ≤ a.step := by
        intro a ha
        obtain rfl | hal := List.mem_cons.mp ha
        · exact le_rfl
        · exact (List.pairwise_cons.mp hs).1 a hal
      cases fuel with
      | zero => simp at hf
      | succ fuel =>
        by_cases hm : m.step = lo
        · -- the first batch is that of `lo`; the rest of the array starts behind it
          obtain ⟨htake, hdrop⟩ := first_batch hs hleast
          have hrest : ∀ a ∈ (m :: l).filter (fun a => !decide (a.step = m.step)),
              lo + 1 ≤ a.step ∧ a.step < lo + 1 + k := by
            intro a ha
            obtain ⟨h1, h2⟩ := List.mem_filter.mp ha
            have hab := hb a h1
            simp only [Bool.not_eq_eq_eq_not, Bool.not_true, decide_eq_false_iff_not] at h2
            omega
          have hlen : ((m :: l).filter fun a => !decide (a.step = m.step)).length ≤ fuel := by
            rw [List.filter_cons_of_neg (by simp)]
            have hle := List.length_filter_le (fun a => !decide (a.step = m.step)) l
            simp only [List.length_cons] at hf
            omega
          rw [canonLoop, htake, hdrop, ih (hs.filter _) hrest hlen, cross, ← hm]
          apply foldl_cross_congr
          intro b hb'
          exact batchAt_rest _ (List.mem_range'_1.mp hb').1
        · -- no batch at `lo`
          have hgt : ∀ a ∈ m :: l, lo + 1 ≤ a.step ∧ a.step < lo + 1 + k := by
            intro a ha
            have h1 := hb a ha
            have h2 := hb m (by simp)
            have h3 := hleast a ha
            omega
          rw [cross_nil_batch (fun a ha => by have := hgt a ha; omega)]
          exact ih hs hgt hf x

lemma foldl_cross_past {moves : List GcMove} {step : ℕ} (bs : List ℕ) (h : ∀ b ∈ bs, b ≤ step)
    (x : BitVec 64) : bs.foldl (cross moves step) x = x := by
  induction bs with
  | nil => rfl
  | cons b bs ih =>
    rw [List.foldl_cons, cross, if_neg (not_lt.mpr (h b (by simp)))]
    exact ih fun c hc => h c (by simp [hc])

/-- The canonical address: every batch after `step`, in step order. -/
lemma gcmoveCanon_eq {l : List GcMove} (hs : l.Pairwise fun a b => a.step ≤ b.step) {step k : ℕ}
    (hk : ∀ m ∈ l, m.step < step + 1 + k) (x : BitVec 64) :
    gcmoveCanon l step x =
      (List.range' (step + 1) k).foldl (fun cur b => relocate (batchAt l b) cur) x := by
  have hb : ∀ m ∈ l, 0 ≤ m.step ∧ m.step < 0 + (step + 1 + k) := fun m hm => by have := hk m hm; omega
  have hlow : (List.range' 0 (step + 1)).foldl (cross l step) x = x :=
    foldl_cross_past _ (fun b h => by have := List.mem_range'_1.mp h; omega) x
  rw [gcmoveCanon, canonLoop_eq hs hb le_rfl, ← List.range'_append_1, List.foldl_append, hlow,
    Nat.zero_add]
  apply List.foldl_ext
  intro cur b h
  have := List.mem_range'_1.mp h
  rw [cross, if_pos (by omega)]

lemma exists_step_bound (l : List GcMove) (n : ℕ) : ∃ k, ∀ m ∈ l, m.step < n + k := by
  induction l with
  | nil => exact ⟨0, by simp⟩
  | cons a l ih =>
    obtain ⟨k, hk⟩ := ih
    refine ⟨k + a.step + 1, ?_⟩
    intro m hm
    rcases List.mem_cons.mp hm with rfl | hm
    · omega
    · have := hk m hm
      omega

/-- Crossing one boundary and looking from there on is the same as looking across it. -/
lemma gcmoveCanon_succ {l : List GcMove} (hs : l.Pairwise fun a b => a.step ≤ b.step) (step : ℕ)
    (x : BitVec 64) :
    gcmoveCanon l step x = gcmoveCanon l (step + 1) (relocate (batchAt l (step + 1)) x) := by
  obtain ⟨k, hk⟩ := exists_step_bound l (step + 1 + 1)
  rw [gcmoveCanon_eq hs hk, gcmoveCanon_eq hs (k := k + 1) (fun m hm => by have := hk m hm; omega),
    List.range'_succ, List.foldl_cons]

lemma gcmoveCanon_past {l : List GcMove} {step : ℕ} (h : ∀ m ∈ l, m.step ≤ step) (x : BitVec 64) :
    gcmoveCanon l step x = x := by
  have hloop : ∀ fuel (l : List GcMove), (∀ m ∈ l, m.step ≤ step) → canonLoop step fuel l x = x := by
    intro fuel
    induction fuel with
    | zero =>
      intro l _
      cases l <;> rfl
    | succ fuel ih =>
      intro l hl
      cases l with
      | nil => rfl
      | cons m l =>
        rw [canonLoop, if_neg (not_lt.mpr (hl m (by simp)))]
        exact ih _ fun a ha => hl a ((List.dropWhile_sublist _).subset ha)
  exact hloop _ l h

/-- Two sorted arrangements of disjoint batches forward alike. -/
lemma gcmoveCanon_perm {l l' : List GcMove} (hd : DisjointOld l) (hp : l.Perm l')
    (hs : l.Pairwise fun a b => a.step ≤ b.step) (hs' : l'.Pairwise fun a b => a.step ≤ b.step)
    (step : ℕ) (x : BitVec 64) : gcmoveCanon l step x = gcmoveCanon l' step x := by
  obtain ⟨k, hk⟩ := exists_step_bound l (step + 1)
  rw [gcmoveCanon_eq hs hk, gcmoveCanon_eq hs' fun m hm => hk m (hp.symm.subset hm)]
  apply List.foldl_ext
  intro cur b _
  exact relocate_perm hd hp b cur

lemma preparedMoves_spec (Q : StepSort) (moves : List GcMove) :
    (preparedMoves Q true moves).Perm moves ∧
      (preparedMoves Q true moves).Pairwise fun a b => a.step ≤ b.step := by
  rw [preparedMoves, if_pos rfl]
  split_ifs with ho
  · refine ⟨List.Perm.refl _, ?_⟩
    rw [ordered, decide_eq_true_eq] at ho
    have : IsTrans GcMove fun a b => a.step ≤ b.step := ⟨fun _ _ _ => le_trans⟩
    exact List.isChain_iff_pairwise.mp ho
  · exact ⟨Q.perm moves, Q.sorted moves⟩

/-! ## Bytes and their names -/

/-- A byte that is at `pos s` at each step `s` of its life `[birth, death]` and is
relocated at a boundary exactly when a range of that batch covers it. -/
structure Trajectory (moves : List GcMove) (pos : ℕ → BitVec 64) (birth death : ℕ) : Prop where
  moved : ∀ s, birth ≤ s → s < death → ∀ m ∈ moves, m.step = s + 1 → m.covers (pos s) →
    pos (s + 1) = m.forward (pos s)
  unmoved : ∀ s, birth ≤ s → s < death → (∀ m ∈ moves, m.step = s + 1 → ¬ m.covers (pos s)) →
    pos (s + 1) = pos s

/-- No new range covers the byte at a boundary that leaves it where it is. -/
def Uncovered (moves : List GcMove) (pos : ℕ → BitVec 64) (birth death : ℕ) : Prop :=
  ∀ s, birth ≤ s → s < death → (∀ m ∈ moves, m.step = s + 1 → ¬ m.covers (pos s)) →
    ∀ m ∈ moves, m.step = s + 1 → ¬ m.newCovers (pos s)

variable {moves : List GcMove} {pos pos' : ℕ → BitVec 64} {birth death : ℕ}

instance : Decidable (Trajectory moves pos birth death) :=
  decidable_of_iff (∀ s ∈ List.range death, birth ≤ s →
      (∀ m ∈ moves, m.step = s + 1 → m.covers (pos s) → pos (s + 1) = m.forward (pos s)) ∧
      ((∀ m ∈ moves, m.step = s + 1 → ¬ m.covers (pos s)) → pos (s + 1) = pos s))
    ⟨fun h => ⟨fun s h1 h2 => (h s (List.mem_range.mpr h2) h1).1,
        fun s h1 h2 => (h s (List.mem_range.mpr h2) h1).2⟩,
      fun h s h2 h1 => ⟨h.moved s h1 (List.mem_range.mp h2), h.unmoved s h1 (List.mem_range.mp h2)⟩⟩

instance : Decidable (Uncovered moves pos birth death) :=
  decidable_of_iff (∀ s ∈ List.range death, birth ≤ s →
      (∀ m ∈ moves, m.step = s + 1 → ¬ m.covers (pos s)) →
        ∀ m ∈ moves, m.step = s + 1 → ¬ m.newCovers (pos s))
    ⟨fun h s h1 h2 => h s (List.mem_range.mpr h2) h1, fun h s h2 h1 => h s h1 (List.mem_range.mp h2)⟩

lemma Trajectory.step (h : Trajectory moves pos birth death) (hd : DisjointOld moves) {s : ℕ}
    (h1 : birth ≤ s) (h2 : s < death) : pos (s + 1) = relocate (batchAt moves (s + 1)) (pos s) := by
  by_cases hex : ∃ m ∈ moves, m.step = s + 1 ∧ m.covers (pos s)
  · obtain ⟨m, hm, hb, hx⟩ := hex
    rw [relocate_of_covers hd hm hb hx, h.moved s h1 h2 m hm hb hx]
  · have hno : ∀ m ∈ moves, m.step = s + 1 → ¬ m.covers (pos s) := fun m hm hb hx => hex ⟨m, hm, hb, hx⟩
    rw [relocate_of_not_covers hno, h.unmoved s h1 h2 hno]

/-- One boundary does not change the name of a byte. -/
lemma Trajectory.canon_succ (h : Trajectory moves pos birth death) (hd : DisjointOld moves)
    {l : List GcMove} (hp : l.Perm moves) (hs : l.Pairwise fun a b => a.step ≤ b.step) {s : ℕ}
    (h1 : birth ≤ s) (h2 : s < death) :
    gcmoveCanon l s (pos s) = gcmoveCanon l (s + 1) (pos (s + 1)) := by
  rw [gcmoveCanon_succ hs, h.step hd h1 h2, relocate_perm hd hp.symm]

lemma Trajectory.canon_eq (h : Trajectory moves pos birth death) (hd : DisjointOld moves)
    {l : List GcMove} (hp : l.Perm moves) (hs : l.Pairwise fun a b => a.step ≤ b.step) {s : ℕ}
    (h1 : birth ≤ s) (h2 : s ≤ death) :
    gcmoveCanon l s (pos s) = gcmoveCanon l birth (pos birth) := by
  induction s, h1 using Nat.le_induction with
  | base => rfl
  | succ s h1 ih => rw [← h.canon_succ hd hp hs h1 (by omega), ih (by omega)]

lemma newCovers_forward {m : GcMove} {x : BitVec 64} (h : m.covers x) : m.newCovers (m.forward x) := by
  rw [GcMove.covers, decide_eq_true_eq] at h
  rw [GcMove.newCovers, GcMove.forward, decide_eq_true_eq, BitVec.add_comm, BitVec.add_sub_cancel]
  exact h.2

/-- A batch with disjoint ranges sends two different bytes to different addresses. -/
lemma Trajectory.ne_succ (h : Trajectory moves pos birth death) (h' : Trajectory moves pos' birth death)
    (hn : DisjointNew moves) (hu : Uncovered moves pos birth death)
    (hu' : Uncovered moves pos' birth death) {s : ℕ} (h1 : birth ≤ s) (h2 : s < death)
    (hne : pos s ≠ pos' s) : pos (s + 1) ≠ pos' (s + 1) := by
  by_cases hex : ∃ m ∈ moves, m.step = s + 1 ∧ m.covers (pos s)
  · obtain ⟨m, hm, hb, hx⟩ := hex
    rw [h.moved s h1 h2 m hm hb hx]
    by_cases hex' : ∃ m ∈ moves, m.step = s + 1 ∧ m.covers (pos' s)
    · obtain ⟨m', hm', hb', hx'⟩ := hex'
      rw [h'.moved s h1 h2 m' hm' hb' hx']
      intro he
      -- both moved: one range keeps bytes apart, two land apart
      by_cases hmm : m = m'
      · subst hmm
        apply hne
        rw [GcMove.forward, GcMove.forward, BitVec.add_right_inj] at he
        exact (BitVec.sub_left_inj _).mp he
      · have hboth : m.newCovers (m.forward (pos s)) ∧ m'.newCovers (m.forward (pos s)) :=
          ⟨newCovers_forward hx, he ▸ newCovers_forward hx'⟩
        exact hn.not_both hm hm' hmm (hb.trans hb'.symm) _ hboth
    · have hno : ∀ m ∈ moves, m.step = s + 1 → ¬ m.covers (pos' s) :=
        fun m hm hb hx => hex' ⟨m, hm, hb, hx⟩
      rw [h'.unmoved s h1 h2 hno]
      intro he
      -- only one moved, and it does not land on a byte that stayed
      exact hu' s h1 h2 hno m hm hb (he ▸ newCovers_forward hx)
  · have hno : ∀ m ∈ moves, m.step = s + 1 → ¬ m.covers (pos s) := fun m hm hb hx => hex ⟨m, hm, hb, hx⟩
    rw [h.unmoved s h1 h2 hno]
    by_cases hex' : ∃ m ∈ moves, m.step = s + 1 ∧ m.covers (pos' s)
    · obtain ⟨m', hm', hb', hx'⟩ := hex'
      rw [h'.moved s h1 h2 m' hm' hb' hx']
      intro he
      exact hu s h1 h2 hno m' hm' hb' (he ▸ newCovers_forward hx')
    · rw [h'.unmoved s h1 h2 fun m hm hb hx => hex' ⟨m, hm, hb, hx⟩]
      exact hne

lemma Trajectory.ne (h : Trajectory moves pos birth death) (h' : Trajectory moves pos' birth death)
    (hn : DisjointNew moves) (hu : Uncovered moves pos birth death)
    (hu' : Uncovered moves pos' birth death) (hne : pos birth ≠ pos' birth) {s : ℕ} (h1 : birth ≤ s)
    (h2 : s ≤ death) : pos s ≠ pos' s := by
  induction s, h1 using Nat.le_induction with
  | base => exact hne
  | succ s h1 ih => exact h.ne_succ h' hn hu hu' h1 (by omega) (ih (by omega))

lemma Trajectory.restrict (h : Trajectory moves pos birth death) {b d : ℕ} (hb : birth ≤ b)
    (hd : d ≤ death) : Trajectory moves pos b d :=
  ⟨fun s h1 h2 => h.moved s (hb.trans h1) (h2.trans_le hd),
    fun s h1 h2 => h.unmoved s (hb.trans h1) (h2.trans_le hd)⟩

lemma Uncovered.restrict (h : Uncovered moves pos birth death) {b d : ℕ} (hb : birth ≤ b)
    (hd : d ≤ death) : Uncovered moves pos b d :=
  fun s h1 h2 => h s (hb.trans h1) (h2.trans_le hd)

/-! ## The pass over a trace -/

/-- A record with its canonical address. -/
def rekeyOne (key : ℕ → BitVec 64 → BitVec 64) (r : ValRec) : ValRec :=
  if r.kind = .memAbs then { r with addr := key r.step r.addr } else r

lemma foldl_rekeyRec (key : ℕ → BitVec 64 → BitVec 64) (l out : List ValRec) (n : ℕ) :
    l.foldl (rekeyRec key) (out, n) =
      (out ++ l.map (rekeyOne key), n + l.countP fun r => (rekeyOne key r).addr ≠ r.addr) := by
  induction l generalizing out n with
  | nil => simp
  | cons r l ih =>
    have hstep : rekeyRec key (out, n) r = (out ++ [rekeyOne key r],
        n + if (rekeyOne key r).addr ≠ r.addr then 1 else 0) := by
      unfold rekeyRec rekeyOne
      by_cases hk : r.kind = .memAbs
      · by_cases ha : key r.step r.addr = r.addr
        · simp only [if_pos hk, ha, ne_eq, not_true_eq_false, if_false, Nat.add_zero]
        · simp only [if_pos hk, ha, ne_eq, not_false_eq_true, if_true]
      · simp only [if_neg hk, ne_eq, not_true_eq_false, if_false, Nat.add_zero]
    rw [List.foldl_cons, hstep, ih, List.map_cons, List.countP_cons]
    simp only [List.append_assoc, List.singleton_append, decide_eq_true_eq, Prod.mk.injEq, true_and]
    omega

lemma rekeyOne_nil (r : ValRec) : rekeyOne (gcmoveCanon []) r = r := by
  unfold rekeyOne
  split_ifs <;> rfl

lemma gcmoveCanonicalize_eq (Q : StepSort) (alloc : Bool) (v : ValTrace) (moves : List GcMove) :
    gcmoveCanonicalize Q alloc v moves =
      ({ v with recs := v.recs.map (rekeyOne (gcmoveCanon (preparedMoves Q alloc moves))) },
        v.recs.countP fun r => (rekeyOne (gcmoveCanon (preparedMoves Q alloc moves)) r).addr ≠ r.addr) := by
  unfold gcmoveCanonicalize
  split_ifs with hm
  · have hprep : preparedMoves Q alloc moves = [] := by rw [hm]; rfl
    rw [hprep, funext rekeyOne_nil]
    simp
  · simp only [canonRec, foldl_rekeyRec, List.nil_append, Nat.zero_add]

/-- The canonical address of `x` at `step`, whatever the order of the array. -/
def canonOf (Q : StepSort) (moves : List GcMove) (step : ℕ) (x : BitVec 64) : BitVec 64 :=
  gcmoveCanon (preparedMoves Q true moves) step x

lemma canonOf_eq (Q Q' : StepSort) {l l' : List GcMove} (hd : DisjointOld l) (hp : l'.Perm l) :
    canonOf Q' l' = canonOf Q l := by
  funext s x
  obtain ⟨h1, h2⟩ := preparedMoves_spec Q l
  obtain ⟨h3, h4⟩ := preparedMoves_spec Q' l'
  exact gcmoveCanon_perm (hd.perm (h3.trans hp).symm) ((h3.trans hp).trans h1.symm) h4 h2 s x

/-- Two bytes that live from `s` to `death`, with no batch after it, have different names. -/
lemma canonOf_ne {moves : List GcMove} (hd : DisjointOld moves) (Q : StepSort)
    {pos pos' : ℕ → BitVec 64} {s death : ℕ} (h : Trajectory moves pos s death)
    (h' : Trajectory moves pos' s death) (hs : s ≤ death)
    (hlive : ∀ m ∈ moves, s < m.step → m.step ≤ death) (hn : DisjointNew moves)
    (hu : Uncovered moves pos s death) (hu' : Uncovered moves pos' s death) (hne : pos s ≠ pos' s) :
    canonOf Q moves s (pos s) ≠ canonOf Q moves s (pos' s) := by
  obtain ⟨hperm, hsorted⟩ := preparedMoves_spec Q moves
  have hpast : ∀ m ∈ preparedMoves Q true moves, m.step ≤ death := by
    intro m hm
    by_cases hms : s < m.step
    · exact hlive m (hperm.subset hm) hms
    · omega
  -- at the end of their lives the bytes are their own names
  rw [canonOf, canonOf, ← h.canon_eq hd hperm hsorted hs le_rfl, gcmoveCanon_past hpast,
    ← h'.canon_eq hd hperm hsorted hs le_rfl, gcmoveCanon_past hpast]
  exact h.ne h' hn hu hu' hne hs le_rfl

/-- Only the addresses of absolute memory records change. -/
lemma forall₂_rekeyOne (key : ℕ → BitVec 64 → BitVec 64) (l : List ValRec) :
    List.Forall₂ (fun r r' => r' = { r with addr := r'.addr } ∧ (r.kind ≠ .memAbs → r' = r))
      l (l.map (rekeyOne key)) := by
  rw [List.forall₂_map_right_iff, List.forall₂_same]
  intro r _
  unfold rekeyOne
  split_ifs with hk
  · exact ⟨rfl, fun h => absurd hk h⟩
  · exact ⟨rfl, fun _ => rfl⟩

lemma countP_rekeyOne (key : ℕ → BitVec 64 → BitVec 64) (l : List ValRec) :
    (l.countP fun r => (rekeyOne key r).addr ≠ r.addr) =
      (l.zip (l.map (rekeyOne key))).countP fun p => p.2.addr ≠ p.1.addr := by
  have hzip : l.zip (l.map (rekeyOne key)) = l.map fun r => (r, rekeyOne key r) := by
    nth_rewrite 1 [← List.map_id l]
    exact List.zip_map'
  rw [hzip, List.countP_map]
  rfl

/-- Canonical addresses name bytes: a byte keeps its name through its life, two bytes
live at one step and through every later batch have different names, and the pass
gives the records of absolute memory their names and nothing else. -/
theorem gcmove_names (moves : List GcMove) (hd : DisjointOld moves) (Q : StepSort) :
    (∀ pos birth death, Trajectory moves pos birth death → ∀ s t, birth ≤ s → s ≤ death → birth ≤ t →
      t ≤ death → canonOf Q moves s (pos s) = canonOf Q moves t (pos t)) ∧
    (∀ pos pos' birth birth' death death' s, Trajectory moves pos birth death →
      Trajectory moves pos' birth' death' → birth ≤ s → s ≤ death → birth' ≤ s → s ≤ death' →
      (∀ m ∈ moves, s < m.step → m.step ≤ death ∧ m.step ≤ death') → DisjointNew moves →
      Uncovered moves pos birth death → Uncovered moves pos' birth' death' → pos s ≠ pos' s →
      canonOf Q moves s (pos s) ≠ canonOf Q moves s (pos' s)) ∧
    (∀ v alloc, (gcmoveCanonicalize Q alloc v moves).1 =
        { v with recs := (gcmoveCanonicalize Q alloc v moves).1.recs } ∧
      List.Forall₂ (fun r r' => r' = { r with addr := r'.addr } ∧ (r.kind ≠ .memAbs → r' = r))
        v.recs (gcmoveCanonicalize Q alloc v moves).1.recs ∧
      (gcmoveCanonicalize Q alloc v moves).2 =
        (v.recs.zip (gcmoveCanonicalize Q alloc v moves).1.recs).countP fun p => p.2.addr ≠ p.1.addr) ∧
    (∀ v Q' moves', moves'.Perm moves →
      gcmoveCanonicalize Q' true v moves' = gcmoveCanonicalize Q true v moves) := by
  obtain ⟨hperm, hsorted⟩ := preparedMoves_spec Q moves
  refine ⟨?_, ?_, ?_, ?_⟩
  · intro pos birth death h s t h1 h2 h3 h4
    rw [canonOf, canonOf, h.canon_eq hd hperm hsorted h1 h2, h.canon_eq hd hperm hsorted h3 h4]
  · intro pos pos' birth birth' death death' s h h' h1 h2 h3 h4 hlive hn hu hu' hne
    exact canonOf_ne hd Q (h.restrict h1 (Nat.min_le_left _ _)) (h'.restrict h3 (Nat.min_le_right _ _))
      (le_min h2 h4) (fun m hm hms => le_min (hlive m hm hms).1 (hlive m hm hms).2) hn
      (hu.restrict h1 (Nat.min_le_left _ _)) (hu'.restrict h3 (Nat.min_le_right _ _)) hne
  · intro v alloc
    rw [gcmoveCanonicalize_eq]
    exact ⟨rfl, forall₂_rekeyOne _ _, countP_rekeyOne _ _⟩
  · intro v Q' moves' hp
    rw [gcmoveCanonicalize_eq, gcmoveCanonicalize_eq]
    have hkey : gcmoveCanon (preparedMoves Q' true moves') = gcmoveCanon (preparedMoves Q true moves) :=
      canonOf_eq Q Q' hd hp
    rw [hkey]

instance : Std.Total fun a b : GcMove => a.step ≤ b.step := ⟨fun a b => le_total a.step b.step⟩

instance : IsTrans GcMove fun a b => a.step ≤ b.step := ⟨fun _ _ _ => le_trans⟩

/-- An insertion sort is one such `qsort`. -/
def insertionStepSort : StepSort where
  sort l := l.insertionSort fun a b => a.step ≤ b.step
  perm l := List.perm_insertionSort _ l
  sorted l := List.pairwise_insertionSort _ l

/-- Two objects that change places in one batch. -/
theorem gcmove_names_swap :
    let moves : List GcMove := [⟨100, 200, 8, 5⟩, ⟨200, 100, 8, 5⟩]
    let a : ℕ → BitVec 64 := fun s => if s < 5 then 100 else 200
    let b : ℕ → BitVec 64 := fun s => if s < 5 then 200 else 100
    DisjointOld moves ∧ DisjointNew moves ∧ Trajectory moves a 0 9 ∧ Trajectory moves b 0 9 ∧
      canonOf insertionStepSort moves 0 (a 0) = canonOf insertionStepSort moves 7 (a 7) ∧
      canonOf insertionStepSort moves 0 (a 0) ≠ canonOf insertionStepSort moves 0 (b 0) := by
  intro moves a b
  have hd : DisjointOld moves := by
    simp only [moves, DisjointOld, GcMove.covers, List.pairwise_cons, List.mem_singleton,
      decide_eq_true_eq, forall_eq]
    refine ⟨fun _ x => ?_, by simp⟩
    bv_omega
  have hn : DisjointNew moves := by
    simp only [moves, DisjointNew, GcMove.newCovers, List.pairwise_cons, List.mem_singleton,
      decide_eq_true_eq, forall_eq]
    refine ⟨fun _ x => ?_, by simp⟩
    bv_omega
  have ha : Trajectory moves a 0 9 := by decide
  have hb : Trajectory moves b 0 9 := by decide
  obtain ⟨hstable, hapart, -⟩ := gcmove_names moves hd insertionStepSort
  refine ⟨hd, hn, ha, hb, hstable a 0 9 ha 0 7 (by decide) (by decide) (by decide) (by decide), ?_⟩
  exact hapart a b 0 0 9 9 0 ha hb (by decide) (by decide) (by decide) (by decide) (by decide) hn
    (by decide) (by decide) (by decide)

/-- Three ways in which names are not unique or not stable: a byte that is dead when a
live one slides onto its last address; two ranges of one batch that overlap after the
move; and an array that had to be sorted without memory to sort it. -/
theorem gcmove_names_collide :
    (let moves : List GcMove := [⟨200, 100, 8, 5⟩]
     let dead : ℕ → BitVec 64 := fun _ => 100
     let live : ℕ → BitVec 64 := fun s => if s < 5 then 200 else 100
     DisjointOld moves ∧ Trajectory moves dead 0 3 ∧ Trajectory moves live 0 9 ∧
       Uncovered moves dead 0 3 ∧ Uncovered moves live 0 9 ∧ dead 2 ≠ live 2 ∧
       canonOf insertionStepSort moves 2 (dead 2) = canonOf insertionStepSort moves 2 (live 2)) ∧
    (let moves : List GcMove := [⟨0, 100, 8, 1⟩, ⟨8, 100, 8, 1⟩]
     let first : ℕ → BitVec 64 := fun s => if s < 1 then 0 else 100
     let second : ℕ → BitVec 64 := fun s => if s < 1 then 8 else 100
     DisjointOld moves ∧ Trajectory moves first 0 1 ∧ Trajectory moves second 0 1 ∧
       Uncovered moves first 0 1 ∧ Uncovered moves second 0 1 ∧ first 0 ≠ second 0 ∧
       canonOf insertionStepSort moves 0 (first 0) = canonOf insertionStepSort moves 0 (second 0)) ∧
    (let v := appendAll (valtraceNew 1 1) [(0, [{ kind := .memAbs, addr := 0, size := 1 }])]
     DisjointOld [⟨0, 100, 8, 1⟩, ⟨100, 200, 8, 2⟩] ∧
       gcmoveCanonicalize insertionStepSort false v [⟨100, 200, 8, 2⟩, ⟨0, 100, 8, 1⟩] ≠
         gcmoveCanonicalize insertionStepSort false v [⟨0, 100, 8, 1⟩, ⟨100, 200, 8, 2⟩]) := by
  refine ⟨?_, ?_, ?_⟩
  · intro moves dead live
    refine ⟨by simp [moves, DisjointOld], ?_⟩
    decide
  · intro moves first second
    have hd : DisjointOld moves := by
      simp only [moves, DisjointOld, GcMove.covers, List.pairwise_cons, List.mem_singleton,
        decide_eq_true_eq, forall_eq]
      refine ⟨fun _ x => ?_, by simp⟩
      bv_omega
    refine ⟨hd, ?_⟩
    decide
  · intro v
    refine ⟨by simp [DisjointOld], ?_⟩
    decide

end AsmTest.Dataflow
