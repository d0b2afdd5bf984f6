import AsmTest.Lib.Sweep
import AsmTest.ObjIdExact

/-!
# Dropping ambiguous ranges in place

`objid_disjointify_new` passes over the sorted moves batch by batch and writes those it keeps to the
front of the array it reads. What it returns are the ranges that meet no other range of their step.
-/

namespace AsmTest.Dataflow

open InPlace

section Source

/-- `while (j < n && m[j].step == bstep) j++`, with `left = n - j` -/
def batchEnd (m : List GcMove) (bstep : ℕ) : ℕ → ℕ → ℕ
  | 0, j => j
  | left + 1, j =>
    match m[j]? with
    | none => j
    | some x => if x.step = bstep then batchEnd m bstep left (j + 1) else j

/-- The loop over a batch, with `left = j - k`; `maxend` is the running maximum of the ends. The
result is `w` and the array. -/
def sweepLoop : ℕ → ℕ → Option (BitVec 64) → ℕ → List GcMove → ℕ × List GcMove
  | 0, _, _, w, m => (w, m)
  | left + 1, k, maxend, w, m =>
    match m[k]? with
    | none => (w, m)
    | some x =>
      let fin := x.newBase + x.len
      let bad := maxend.any (fun e => x.newBase < e) ||
        (left ≠ 0 && m[k + 1]?.any fun y => y.newBase < fin)
      if bad then sweepLoop left (k + 1) (raiseMax maxend fin) w m
      else sweepLoop left (k + 1) (raiseMax maxend fin) (w + 1) (assign m w k)

/-- The loop over the batches, for at most `fuel` of them -/
def sweepBatches (n : ℕ) : ℕ → ℕ → ℕ → List GcMove → ℕ × List GcMove
  | 0, _, w, m => (w, m)
  | fuel + 1, i, w, m =>
    match m[i]? with
    | none => (w, m)
    | some x =>
      let j := batchEnd m x.step (n - i) i
      let r := sweepLoop (j - i) i none w m
      sweepBatches n fuel j r.1 r.2

/-- `m[0 .. w)`, where `w` is the compacted length; every batch has a range. -/
def objidDisjointifyNew (m : List GcMove) : List GcMove :=
  let r := sweepBatches m.length m.length 0 0 m
  r.2.take r.1

end Source

section Refinement

variable {done junk batch rest : List GcMove}

lemma batchEnd_append (before rest : List GcMove) (bstep : ℕ) :
    batchEnd (before ++ rest) bstep rest.length before.length =
      before.length + (rest.takeWhile fun k => k.step = bstep).length := by
  induction rest generalizing before with
  | nil => rfl
  | cons x rest ih =>
    have hget : (before ++ x :: rest)[before.length]? = some x := by simp
    rw [List.length_cons, batchEnd, hget, List.takeWhile_cons]
    dsimp only
    by_cases hx : x.step = bstep
    · rw [if_pos hx, if_pos (decide_eq_true hx), List.length_cons]
      have := ih (before ++ [x])
      simp only [List.append_assoc, List.singleton_append, List.length_append,
        List.length_singleton] at this
      omega
    · rw [if_neg hx, if_neg (by simpa using hx), List.length_nil, Nat.add_zero]

/-- The array is what was kept, old elements, and what is still to be looked at. -/
lemma sweepLoop_append (maxend : Option (BitVec 64)) (done junk batch rest : List GcMove) :
    ∃ junk', (done ++ disjointifyBatch maxend batch).length + junk'.length =
        done.length + junk.length + batch.length ∧
      sweepLoop batch.length (done.length + junk.length) maxend done.length
          (done ++ junk ++ batch ++ rest) =
        ((done ++ disjointifyBatch maxend batch).length,
          done ++ disjointifyBatch maxend batch ++ junk' ++ rest) := by
  induction batch generalizing maxend done junk with
  | nil => exact ⟨junk, by simp [disjointifyBatch], by simp [sweepLoop, disjointifyBatch]⟩
  | cons x batch ih =>
    have hget : (done ++ junk ++ x :: batch ++ rest)[done.length + junk.length]? = some x := by
      rw [← List.length_append, List.append_assoc _ (x :: batch)]
      simp
    have hnext : (decide (batch.length ≠ 0) &&
        (done ++ junk ++ x :: batch ++ rest)[done.length + junk.length + 1]?.any
          fun y => decide (y.newBase < x.newBase + x.len)) =
        batch.head?.any fun y => decide (y.newBase < x.newBase + x.len) := by
      cases batch with
      | nil => rfl
      | cons y batch =>
        have : (done ++ junk ++ x :: y :: batch ++ rest)[done.length + junk.length + 1]? =
            some y := by
          rw [← List.length_append, List.append_assoc _ (x :: y :: batch),
            List.getElem?_append_right (by omega), Nat.add_sub_cancel_left]
          rfl
        rw [this]
        rfl
    rw [List.length_cons, sweepLoop, hget, disjointifyBatch]
    dsimp only
    rw [hnext]
    split
    · obtain ⟨junk', hlen, hrun⟩ := ih (raiseMax maxend (x.newBase + x.len)) done (junk ++ [x])
      refine ⟨junk', ?_, ?_⟩
      · simp only [List.length_append, List.length_singleton] at hlen ⊢
        omega
      · simpa [Nat.add_assoc] using hrun
    · obtain ⟨old, hold, hassign⟩ := assign_append done junk (batch ++ rest) x
      obtain ⟨junk', hlen, hrun⟩ := ih (raiseMax maxend (x.newBase + x.len)) (done ++ [x]) old
      refine ⟨junk', ?_, ?_⟩
      · simp only [List.length_append, List.length_cons, List.length_nil] at hlen ⊢
        omega
      · rw [List.append_assoc _ (x :: batch), List.cons_append, hassign]
        simpa [hold, Nat.add_assoc, Nat.add_comm, Nat.add_left_comm] using hrun

lemma sweepBatches_append (fuel : ℕ) (done junk rest : List GcMove) (hfuel : rest.length ≤ fuel) :
    ∃ junk', sweepBatches (done.length + junk.length + rest.length) fuel
        (done.length + junk.length) done.length (done ++ junk ++ rest) =
      ((done ++ disjointifyLoop fuel rest).length, done ++ disjointifyLoop fuel rest ++ junk') := by
  induction fuel generalizing done junk rest with
  | zero =>
    obtain rfl := List.length_eq_zero_iff.mp (Nat.le_zero.mp hfuel)
    exact ⟨junk, by simp [sweepBatches, disjointifyLoop]⟩
  | succ fuel ih =>
    cases rest with
    | nil =>
      refine ⟨junk, ?_⟩
      have hget : (done ++ junk ++ [])[done.length + junk.length]? = none := by simp
      rw [sweepBatches, hget]
      simp [disjointifyLoop]
    | cons x rest =>
      have hget : (done ++ junk ++ x :: rest)[done.length + junk.length]? = some x := by
        rw [← List.length_append]
        simp
      have hend := batchEnd_append (done ++ junk) (x :: rest) x.step
      rw [List.length_append] at hend
      have hsplit : (x :: rest).takeWhile (fun k => k.step = x.step) ++
          (x :: rest).dropWhile (fun k => k.step = x.step) = x :: rest :=
        List.takeWhile_append_dropWhile
      have hshort := (length_dropWhile_step_le x rest).trans (Nat.le_of_succ_le_succ hfuel)
      rw [disjointifyLoop]
      set batch := (x :: rest).takeWhile fun k => k.step = x.step with hbatch
      set after := (x :: rest).dropWhile fun k => k.step = x.step with hafter
      obtain ⟨junk', hlen, hrun⟩ := sweepLoop_append none done junk batch after
      obtain ⟨junk'', hloop⟩ := ih (done ++ disjointifyBatch none batch) junk' after hshort
      refine ⟨junk'', ?_⟩
      rw [sweepBatches, hget]
      dsimp only
      rw [Nat.add_sub_cancel_left, hend, Nat.add_sub_cancel_left, ← hsplit, ← List.append_assoc,
        hrun, List.length_append, ← Nat.add_assoc, ← hlen]
      rw [hloop, List.append_assoc done]

/-- Reading the array that is being written makes no difference. -/
lemma objidDisjointifyNew_eq (l : List GcMove) : objidDisjointifyNew l = disjointifyNew l := by
  obtain ⟨junk, hrun⟩ := sweepBatches_append l.length [] [] l le_rfl
  simp only [List.length_nil, Nat.zero_add, List.nil_append] at hrun
  rw [objidDisjointifyNew, disjointifyNew, hrun]
  exact List.take_left

end Refinement

section Exact

/-- The order of `objid_cmp_step_new` -/
def StepNewLe (a b : GcMove) : Prop := a.step < b.step ∨ a.step = b.step ∧ a.newBase ≤ b.newBase

/-- No address lies in the range at `k` and in another range of its step. -/
def Alone (l : List GcMove) (k : ℕ) : Prop :=
  ∀ m, l[k]? = some m → ∀ i m', i ≠ k → l[i]? = some m' → m'.step = m.step →
    ¬SpansMeet m.newBase.toNat m.len.toNat m'.newBase.toNat m'.len.toNat

/-- The ends as numbers -/
abbrev newLo (m : GcMove) : ℕ := m.newBase.toNat

abbrev newHi (m : GcMove) : ℕ := m.newBase.toNat + m.len.toNat

lemma forall_getElem?_ne {α : Type*} {P : α → Prop} (before after : List α) (x : α) :
    (∀ i y, i ≠ before.length → (before ++ x :: after)[i]? = some y → P y) ↔
      (∀ y ∈ before, P y) ∧ ∀ y ∈ after, P y := by
  constructor
  · refine fun h => ⟨fun y hy => ?_, fun y hy => ?_⟩
    · obtain ⟨i, hi, rfl⟩ := List.mem_iff_getElem.mp hy
      exact h i _ hi.ne (by rw [List.getElem?_append_left hi, List.getElem?_eq_getElem hi])
    · obtain ⟨i, hi, rfl⟩ := List.mem_iff_getElem.mp hy
      refine h (before.length + (i + 1)) _ (by omega) ?_
      rw [List.getElem?_append_right (by omega), Nat.add_sub_cancel_left, List.getElem?_cons_succ,
        List.getElem?_eq_getElem hi]
  · rintro ⟨hbefore, hafter⟩ i y hne hget
    rcases lt_or_gt_of_ne hne with hlt | hgt
    · rw [List.getElem?_append_left hlt] at hget
      exact hbefore y (List.mem_of_getElem? hget)
    · obtain ⟨j, rfl⟩ := Nat.exists_eq_add_of_lt hgt
      rw [Nat.add_assoc, List.getElem?_append_right (by omega), Nat.add_sub_cancel_left,
        List.getElem?_cons_succ] at hget
      exact hafter y (List.mem_of_getElem? hget)

lemma alone_append_iff (before after : List GcMove) (x : GcMove) :
    Alone (before ++ x :: after) before.length ↔
      (∀ y ∈ before, y.step = x.step → ¬Sweep.Meets newLo newHi y x) ∧
        ∀ y ∈ after, y.step = x.step → ¬Sweep.Meets newLo newHi x y := by
  have hget : (before ++ x :: after)[before.length]? = some x := by simp
  rw [Alone]
  simp only [hget, Option.some.injEq, forall_eq']
  refine (forall_getElem?_ne before after x).trans ?_
  refine and_congr_left fun _ => forall₂_congr fun y _ => imp_congr_right fun _ => not_congr ?_
  exact ⟨fun h => Sweep.Meets.symm h, fun h => Sweep.Meets.symm h⟩

/-- Without a wrap the batch is a sweep over numbers. -/
lemma disjointifyBatch_eq_isolated {l : List GcMove} (hfit : ∀ m ∈ l, newHi m < 2 ^ 64)
    (maxend : Option (BitVec 64)) :
    disjointifyBatch maxend l = Sweep.isolated newLo newHi (maxend.map BitVec.toNat) l := by
  induction l generalizing maxend with
  | nil => rfl
  | cons m l ih =>
    rw [List.forall_mem_cons] at hfit
    have hfin : (m.newBase + m.len).toNat = newHi m := by
      rw [BitVec.toNat_add, Nat.mod_eq_of_lt hfit.1]
    have hraise : (raiseMax maxend (m.newBase + m.len)).map BitVec.toNat =
        Sweep.raise (maxend.map BitVec.toNat) (newHi m) := by
      cases maxend with
      | none => simp [raiseMax, Sweep.raise, hfin]
      | some e =>
        simp only [raiseMax, Sweep.raise, Option.map_some, BitVec.lt_def, hfin]
        split
        · rw [Option.map_some, hfin]
        · rfl
    have hbad : (maxend.any (fun e => decide (m.newBase < e)) ||
          l.head?.any fun k => decide (k.newBase < m.newBase + m.len)) =
        ((maxend.map BitVec.toNat).any (fun t => decide (newLo m < t)) ||
          l.head?.any fun y => decide (newLo y < newHi m)) := by
      simp only [BitVec.lt_def, hfin, Option.any_map]
    rw [disjointifyBatch, Sweep.isolated, ← hraise, ← ih hfit.2]
    simp only [hbad]

lemma lt_step_of_mem_dropWhile {l : List GcMove} {s : ℕ} (hsorted : l.Pairwise StepNewLe)
    (hle : ∀ m ∈ l, s ≤ m.step) : ∀ m ∈ l.dropWhile (fun k => k.step = s), s < m.step := by
  induction l with
  | nil => exact fun m hm => absurd hm List.not_mem_nil
  | cons x l ih =>
    rw [List.pairwise_cons] at hsorted
    rw [List.forall_mem_cons] at hle
    rw [List.dropWhile_cons]
    split
    next => exact ih hsorted.2 hle.2
    next hne =>
      have hx : s < x.step := lt_of_le_of_ne hle.1 fun h => hne (decide_eq_true h.symm)
      refine List.forall_mem_cons.mpr ⟨hx, fun m hm => ?_⟩
      rcases hsorted.1 m hm with h | h <;> omega

/-- `before` are the batches passed. -/
lemma disjointifyLoop_eq_pick (before : List GcMove) {keep : ℕ → Bool} {rest : List GcMove}
    (fuel : ℕ) (hfuel : rest.length ≤ fuel) (hsorted : rest.Pairwise StepNewLe)
    (hpos : ∀ m ∈ rest, 0 < m.len.toNat) (hfit : ∀ m ∈ rest, newHi m < 2 ^ 64)
    (hpast : ∀ a ∈ before, ∀ m ∈ rest, a.step ≠ m.step)
    (hkeep : ∀ k, keep k = true ↔ Alone (before ++ rest) k) :
    disjointifyLoop fuel rest = pick keep before.length rest := by
  induction fuel generalizing before rest with
  | zero =>
    obtain rfl := List.length_eq_zero_iff.mp (Nat.le_zero.mp hfuel)
    rfl
  | succ fuel ih =>
    cases rest with
    | nil => rfl
    | cons x rest =>
      have hle : ∀ m ∈ x :: rest, x.step ≤ m.step := by
        refine List.forall_mem_cons.mpr ⟨le_rfl, fun m hm => ?_⟩
        rcases (List.pairwise_cons.mp hsorted).1 m hm with h | h <;> omega
      have hlater := lt_step_of_mem_dropWhile hsorted hle
      have hsame : ∀ m ∈ (x :: rest).takeWhile (fun k => k.step = x.step), m.step = x.step :=
        fun m hm => by simpa using List.mem_takeWhile_imp hm
      have hsub := List.takeWhile_sublist (l := x :: rest) fun k => decide (k.step = x.step)
      have hsub' := List.dropWhile_sublist (l := x :: rest) fun k => decide (k.step = x.step)
      have hsplit : (x :: rest).takeWhile (fun k => k.step = x.step) ++
          (x :: rest).dropWhile (fun k => k.step = x.step) = x :: rest :=
        List.takeWhile_append_dropWhile
      have hshort := (length_dropWhile_step_le x rest).trans (Nat.le_of_succ_le_succ hfuel)
      rw [disjointifyLoop]
      generalize hbatch : (x :: rest).takeWhile (fun k => k.step = x.step) = batch at *
      generalize hafter : (x :: rest).dropWhile (fun k => k.step = x.step) = after at *
      rw [← hsplit] at hkeep hpast
      rw [← hsplit, pick_append, disjointifyBatch_eq_isolated fun m hm => hfit m (hsub.subset hm),
        Option.map_none]
      congr 1
      · -- ranges of other steps do not count
        apply Sweep.isolated_eq_pick
        · refine (hsorted.sublist hsub).imp_of_mem fun {a b} ha hb hab => ?_
          have := (hsame a ha).trans (hsame b hb).symm
          rcases hab with h | h
          · omega
          · exact BitVec.le_def.mp h.2
        · intro m hm
          have := hpos m (hsub.subset hm)
          change m.newBase.toNat < m.newBase.toNat + m.len.toNat
          omega
        · rintro pre m post rfl
          have hm : m ∈ pre ++ m :: post := List.mem_append_right _ List.mem_cons_self
          rw [hkeep, ← List.length_append, List.append_assoc pre, List.cons_append,
            ← List.append_assoc before, alone_append_iff]
          constructor
          · rintro ⟨hpre, hpost⟩
            refine ⟨fun a ha => hpre a (List.mem_append_right _ ha) ?_,
              fun b hb => hpost b (List.mem_append_left _ hb) ?_⟩
            · rw [hsame m hm, hsame a (List.mem_append_left _ ha)]
            · rw [hsame m hm, hsame b (List.mem_append_right _ (List.mem_cons_of_mem _ hb))]
          · rintro ⟨hpre, hpost⟩
            constructor
            · intro a ha hstep
              rcases List.mem_append.mp ha with ha | ha
              · exact absurd hstep (hpast a ha m (List.mem_append_left _ hm))
              · exact hpre a ha
            · intro b hb hstep
              rcases List.mem_append.mp hb with hb | hb
              · exact hpost b hb
              · have := hlater b hb
                rw [hstep, hsame m hm] at this
                exact absurd this (lt_irrefl _)
      · have := ih (before ++ batch) hshort (hsorted.sublist hsub')
          (fun m hm => hpos m (hsub'.subset hm)) (fun m hm => hfit m (hsub'.subset hm)) ?_
          (by simpa using hkeep)
        · rw [this, List.length_append]
        · intro a ha m hm
          rcases List.mem_append.mp ha with ha | ha
          · exact hpast a ha m (List.mem_append_right _ hm)
          · rw [hsame a ha]
            exact (hlater m hm).ne

open Classical in
/-- The ranges that remain are, in order, those that share no address with another range of their
step. -/
theorem objidDisjointifyNew_keeps {l : List GcMove} (hsorted : l.Pairwise StepNewLe)
    (hpos : ∀ m ∈ l, 0 < m.len.toNat)
    (hfit : ∀ m ∈ l, m.newBase.toNat + m.len.toNat < 2 ^ 64) :
    objidDisjointifyNew l = pick (fun k => decide (Alone l k)) 0 l := by
  rw [objidDisjointifyNew_eq, disjointifyNew]
  refine disjointifyLoop_eq_pick [] l.length le_rfl hsorted hpos hfit ?_ ?_
  · exact fun a ha => absurd ha List.not_mem_nil
  · exact fun k => decide_eq_true_iff

/-- A long range over two that do not meet each other, one apart, and one of another step -/
def longOverTwo : List GcMove :=
  [⟨0x9000, 0x100, 0x100, 1⟩, ⟨0xa000, 0x110, 0x10, 1⟩, ⟨0xb000, 0x180, 0x10, 1⟩,
    ⟨0xc000, 0x200, 0x10, 1⟩, ⟨0xd000, 0x110, 0x10, 2⟩]

open Classical in
theorem objidDisjointifyNew_longOverTwo :
    objidDisjointifyNew longOverTwo = pick (fun k => decide (Alone longOverTwo k)) 0 longOverTwo ∧
      objidDisjointifyNew longOverTwo = [⟨0xc000, 0x200, 0x10, 1⟩, ⟨0xd000, 0x110, 0x10, 2⟩] := by
  refine ⟨objidDisjointifyNew_keeps ?_ ?_ ?_, rfl⟩
  · simp [longOverTwo, StepNewLe]
  · simp [longOverTwo]
  · simp [longOverTwo]

end Exact

end AsmTest.Dataflow
