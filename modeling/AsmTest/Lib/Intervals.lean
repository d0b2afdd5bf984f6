import Mathlib.Data.List.Pairwise
import Mathlib.Data.Set.Card
import Mathlib.Tactic

/-!
# Lists of half-open intervals

Intervals in ascending order, the gaps between them, and what is left when the shortest gaps
are closed until the list is short enough.
-/

namespace Intervals

structure Ivl where
  lo : ℕ
  hi : ℕ
  deriving DecidableEq, Repr

variable {C : List Ivl} {g h p q : Ivl} {i x cap : ℕ}

def Ivl.Has (p : Ivl) (x : ℕ) : Prop := p.lo ≤ x ∧ x < p.hi

def Covers (C : List Ivl) (x : ℕ) : Prop := ∃ p ∈ C, p.Has x

/-- Non-empty intervals in ascending order; neighbours may touch. -/
structure Proper (C : List Ivl) : Prop where
  nonempty : ∀ p ∈ C, p.lo < p.hi
  apart : C.Pairwise fun p q => p.hi ≤ q.lo

/-- Between each interval and the next. -/
def gaps : List Ivl → List Ivl
  | p :: q :: C => ⟨p.hi, q.lo⟩ :: gaps (q :: C)
  | _ => []

/-- A maximal interval outside a set that has points of the set on both sides. -/
structure Gap (F : ℕ → Prop) (g : Ivl) : Prop where
  nonempty : g.lo < g.hi
  below : ∃ y, y + 1 = g.lo ∧ F y
  above : F g.hi
  free : ∀ x, g.Has x → ¬ F x

/-- The order by length, then by position. -/
def Before (g h : Ivl) : Prop :=
  g.hi - g.lo < h.hi - h.lo ∨ g.hi - g.lo = h.hi - h.lo ∧ g.lo < h.lo

instance : DecidableRel Before := fun _ _ => inferInstanceAs (Decidable (_ ∨ _))

/-- How many gaps come after `g`. -/
def later (C : List Ivl) (g : Ivl) : ℕ := (gaps C).countP fun h => Before g h

@[simp] theorem covers_nil : ¬ Covers [] x := by simp [Covers]

@[simp] theorem covers_cons : Covers (p :: C) x ↔ p.Has x ∨ Covers C x := by simp [Covers]

theorem covers_flatMap {f : Ivl → List Ivl} :
    Covers (C.flatMap f) x ↔ ∃ p ∈ C, Covers (f p) x := by
  simp only [Covers, List.mem_flatMap]
  constructor
  · rintro ⟨q, ⟨p, hp, hq⟩, hx⟩
    exact ⟨p, hp, q, hq, hx⟩
  · rintro ⟨p, hp, q, hq, hx⟩
    exact ⟨q, ⟨p, hp, hq⟩, hx⟩

theorem proper_nil : Proper [] := ⟨by simp, List.Pairwise.nil⟩

theorem proper_cons : Proper (p :: C) ↔ p.lo < p.hi ∧ (∀ q ∈ C, p.hi ≤ q.lo) ∧ Proper C := by
  constructor
  · rintro ⟨hne, hap⟩
    rw [List.pairwise_cons] at hap
    exact ⟨hne p List.mem_cons_self, hap.1, fun q hq => hne q (List.mem_cons_of_mem p hq), hap.2⟩
  · rintro ⟨hp, hap, hC⟩
    refine ⟨fun q hq => ?_, List.pairwise_cons.mpr ⟨hap, hC.apart⟩⟩
    rcases List.mem_cons.mp hq with rfl | hq
    · exact hp
    · exact hC.nonempty q hq

/-- Replacing each interval by intervals inside it. -/
theorem Proper.flatMap {f : Ivl → List Ivl} (hC : Proper C) (hf : ∀ p ∈ C, Proper (f p))
    (hin : ∀ p ∈ C, ∀ q ∈ f p, p.lo ≤ q.lo ∧ q.hi ≤ p.hi) : Proper (C.flatMap f) := by
  constructor
  · intro q hq
    obtain ⟨p, hp, hq⟩ := List.mem_flatMap.mp hq
    exact (hf p hp).nonempty q hq
  · rw [List.pairwise_flatMap]
    refine ⟨fun p hp => (hf p hp).apart, ?_⟩
    refine hC.apart.imp_of_mem fun {p q} hp hq hpq a ha b hb => ?_
    exact ((hin p hp a ha).2.trans hpq).trans (hin q hq b hb).1

/-! ## Gaps -/

theorem length_gaps : (gaps C).length = C.length - 1 := by
  induction C using gaps.induct with
  | case1 p q C ih => simp [gaps, ih]
  | case2 C h =>
    match C with
    | [] => rfl
    | [_] => rfl
    | p :: q :: C => exact absurd rfl (h p q C)

theorem gaps_above (hC : Proper (p :: C)) (hg : g ∈ gaps (p :: C)) : p.hi ≤ g.lo := by
  induction C generalizing p with
  | nil => simp [gaps] at hg
  | cons q C ih =>
    obtain ⟨-, hap, hqC⟩ := proper_cons.mp hC
    rcases List.mem_cons.mp hg with rfl | hg
    · exact le_rfl
    · have h1 := hap q List.mem_cons_self
      have h2 := (proper_cons.mp hqC).1
      exact (h1.trans h2.le).trans (ih hqC hg)

theorem gaps_ascend (hC : Proper C) : (gaps C).Pairwise fun g h => g.lo < h.lo := by
  induction C using gaps.induct with
  | case1 p q C ih =>
    have hqC := (proper_cons.mp hC).2.2
    rw [gaps, List.pairwise_cons]
    refine ⟨fun h hh => ?_, ih hqC⟩
    have h1 := (proper_cons.mp hC).2.1 q List.mem_cons_self
    have h2 := (proper_cons.mp hqC).1
    have h3 := gaps_above hqC hh
    dsimp only
    omega
  | case2 C h =>
    match C with
    | [] => exact List.Pairwise.nil
    | [_] => exact List.Pairwise.nil
    | p :: q :: C => exact absurd rfl (h p q C)

theorem gaps_nodup (hC : Proper C) : (gaps C).Nodup :=
  (gaps_ascend hC).imp fun h he => absurd (congrArg Ivl.lo he) h.ne

/-- The gaps of a list are those of the set it covers, but for touching neighbours. -/
theorem gap_iff (hC : Proper C) : Gap (Covers C) g ↔ g ∈ gaps C ∧ g.lo < g.hi := by
  induction C using gaps.induct with
  | case1 p q C ih =>
    obtain ⟨hp, hap, hqC⟩ := proper_cons.mp hC
    obtain ⟨hq, haq, -⟩ := proper_cons.mp hqC
    have hpq := hap q List.mem_cons_self
    have hge : ∀ y, Covers (q :: C) y → q.lo ≤ y := by
      rintro y hy
      rcases covers_cons.mp hy with hy | ⟨r, hr, hy⟩
      · exact hy.1
      · exact hq.le.trans ((haq r hr).trans hy.1)
    have hqlo : Covers (q :: C) q.lo := covers_cons.mpr (.inl ⟨le_rfl, hq⟩)
    rw [gaps, List.mem_cons]
    constructor
    · rintro ⟨hne, ⟨y, hy, hFy⟩, habove, hfree⟩
      refine ⟨?_, hne⟩
      have hhi : Covers (q :: C) g.hi := by
        rcases covers_cons.mp habove with hb | hb
        · -- a gap below a point of the first interval would meet that interval
          exfalso
          rcases covers_cons.mp hFy with hyp | hyq
          · exact hfree g.lo ⟨le_rfl, hne⟩ (covers_cons.mpr (.inl ⟨by have := hyp.1; omega,
              by have := hb.2; omega⟩))
          · have h1 := hge y hyq
            have h2 := hb.2
            omega
        · exact hb
      rcases covers_cons.mp hFy with hyp | hyq
      · left
        have hlo : g.lo = p.hi := by
          by_contra hc
          have hlt : g.lo < p.hi := by have := hyp.2; omega
          exact hfree g.lo ⟨le_rfl, hne⟩
            (covers_cons.mpr (.inl ⟨by have := hyp.1; omega, hlt⟩))
        have hhi' : g.hi = q.lo := by
          have h1 := hge _ hhi
          by_contra hc
          exact hfree q.lo ⟨by omega, by omega⟩ (covers_cons.mpr (.inr hqlo))
        cases g
        simp_all
      · right
        have hgap : Gap (Covers (q :: C)) g :=
          ⟨hne, ⟨y, hy, hyq⟩, hhi, fun x hx hF => hfree x hx (covers_cons.mpr (.inr hF))⟩
        exact ((ih hqC).mp hgap).1
    · rintro ⟨rfl | hg, hne⟩
      · refine ⟨hne, ⟨p.hi - 1, by dsimp only; omega, covers_cons.mpr (.inl ⟨by omega, by omega⟩)⟩,
          covers_cons.mpr (.inr hqlo), ?_⟩
        intro x hx hF
        rcases covers_cons.mp hF with hF | hF
        · have h1 := hx.1
          have h2 := hF.2
          dsimp only at h1
          omega
        · have h1 := hx.2
          have h2 := hge x hF
          dsimp only at h1
          omega
      · obtain ⟨-, ⟨y, hy, hFy⟩, habove, hfree⟩ := (ih hqC).mpr ⟨hg, hne⟩
        refine ⟨hne, ⟨y, hy, covers_cons.mpr (.inr hFy)⟩, covers_cons.mpr (.inr habove), ?_⟩
        intro x hx hF
        rcases covers_cons.mp hF with hF | hF
        · have h1 := hF.2
          have h2 := gaps_above hqC hg
          have h3 := hx.1
          omega
        · exact hfree x hx hF
  | case2 C h =>
    match C with
    | [] =>
      simp only [gaps, List.not_mem_nil, false_and, iff_false]
      exact fun hg => covers_nil hg.above
    | [p] =>
      simp only [gaps, List.not_mem_nil, false_and, iff_false]
      rintro ⟨hne, ⟨y, hy, hFy⟩, habove, hfree⟩
      simp only [covers_cons, covers_nil, or_false] at hFy habove hfree
      exact hfree g.lo ⟨le_rfl, hne⟩ ⟨by have := hFy.1; omega, by have := habove.2; omega⟩
    | p :: q :: C => exact absurd rfl (h p q C)

theorem before_irrefl : ¬ Before g g := by simp [Before]

theorem before_asymm (hgh : Before g h) : ¬ Before h g := by
  unfold Before at *
  omega

/-- The gaps after `g`, counted in the set. -/
theorem later_eq_ncard (hC : Proper C) (hg : g.lo < g.hi) :
    later C g = {h | Gap (Covers C) h ∧ Before g h}.ncard := by
  have hset : {h | Gap (Covers C) h ∧ Before g h} =
      (((gaps C).filter fun h => Before g h).toFinset : Set Ivl) := by
    ext h
    simp only [Set.mem_ofPred_eq, List.coe_toFinset, List.mem_filter, decide_eq_true_eq,
      gap_iff hC]
    constructor
    · rintro ⟨⟨h1, -⟩, h2⟩
      exact ⟨h1, h2⟩
    · rintro ⟨h1, h2⟩
      refine ⟨⟨h1, ?_⟩, h2⟩
      unfold Before at h2
      omega
  rw [hset, Set.ncard_coe_finset, List.toFinset_card_of_nodup ((gaps_nodup hC).filter _),
    later, List.countP_eq_length_filter]

/-! ## Closing gaps -/

/-- Interval `i` and the next become one. -/
def mergeAt : ℕ → List Ivl → List Ivl
  | 0, p :: q :: C => ⟨p.lo, q.hi⟩ :: C
  | i + 1, p :: C => p :: mergeAt i C
  | _, C => C

theorem length_mergeAt (h : i + 1 < C.length) : (mergeAt i C).length + 1 = C.length := by
  induction i generalizing C with
  | zero =>
    match C with
    | p :: q :: C => simp [mergeAt]
  | succ i ih =>
    match C with
    | p :: C =>
      simp only [List.length_cons] at h
      simp [mergeAt, ih (by omega : i + 1 < C.length)]

theorem gaps_cons_congr {p p' : Ivl} (h : p.hi = p'.hi) : gaps (p :: C) = gaps (p' :: C) := by
  cases C with
  | nil => rfl
  | cons q C => simp [gaps, h]

theorem gaps_mergeAt (h : i + 1 < C.length) : gaps (mergeAt i C) = (gaps C).eraseIdx i := by
  induction i generalizing C with
  | zero =>
    match C with
    | p :: q :: C => exact gaps_cons_congr rfl
  | succ i ih =>
    match C with
    | p :: q :: C =>
      simp only [List.length_cons] at h
      have ih' := ih (C := q :: C) (by simp only [List.length_cons]; omega)
      rw [gaps, List.eraseIdx_cons_succ, ← ih']
      cases i with
      | zero =>
        match C with
        | r :: C => rfl
      | succ i => rfl

theorem proper_mergeAt (hC : Proper C) : Proper (mergeAt i C) := by
  induction i generalizing C with
  | zero =>
    match C with
    | [] => exact hC
    | [p] => exact hC
    | p :: q :: C =>
      obtain ⟨hp, hap, hqC⟩ := proper_cons.mp hC
      obtain ⟨hq, haq, hC'⟩ := proper_cons.mp hqC
      have := hap q List.mem_cons_self
      exact proper_cons.mpr ⟨by dsimp only; omega, haq, hC'⟩
  | succ i ih =>
    match C with
    | [] => exact hC
    | p :: C =>
      obtain ⟨hp, hap, hC'⟩ := proper_cons.mp hC
      refine proper_cons.mpr ⟨hp, ?_, ih hC'⟩
      -- merging keeps every lower end it leaves
      have hlo : ∀ (i : ℕ) (D : List Ivl), (∀ q ∈ D, p.hi ≤ q.lo) →
          ∀ q ∈ mergeAt i D, p.hi ≤ q.lo := by
        intro i
        induction i with
        | zero =>
          intro D hD q hq
          match D with
          | [] => exact hD q hq
          | [_] => exact hD q hq
          | a :: b :: D =>
            rcases List.mem_cons.mp hq with rfl | hq
            · exact hD a List.mem_cons_self
            · exact hD q (List.mem_cons_of_mem _ (List.mem_cons_of_mem _ hq))
        | succ i ih =>
          intro D hD q hq
          match D with
          | [] => exact hD q hq
          | a :: D =>
            rcases List.mem_cons.mp hq with rfl | hq
            · exact hD q List.mem_cons_self
            · exact ih D (fun r hr => hD r (List.mem_cons_of_mem a hr)) q hq
      exact hlo i C hap

theorem covers_mergeAt (hC : Proper C) (h : (gaps C)[i]? = some g) :
    Covers (mergeAt i C) x ↔ Covers C x ∨ g.Has x := by
  induction i generalizing C with
  | zero =>
    match C with
    | p :: q :: C =>
      obtain ⟨hp, hap, hqC⟩ := proper_cons.mp hC
      have hq := (proper_cons.mp hqC).1
      have hpq := hap q List.mem_cons_self
      obtain rfl : (⟨p.hi, q.lo⟩ : Ivl) = g := by simpa [gaps] using h
      simp only [mergeAt, covers_cons, Ivl.Has]
      have hsplit : p.lo ≤ x ∧ x < q.hi ↔
          ((p.lo ≤ x ∧ x < p.hi) ∨ (q.lo ≤ x ∧ x < q.hi)) ∨ (p.hi ≤ x ∧ x < q.lo) := by omega
      rw [hsplit, or_right_comm]
      exact or_congr_left or_assoc
  | succ i ih =>
    match C with
    | [p] => simp [gaps] at h
    | p :: q :: C =>
      have hqC := (proper_cons.mp hC).2.2
      have ih' := ih hqC (by simpa [gaps] using h)
      rw [mergeAt, covers_cons, ih', covers_cons (p := p), or_assoc]

/-- Close the gap that `best` picks while there are more than `cap` intervals. -/
def closeGaps (best : List Ivl → ℕ) (cap : ℕ) : ℕ → List Ivl → List Ivl
  | 0, C => C
  | n + 1, C => if cap < C.length then closeGaps best cap n (mergeAt (best C) C) else C

/-- `best` picks the first gap in the order, where the intervals end by `N`. -/
def PicksFirst (best : List Ivl → ℕ) (N : ℕ) : Prop :=
  ∀ C, Proper C → (∀ p ∈ C, p.hi ≤ N) → 1 < C.length → ∃ g, (gaps C)[best C]? = some g ∧
    ∀ h ∈ gaps C, h ≠ g → Before g h

theorem bound_mergeAt {N : ℕ} (h : ∀ p ∈ C, p.hi ≤ N) : ∀ p ∈ mergeAt i C, p.hi ≤ N := by
  induction i generalizing C with
  | zero =>
    match C with
    | [] => exact h
    | [p] => exact h
    | p :: q :: C =>
      simp only [List.forall_mem_cons] at h
      exact List.forall_mem_cons.mpr h.2
  | succ i ih =>
    match C with
    | [] => exact h
    | p :: C =>
      simp only [List.forall_mem_cons] at h
      exact List.forall_mem_cons.mpr ⟨h.1, ih h.2⟩

theorem perm_eraseIdx (h : (gaps C)[i]? = some g) :
    List.Perm (gaps C) (g :: (gaps C).eraseIdx i) := by
  obtain ⟨hi, rfl⟩ := List.getElem?_eq_some_iff.mp h
  exact (List.getElem_cons_eraseIdx_perm hi).symm

/-- Nothing comes after more gaps than there are others. -/
theorem later_lt (hg : g ∈ gaps C) : later C g < (gaps C).length := by
  unfold later
  rw [List.countP_eq_length_filter]
  refine lt_of_le_of_ne (List.length_filter_le _ _) fun he => ?_
  have hall := List.length_filter_eq_length_iff.mp he g hg
  exact before_irrefl (of_decide_eq_true hall)

/-- The gaps that are closed are those with at least `cap - 1` gaps after them. -/
theorem closeGaps_spec {best : List Ivl → ℕ} {N : ℕ} (hbest : PicksFirst best N)
    (hcap : 0 < cap) (n : ℕ) (hC : Proper C) (hN : ∀ p ∈ C, p.hi ≤ N) (hn : C.length ≤ n + cap) :
    Proper (closeGaps best cap n C) ∧ ∀ x, Covers (closeGaps best cap n C) x ↔
      Covers C x ∨ ∃ g ∈ gaps C, cap ≤ later C g + 1 ∧ g.Has x := by
  have hshort : C.length ≤ cap → ∀ g ∈ gaps C, ¬ cap ≤ later C g + 1 := by
    intro hlen g hg
    have h1 := later_lt hg
    have h2 := length_gaps (C := C)
    omega
  induction n generalizing C with
  | zero =>
    refine ⟨hC, fun x => ⟨.inl, ?_⟩⟩
    rintro (hx | ⟨g, hg, hl, -⟩)
    · exact hx
    · exact absurd hl (hshort (by omega) g hg)
  | succ n ih =>
    unfold closeGaps
    split_ifs with hlen
    · obtain ⟨m, hm, hfirst⟩ := hbest C hC hN (by omega)
      have hidx : best C + 1 < C.length := by
        have := (List.getElem?_eq_some_iff.mp hm).1
        rw [length_gaps] at this
        omega
      have hC' := proper_mergeAt (i := best C) hC
      have hlen' := length_mergeAt hidx
      have hperm := perm_eraseIdx hm
      rw [← gaps_mergeAt hidx] at hperm
      have hnd := hperm.nodup_iff.mp (gaps_nodup hC)
      -- the gap that is closed is after no other
      have hlater : ∀ g ∈ gaps (mergeAt (best C) C), later (mergeAt (best C) C) g = later C g := by
        intro g hg
        have hne : g ≠ m := fun he => (List.nodup_cons.mp hnd).1 (he ▸ hg)
        have hmg := hfirst g (hperm.symm.subset (List.mem_cons_of_mem m hg)) hne
        rw [later, later, hperm.countP_eq, List.countP_cons]
        simp [before_asymm hmg]
      have hlaterm : later C m + 1 = (gaps C).length := by
        rw [later, hperm.countP_eq, List.countP_cons, hperm.length_eq, List.length_cons]
        have hall : (gaps (mergeAt (best C) C)).countP (fun h => decide (Before m h)) =
            (gaps (mergeAt (best C) C)).length := by
          rw [List.countP_eq_length]
          intro h hh
          have hne : h ≠ m := fun he => (List.nodup_cons.mp hnd).1 (he ▸ hh)
          exact decide_eq_true (hfirst h (hperm.symm.subset (List.mem_cons_of_mem m hh)) hne)
        simp [hall, before_irrefl]
      have hshort' : (mergeAt (best C) C).length ≤ cap →
          ∀ g ∈ gaps (mergeAt (best C) C), ¬ cap ≤ later (mergeAt (best C) C) g + 1 := by
        intro hle g hg
        have h1 := later_lt hg
        have h2 := length_gaps (C := mergeAt (best C) C)
        omega
      obtain ⟨hR, hcov⟩ := ih hC' (bound_mergeAt hN) (by omega) hshort'
      refine ⟨hR, fun x => ?_⟩
      rw [hcov x, covers_mergeAt hC hm]
      constructor
      · rintro ((hx | hx) | ⟨g, hg, hl, hx⟩)
        · exact .inl hx
        · refine .inr ⟨m, hperm.symm.subset List.mem_cons_self, ?_, hx⟩
          rw [hlaterm, length_gaps]
          omega
        · exact .inr ⟨g, hperm.symm.subset (List.mem_cons_of_mem m hg), hlater g hg ▸ hl, hx⟩
      · rintro (hx | ⟨g, hg, hl, hx⟩)
        · exact .inl (.inl hx)
        · rcases List.mem_cons.mp (hperm.subset hg) with rfl | hg
          · exact .inl (.inr hx)
          · exact .inr ⟨g, hg, (hlater g hg).symm ▸ hl, hx⟩
    · refine ⟨hC, fun x => ⟨.inl, ?_⟩⟩
      rintro (hx | ⟨g, hg, hl, -⟩)
      · exact hx
      · exact absurd hl (hshort (by omega) g hg)

end Intervals
