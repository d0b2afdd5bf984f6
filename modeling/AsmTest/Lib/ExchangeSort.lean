import Mathlib.Data.Finset.Card
import Mathlib.Data.List.Sort
import Mathlib.Logic.Equiv.Basic
import Mathlib.Tactic

/-!
# Selection sort by exchange

An index array is sorted by keys: round `i` finds the first least key from `i` on and exchanges it
with what stands at `i`. What is moved away may pass over an equal key. Equal keys end up in their
first order exactly when following the sorted order from each of them, out of the places of the
smaller keys, does not cross.
-/

namespace AsmTest.ExchangeSort

variable {κ : Type} [LinearOrder κ] (key : ℕ → κ) (n : ℕ)

section Rounds

/-- The first place from `i` on that has the least key -/
def minFrom (order : ℕ → ℕ) (i : ℕ) : ℕ :=
  (List.range' (i + 1) (n - (i + 1))).foldl
    (fun m j => if key (order j) < key (order m) then j else m) i

def round (order : ℕ → ℕ) (i : ℕ) : ℕ → ℕ :=
  if minFrom key n order i ≠ i then
    Function.update (Function.update order i (order (minFrom key n order i)))
      (minFrom key n order i) (order i)
  else order

/-- The array after `k` rounds -/
def after (k : ℕ) : ℕ → ℕ :=
  (List.range k).foldl (round key n) id

/-- A place holds the least key from `i` on, and is the first that does. -/
structure IsFirstMin (order : ℕ → ℕ) (i m : ℕ) : Prop where
  ge : i ≤ m
  lt : m < n
  le : ∀ j, i ≤ j → j < n → key (order m) ≤ key (order j)
  first : ∀ j, i ≤ j → j < m → key (order m) < key (order j)

variable {n} {i k : ℕ}

lemma isFirstMin_foldl (order : ℕ → ℕ) (i len : ℕ) :
    IsFirstMin key (i + 1 + len) order i ((List.range' (i + 1) len).foldl
      (fun m j => if key (order j) < key (order m) then j else m) i) := by
  induction len with
  | zero =>
    refine ⟨le_rfl, Nat.lt_succ_self i, fun j hj hj' => ?_, fun j hj hj' => ?_⟩
    · obtain rfl : j = i := by omega
      exact le_rfl
    · exact absurd hj' (Nat.not_lt.2 hj)
  | succ len ih =>
    rw [List.range'_concat, List.foldl_append, List.foldl_cons, List.foldl_nil, Nat.one_mul]
    generalize (List.range' (i + 1) len).foldl
      (fun m j => if key (order j) < key (order m) then j else m) i = m at ih ⊢
    have hge := ih.ge
    have hlt := ih.lt
    split_ifs with hless
    · refine ⟨by omega, by omega, fun j hj hj' => ?_, fun j hj hj' => ?_⟩
      · by_cases hlast : j = i + 1 + len
        · rw [hlast]
        · exact hless.le.trans (ih.le j hj (by omega))
      · exact hless.trans_le (ih.le j hj hj')
    · refine ⟨hge, by omega, fun j hj hj' => ?_, ih.first⟩
      by_cases hlast : j = i + 1 + len
      · rw [hlast]
        exact not_lt.1 hless
      · exact ih.le j hj (by omega)

lemma isFirstMin_minFrom (order : ℕ → ℕ) (hi : i < n) :
    IsFirstMin key n order i (minFrom key n order i) := by
  have h := isFirstMin_foldl key order i (n - (i + 1))
  rwa [show i + 1 + (n - (i + 1)) = n by omega] at h

lemma round_eq (order : ℕ → ℕ) (i : ℕ) :
    round key n order i = order ∘ Equiv.swap i (minFrom key n order i) := by
  rw [round]
  split_ifs with hm
  · funext p
    rw [Function.comp_apply, Equiv.swap_apply_def, Function.update_apply, Function.update_apply]
    split_ifs with h1 h2 h3
    · exact absurd (h1.symm.trans h2) hm
    · rfl
    · rfl
    · rfl
  · rw [not_not.1 hm, Equiv.swap_self]
    rfl

lemma after_succ (k : ℕ) :
    after key n (k + 1) = after key n k ∘ Equiv.swap k (minFrom key n (after key n k) k) := by
  rw [after, List.range_succ, List.foldl_append]
  exact round_eq key _ k

/-- The array is a permutation of the indices. -/
lemma exists_perm_after (hk : k ≤ n) :
    ∃ π : Equiv.Perm ℕ, ⇑π = after key n k ∧ ∀ p, n ≤ p → π p = p := by
  induction k with
  | zero => exact ⟨Equiv.refl ℕ, rfl, fun _ _ => rfl⟩
  | succ k ih =>
    obtain ⟨π, hπ, hout⟩ := ih (by omega)
    have hmin := isFirstMin_minFrom key (after key n k) (show k < n from hk)
    refine ⟨(Equiv.swap k (minFrom key n (after key n k) k)).trans π, ?_, fun p hp => ?_⟩
    · rw [after_succ, ← hπ]
      rfl
    · have hlt := hmin.lt
      rw [Equiv.trans_apply, Equiv.swap_apply_of_ne_of_ne (by omega) (by omega), hout p hp]

lemma after_injective (hk : k ≤ n) : Function.Injective (after key n k) := by
  obtain ⟨π, hπ, -⟩ := exists_perm_after key hk
  rw [← hπ]
  exact π.injective

lemma exists_after_eq (hk : k ≤ n) {x : ℕ} (hx : x < n) : ∃ p < n, after key n k p = x := by
  obtain ⟨π, hπ, hout⟩ := exists_perm_after key hk
  refine ⟨π.symm x, ?_, by rw [← hπ, Equiv.apply_symm_apply]⟩
  by_contra hp
  have hfix := hout _ (not_lt.1 hp)
  rw [Equiv.apply_symm_apply] at hfix
  omega

lemma after_lt (hk : k ≤ n) {p : ℕ} (hp : p < n) : after key n k p < n := by
  obtain ⟨π, hπ, hout⟩ := exists_perm_after key hk
  rw [← hπ]
  by_contra hge
  have hfix : π p = p := π.injective (hout _ (not_lt.1 hge))
  rw [hfix] at hge
  exact hge hp

/-- A round leaves the places before it alone. -/
lemma after_stable {k' : ℕ} (hk : k ≤ k') (hk' : k' ≤ n) {p : ℕ} (hp : p < k) :
    after key n k' p = after key n k p := by
  induction k', hk using Nat.le_induction with
  | base => rfl
  | succ j hj ih =>
    have hge := (isFirstMin_minFrom key (after key n j) (show j < n from hk')).ge
    rw [after_succ, Function.comp_apply, Equiv.swap_apply_of_ne_of_ne (by omega) (by omega),
      ih (by omega)]

/-- What a round puts at its place -/
lemma after_succ_self (k : ℕ) :
    after key n (k + 1) k = after key n k (minFrom key n (after key n k) k) := by
  rw [after_succ, Function.comp_apply, Equiv.swap_apply_left]

/-- The last place needs no round. -/
lemma after_pred : after key n (n - 1) = after key n n := by
  cases n with
  | zero => rfl
  | succ n =>
    have hmin : minFrom key (n + 1) (after key (n + 1) n) n = n := by
      rw [minFrom, Nat.sub_self]
      rfl
    rw [Nat.add_sub_cancel, after_succ, hmin, Equiv.swap_self]
    rfl

/-- An order that is met up to a place was met up to every earlier one. -/
lemma agree_of_le {s : ℕ → ℕ} {k' : ℕ} (hk : k ≤ k') (hk' : k' ≤ n)
    (hagree : ∀ i < k', after key n k' i = s i) : ∀ i < k, after key n k i = s i := by
  intro i hi
  rw [← after_stable key hk hk' hi]
  exact hagree i (hi.trans_le hk)

end Rounds

section Stable

/-- The key is less, or it is the same and the index is less. -/
def Before (x y : ℕ) : Prop :=
  key x < key y ∨ key x = key y ∧ x < y

instance (x y : ℕ) : Decidable (Before key x y) :=
  inferInstanceAs (Decidable (_ ∨ _ ∧ _))

/-- The indices in order of their keys, ties in order of the indices -/
structure IsStable (s : ℕ → ℕ) : Prop where
  maps : ∀ i < n, s i < n
  sorted : ∀ i j, i < j → j < n → Before key (s i) (s j)

/-- From an index along `s` to the first place outside the first `c` -/
inductive Lands (s : ℕ → ℕ) (c : ℕ) : ℕ → ℕ → Prop
  | stop {p : ℕ} (h : c ≤ p) : Lands s c p p
  | move {p q : ℕ} (h : p < c) (hnext : Lands s c (s p) q) : Lands s c p q

/-- The number of indices with a smaller key -/
def below (v : κ) : ℕ :=
  ((Finset.range n).filter fun z => key z < v).card

/-- Followed along `s` out of the places of the smaller keys, equal keys do not cross. -/
def KeepsTies (s : ℕ → ℕ) : Prop :=
  ∀ x y, x < y → y < n → key x = key y → ∀ p q,
    Lands s (below key n (key x)) x p → Lands s (below key n (key x)) y q → p < q

variable {key n} {s : ℕ → ℕ} {c : ℕ}

lemma Before.asymm {x y : ℕ} (h : Before key x y) : ¬Before key y x := by
  rintro (h' | ⟨h', hlt'⟩)
  · rcases h with h | ⟨h, -⟩
    · exact lt_asymm h h'
    · exact h'.ne' h
  · rcases h with h | ⟨-, hlt⟩
    · exact h.ne' h'
    · omega

lemma Before.le {x y : ℕ} (h : Before key x y) : key x ≤ key y := by
  rcases h with h | ⟨h, -⟩
  · exact h.le
  · exact h.le

lemma IsStable.key_le (h : IsStable key n s) {i j : ℕ} (hij : i ≤ j) (hj : j < n) :
    key (s i) ≤ key (s j) := by
  rcases hij.eq_or_lt with rfl | hlt
  · exact le_rfl
  · exact (h.sorted i j hlt hj).le

lemma IsStable.injOn (h : IsStable key n s) : Set.InjOn s (Finset.range n) := by
  intro i hi j hj heq
  rw [Finset.coe_range, Set.mem_Iio] at hi hj
  rcases lt_trichotomy i j with hlt | rfl | hlt
  · have hb := h.sorted i j hlt hj
    rw [heq] at hb
    exact absurd hb hb.asymm
  · rfl
  · have hb := h.sorted j i hlt hi
    rw [heq] at hb
    exact absurd hb hb.asymm

lemma IsStable.exists_eq (h : IsStable key n s) {x : ℕ} (hx : x < n) : ∃ i < n, s i = x := by
  have hmaps : ∀ i ∈ Finset.range n, s i ∈ Finset.range n := fun i hi =>
    Finset.mem_range.2 (h.maps i (Finset.mem_range.1 hi))
  obtain ⟨i, hi, rfl⟩ :=
    Finset.surjOn_of_injOn_of_card_le s hmaps h.injOn le_rfl (Finset.mem_range.2 hx)
  exact ⟨i, Finset.mem_range.1 hi, rfl⟩

/-- There is one such order. -/
lemma IsStable.unique {s' : ℕ → ℕ} (h : IsStable key n s) (h' : IsStable key n s') :
    ∀ i < n, s i = s' i := by
  intro i
  induction i using Nat.strong_induction_on with
  | h i ih =>
    intro hi
    by_contra hne
    obtain ⟨j, hj, hsj⟩ := h'.exists_eq (h.maps i hi)
    obtain ⟨l, hl, hsl⟩ := h.exists_eq (h'.maps i hi)
    have hij : i < j := by
      rcases lt_trichotomy i j with hlt | rfl | hlt
      · exact hlt
      · exact absurd hsj.symm hne
      · have heq : s j = s i := (ih j hlt hj).trans hsj
        have := h.injOn (Finset.mem_coe.2 (Finset.mem_range.2 hj))
          (Finset.mem_coe.2 (Finset.mem_range.2 hi)) heq
        omega
    have hil : i < l := by
      rcases lt_trichotomy i l with hlt | rfl | hlt
      · exact hlt
      · exact absurd hsl hne
      · have heq : s' l = s' i := (ih l hlt hl).symm.trans hsl
        have := h'.injOn (Finset.mem_coe.2 (Finset.mem_range.2 hl))
          (Finset.mem_coe.2 (Finset.mem_range.2 hi)) heq
        omega
    have hb := h'.sorted i j hij hj
    have hb' := h.sorted i l hil hl
    rw [hsj] at hb
    rw [hsl] at hb'
    exact hb.asymm hb'

/-- A key below `v` stands before place `below v` in the sorted order. -/
lemma IsStable.lt_below (h : IsStable key n s) {j : ℕ} (hj : j < n) {v : κ} (hv : key (s j) < v) :
    j < below key n v := by
  have hsub : (Finset.range (j + 1)).image s ⊆ (Finset.range n).filter fun z => key z < v := by
    intro z hz
    obtain ⟨i, hi, rfl⟩ := Finset.mem_image.1 hz
    have hij := Finset.mem_range_succ_iff.1 hi
    exact Finset.mem_filter.2 ⟨Finset.mem_range.2 (h.maps i (by omega)),
      (h.key_le hij hj).trans_lt hv⟩
  have hinj : Set.InjOn s (Finset.range (j + 1)) :=
    h.injOn.mono (Finset.coe_subset.2 (Finset.range_mono hj))
  have hcard := Finset.card_le_card hsub
  rw [Finset.card_image_of_injOn hinj, Finset.card_range] at hcard
  exact hcard

/-- And only such keys do. -/
lemma IsStable.key_lt (h : IsStable key n s) {i : ℕ} {v : κ}
    (hlt : i < below key n v) : key (s i) < v := by
  by_contra hge
  have hsub : (Finset.range n).filter (fun z => key z < v) ⊆ (Finset.range i).image s := by
    intro z hz
    obtain ⟨hz, hzv⟩ := Finset.mem_filter.1 hz
    obtain ⟨j, hj, rfl⟩ := h.exists_eq (Finset.mem_range.1 hz)
    refine Finset.mem_image_of_mem s (Finset.mem_range.2 ?_)
    by_contra hij
    exact hge ((h.key_le (not_lt.1 hij) hj).trans_lt hzv)
  have hcard := (Finset.card_le_card hsub).trans Finset.card_image_le
  rw [Finset.card_range] at hcard
  exact absurd hlt (not_lt.2 hcard)

section Follow

variable {x p q : ℕ}

lemma Lands.unique (h : Lands s c x p) (h' : Lands s c x q) : p = q := by
  induction h with
  | stop hge =>
    cases h' with
    | stop _ => rfl
    | move hlt _ => exact absurd hge (not_le.2 hlt)
  | move hlt _ ih =>
    cases h' with
    | stop hge => exact absurd hge (not_le.2 hlt)
    | move _ hnext => exact ih hnext

/-- A place behind the next one is still the first outside. -/
lemma Lands.up (h : Lands s c x p) (hp : c < p) : Lands s (c + 1) x p := by
  induction h with
  | stop _ => exact .stop hp
  | move hlt _ ih => exact .move (by omega) (ih hp)

/-- What landed on the next place goes on from there. -/
lemma Lands.through (h : Lands s c x q) (hq : q = c) (hnext : Lands s c (s c) p) (hp : c < p) :
    Lands s (c + 1) x p := by
  induction h with
  | stop _ =>
    subst hq
    exact .move (Nat.lt_succ_self _) (hnext.up hp)
  | move hlt _ ih => exact .move (by omega) (ih hq)

end Follow

/-- While the sorted order is met, each index left stands where following the order leads it. -/
lemma lands_after (hc : c ≤ n) (hagree : ∀ i < c, after key n c i = s i) :
    ∀ p, c ≤ p → p < n → Lands s c (after key n c p) p := by
  induction c with
  | zero => exact fun p hp _ => .stop hp
  | succ c ih =>
    intro p hp hpn
    have hmin := isFirstMin_minFrom key (after key n c) (show c < n from hc)
    have hnext : after key n c (minFrom key n (after key n c) c) = s c :=
      (after_succ_self key c).symm.trans (hagree c (Nat.lt_succ_self c))
    have hland := ih (by omega) (agree_of_le key (Nat.le_succ c) hc hagree)
    rw [after_succ, Function.comp_apply]
    by_cases hm : p = minFrom key n (after key n c) c
    · rw [hm, Equiv.swap_apply_right]
      rw [hm] at hp
      have hthere := hland _ hmin.ge hmin.lt
      rw [hnext] at hthere
      exact (hland c le_rfl hc).through rfl hthere hp
    · rw [Equiv.swap_apply_of_ne_of_ne (by omega) hm]
      exact (hland p (by omega) hpn).up hp

/-- From the time the smaller keys are done, an index moves only to its last place. -/
lemma after_eq_of_below (hs : IsStable key n s) {j p x : ℕ} (hj : below key n (key x) ≤ j)
    (hjn : j ≤ n) (hagree : ∀ i < j, after key n j i = s i) (hp : j ≤ p)
    (hx : after key n j p = x) : after key n (below key n (key x)) p = x := by
  induction j, hj using Nat.le_induction with
  | base => exact hx
  | succ j hj ih =>
    have hmin := isFirstMin_minFrom key (after key n j) (show j < n from hjn)
    have hnext : after key n j (minFrom key n (after key n j) j) = s j :=
      (after_succ_self key j).symm.trans (hagree j (Nat.lt_succ_self j))
    rw [after_succ, Function.comp_apply] at hx
    by_cases hm : p = minFrom key n (after key n j) j
    · -- what stood at `j` has a larger key than what came there, and the smaller keys are done
      rw [hm, Equiv.swap_apply_right] at hx
      have hless := hmin.first j le_rfl (hm ▸ hp)
      rw [hnext, hx] at hless
      exact absurd (hs.lt_below hjn hless) (not_lt.2 hj)
    · rw [Equiv.swap_apply_of_ne_of_ne (by omega) hm] at hx
      exact ih (by omega) (agree_of_le key (Nat.le_succ j) hjn hagree) (by omega) hx

/-- An index that is not placed yet stands behind the places that are done. -/
lemma le_place (hs : IsStable key n s) {j k p : ℕ}
    (hagree : ∀ i < k, after key n k i = s i) (hj : j < n) (hkj : k ≤ j)
    (hp : after key n k p = s j) : k ≤ p := by
  by_contra hlt
  have hp' := (hagree p (not_le.1 hlt)).symm.trans hp
  have := hs.injOn (Finset.mem_coe.2 (Finset.mem_range.2 (by omega : p < n)))
    (Finset.mem_coe.2 (Finset.mem_range.2 hj)) hp'
  omega

/-- When ties are kept, every round puts the next of the sorted order at its place. -/
lemma agree_of_keepsTies (hs : IsStable key n s) (h : KeepsTies key n s) (k : ℕ) (hk : k ≤ n) :
    ∀ i < k, after key n k i = s i := by
  induction k with
  | zero => exact fun i hi => absurd hi (Nat.not_lt_zero i)
  | succ k ih =>
    have hagree := ih (by omega)
    have hmin := isFirstMin_minFrom key (after key n k) (show k < n from hk)
    intro i hi
    rcases Nat.lt_succ_iff_lt_or_eq.1 hi with hlt | rfl
    · rw [after_stable key (Nat.le_succ k) hk hlt]
      exact hagree i hlt
    rw [after_succ_self]
    generalize hm : minFrom key n (after key n i) i = m at hmin ⊢
    obtain ⟨j, hj, hsj⟩ := hs.exists_eq (after_lt key (Nat.le_of_succ_le hk) hmin.lt)
    obtain ⟨q, hq, hqs⟩ := exists_after_eq key (Nat.le_of_succ_le hk) (hs.maps i hk)
    have hiq : i ≤ q := le_place hs hagree hk le_rfl hqs
    have hij : i ≤ j := by
      by_contra hlt
      have hmj := after_injective key (Nat.le_of_succ_le hk)
        ((hagree j (not_le.1 hlt)).trans hsj)
      have hge := hmin.ge
      omega
    rcases hij.eq_or_lt with rfl | hlt
    · exact hsj.symm
    -- the next one has the same key as the one that is chosen, and stands behind it
    exfalso
    have hless := hmin.le q hiq hq
    rw [hqs, ← hsj] at hless
    obtain hkey | ⟨hkey, hidx⟩ := hs.sorted i j hlt hj
    · exact absurd hless (not_le.2 hkey)
    have hbelow : below key n (key (s i)) ≤ i := by
      by_contra hlow
      exact lt_irrefl _ (hs.key_lt (not_le.1 hlow))
    have hagree' := agree_of_le key hbelow (Nat.le_of_succ_le hk) hagree
    have hqc := after_eq_of_below hs hbelow (Nat.le_of_succ_le hk) hagree hiq hqs
    have hmc : after key n (below key n (key (s j))) m = s j :=
      after_eq_of_below hs (hkey ▸ hbelow) (Nat.le_of_succ_le hk) hagree hmin.ge hsj.symm
    rw [← hkey] at hmc
    have hland := lands_after (by omega) hagree'
    have hlq := hland q (by omega) hq
    have hlm := hland m (hbelow.trans hmin.ge) hmin.lt
    rw [hqc] at hlq
    rw [hmc] at hlm
    have hcross := h _ _ hidx (hs.maps j hj) hkey q m hlq hlm
    have hfirst := hmin.first q hiq hcross
    rw [hqs, ← hsj, hkey] at hfirst
    exact lt_irrefl _ hfirst

/-- When the sorted order is met to the end, ties were kept. -/
lemma keepsTies_of_agree (hs : IsStable key n s) (hall : ∀ i < n, after key n n i = s i) :
    KeepsTies key n s := by
  intro x y hxy hy hkey p q hp hq
  have hx := hxy.trans hy
  obtain ⟨i, hi, rfl⟩ := hs.exists_eq hx
  obtain ⟨j, hj, rfl⟩ := hs.exists_eq hy
  have hbi : below key n (key (s i)) ≤ i := by
    by_contra hlow
    exact lt_irrefl _ (hs.key_lt (not_le.1 hlow))
  have hbj : below key n (key (s i)) ≤ j := by
    by_contra hlow
    exact (hs.key_lt (not_le.1 hlow)).ne hkey.symm
  have hij : i < j := by
    rcases lt_trichotomy i j with hlt | rfl | hlt
    · exact hlt
    · exact absurd hxy (lt_irrefl _)
    · exact absurd (Or.inr ⟨hkey, hxy⟩) (hs.sorted j i hlt hi).asymm
  have hagree := agree_of_le key hi.le le_rfl hall
  have hc := agree_of_le key hbi hi.le hagree
  -- the round of the first one finds it where it stood when the smaller keys were done
  have hmin := isFirstMin_minFrom key (after key n i) hi
  have hm : after key n i (minFrom key n (after key n i) i) = s i :=
    (after_succ_self key i).symm.trans (agree_of_le key (Nat.succ_le_of_lt hi) le_rfl hall i
      (Nat.lt_succ_self i))
  obtain ⟨q', hq', hqs⟩ := exists_after_eq key hi.le (hs.maps j hj)
  have hiq : i ≤ q' := le_place hs hagree hj hij.le hqs
  have hmc := after_eq_of_below hs hbi hi.le hagree hmin.ge hm
  have hqc : after key n (below key n (key (s j))) q' = s j :=
    after_eq_of_below hs (hkey ▸ hbi) hi.le hagree hiq hqs
  rw [← hkey] at hqc
  have hland := lands_after (hbi.trans hi.le) hc
  have hlm := hland _ (hbi.trans hmin.ge) hmin.lt
  have hlq := hland q' (hbi.trans hiq) hq'
  rw [hmc] at hlm
  rw [hqc] at hlq
  rw [hp.unique hlm, hq.unique hlq]
  by_contra hge
  have hne : q' ≠ minFrom key n (after key n i) i := by
    rintro rfl
    exact hxy.ne (hm.symm.trans hqs)
  have hfirst := hmin.first q' hiq (by omega)
  rw [hm, hqs, hkey] at hfirst
  exact lt_irrefl _ hfirst

/-- The rounds leave the sorted order with ties in order exactly when following it keeps ties. -/
theorem isStable_after_iff (hs : IsStable key n s) :
    IsStable key n (after key n (n - 1)) ↔ KeepsTies key n s := by
  rw [after_pred]
  constructor
  · intro h
    exact keepsTies_of_agree hs (h.unique hs)
  · intro h
    have hagree := agree_of_keepsTies hs h n le_rfl
    refine ⟨fun i hi => ?_, fun i j hij hj => ?_⟩
    · rw [hagree i hi]
      exact hs.maps i hi
    · rw [hagree i (hij.trans hj), hagree j hj]
      exact hs.sorted i j hij hj

end Stable

section Exists

/-- The sorted order as a list -/
def stableList : List ℕ :=
  (List.range n).insertionSort fun x y => ¬Before key y x

def stableOrder (i : ℕ) : ℕ :=
  (stableList key n).getD i i

lemma before_total {x y : ℕ} (hne : x ≠ y) (h : ¬Before key y x) : Before key x y := by
  rw [Before, not_or, not_and, not_lt, not_lt] at h
  rcases h.1.lt_or_eq with hlt | heq
  · exact Or.inl hlt
  · exact Or.inr ⟨heq, lt_of_le_of_ne (h.2 heq.symm) hne⟩

instance : IsTrans ℕ fun x y => ¬Before key y x where
  trans x y z hxy hyz := by
    simp only [Before, not_or, not_and, not_lt] at hxy hyz ⊢
    refine ⟨hxy.1.trans hyz.1, fun heq => ?_⟩
    have hyx : key y = key x := le_antisymm (heq ▸ hyz.1) hxy.1
    have hzy : key z = key y := heq.trans hyx.symm
    exact (hxy.2 hyx).trans (hyz.2 hzy)

instance : Std.Total fun x y => ¬Before key y x where
  total x y := by
    by_cases h : Before key y x
    · exact Or.inr h.asymm
    · exact Or.inl h

lemma isStable_stableOrder : IsStable key n (stableOrder key n) := by
  have hperm : (stableList key n).Perm (List.range n) := List.perm_insertionSort _ _
  have hlen : (stableList key n).length = n := by rw [hperm.length_eq, List.length_range]
  have hget : ∀ i (hi : i < n), stableOrder key n i = (stableList key n)[i] := fun i hi => by
    rw [stableOrder, List.getD_eq_getElem?_getD, List.getElem?_eq_getElem (by omega),
      Option.getD_some]
  have hsorted : (stableList key n).Pairwise fun x y => ¬Before key y x :=
    List.pairwise_insertionSort _ _
  refine ⟨fun i hi => ?_, fun i j hij hj => ?_⟩
  · rw [hget i hi]
    exact List.mem_range.1 (hperm.mem_iff.1 (List.getElem_mem _))
  · rw [hget i (hij.trans hj), hget j hj]
    refine before_total key ?_ (List.pairwise_iff_getElem.1 hsorted i j _ _ hij)
    intro heq
    have hnodup := hperm.nodup_iff.2 List.nodup_range
    exact hij.ne ((hnodup.getElem_inj_iff).1 heq)

end Exists

end AsmTest.ExchangeSort
