import AsmTest.Lib.LastWriter

/-!
# Two runs that differ in one fact

An operation depends on the places it reads and changes the places it writes. In two runs of the
same operations, a place where the stores differ was last written by an operation with a different
effect, still has the difference that was put there, or was written by the first run alone. A set of
steps that is closed under dependence and has the steps where the difference enters has every step
that differs, if no step reads a place of the last kind.
-/

namespace AsmTest.Influence

open LastWriter

variable {κ β ο : Type}

/-- What an operation does to a store, and what is seen of it -/
structure Effect (κ β ο : Type) where
  reads : List κ
  writes : List κ
  bytes : κ → β
  out : ο

namespace Effect

variable [DecidableEq κ]

def apply (e : Effect κ β ο) (s : κ → β) : κ → β :=
  fun k => if k ∈ e.writes then e.bytes k else s k

@[simp] lemma apply_of_mem {e : Effect κ β ο} {s : κ → β} {k : κ} (h : k ∈ e.writes) :
    e.apply s k = e.bytes k :=
  if_pos h

@[simp] lemma apply_of_notMem {e : Effect κ β ο} {s : κ → β} {k : κ} (h : k ∉ e.writes) :
    e.apply s k = s k :=
  if_neg h

end Effect

/-- The effect depends only on the places that are read. -/
def Local (op : (κ → β) → Effect κ β ο) : Prop :=
  ∀ s s', (∀ k ∈ (op s).reads, s k = s' k) → op s' = op s

/-- Two runs of `n` operations. The second starts with a difference at the places of `fresh` at its
step `start`, or gets it there. -/
structure Twin [DecidableEq κ] (n : ℕ) (f g : ℕ → (κ → β) → Effect κ β ο) (s t : ℕ → κ → β)
    (start : ℕ) (fresh : List κ) : Prop where
  reads : ∀ i < n, Local (g i)
  init : ∀ k, s 0 k ≠ t 0 k → start = 0 ∧ k ∈ fresh
  left : ∀ i, i + 1 < n → s (i + 1) = (f i (s i)).apply (s i)
  right : ∀ i, i + 1 < n → ∀ k, t (i + 1) k ≠ (g i (t i)).apply (t i) k →
    start = i + 1 ∧ k ∈ fresh

section Pending

variable (g : ℕ → (κ → β) → Effect κ β ο) (t : ℕ → κ → β) (start : ℕ) (fresh : List κ)

/-- The writes of the second run -/
def writesAt (i : ℕ) : List κ := (g i (t i)).writes

/-- The difference at the place is still there at step `i`. -/
def Pending (i : ℕ) (k : κ) : Prop :=
  k ∈ fresh ∧ start ≤ i ∧ ∀ j, start ≤ j → j < i → k ∉ writesAt g t j

/-- The first run wrote the place before step `i` and the second has not written it since. -/
def Lost (f : ℕ → (κ → β) → Effect κ β ο) (s : ℕ → κ → β) (i : ℕ) (k : κ) : Prop :=
  ∃ j < i, k ∈ writesAt f s j ∧ ∀ u, j ≤ u → u < i → k ∉ writesAt g t u

/-- Step `i` depends on step `p`. -/
def Feeds (p i : ℕ) : Prop :=
  ∃ k ∈ (g i (t i)).reads, IsLast (writesAt g t) i k p

end Pending

variable {n start : ℕ} {f g : ℕ → (κ → β) → Effect κ β ο} {s t : ℕ → κ → β} {fresh : List κ}

lemma isLast_succ_of_mem {writes : ℕ → List κ} {i : ℕ} {k : κ} (h : k ∈ writes i) :
    IsLast writes (i + 1) k i :=
  ⟨Nat.lt_succ_self i, h, fun _ h1 h2 => absurd h1 (by omega)⟩

lemma isLast_succ {writes : ℕ → List κ} {i p : ℕ} {k : κ} (h : IsLast writes i k p)
    (hk : k ∉ writes i) : IsLast writes (i + 1) k p := by
  obtain ⟨hlt, hmem, hnone⟩ := h
  refine ⟨by omega, hmem, fun u hu hui => ?_⟩
  rcases Nat.lt_succ_iff_lt_or_eq.1 hui with hlt' | rfl
  · exact hnone u hu hlt'
  · exact hk

lemma Pending.succ {i : ℕ} {k : κ} (h : Pending g t start fresh i k)
    (hk : k ∉ writesAt g t i) : Pending g t start fresh (i + 1) k := by
  obtain ⟨hmem, hle, hnone⟩ := h
  refine ⟨hmem, by omega, fun j hj hji => ?_⟩
  rcases Nat.lt_succ_iff_lt_or_eq.1 hji with hlt | rfl
  · exact hnone j hj hlt
  · exact hk

lemma Lost.succ {i : ℕ} {k : κ} (h : Lost g t f s i k) (hk : k ∉ writesAt g t i) :
    Lost g t f s (i + 1) k := by
  obtain ⟨j, hj, hmem, hnone⟩ := h
  refine ⟨j, by omega, hmem, fun u hu hui => ?_⟩
  rcases Nat.lt_succ_iff_lt_or_eq.1 hui with hlt | rfl
  · exact hnone u hu hlt
  · exact hk

lemma lost_succ {i : ℕ} {k : κ} (h : k ∈ writesAt f s i) (hk : k ∉ writesAt g t i) :
    Lost g t f s (i + 1) k := by
  refine ⟨i, Nat.lt_succ_self i, h, fun u hu hui => ?_⟩
  obtain rfl : u = i := by omega
  exact hk

lemma pending_start {k : κ} (h : k ∈ fresh) : Pending g t start fresh start k :=
  ⟨h, le_rfl, fun _ h1 h2 => absurd h1 (by omega)⟩

/-- A set of steps that is closed under dependence and has every step where the difference enters,
in an operation that differs or in a place that is read -/
structure Covers (f g : ℕ → (κ → β) → Effect κ β ο) (t : ℕ → κ → β) (start : ℕ) (fresh : List κ)
    (n : ℕ) (cone : Set ℕ) : Prop where
  closed : ∀ i < n, ∀ p ∈ cone, Feeds g t p i → i ∈ cone
  reads : ∀ i < n, ∀ k ∈ (g i (t i)).reads, Pending g t start fresh i k → i ∈ cone
  operation : ∀ i < n, f i ≠ g i → i ∈ cone

/-- No step reads what the first run alone wrote, except where the difference enters. -/
def ReadsNoneLost (f g : ℕ → (κ → β) → Effect κ β ο) (s t : ℕ → κ → β) (start : ℕ)
    (fresh : List κ) (n : ℕ) : Prop :=
  ∀ i < n, ∀ k ∈ (g i (t i)).reads, Lost g t f s i k → Pending g t start fresh i k

/-- Where the stores differ at step `i`, the last writer is in the set, the difference is the one
that was put there, or the first run wrote alone. -/
def Explained (f g : ℕ → (κ → β) → Effect κ β ο) (s t : ℕ → κ → β) (start : ℕ) (fresh : List κ)
    (cone : Set ℕ) (i : ℕ) : Prop :=
  ∀ k, s i k ≠ t i k → (∃ p ∈ cone, IsLast (writesAt g t) i k p) ∨
    Pending g t start fresh i k ∨ Lost g t f s i k

variable [DecidableEq κ] {cone : Set ℕ}

/-- A step outside the set has the same effect in both runs. -/
lemma effect_eq (hT : Twin n f g s t start fresh) (hC : Covers f g t start fresh n cone)
    (hL : ReadsNoneLost f g s t start fresh n) {i : ℕ} (hi : i < n)
    (hE : Explained f g s t start fresh cone i) (hout : i ∉ cone) : f i (s i) = g i (t i) := by
  have hop : f i = g i := by
    by_contra hne
    exact hout (hC.operation i hi hne)
  rw [hop]
  apply hT.reads i hi
  intro k hk
  by_contra hne
  rcases hE k (Ne.symm hne) with ⟨p, hp, hlast⟩ | hpending | hlost
  · exact hout (hC.closed i hi p hp ⟨k, hk, hlast⟩)
  · exact hout (hC.reads i hi k hk hpending)
  · exact hout (hC.reads i hi k hk (hL i hi k hk hlost))

/-- One step keeps the differences explained. -/
lemma Explained.succ (hT : Twin n f g s t start fresh) (hC : Covers f g t start fresh n cone)
    (hL : ReadsNoneLost f g s t start fresh n) {i : ℕ} (hi : i + 1 < n)
    (hE : Explained f g s t start fresh cone i) :
    Explained f g s t start fresh cone (i + 1) := by
  intro k hne
  by_cases hedit : t (i + 1) k = (g i (t i)).apply (t i) k
  · rw [hT.left i hi, hedit] at hne
    by_cases hk : k ∈ writesAt g t i
    · by_cases hin : i ∈ cone
      · exact .inl ⟨i, hin, isLast_succ_of_mem hk⟩
      · -- the same bytes are written
        rw [effect_eq hT hC hL (by omega) hE hin] at hne
        rw [Effect.apply_of_mem hk, Effect.apply_of_mem hk] at hne
        exact absurd rfl hne
    · by_cases hk' : k ∈ writesAt f s i
      · exact .inr (.inr (lost_succ hk' hk))
      · rw [Effect.apply_of_notMem hk', Effect.apply_of_notMem hk] at hne
        rcases hE k hne with ⟨p, hp, hlast⟩ | hpending | hlost
        · exact .inl ⟨p, hp, isLast_succ hlast hk⟩
        · exact .inr (.inl (hpending.succ hk))
        · exact .inr (.inr (hlost.succ hk))
  · obtain ⟨rfl, hmem⟩ := hT.right i hi k hedit
    exact .inr (.inl (pending_start hmem))

theorem explained (hT : Twin n f g s t start fresh) (hC : Covers f g t start fresh n cone)
    (hL : ReadsNoneLost f g s t start fresh n) {i : ℕ} (hi : i < n) :
    Explained f g s t start fresh cone i := by
  induction i with
  | zero =>
    intro k hne
    obtain ⟨rfl, hmem⟩ := hT.init k hne
    exact .inr (.inl (pending_start hmem))
  | succ i ih => exact (ih (by omega)).succ hT hC hL hi

/-- Every step with a different effect is in the set. -/
theorem mem_of_effect_ne (hT : Twin n f g s t start fresh) (hC : Covers f g t start fresh n cone)
    (hL : ReadsNoneLost f g s t start fresh n) {i : ℕ} (hi : i < n)
    (hne : f i (s i) ≠ g i (t i)) : i ∈ cone := by
  by_contra hout
  exact hne (effect_eq hT hC hL hi (explained hT hC hL hi) hout)

end AsmTest.Influence
