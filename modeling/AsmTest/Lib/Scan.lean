import Mathlib.Logic.Relation
import Mathlib.Tactic

/-!
# Loops that stop by themselves

A loop body says whether to go on; the loop is run with fuel, and a measure that every
round lowers gives enough of it.
-/

namespace Scan

variable {σ : Type*} {body : σ → σ ⊕ σ} {s s' r : σ} {m n : ℕ}

/-- Rounds of a body that goes on (`inl`) or stops (`inr`); `none` when out of fuel. -/
def scan (body : σ → σ ⊕ σ) : ℕ → σ → Option σ
  | 0, _ => none
  | n + 1, s =>
    match body s with
    | .inl s' => scan body n s'
    | .inr r => some r

theorem scan_go (h : body s = .inl s') : scan body (n + 1) s = scan body n s' := by
  simp [scan, h]

theorem scan_stop (h : body s = .inr r) : scan body (n + 1) s = some r := by
  simp [scan, h]

theorem scan_mono (h : scan body n s = some r) (hle : n ≤ m) : scan body m s = some r := by
  induction n generalizing m s with
  | zero => cases h
  | succ n ih =>
    obtain ⟨k, rfl⟩ : ∃ k, m = k + 1 := ⟨m - 1, by omega⟩
    cases hb : body s with
    | inl s' =>
      rw [scan_go hb] at h ⊢
      exact ih h (by omega)
    | inr r' =>
      rw [scan_stop hb] at h ⊢
      exact h

/-- What every round keeps, and the last round turns into `Q`, holds of the result. -/
theorem scan_inv {P Q : σ → Prop} (hgo : ∀ s s', P s → body s = .inl s' → P s')
    (hstop : ∀ s r, P s → body s = .inr r → Q r) (hs : P s) (h : scan body n s = some r) :
    Q r := by
  induction n generalizing s with
  | zero => cases h
  | succ n ih =>
    cases hb : body s with
    | inl s' =>
      rw [scan_go hb] at h
      exact ih (hgo s s' hs hb) h
    | inr r' =>
      rw [scan_stop hb] at h
      obtain rfl : r' = r := Option.some.inj h
      exact hstop s r' hs hb

/-- Fuel beyond a measure that every round lowers is enough. -/
theorem exists_scan (μ : σ → ℕ) (hgo : ∀ s s', body s = .inl s' → μ s' < μ s) (h : μ s < n) :
    ∃ r, scan body n s = some r := by
  induction n generalizing s with
  | zero => omega
  | succ n ih =>
    cases hb : body s with
    | inl s' =>
      rw [scan_go hb]
      exact ih (by have := hgo s s' hb; omega)
    | inr r => exact ⟨r, scan_stop hb⟩

/-- The rounds from one state to another. -/
def Rounds (body : σ → σ ⊕ σ) : σ → σ → Prop :=
  Relation.ReflTransGen fun s s' => body s = .inl s'

/-- A body that takes one item of its input a round, and keeps what holds after the items
taken, takes all of them. -/
theorem rounds_of_items {ι : Type*} (At Inv : List ι → σ → Prop)
    (htake : ∀ i todo done s, At (i :: todo) s → Inv done s →
      ∃ s', body s = .inl s' ∧ At todo s' ∧ Inv (done ++ [i]) s')
    (todo : List ι) {done : List ι} (hat : At todo s) (hinv : Inv done s) :
    ∃ s', Rounds body s s' ∧ At [] s' ∧ Inv (done ++ todo) s' := by
  induction todo generalizing done s with
  | nil => exact ⟨s, Relation.ReflTransGen.refl, hat, by rwa [List.append_nil]⟩
  | cons i todo ih =>
    obtain ⟨s1, hb, hat1, hinv1⟩ := htake i todo done s hat hinv
    obtain ⟨s2, hr, hat2, hinv2⟩ := ih hat1 hinv1
    exact ⟨s2, hr.head hb, hat2, by rwa [List.append_assoc] at hinv2⟩

/-- A run that passes a state ends as the run from that state does. -/
theorem scan_of_rounds (hr : Rounds body s s') (h : scan body n s = some r) :
    ∃ m ≤ n, scan body m s' = some r := by
  induction hr using Relation.ReflTransGen.head_induction_on generalizing n with
  | refl => exact ⟨n, le_rfl, h⟩
  | head hb _ ih =>
    cases n with
    | zero => cases h
    | succ n =>
      rw [scan_go hb] at h
      obtain ⟨m, hm, hr⟩ := ih h
      exact ⟨m, by omega, hr⟩

theorem eq_of_rounds_stop {t : σ} (hr : Rounds body s s') (hb : body s' = .inr r)
    (h : scan body n s = some t) : t = r := by
  obtain ⟨m, -, hm⟩ := scan_of_rounds hr h
  cases m with
  | zero => cases hm
  | succ m =>
    rw [scan_stop hb] at hm
    exact (Option.some.inj hm).symm

end Scan
