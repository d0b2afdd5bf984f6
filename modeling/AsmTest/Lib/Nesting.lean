import Mathlib.Data.List.TakeDrop
import Mathlib.Algebra.BigOperators.Group.List.Basic
import Mathlib.Tactic

/-!
# Nested calls in a sequence of brackets

The calls that are open at a point of a sequence, and the outermost open call with a
property: one depth is enough to remember it.
-/

namespace Nesting

variable {α : Type*} {P : α → Prop} {evs : List (Option α)} {a : α} {j k n : ℕ}

/-- `some a` opens a call, `none` closes the last one. -/
def delta : Option α → ℤ
  | some _ => 1
  | none => -1

/-- The number of open calls before event `n`. -/
def depth (evs : List (Option α)) (n : ℕ) : ℤ :=
  ((evs.take n).map delta).sum

/-- No event closes a call when none is open. -/
def WellNested (evs : List (Option α)) : Prop :=
  ∀ n ≤ evs.length, 0 ≤ depth evs n

/-- Event `j` opens a call that has not been closed before event `n`. -/
structure OpenAt (evs : List (Option α)) (j n : ℕ) : Prop where
  before : j < n
  opens : ∃ a, evs[j]? = some (some a)
  inside : ∀ m, j < m → m ≤ n → depth evs j < depth evs m

/-- Event `j` opens a call with the property, and no such call is open before it. -/
structure Outermost (P : α → Prop) (evs : List (Option α)) (j : ℕ) : Prop where
  holds : ∃ a, evs[j]? = some (some a) ∧ P a
  first : ∀ k a, evs[k]? = some (some a) → P a → ¬ OpenAt evs k j

@[simp] theorem depth_zero : depth evs 0 = 0 := by simp [depth]

theorem depth_succ {e : Option α} (h : evs[n]? = some e) :
    depth evs (n + 1) = depth evs n + delta e := by
  simp [depth, List.take_add_one, h]

theorem depth_enter (h : evs[n]? = some (some a)) : depth evs (n + 1) = depth evs n + 1 :=
  depth_succ h

theorem depth_leave (h : evs[n]? = some none) : depth evs (n + 1) = depth evs n - 1 :=
  depth_succ h

theorem OpenAt.earlier {m : ℕ} (h : OpenAt evs j n) (hj : j < m) (hm : m ≤ n) :
    OpenAt evs j m :=
  ⟨hj, h.opens, fun l h1 h2 => h.inside l h1 (h2.trans hm)⟩

theorem openAt_enter (h : evs[n]? = some (some a)) :
    OpenAt evs j (n + 1) ↔ j = n ∨ OpenAt evs j n := by
  have hd := depth_enter h
  constructor
  · intro ho
    rcases Nat.lt_succ_iff_lt_or_eq.mp ho.before with hlt | rfl
    · exact .inr (ho.earlier hlt (Nat.le_succ n))
    · exact .inl rfl
  · rintro (rfl | ho)
    · refine ⟨Nat.lt_succ_self j, ⟨a, h⟩, fun m h1 h2 => ?_⟩
      obtain rfl : m = j + 1 := by omega
      omega
    · refine ⟨ho.before.trans (Nat.lt_succ_self n), ho.opens, fun m h1 h2 => ?_⟩
      rcases Nat.le_succ_iff.mp h2 with hm | rfl
      · exact ho.inside m h1 hm
      · have := ho.inside n ho.before le_rfl
        rw [hd]
        omega

theorem openAt_leave (h : evs[n]? = some none) :
    OpenAt evs j (n + 1) ↔ OpenAt evs j n ∧ depth evs j < depth evs n - 1 := by
  have hd := depth_leave h
  constructor
  · intro ho
    have hne : j ≠ n := by
      rintro rfl
      obtain ⟨a, ha⟩ := ho.opens
      simp [h] at ha
    have hlt : j < n := by have := ho.before; omega
    have := ho.inside (n + 1) ho.before le_rfl
    exact ⟨ho.earlier hlt (Nat.le_succ n), by omega⟩
  · rintro ⟨ho, hlt⟩
    refine ⟨ho.before.trans (Nat.lt_succ_self n), ho.opens, fun m h1 h2 => ?_⟩
    rcases Nat.le_succ_iff.mp h2 with hm | rfl
    · exact ho.inside m h1 hm
    · rw [hd]
      exact hlt

/-- Two outermost calls that are both open are one call. -/
theorem Outermost.unique (hj : Outermost P evs j) (hk : Outermost P evs k)
    (oj : OpenAt evs j n) (ok : OpenAt evs k n) : j = k := by
  obtain ⟨a, ha, pa⟩ := hj.holds
  obtain ⟨b, hb, pb⟩ := hk.holds
  rcases Nat.lt_trichotomy j k with hlt | rfl | hlt
  · exact absurd (oj.earlier hlt ok.before.le) (hk.first j a ha pa)
  · rfl
  · exact absurd (ok.earlier hlt oj.before.le) (hj.first k b hb pb)

/-- What one remembered depth says at event `n`: none when no call with the property is
open, else that of the outermost one. -/
def Tracks (P : α → Prop) (evs : List (Option α)) (n : ℕ) : Option ℤ → Prop
  | none => ∀ k a, evs[k]? = some (some a) → P a → ¬ OpenAt evs k n
  | some d => ∃ j, Outermost P evs j ∧ OpenAt evs j n ∧ d = depth evs j

theorem tracks_zero : Tracks P evs 0 none :=
  fun _ _ _ _ ho => absurd ho.before (Nat.not_lt_zero _)

theorem tracks_enter_skip (h : evs[n]? = some (some a)) (hP : ¬ P a)
    (ht : Tracks P evs n none) : Tracks P evs (n + 1) none := by
  intro k b hk hb ho
  rcases (openAt_enter h).mp ho with rfl | ho
  · obtain rfl : b = a := by simpa [h] using hk.symm
    exact hP hb
  · exact ht k b hk hb ho

theorem outermost_of_tracks (h : evs[n]? = some (some a)) (hP : P a)
    (ht : Tracks P evs n none) : Outermost P evs n :=
  ⟨⟨a, h, hP⟩, ht⟩

theorem tracks_enter_root (h : evs[n]? = some (some a)) (hP : P a)
    (ht : Tracks P evs n none) : Tracks P evs (n + 1) (some (depth evs n)) :=
  ⟨n, outermost_of_tracks h hP ht, (openAt_enter h).mpr (.inl rfl), rfl⟩

theorem tracks_enter_inside {d : ℤ} (h : evs[n]? = some (some a))
    (ht : Tracks P evs n (some d)) : Tracks P evs (n + 1) (some d) := by
  obtain ⟨j, hj, ho, rfl⟩ := ht
  exact ⟨j, hj, (openAt_enter h).mpr (.inr ho), rfl⟩

theorem tracks_leave_none (h : evs[n]? = some none) (ht : Tracks P evs n none) :
    Tracks P evs (n + 1) none :=
  fun k b hk hb ho => ht k b hk hb ((openAt_leave h).mp ho).1

theorem tracks_leave_inside {d : ℤ} (h : evs[n]? = some none)
    (ht : Tracks P evs n (some d)) (hd : d < depth evs n - 1) :
    Tracks P evs (n + 1) (some d) := by
  obtain ⟨j, hj, ho, rfl⟩ := ht
  exact ⟨j, hj, (openAt_leave h).mpr ⟨ho, hd⟩, rfl⟩

/-- Closing the outermost call leaves no call with the property open: one opened inside it
was deeper and is closed too, one opened before it would be more outward. -/
theorem tracks_leave_root {d : ℤ} (h : evs[n]? = some none)
    (ht : Tracks P evs n (some d)) (hd : depth evs n - 1 ≤ d) :
    Tracks P evs (n + 1) none := by
  obtain ⟨j, hj, ho, rfl⟩ := ht
  intro k b hk hb hopen
  obtain ⟨hk', hlt⟩ := (openAt_leave h).mp hopen
  rcases Nat.lt_trichotomy k j with hkj | rfl | hjk
  · exact hj.first k b hk hb (hk'.earlier hkj ho.before.le)
  · omega
  · have := ho.inside k hjk hk'.before.le
    omega

end Nesting
