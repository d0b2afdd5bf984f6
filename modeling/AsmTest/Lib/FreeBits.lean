import Mathlib.Data.BitVec
import Mathlib.Tactic

/-!
# Words with free bits

Two runs write one word. Each write keeps some bits, computes some, and leaves some to the run: a
free bit is one that the last write of it left to the run. The two runs agree on the other bits,
and a mask hides the difference exactly when it covers the free bits.
-/

namespace AsmTest.FreeBits

variable {w : ℕ}

section Masks

/-- Two words agree off a mask. -/
def AgreeOff (t x y : BitVec w) : Prop :=
  x &&& ~~~t = y &&& ~~~t

/-- The bits of one mask are bits of another. -/
def Within (a b : BitVec w) : Prop :=
  a &&& ~~~b = 0#w

instance (a b : BitVec w) : Decidable (Within a b) :=
  inferInstanceAs (Decidable (_ = _))

lemma within_iff {a b : BitVec w} :
    Within a b ↔ ∀ i < w, a.getLsbD i = true → b.getLsbD i = true := by
  constructor
  · intro h i hi ha
    have hbit := congrArg (fun v => v.getLsbD i) h
    simpa only [BitVec.getLsbD_and, BitVec.getLsbD_not, hi, decide_true, ha, Bool.true_and,
      BitVec.getLsbD_zero, Bool.not_eq_false'] using hbit
  · intro h
    apply BitVec.eq_of_getLsbD_eq
    intro i hi
    have hbit := h i hi
    simp only [BitVec.getLsbD_and, BitVec.getLsbD_not, hi, decide_true, Bool.true_and,
      BitVec.getLsbD_zero]
    cases ha : a.getLsbD i with
    | false => rfl
    | true => rw [hbit ha, Bool.not_true, Bool.and_false]

lemma agreeOff_iff {t x y : BitVec w} :
    AgreeOff t x y ↔ ∀ i < w, t.getLsbD i = false → x.getLsbD i = y.getLsbD i := by
  constructor
  · intro h i hi ht
    have hbit := congrArg (fun v => v.getLsbD i) h
    simpa only [BitVec.getLsbD_and, BitVec.getLsbD_not, hi, decide_true, ht, Bool.not_false,
      Bool.and_true] using hbit
  · intro h
    apply BitVec.eq_of_getLsbD_eq
    intro i hi
    have hbit := h i hi
    simp only [BitVec.getLsbD_and, BitVec.getLsbD_not, hi, decide_true, Bool.true_and]
    cases ht : t.getLsbD i with
    | false => rw [hbit ht]
    | true => rw [Bool.not_true, Bool.and_false, Bool.and_false]

lemma agreeOff_refl (t x : BitVec w) : AgreeOff t x x :=
  rfl

lemma within_zero (b : BitVec w) : Within 0#w b :=
  within_iff.2 fun _ _ h => absurd h (by rw [BitVec.getLsbD_zero]; exact Bool.false_ne_true)

lemma within_or {a b c : BitVec w} : Within (a ||| b) c ↔ Within a c ∧ Within b c := by
  simp only [within_iff, BitVec.getLsbD_or, Bool.or_eq_true]
  constructor
  · intro h
    exact ⟨fun i hi ha => h i hi (.inl ha), fun i hi hb => h i hi (.inr hb)⟩
  · rintro ⟨ha, hb⟩ i hi (h | h)
    · exact ha i hi h
    · exact hb i hi h

lemma within_zero_right {a : BitVec w} : Within a 0#w ↔ a = 0#w := by
  unfold Within
  rw [show ~~~0#w = BitVec.allOnes w by simp, BitVec.and_allOnes]

lemma agreeOff_or {t u x y : BitVec w} :
    AgreeOff (t ||| u) x y ↔ x &&& ~~~t &&& ~~~u = y &&& ~~~t &&& ~~~u := by
  rw [AgreeOff, BitVec.not_or, BitVec.and_assoc, BitVec.and_assoc]

lemma agreeOff_not_or {t u x y : BitVec w} :
    AgreeOff (~~~t ||| u) x y ↔ x &&& (t &&& ~~~u) = y &&& (t &&& ~~~u) := by
  rw [AgreeOff, BitVec.not_or, BitVec.not_not]

lemma within_or_right (a b : BitVec w) : Within b (a ||| b) :=
  within_iff.2 fun i _ hb => by rw [BitVec.getLsbD_or, hb, Bool.or_true]

/-- A mask within a union is within the part that it meets. -/
lemma Within.of_or {a b c : BitVec w} (h : Within a (b ||| c)) (hab : Within a (~~~b)) :
    Within a c := by
  rw [within_iff] at h hab ⊢
  intro i hi ha
  have hbc := h i hi ha
  have hb := hab i hi ha
  rw [BitVec.getLsbD_not, decide_eq_true hi, Bool.true_and, Bool.not_eq_true'] at hb
  rw [BitVec.getLsbD_or, hb, Bool.false_or] at hbc
  exact hbc

lemma Within.trans {a b c : BitVec w} (hab : Within a b) (hbc : Within b c) : Within a c := by
  rw [within_iff] at hab hbc ⊢
  intro i hi ha
  exact hbc i hi (hab i hi ha)

/-- A mask within another and within the rest is empty. -/
lemma Within.eq_zero {a b c : BitVec w} (hb : Within a b) (hc : Within a (c &&& ~~~b)) :
    a = 0#w := by
  apply within_zero_right.1
  rw [within_iff] at hb hc ⊢
  intro i hi ha
  have hrest := hc i hi ha
  rw [BitVec.getLsbD_and, BitVec.getLsbD_not, hb i hi ha, Bool.not_true, Bool.and_false,
    Bool.and_false] at hrest
  exact absurd hrest Bool.false_ne_true

lemma within_of_and_not {a b c : BitVec w} (h : Within (a &&& ~~~b) (b ||| c)) :
    Within a (b ||| c) := by
  rw [within_iff] at h ⊢
  intro i hi ha
  cases hb : b.getLsbD i with
  | true => rw [BitVec.getLsbD_or, hb, Bool.true_or]
  | false =>
    apply h i hi
    rw [BitVec.getLsbD_and, BitVec.getLsbD_not, ha, hb, decide_eq_true hi]
    rfl

lemma Within.and_left {a b c : BitVec w} (h : Within a c) : Within (a &&& b) c := by
  rw [within_iff] at h ⊢
  intro i hi hab
  rw [BitVec.getLsbD_and, Bool.and_eq_true] at hab
  exact h i hi hab.1

/-- What is left of a mask within a union is within the rest of the union. -/
lemma within_and_not {a b c d : BitVec w} (h : Within a (b ||| c)) (hc : Within c d) :
    Within (a &&& ~~~b) d := by
  rw [within_iff] at h hc ⊢
  intro i hi hab
  rw [BitVec.getLsbD_and, BitVec.getLsbD_not, decide_eq_true hi, Bool.true_and, Bool.and_eq_true,
    Bool.not_eq_true'] at hab
  have hbc := h i hi hab.1
  rw [BitVec.getLsbD_or, hab.2, Bool.false_or] at hbc
  exact hc i hi hbc

/-- Disjoint masks: agreement off one is equality on the other. -/
lemma AgreeOff.and_eq {t x y r : BitVec w} (h : AgreeOff t x y) (hr : r &&& t = 0#w) :
    x &&& r = y &&& r := by
  apply BitVec.eq_of_getLsbD_eq
  intro i hi
  rw [BitVec.getLsbD_and, BitVec.getLsbD_and]
  have hbit := congrArg (fun v => v.getLsbD i) hr
  simp only [BitVec.getLsbD_and, BitVec.getLsbD_zero] at hbit
  cases ht : t.getLsbD i with
  | false => rw [agreeOff_iff.1 h i hi ht]
  | true =>
    rw [ht, Bool.and_true] at hbit
    rw [hbit, Bool.and_false, Bool.and_false]

lemma AgreeOff.mono {t u x y : BitVec w} (h : AgreeOff t x y) (ht : Within t u) :
    AgreeOff u x y := by
  rw [agreeOff_iff] at h ⊢
  rw [within_iff] at ht
  intro i hi hu
  apply h i hi
  by_contra hne
  rw [Bool.not_eq_false] at hne
  rw [ht i hi hne] at hu
  exact Bool.noConfusion hu

end Masks

section Writes

/-- What a write does to each bit -/
structure Write (w : ℕ) where
  written : BitVec w
  undef : BitVec w
deriving DecidableEq, Repr

variable (e : Write w)

/-- The bits touched by a write -/
def Write.touched : BitVec w :=
  e.written ||| e.undef

/-- The word after a write that computes `f` and chooses `c` -/
def Write.apply (x f c : BitVec w) : BitVec w :=
  x &&& ~~~e.touched ||| f &&& ~~~e.undef &&& e.written ||| c &&& e.undef

/-- The free bits after a write -/
def Write.free (t : BitVec w) : BitVec w :=
  t &&& ~~~e.touched ||| e.undef

variable {e} {t x y f c d m : BitVec w}

lemma Write.getLsbD_free {i : ℕ} (hi : i < w) :
    (e.free t).getLsbD i =
      (t.getLsbD i && !(e.written.getLsbD i || e.undef.getLsbD i) || e.undef.getLsbD i) := by
  simp [Write.free, Write.touched, hi]

lemma Write.getLsbD_apply {i : ℕ} (hi : i < w) :
    (e.apply x f c).getLsbD i =
      (x.getLsbD i && !(e.written.getLsbD i || e.undef.getLsbD i) ||
        f.getLsbD i && !e.undef.getLsbD i && e.written.getLsbD i ||
          c.getLsbD i && e.undef.getLsbD i) := by
  simp [Write.apply, Write.touched, hi]

/-- Two runs that agree off the free bits agree off the free bits after any write. -/
lemma AgreeOff.apply (h : AgreeOff t x y) :
    AgreeOff (e.free t) (e.apply x f c) (e.apply y f d) := by
  rw [agreeOff_iff] at h ⊢
  intro i hi hfree
  have hbit := h i hi
  rw [Write.getLsbD_free hi] at hfree
  rw [Write.getLsbD_apply hi, Write.getLsbD_apply hi]
  revert hfree hbit
  generalize e.undef.getLsbD i = u
  generalize e.written.getLsbD i = v
  cases u <;> cases v <;> simp_all

/-- A run of zeros and a run of ones differ in every free bit. -/
structure Apart (t x y : BitVec w) : Prop where
  zeros : x &&& t = 0#w
  ones : y &&& t = t

lemma apart_iff :
    Apart t x y ↔ ∀ i < w, t.getLsbD i = true → x.getLsbD i = false ∧ y.getLsbD i = true := by
  constructor
  · rintro ⟨hx, hy⟩ i hi ht
    have hxi := congrArg (fun v => v.getLsbD i) hx
    have hyi := congrArg (fun v => v.getLsbD i) hy
    simp only [BitVec.getLsbD_and, ht, Bool.and_true, BitVec.getLsbD_zero] at hxi hyi
    exact ⟨hxi, hyi⟩
  · intro h
    constructor
    · apply BitVec.eq_of_getLsbD_eq
      intro i hi
      rw [BitVec.getLsbD_and, BitVec.getLsbD_zero]
      cases ht : t.getLsbD i with
      | false => rw [Bool.and_false]
      | true => rw [(h i hi ht).1, Bool.false_and]
    · apply BitVec.eq_of_getLsbD_eq
      intro i hi
      rw [BitVec.getLsbD_and]
      cases ht : t.getLsbD i with
      | false => rw [Bool.and_false]
      | true => rw [(h i hi ht).2, Bool.true_and]

lemma apart_zero (x y : BitVec w) : Apart 0#w x y :=
  apart_iff.2 fun _ _ h => absurd h (by rw [BitVec.getLsbD_zero]; exact Bool.false_ne_true)

lemma Apart.apply (h : Apart t x y) :
    Apart (e.free t) (e.apply x f 0#w) (e.apply y f (BitVec.allOnes w)) := by
  rw [apart_iff] at h ⊢
  intro i hi hfree
  have hbit := h i hi
  rw [Write.getLsbD_free hi] at hfree
  rw [Write.getLsbD_apply hi, Write.getLsbD_apply hi, BitVec.getLsbD_zero,
    BitVec.getLsbD_allOnes, decide_eq_true hi]
  revert hfree hbit
  generalize e.undef.getLsbD i = u
  generalize e.written.getLsbD i = v
  cases u <;> cases v <;> simp_all

/-- A mask that hides the difference of two such runs covers the free bits. -/
lemma Apart.within (h : Apart t x y) (hm : AgreeOff m x y) : Within t m := by
  rw [apart_iff] at h
  rw [agreeOff_iff] at hm
  rw [within_iff]
  intro i hi ht
  obtain ⟨hx, hy⟩ := h i hi ht
  by_contra hne
  rw [Bool.not_eq_true] at hne
  have heq := hm i hi hne
  rw [hx, hy] at heq
  exact Bool.noConfusion heq

/-- A tracked mask that covers the free bits goes on covering them when it takes in the bits a write
leaves free, and gives up a bit the write does not compute only by taking it in. -/
lemma Within.track {acc undef defd : BitVec w} (h : Within t acc) (hundef : Within e.undef undef)
    (hdef : Within (t &&& ~~~e.touched &&& defd) undef) :
    Within (e.free t) (acc &&& ~~~defd ||| undef) := by
  rw [within_iff] at h hundef hdef ⊢
  intro i hi hfree
  have ht := h i hi
  have hu := hundef i hi
  have hd := hdef i hi
  simp only [Write.free, BitVec.getLsbD_and, BitVec.getLsbD_or, BitVec.getLsbD_not, hi,
    decide_true, Bool.true_and, Bool.and_eq_true, Bool.or_eq_true] at hd hfree ⊢
  rcases hfree with hkept | hfresh
  · -- a free bit that the write leaves alone stays tracked, or is given up and taken in again
    by_cases hq : defd.getLsbD i = true
    · exact .inr (hd ⟨hkept, hq⟩)
    · exact .inl ⟨ht hkept.1, by rw [Bool.eq_false_of_not_eq_true hq]; rfl⟩
  · exact .inr (hu hfresh)

/-- The free bits after a write are within a mask. -/
lemma free_within :
    Within (e.free t) m ↔ Within (t &&& ~~~e.touched) m ∧ Within e.undef m :=
  within_or

end Writes

end AsmTest.FreeBits
