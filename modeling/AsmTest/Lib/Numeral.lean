import AsmTest.Lib.JsonText
import Mathlib.Data.List.TakeWhile

/-!
# Numerals in C texts

Numbers as `printf` writes them in a base up to sixteen, and `strtoull` with its white space,
its sign, its prefix and its saturation.
-/

namespace AsmTest.Lib.Numeral

open AsmTest.Lib

/-- A number in a base, as `printf` writes it. -/
def numeral (b n : ℕ) : Bytes := (Nat.toDigits b n).map charByte

/-- A digit of a base. -/
def digitVal (b : ℕ) (c : UInt8) : Option ℕ := (hexVal c).filter (· < b)

/-- The number that a run of digits writes. -/
def value (b : ℕ) (ds : Bytes) : ℕ := ds.foldl (fun v c => v * b + (digitVal b c).getD 0) 0

def isSpace (c : UInt8) : Bool := c == 32 || (9 ≤ c && c ≤ 13)

/-- The sign, and what follows it. -/
def sign : Bytes → Bool × Bytes
  | 45 :: s => (true, s)
  | 43 :: s => (false, s)
  | s => (false, s)

/-- The prefix of base sixteen, when a digit follows it. -/
def unprefixed (b : ℕ) : Bytes → Bytes
  | 48 :: x :: d :: s =>
    if b = 16 ∧ (x = 120 ∨ x = 88) ∧ (digitVal 16 d).isSome then d :: s else 48 :: x :: d :: s
  | s => s

/-- The value, and what `endptr` points to; `none` when there are no digits. -/
def strtoull (b : ℕ) (s : Bytes) : Option (UInt64 × Bytes) :=
  let signed := sign (s.dropWhile isSpace)
  let body := unprefixed b signed.2
  let ds := body.takeWhile fun c => (digitVal b c).isSome
  if ds = [] then none
  else
    let v := value b ds
    some (if 2 ^ 64 ≤ v then 0xFFFFFFFFFFFFFFFF
      else if signed.1 then -UInt64.ofNat v else UInt64.ofNat v,
      body.drop ds.length)

section Digits

variable {b n : ℕ}

theorem hexVal_digitChar : ∀ d < 16, hexVal (charByte (Nat.digitChar d)) = some d := by
  decide

theorem digitVal_digitChar {d : ℕ} (hb : b ≤ 16) (hd : d < b) :
    digitVal b (charByte (Nat.digitChar d)) = some d := by
  simp [digitVal, hexVal_digitChar d (by omega), hd]

theorem numeral_of_lt (h : n < b) : numeral b n = [charByte (Nat.digitChar n)] := by
  simp [numeral, Nat.toDigits_of_lt_base h]

theorem numeral_of_le (hb : 1 < b) (h : b ≤ n) :
    numeral b n = numeral b (n / b) ++ [charByte (Nat.digitChar (n % b))] := by
  simp [numeral, Nat.toDigits_of_base_le hb h]

/-- Every byte of a numeral is a digit, and its value is the number. -/
theorem numeral_spec (hb : 1 < b) (hb' : b ≤ 16) (n : ℕ) :
    (∀ c ∈ numeral b n, (digitVal b c).isSome = true) ∧ value b (numeral b n) = n ∧
      numeral b n ≠ [] := by
  induction n using Nat.strong_induction_on with
  | _ n ih =>
    rcases Nat.lt_or_ge n b with h | h
    · have hd := digitVal_digitChar hb' h
      rw [numeral_of_lt h]
      simp [value, hd]
    · obtain ⟨hall, hval, -⟩ := ih (n / b) (Nat.div_lt_self (by omega) hb)
      have hd := digitVal_digitChar hb' (Nat.mod_lt n (show 0 < b by omega))
      rw [numeral_of_le hb h]
      refine ⟨?_, ?_, by simp⟩
      · intro c hc
        rcases List.mem_append.1 hc with hc | hc
        · exact hall c hc
        · rw [List.mem_singleton.1 hc, hd]
          rfl
      · rw [value, List.foldl_append, ← value, hval]
        simp only [List.foldl_cons, List.foldl_nil, hd, Option.getD_some]
        exact Nat.div_add_mod' n b

theorem value_numeral (hb : 1 < b) (hb' : b ≤ 16) : value b (numeral b n) = n :=
  (numeral_spec hb hb' n).2.1

theorem numeral_ne_nil (hb : 1 < b) (hb' : b ≤ 16) : numeral b n ≠ [] := (numeral_spec hb hb' n).2.2

theorem isSome_of_mem_numeral (hb : 1 < b) (hb' : b ≤ 16) {c : UInt8} (h : c ∈ numeral b n) :
    (digitVal b c).isSome = true := (numeral_spec hb hb' n).1 c h

theorem forall_byte {p : UInt8 → Prop} (h : ∀ n < 256, p (UInt8.ofNat n)) (c : UInt8) : p c := by
  have hc := h c.toNat c.toNat_lt
  rwa [UInt8.ofNat_toNat] at hc

/-- A digit is neither white space nor a sign nor the mark of a prefix. -/
theorem digit_plain : ∀ c : UInt8, (digitVal 16 c).isSome = true →
    isSpace c = false ∧ c ≠ 45 ∧ c ≠ 43 ∧ c ≠ 120 ∧ c ≠ 88 ∧ c ≠ 0 ∧ c ≠ 38 ∧ c ≠ 61 ∧ c ≠ 37 :=
  forall_byte (by decide +kernel)

theorem digit_sixteen {c : UInt8} (hb' : b ≤ 16) (h : (digitVal b c).isSome = true) :
    (digitVal 16 c).isSome = true := by
  unfold digitVal at h ⊢
  cases hc : hexVal c with
  | none => simp [hc] at h
  | some d =>
    rw [hc] at h
    by_cases hd : d < b
    · simp [show d < 16 by omega]
    · simp [Option.filter, hd] at h

/-- A numeral is read back, up to its end. -/
theorem strtoull_numeral (hb : 1 < b) (hb' : b ≤ 16) (hn : n < 2 ^ 64) :
    strtoull b (numeral b n) = some (UInt64.ofNat n, []) := by
  have hall : ∀ c ∈ numeral b n, (digitVal b c).isSome = true := fun c =>
    isSome_of_mem_numeral hb hb'
  have hplain : ∀ c ∈ numeral b n, _ := fun c hc => digit_plain c (digit_sixteen hb' (hall c hc))
  have hne := numeral_ne_nil (n := n) hb hb'
  have hspace : (numeral b n).dropWhile isSpace = numeral b n := by
    cases hs : numeral b n with
    | nil => rfl
    | cons c s => simp [(hplain c (by simp [hs])).1]
  have hsign : sign (numeral b n) = (false, numeral b n) := by
    unfold sign
    split
    · rename_i s hs
      exact absurd rfl (hplain 45 (by simp [hs])).2.1
    · rename_i s hs
      exact absurd rfl (hplain 43 (by simp [hs])).2.2.1
    · rfl
  have hpre : unprefixed b (numeral b n) = numeral b n := by
    unfold unprefixed
    split
    · rename_i x d s hs
      have hx := hplain x (by simp [hs])
      rw [if_neg, hs]
      rintro ⟨-, h | h, -⟩
      · exact hx.2.2.2.1 h
      · exact hx.2.2.2.2.1 h
    · rfl
  have htake : (numeral b n).takeWhile (fun c => (digitVal b c).isSome) = numeral b n :=
    List.takeWhile_eq_self_iff.2 hall
  simp only [strtoull, hspace, hsign, hpre, htake, if_neg hne, value_numeral hb hb',
    if_neg (Nat.not_le.2 hn), Bool.false_eq_true, if_false, List.drop_length]

end Digits

end AsmTest.Lib.Numeral
