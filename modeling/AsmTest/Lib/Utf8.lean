import AsmTest.Lib.Json

/-!
# Texts in UTF-8

Byte strings that are the encoding of characters of some kind. The bytes of ASCII characters stand
for themselves only, so a text can be cut at them.
-/

namespace AsmTest.Lib

open String (utf8EncodeChar)

/-- The encoding of characters that all have the property -/
def Chars (p : Char → Prop) (s : Bytes) : Prop :=
  ∃ cs : List Char, (∀ c ∈ cs, p c) ∧ cs.flatMap utf8EncodeChar = s

section Encoding

variable {c : Char} {b : UInt8}

lemma encode_ascii (h : c.toNat < 0x80) : utf8EncodeChar c = [UInt8.ofNat c.toNat] := by
  rw [String.utf8EncodeChar]
  exact if_pos (Nat.le_of_lt_succ h)

lemma toNat_charOfByte (h : b.toNat < 0x80) : (Char.ofNat b.toNat).toNat = b.toNat := by
  have hvalid : b.toNat.isValidChar := .inl (by omega)
  rw [Char.ofNat, dif_pos hvalid]
  rfl

lemma charOfByte_ne (h : b.toNat < 0x80) (hne : b ≠ UInt8.ofNat c.toNat) :
    Char.ofNat b.toNat ≠ c := by
  rintro rfl
  rw [toNat_charOfByte h, UInt8.ofNat_toNat] at hne
  exact hne rfl

lemma encode_byte (h : b.toNat < 0x80) : utf8EncodeChar (Char.ofNat b.toNat) = [b] := by
  have hchar := toNat_charOfByte h
  rw [encode_ascii (by omega), hchar, UInt8.ofNat_toNat]

/-- Every byte of a longer sequence has its high bit set. -/
lemma le_of_mem_encode (h : 0x80 ≤ c.toNat) (hb : b ∈ utf8EncodeChar c) : 0x80 ≤ b.toNat := by
  have hval : c.val.toNat = c.toNat := rfl
  rw [String.utf8EncodeChar] at hb
  rw [hval, if_neg (by omega)] at hb
  split_ifs at hb
  all_goals
    simp only [List.mem_cons, List.not_mem_nil, or_false] at hb
    rcases hb with rfl | rfl | rfl | rfl <;> rw [UInt8.toNat_ofNat'] <;> omega

end Encoding

section Texts

variable {p q : Char → Prop} {s t x y : Bytes} {c : Char} {b : UInt8}

lemma Chars.nil : Chars p [] := ⟨[], nofun, rfl⟩

lemma Chars.append (hs : Chars p s) (ht : Chars p t) : Chars p (s ++ t) := by
  obtain ⟨cs, hcs, rfl⟩ := hs
  obtain ⟨ds, hds, rfl⟩ := ht
  exact ⟨cs ++ ds, fun c hc => (List.mem_append.mp hc).elim (hcs c) (hds c), List.flatMap_append⟩

lemma Chars.single (h : p c) : Chars p (utf8EncodeChar c) :=
  ⟨[c], fun _ hd => List.mem_singleton.mp hd ▸ h, List.append_nil _⟩

lemma Chars.mono (hs : Chars p s) (h : ∀ c, p c → q c) : Chars q s := by
  obtain ⟨cs, hcs, rfl⟩ := hs
  exact ⟨cs, fun c hc => h c (hcs c hc), rfl⟩

lemma Chars.byte (hb : b.toNat < 0x80) (h : p (Char.ofNat b.toNat)) : Chars p [b] := by
  rw [← encode_byte hb]
  exact Chars.single h

lemma chars_of_bytes (h : ∀ b ∈ s, b.toNat < 0x80 ∧ p (Char.ofNat b.toNat)) : Chars p s := by
  induction s with
  | nil => exact Chars.nil
  | cons b s ih =>
    obtain ⟨hb, hp⟩ := h b List.mem_cons_self
    exact (Chars.byte hb hp).append (ih fun d hd => h d (List.mem_cons_of_mem b hd))

/-- A text begins with the whole encoding of a character. -/
lemma Chars.cons_inv (h : Chars p (b :: s)) :
    ∃ c t, p c ∧ b :: s = utf8EncodeChar c ++ t ∧ Chars p t := by
  obtain ⟨cs, hcs, heq⟩ := h
  cases cs with
  | nil => cases heq
  | cons c cs =>
    exact ⟨c, cs.flatMap utf8EncodeChar, hcs c List.mem_cons_self, heq.symm, cs,
      fun d hd => hcs d (List.mem_cons_of_mem c hd), rfl⟩

/-- A text can be cut before and behind an ASCII byte. -/
lemma Chars.split (hb : b.toNat < 0x80) (h : Chars p (x ++ b :: y)) :
    Chars p x ∧ p (Char.ofNat b.toNat) ∧ Chars p y := by
  obtain ⟨cs, hcs, heq⟩ := h
  induction cs generalizing x with
  | nil => exact absurd (List.append_eq_nil_iff.mp heq.symm).2 (List.cons_ne_nil b y)
  | cons c cs ih =>
    have hc := hcs c List.mem_cons_self
    have hrest : ∀ d ∈ cs, p d := fun d hd => hcs d (List.mem_cons_of_mem c hd)
    rw [List.flatMap_cons] at heq
    obtain ⟨z, hx, hz⟩ | ⟨z, hx, hz⟩ := List.append_eq_append_iff.mp heq
    · -- the character lies in front of the byte
      obtain ⟨hleft, hmid, hright⟩ := ih hrest hz
      rw [hx]
      exact ⟨(Chars.single hc).append hleft, hmid, hright⟩
    · cases z with
      | nil =>
        obtain ⟨-, hmid, hright⟩ := @ih [] hrest hz.symm
        rw [List.append_nil] at hx
        rw [← hx]
        exact ⟨Chars.single hc, hmid, hright⟩
      | cons d z =>
        obtain ⟨rfl, hy⟩ := List.cons.inj hz
        have hmem : b ∈ utf8EncodeChar c := by
          rw [hx]
          exact List.mem_append_right x List.mem_cons_self
        have hascii : c.toNat < 0x80 := by
          by_contra hlong
          have := le_of_mem_encode (not_lt.mp hlong) hmem
          omega
        rw [encode_ascii hascii] at hx
        obtain ⟨rfl, hone⟩ : x = [] ∧ b :: z = [UInt8.ofNat c.toNat] := by
          cases x with
          | nil => exact ⟨rfl, hx.symm⟩
          | cons a x => exact absurd (List.cons.inj hx).2.symm (by simp)
        obtain ⟨hbc, hz⟩ := List.cons.inj hone
        have hchar : Char.ofNat b.toNat = c := by
          rw [hbc, UInt8.toNat_ofNat', Nat.mod_eq_of_lt (by omega), Char.ofNat_toNat]
        rw [hchar, hy, hz]
        exact ⟨Chars.nil, hc, cs, hrest, rfl⟩

end Texts

end AsmTest.Lib
