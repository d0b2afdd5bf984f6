import AsmTest.NdjsonDf
import AsmTest.Lib.JsonString

/-!
# The JSON string encoder

`asmtrace_escape` over the destination buffer itself. It never stores outside the buffer, and what
it leaves there is the encoded text of the source up to a place between two sequences.
-/

namespace AsmTest.Doc

open Lib

section Buffer

/-- Bytes stored from index `o` on; nothing where they would pass the end of the buffer -/
def store (dst : Bytes) (o : ℕ) (bs : Bytes) : Option Bytes :=
  if o + bs.length ≤ dst.length then some (dst.take o ++ bs ++ dst.drop (o + bs.length)) else none

/-- `"\\u%04x"` -/
def controlText (c : UInt8) : Bytes :=
  [92, 117, 48, 48, hexDigit (c.toNat / 16), hexDigit (c.toNat % 16)]

/-- What `snprintf` stores in `size` bytes -/
def snprintfBytes (size : ℕ) (text : Bytes) : Bytes :=
  if size = 0 then [] else text.take (size - 1) ++ [0]

/-- The loop of `asmtrace_escape` on the buffer, with the index `o` of the next byte -/
def escapeIntoLoop : ℕ → Bytes → ℕ → Bytes → Option (Bytes × ℕ)
  | 0, dst, o, _ => some (dst, o)
  | _ + 1, dst, o, [] => some (dst, o)
  | n + 1, dst, o, c :: src =>
    if o + 7 < dst.length then
      if c = 34 ∨ c = 92 then do
        let dst ← store dst o [92]
        let dst ← store dst (o + 1) [c]
        escapeIntoLoop n dst (o + 2) src
      else if c < 0x20 then do
        let dst' ← store dst o (snprintfBytes (dst.length - o) (controlText c))
        escapeIntoLoop n dst' (o + (controlText c).length) src
      else if c < 0x80 then do
        let dst ← store dst o [c]
        escapeIntoLoop n dst (o + 1) src
      else
        let len := asmtraceUtf8Len (c :: src)
        if len = 0 then do
          let dst ← store dst o [0xEF]
          let dst ← store dst (o + 1) [0xBF]
          let dst ← store dst (o + 2) [0xBD]
          escapeIntoLoop n dst (o + 3) src
        else do
          let dst ← store dst o ((c :: src).take len)
          escapeIntoLoop n dst (o + len) ((c :: src).drop len)
    else some (dst, o)

/-- `asmtrace_escape`; a buffer of no bytes is left as it is. -/
def asmtraceEscapeInto (dst src : Bytes) : Option Bytes :=
  if dst.length = 0 then some dst
  else do
    let (dst, o) ← escapeIntoLoop (cstr src).length dst 0 (cstr src)
    store dst o [0]

lemma store_append {out rest : Bytes} {bs : Bytes} (h : bs.length ≤ rest.length) :
    store (out ++ rest) out.length bs = some (out ++ bs ++ rest.drop bs.length) := by
  rw [store, if_pos (by rw [List.length_append]; omega), List.take_left', List.drop_append,
    List.drop_of_length_le (by omega), Nat.add_sub_cancel_left, List.nil_append]
  rfl

/-- Two stores side by side are one. -/
lemma store_bind_store {α : Type} (dst : Bytes) (o : ℕ) (bs bs' : Bytes) (f : Bytes → Option α) :
    ((store dst o bs).bind fun d => (store d (o + bs.length) bs').bind f) =
      (store dst o (bs ++ bs')).bind f := by
  by_cases h : o + (bs ++ bs').length ≤ dst.length
  · have h' := h
    rw [List.length_append] at h'
    obtain ⟨out, rest, rfl, rfl⟩ : ∃ out rest, dst = out ++ rest ∧ out.length = o :=
      ⟨dst.take o, dst.drop o, (List.take_append_drop _ _).symm, List.length_take_of_le (by omega)⟩
    rw [List.length_append] at h h'
    rw [store_append (by omega), store_append (by rw [List.length_append]; omega),
      Option.bind_some, ← List.length_append,
      store_append (by rw [List.length_drop]; omega), List.drop_drop, List.length_append,
      List.append_assoc out]
  · rw [store, store, if_neg h]
    rw [List.length_append] at h
    split_ifs with h1
    · rw [Option.bind_some, store, if_neg]
      simp only [List.length_append, List.length_take, List.length_drop]
      omega
    · rfl

lemma utf8Lead_le {c : UInt8} {n : ℕ} {lo hi : UInt8} (h : utf8Lead c = some (n, lo, hi)) :
    n ≤ 3 := by
  have hall : ∀ n < 256, ∀ p ∈ utf8Lead (UInt8.ofNat n), p.1 ≤ 3 := by decide +kernel
  exact hall c.toNat c.toNat_lt (n, lo, hi) (by rw [UInt8.ofNat_toNat]; exact h)

lemma asmtraceUtf8Len_le {s : Bytes} : asmtraceUtf8Len s ≤ min 4 s.length := by
  cases s with
  | nil => exact Nat.zero_le _
  | cons c s =>
    cases hlead : utf8Lead c with
    | none =>
      rw [asmtraceUtf8Len_of_lead_none s hlead]
      exact Nat.zero_le _
    | some p =>
      obtain ⟨n, lo, hi⟩ := p
      have hn := utf8Lead_le hlead
      rw [asmtraceUtf8Len_cons c s hlead, List.length_cons]
      split_ifs with h
      · exact le_min (Nat.succ_le_succ hn) (Nat.succ_le_succ h.1)
      · exact Nat.zero_le _

/-- The buffer holds what the loop has written, and the rest is as long as before. -/
lemma escapeIntoLoop_eq (cap n : ℕ) (out rest src : Bytes) (hcap : (out ++ rest).length = cap) :
    ∃ rest', escapeIntoLoop n (out ++ rest) out.length src =
        some (asmtraceEscapeLoop cap n out src ++ rest',
          (asmtraceEscapeLoop cap n out src).length) ∧
      (asmtraceEscapeLoop cap n out src ++ rest').length = cap := by
  induction n generalizing out rest src with
  | zero => exact ⟨rest, rfl, hcap⟩
  | succ n ih =>
    cases src with
    | nil => exact ⟨rest, rfl, hcap⟩
    | cons c src =>
      -- one step stores `bs`, perhaps with more behind it, and goes on after `bs`
      have hnext : ∀ (bs more src' : Bytes), bs.length + more.length ≤ rest.length →
          ∃ rest', ((store (out ++ rest) out.length (bs ++ more)).bind fun d =>
              escapeIntoLoop n d (out.length + bs.length) src') =
            some (asmtraceEscapeLoop cap n (out ++ bs) src' ++ rest',
              (asmtraceEscapeLoop cap n (out ++ bs) src').length) ∧
          (asmtraceEscapeLoop cap n (out ++ bs) src' ++ rest').length = cap := by
        intro bs more src' hlen
        rw [store_append (by rwa [List.length_append]), Option.bind_some, ← List.length_append,
          ← List.append_assoc, List.append_assoc]
        apply ih
        simp only [List.length_append, List.length_drop] at hcap ⊢
        omega
      rw [escapeIntoLoop, asmtraceEscapeLoop, hcap]
      by_cases hroom : out.length + 7 < cap
      · have hrest : 8 ≤ rest.length := by
          rw [List.length_append] at hcap
          omega
        rw [if_pos hroom, if_pos hroom]
        by_cases hascii : c < 0x80
        · rw [if_pos hascii, if_pos hascii, escByte]
          by_cases hquote : c = 34 ∨ c = 92
          · rw [if_pos hquote, if_pos hquote]
            have h := hnext [92, c] [] src (by simp; omega)
            rw [List.append_nil, ← List.singleton_append, ← store_bind_store] at h
            exact h
          · rw [if_neg hquote, if_neg hquote]
            by_cases hctl : c < 0x20
            · rw [if_pos hctl, if_pos hctl]
              have hsnp : snprintfBytes (cap - out.length) (controlText c) =
                  controlText c ++ [0] := by
                rw [snprintfBytes, if_neg (by omega), List.take_of_length_le]
                change 6 ≤ _
                omega
              have h := hnext (controlText c) [0] src (by change 6 + 1 ≤ _; omega)
              rw [hsnp]
              exact h
            · rw [if_neg hctl, if_neg hctl]
              have h := hnext [c] [] src (by simp; omega)
              exact h
        · have hquote : ¬(c = 34 ∨ c = 92) := by
            rintro (rfl | rfl) <;> exact hascii (by decide)
          have hctl : ¬c < 0x20 := fun h => hascii (h.trans (by decide))
          rw [if_neg hquote, if_neg hctl, if_neg hascii, if_neg hascii]
          dsimp only
          by_cases hlen : asmtraceUtf8Len (c :: src) = 0
          · rw [if_pos hlen, if_pos hlen]
            have h := hnext [0xEF, 0xBF, 0xBD] [] src (by simp; omega)
            have hsplit : ([0xEF, 0xBF, 0xBD] : Bytes) ++ [] = ([0xEF] ++ [0xBF]) ++ [0xBD] := rfl
            rw [hsplit, ← store_bind_store, ← store_bind_store] at h
            exact h
          · rw [if_neg hlen, if_neg hlen]
            have hle := @asmtraceUtf8Len_le (c :: src)
            have htake : ((c :: src).take (asmtraceUtf8Len (c :: src))).length =
                asmtraceUtf8Len (c :: src) := List.length_take_of_le (by omega)
            have h := hnext ((c :: src).take (asmtraceUtf8Len (c :: src))) []
              ((c :: src).drop (asmtraceUtf8Len (c :: src))) (by simp only [htake]; simp; omega)
            rw [List.append_nil, htake] at h
            exact h
      · rw [if_neg hroom, if_neg hroom]
        exact ⟨rest, rfl, hcap⟩

end Buffer

section Encoded

/-- The measured length finds the sequence at the front. -/
lemma utf8Seq_take_len {c : UInt8} {s : Bytes} (h : asmtraceUtf8Len (c :: s) ≠ 0) :
    Utf8Seq ((c :: s).take (asmtraceUtf8Len (c :: s))) := by
  cases hlead : utf8Lead c with
  | none => exact absurd (asmtraceUtf8Len_of_lead_none s hlead) h
  | some p =>
    obtain ⟨n, lo, hi⟩ := p
    rw [asmtraceUtf8Len_cons c s hlead] at h ⊢
    split_ifs at h ⊢ with hn
    · rw [List.take_succ_cons]
      exact utf8Seq_cons.2 ⟨n, lo, hi, hlead, List.length_take_of_le hn.1, hn.2⟩
    · exact absurd rfl h

lemma noSeq_of_len {c : UInt8} {s : Bytes} (h : asmtraceUtf8Len (c :: s) = 0) :
    NoSeq (c :: s) := by
  intro q t heq hq
  cases q with
  | nil => exact hq.ne_nil rfl
  | cons d q =>
    rw [List.cons_append, List.cons.injEq] at heq
    obtain ⟨n, lo, hi, hlead, hlen, hfrom⟩ := utf8Seq_cons.1 hq
    rw [← heq.1] at hlead
    rw [asmtraceUtf8Len_cons c s hlead, if_pos] at h
    · exact Nat.succ_ne_zero n h
    · rw [heq.2, ← hlen, List.take_left', List.length_append]
      · exact ⟨Nat.le_add_right _ _, hlen ▸ hfrom⟩
      · rfl

lemma hexDigit_range : ∀ n < 16, 0x20 ≤ hexDigit n ∧ hexDigit n < 0x80 := by
  decide

lemma escByte_range (c : UInt8) : ∀ b ∈ escByte c, 0x20 ≤ b ∧ (c < 0x80 → b < 0x80) := by
  have hc := c.toNat_lt
  rw [escByte]
  split_ifs with hquote hctl
  · intro b hb
    simp only [List.mem_cons, List.not_mem_nil, or_false] at hb
    rcases hquote with h | h <;> rw [h] at hb <;> rcases hb with rfl | rfl <;>
      exact ⟨by decide, fun _ => by decide⟩
  · have h1 := hexDigit_range (c.toNat / 16) (by omega)
    have h2 := hexDigit_range (c.toNat % 16) (by omega)
    intro b hb
    simp only [List.mem_cons, List.not_mem_nil, or_false] at hb
    rcases hb with rfl | rfl | rfl | rfl | rfl | rfl
    · exact ⟨by decide, fun _ => by decide⟩
    · exact ⟨by decide, fun _ => by decide⟩
    · exact ⟨by decide, fun _ => by decide⟩
    · exact ⟨by decide, fun _ => by decide⟩
    · exact ⟨h1.1, fun _ => h1.2⟩
    · exact ⟨h2.1, fun _ => h2.2⟩
  · intro b hb
    rw [List.mem_singleton.1 hb]
    exact ⟨not_lt.1 hctl, id⟩

lemma zero_notMem_escape (t : Bytes) : 0 ∉ escape t := by
  intro h
  obtain ⟨c, -, hb⟩ := List.mem_flatMap.1 h
  exact absurd (escByte_range c 0 hb).1 (by decide)

lemma length_escByte_le (c : UInt8) : (escByte c).length ≤ 6 := by
  rw [escByte]
  split_ifs <;> simp

/-- The loop has written the encoded text of a part of the source that ends between sequences; it
stops only at the end or where there is no room. -/
structure Encoded (cap : ℕ) (out src res : Bytes) (pre post : Bytes) : Prop where
  split : src = pre ++ post
  boundary : Boundary pre post
  text : res = out ++ escape (replaceIll pre)
  utf8 : Utf8Text (escape (replaceIll pre))
  short : (escape (replaceIll pre)).length ≤ 6 * pre.length
  fits : out.length < cap → res.length < cap
  full : post = [] ∨ cap ≤ res.length + 7

lemma Encoded.stop {cap : ℕ} {out src : Bytes} (h : src = [] ∨ cap ≤ out.length + 7) :
    Encoded cap out src out [] src := by
  constructor
  · rfl
  · intro a s b _ _
    right
    exact Nat.zero_le _
  · rw [replaceIll_nil, escape, List.flatMap_nil, List.append_nil]
  · exact utf8Text_nil
  · exact Nat.zero_le _
  · exact id
  · exact h

/-- One sequence, or one byte that is part of none, before the rest -/
lemma Encoded.cons {cap : ℕ} {out p src res pre post text : Bytes}
    (h : Encoded cap (out ++ text) src res pre post) (hp : Boundary p src)
    (htext : escape (replaceIll p) = text) (hutf : Utf8Text text)
    (hlen : text.length ≤ 6 * p.length) (hsix : text.length ≤ 6) (hroom : out.length + 7 < cap) :
    Encoded cap out (p ++ src) res (p ++ pre) post := by
  have hp' : Boundary p (pre ++ post) := h.split ▸ hp
  have hpre : Boundary p pre := by
    intro a s b heq hs
    exact hp' a s (b ++ post) (by rw [← List.append_assoc p, heq, List.append_assoc]) hs
  have hrep : escape (replaceIll (p ++ pre)) = text ++ escape (replaceIll pre) := by
    rw [replaceIll_append hpre, escape_append, htext]
  constructor
  · rw [h.split, List.append_assoc]
  · exact hp'.append h.boundary
  · rw [h.text, hrep, List.append_assoc]
  · rw [hrep]
    exact hutf.append h.utf8
  · have := h.short
    rw [hrep, List.length_append, List.length_append]
    omega
  · intro _
    apply h.fits
    rw [List.length_append]
    omega
  · exact h.full

lemma escape_singleton (c : UInt8) : escape [c] = escByte c := by
  simp [escape]

lemma asmtraceEscapeLoop_encoded (cap n : ℕ) (out src : Bytes) (hn : src.length ≤ n) :
    ∃ pre post, Encoded cap out src (asmtraceEscapeLoop cap n out src) pre post := by
  induction n generalizing out src with
  | zero =>
    obtain rfl := List.length_eq_zero_iff.1 (Nat.le_zero.1 hn)
    exact ⟨[], [], Encoded.stop (Or.inl rfl)⟩
  | succ n ih =>
    cases src with
    | nil => exact ⟨[], [], Encoded.stop (Or.inl rfl)⟩
    | cons c src =>
      have hn' : src.length ≤ n := Nat.le_of_succ_le_succ hn
      rw [asmtraceEscapeLoop]
      split_ifs with hroom hascii hbad
      · have hseq := utf8Seq_ascii hascii
        obtain ⟨pre, post, h⟩ := ih (out ++ escByte c) src hn'
        refine ⟨[c] ++ pre, post, h.cons (hseq.boundary src) ?_ ?_ ?_ ?_ hroom⟩
        · rw [replaceIll_seq hseq, escape_singleton]
        · exact utf8Text_ascii fun b hb => (escByte_range c b hb).2 hascii
        · exact length_escByte_le c
        · exact length_escByte_le c
      · -- no sequence starts here
        have hno := noSeq_of_len hbad
        obtain ⟨pre, post, h⟩ := ih (out ++ [0xEF, 0xBF, 0xBD]) src hn'
        refine ⟨[c] ++ pre, post, h.cons hno.boundary ?_ ?_ ?_ ?_ hroom⟩
        · rw [hno.replaceIll_singleton]
          rfl
        · exact Utf8Seq.utf8Text ⟨[(0xEE, 0xEF), (0x80, 0xBF), (0x80, 0xBF)], by decide, by decide⟩
        · change 3 ≤ 6
          omega
        · change 3 ≤ 6
          omega
      · have hseq := utf8Seq_take_len hbad
        obtain ⟨-, hhigh⟩ := utf8Ok_take_len (not_lt.1 hascii) hbad
        have hle := @asmtraceUtf8Len_le (c :: src)
        set len := asmtraceUtf8Len (c :: src)
        have htake : ((c :: src).take len).length = len := List.length_take_of_le (by omega)
        obtain ⟨pre, post, h⟩ := ih (out ++ (c :: src).take len) ((c :: src).drop len) (by
          rw [List.length_drop, List.length_cons]
          omega)
        refine ⟨(c :: src).take len ++ pre, post, ?_⟩
        nth_rewrite 1 [← List.take_append_drop len (c :: src)]
        refine h.cons (hseq.boundary _) ?_ hseq.utf8Text ?_ ?_ hroom
        · rw [replaceIll_seq hseq, escape_of_high hhigh]
        · omega
        · omega
      · exact ⟨[], c :: src, Encoded.stop (Or.inr (not_lt.1 hroom))⟩

/-- The encoder terminates its output within the buffer. The output is UTF-8 and the body of a JSON
string, which stands for the source up to a place between two sequences, with every byte that is
part of none replaced; with room for every byte it stands for the whole source. -/
theorem asmtrace_escape_exact (dst src : Bytes) (hcap : 1 ≤ dst.length) :
    ∃ out rest, asmtraceEscapeInto dst src = some (out ++ 0 :: rest) ∧
      (out ++ 0 :: rest).length = dst.length ∧ 0 ∉ out ∧ Utf8Text out ∧
      (∃ pre post, cstr src = pre ++ post ∧ Boundary pre post ∧
        jsonUnescape out = some (replaceIll pre)) ∧
      (6 * (cstr src).length + 7 < dst.length →
        jsonUnescape out = some (replaceIll (cstr src))) := by
  obtain ⟨pre, post, h⟩ :=
    asmtraceEscapeLoop_encoded dst.length (cstr src).length [] (cstr src) le_rfl
  obtain ⟨rest, hloop, hlen⟩ := escapeIntoLoop_eq dst.length (cstr src).length [] dst (cstr src) rfl
  set out := asmtraceEscapeLoop dst.length (cstr src).length [] (cstr src)
  have htext : out = escape (replaceIll pre) := h.text
  have hfits : out.length < dst.length := h.fits hcap
  have hrest : [0].length ≤ rest.length := by
    rw [List.length_append] at hlen
    rw [List.length_singleton]
    omega
  have hun : jsonUnescape out = some (replaceIll pre) := by
    rw [htext]
    exact jsonUnescape_escape _
  refine ⟨out, rest.drop 1, ?_, ?_, ?_, ?_, ⟨pre, post, h.split, h.boundary, hun⟩, ?_⟩
  · rw [asmtraceEscapeInto, if_neg (by omega)]
    change (escapeIntoLoop (cstr src).length dst 0 (cstr src)).bind _ = _
    rw [List.nil_append, List.length_nil] at hloop
    rw [hloop, Option.bind_some]
    change store (out ++ rest) out.length [0] = _
    rw [store_append hrest, List.append_assoc]
    rfl
  · rw [List.length_append] at hlen ⊢
    rw [List.length_singleton] at hrest
    rw [List.length_cons, List.length_drop]
    omega
  · rw [htext]
    exact zero_notMem_escape _
  · rw [htext]
    exact h.utf8
  · intro hroom
    have hshort := h.short
    rw [← htext] at hshort
    have hpre : pre.length ≤ (cstr src).length := by
      rw [h.split, List.length_append]
      omega
    have hpost : post = [] := by
      rcases h.full with hnil | hfull
      · exact hnil
      · omega
    rw [hun, h.split, hpost, List.append_nil]

/-- A name with a Latin-1 byte, a quote and a letter of two bytes, in a buffer of 64 bytes -/
theorem asmtrace_escape_exact_latin :
    ∃ out rest, asmtraceEscapeInto (List.replicate 64 7) [0x61, 0xE9, 0x22, 0xC3, 0xA9] =
        some (out ++ 0 :: rest) ∧ Utf8Text out ∧
      jsonUnescape out = some (replaceIll (cstr [0x61, 0xE9, 0x22, 0xC3, 0xA9])) := by
  obtain ⟨out, rest, hinto, -, -, hutf, -, hun⟩ :=
    asmtrace_escape_exact (List.replicate 64 7) [0x61, 0xE9, 0x22, 0xC3, 0xA9] (by decide)
  exact ⟨out, rest, hinto, hutf, hun (by decide)⟩

example : asmtraceEscape 64 [0x61, 0xE9, 0x22, 0xC3, 0xA9] =
    [0x61, 0xEF, 0xBF, 0xBD, 0x5C, 0x22, 0xC3, 0xA9] := by
  decide

end Encoded

end AsmTest.Doc
