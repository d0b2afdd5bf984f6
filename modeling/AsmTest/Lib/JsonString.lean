import AsmTest.Lib.JsonText

/-!
# UTF-8 sequences in a byte string, and the body of a JSON string

The sequences of RFC 3629 row by row. A sequence is told by its first byte and never starts inside
another one, so the bytes of a string that belong to some sequence are found by one scan.
-/

namespace AsmTest.Lib

section Sequences

/-- The rows of RFC 3629: the range of each byte of a sequence. -/
def utf8Rows : List (List (UInt8 × UInt8)) :=
  [[(0x00, 0x7F)],
    [(0xC2, 0xDF), (0x80, 0xBF)],
    [(0xE0, 0xE0), (0xA0, 0xBF), (0x80, 0xBF)],
    [(0xE1, 0xEC), (0x80, 0xBF), (0x80, 0xBF)],
    [(0xED, 0xED), (0x80, 0x9F), (0x80, 0xBF)],
    [(0xEE, 0xEF), (0x80, 0xBF), (0x80, 0xBF)],
    [(0xF0, 0xF0), (0x90, 0xBF), (0x80, 0xBF), (0x80, 0xBF)],
    [(0xF1, 0xF3), (0x80, 0xBF), (0x80, 0xBF), (0x80, 0xBF)],
    [(0xF4, 0xF4), (0x80, 0x8F), (0x80, 0xBF), (0x80, 0xBF)]]

def InRange (r : UInt8 × UInt8) (b : UInt8) : Prop :=
  r.1 ≤ b ∧ b ≤ r.2

instance (r : UInt8 × UInt8) (b : UInt8) : Decidable (InRange r b) :=
  inferInstanceAs (Decidable (_ ∧ _))

/-- One well-formed sequence -/
def Utf8Seq (s : Bytes) : Prop :=
  ∃ row ∈ utf8Rows, List.Forall₂ InRange row s

/-- Well-formed UTF-8 -/
def Utf8Text (l : Bytes) : Prop :=
  ∃ seqs : List Bytes, (∀ s ∈ seqs, Utf8Seq s) ∧ seqs.flatten = l

/-- What a lead byte asks of the bytes behind it -/
def dueRow (n : ℕ) (lo hi : UInt8) : List (UInt8 × UInt8) :=
  match n with
  | 0 => []
  | n + 1 => (lo, hi) :: List.replicate n (0x80, 0xBF)

-- tests of list members, so that no instance goes through all pairs of bytes
lemma lead_of_row : ∀ row ∈ utf8Rows, ∀ n < 256, ∀ r ∈ row.head?, InRange r (UInt8.ofNat n) →
    (utf8Lead (UInt8.ofNat n)).any (fun p => dueRow p.1 p.2.1 p.2.2 = row.tail) = true := by
  have hall : (utf8Rows.all fun row => (List.range 256).all fun n => row.head?.all fun r =>
      !decide (InRange r (UInt8.ofNat n)) ||
        (utf8Lead (UInt8.ofNat n)).any fun p => dueRow p.1 p.2.1 p.2.2 = row.tail) = true := by
    decide +kernel
  intro row hrow n hn r hr hin
  have hrow' := List.all_eq_true.1 (List.all_eq_true.1 hall row hrow) n (List.mem_range.2 hn)
  rw [Option.mem_def.1 hr, Option.all_some, decide_eq_true hin] at hrow'
  exact hrow'

lemma row_of_lead : ∀ n < 256, ∀ p ∈ utf8Lead (UInt8.ofNat n),
    ∃ row ∈ utf8Rows, (∃ r ∈ row.head?, InRange r (UInt8.ofNat n)) ∧
      dueRow p.1 p.2.1 p.2.2 = row.tail := by
  decide +kernel

lemma utf8From_iff {n : ℕ} {lo hi : UInt8} {s : Bytes} :
    (s.length = n ∧ utf8From n lo hi s = true) ↔ List.Forall₂ InRange (dueRow n lo hi) s := by
  have hrest : ∀ (n : ℕ) (s : Bytes), (s.length = n ∧ utf8From n 0x80 0xBF s = true) ↔
      List.Forall₂ InRange (List.replicate n (0x80, 0xBF)) s := by
    intro n
    induction n with
    | zero =>
      intro s
      cases s <;> simp [utf8From]
    | succ n ih =>
      intro s
      cases s with
      | nil => simp
      | cons a s =>
        rw [List.replicate_succ, List.forall₂_cons, ← ih s, utf8From]
        simp only [List.length_cons, Nat.add_right_cancel_iff, Bool.and_eq_true,
          decide_eq_true_eq, InRange]
        tauto
  cases n with
  | zero => cases s <;> simp [utf8From, dueRow]
  | succ n =>
    cases s with
    | nil => simp [dueRow]
    | cons a s =>
      rw [dueRow, List.forall₂_cons, ← hrest n s, utf8From]
      simp only [List.length_cons, Nat.add_right_cancel_iff, Bool.and_eq_true, decide_eq_true_eq,
        InRange]
      tauto

/-- A sequence by its lead byte -/
lemma utf8Seq_cons {c : UInt8} {s : Bytes} :
    Utf8Seq (c :: s) ↔ ∃ n lo hi, utf8Lead c = some (n, lo, hi) ∧ s.length = n ∧
      utf8From n lo hi s = true := by
  have hc : UInt8.ofNat c.toNat = c := UInt8.ofNat_toNat
  constructor
  · rintro ⟨row, hrow, hall⟩
    cases hr : row with
    | nil =>
      rw [hr] at hall
      cases hall
    | cons r row' =>
      rw [hr, List.forall₂_cons] at hall
      have hany := lead_of_row row hrow c.toNat c.toNat_lt r (by rw [hr]; rfl)
        (by rw [hc]; exact hall.1)
      rw [hc, Option.any_eq_true] at hany
      obtain ⟨⟨n, lo, hi⟩, hlead, hdue⟩ := hany
      refine ⟨n, lo, hi, hlead, utf8From_iff.2 ?_⟩
      have hdue' : dueRow n lo hi = row.tail := of_decide_eq_true hdue
      rw [hdue', hr]
      exact hall.2
  · rintro ⟨n, lo, hi, hlead, hfrom⟩
    rw [utf8From_iff] at hfrom
    obtain ⟨row, hrow, ⟨r, hr, hin⟩, hdue⟩ := row_of_lead c.toNat c.toNat_lt (n, lo, hi)
      (by rw [hc]; exact hlead)
    rw [hc] at hin
    refine ⟨row, hrow, ?_⟩
    cases hrow' : row with
    | nil =>
      rw [hrow'] at hr
      cases hr
    | cons r' row' =>
      rw [hrow'] at hr hdue
      cases hr
      dsimp only [List.tail_cons] at hdue
      rw [List.forall₂_cons, ← hdue]
      exact ⟨hin, hfrom⟩

lemma Utf8Seq.ne_nil {s : Bytes} (h : Utf8Seq s) : s ≠ [] := by
  rintro rfl
  obtain ⟨row, hrow, hall⟩ := h
  rw [List.forall₂_nil_right_iff] at hall
  rw [hall] at hrow
  exact absurd hrow (by decide)

lemma Utf8Seq.utf8Ok {s : Bytes} (h : Utf8Seq s) : utf8Ok s = true := by
  cases s with
  | nil => exact absurd rfl h.ne_nil
  | cons c s =>
    obtain ⟨n, lo, hi, hlead, -, hfrom⟩ := utf8Seq_cons.1 h
    rw [Lib.utf8Ok, utf8From, hlead]
    exact hfrom

/-- Two sequences at one place are one. -/
lemma Utf8Seq.prefix_unique {s s' t t' : Bytes} (h : Utf8Seq s) (h' : Utf8Seq s')
    (heq : s ++ t = s' ++ t') : s = s' := by
  cases s with
  | nil => exact absurd rfl h.ne_nil
  | cons c s =>
    cases s' with
    | nil => exact absurd rfl h'.ne_nil
    | cons c' s' =>
      obtain ⟨n, lo, hi, hlead, hlen, -⟩ := utf8Seq_cons.1 h
      obtain ⟨n', lo', hi', hlead', hlen', -⟩ := utf8Seq_cons.1 h'
      rw [List.cons_append, List.cons_append, List.cons.injEq] at heq
      rw [← heq.1, hlead] at hlead'
      have hn : n = n' := congrArg Prod.fst (Option.some.inj hlead')
      rw [heq.1, (List.append_inj heq.2 (by omega)).1]

/-- The bytes behind a lead byte begin no sequence. -/
lemma utf8Lead_of_cont : ∀ n < 256, InRange (0x80, 0xBF) (UInt8.ofNat n) →
    utf8Lead (UInt8.ofNat n) = none := by
  decide +kernel

lemma due_subset : ∀ row ∈ utf8Rows, ∀ r ∈ row.tail,
    (0x80 : UInt8) ≤ r.1 ∧ r.2 ≤ (0xBF : UInt8) := by
  have hall : (utf8Rows.all fun row => row.tail.all fun r =>
      decide ((0x80 : UInt8) ≤ r.1 ∧ r.2 ≤ (0xBF : UInt8))) = true := by
    decide
  intro row hrow r hr
  exact of_decide_eq_true (List.all_eq_true.1 (List.all_eq_true.1 hall row hrow) r hr)

lemma Utf8Seq.cont {c : UInt8} {s : Bytes} (h : Utf8Seq (c :: s)) :
    ∀ b ∈ s, InRange (0x80, 0xBF) b := by
  obtain ⟨row, hrow, hall⟩ := h
  intro b hb
  cases hr : row with
  | nil =>
    rw [hr] at hall
    cases hall
  | cons r row' =>
    rw [hr, List.forall₂_cons] at hall
    obtain ⟨i, hi, rfl⟩ := List.mem_iff_getElem.1 hb
    have hi' : i < row'.length := hall.2.length_eq ▸ hi
    have hin : InRange row'[i] s[i] := List.Forall₂.get hall.2 hi' hi
    have hsub := due_subset row hrow row'[i] (by rw [hr]; exact List.getElem_mem hi')
    exact ⟨hsub.1.trans hin.1, hin.2.trans hsub.2⟩

lemma Utf8Seq.tail_no_lead {c : UInt8} {s : Bytes} (h : Utf8Seq (c :: s)) {b : UInt8} (hb : b ∈ s)
    (t : Bytes) : ¬Utf8Seq (b :: t) := by
  intro hseq
  obtain ⟨n, lo, hi, hlead, -⟩ := utf8Seq_cons.1 hseq
  have hnone := utf8Lead_of_cont b.toNat b.toNat_lt
  rw [UInt8.ofNat_toNat, hlead] at hnone
  cases hnone (h.cont b hb)

lemma utf8Seq_ascii {c : UInt8} (h : c < 0x80) : Utf8Seq [c] := by
  refine ⟨_, List.mem_cons_self, List.Forall₂.cons ⟨?_, ?_⟩ List.Forall₂.nil⟩
  · exact UInt8.le_iff_toNat_le.2 (Nat.zero_le _)
  · rw [UInt8.le_iff_toNat_le]
    exact Nat.le_of_lt_succ (UInt8.lt_iff_toNat_lt.1 h)

lemma utf8Text_nil : Utf8Text [] :=
  ⟨[], by simp, rfl⟩

lemma Utf8Seq.utf8Text {s : Bytes} (h : Utf8Seq s) : Utf8Text s :=
  ⟨[s], by simpa using h, by simp⟩

lemma Utf8Text.append {l l' : Bytes} (h : Utf8Text l) (h' : Utf8Text l') : Utf8Text (l ++ l') := by
  obtain ⟨seqs, hs, rfl⟩ := h
  obtain ⟨seqs', hs', rfl⟩ := h'
  refine ⟨seqs ++ seqs', fun s hmem => ?_, List.flatten_append⟩
  rcases List.mem_append.1 hmem with hmem | hmem
  · exact hs s hmem
  · exact hs' s hmem

lemma utf8Text_ascii {l : Bytes} (h : ∀ b ∈ l, b < 0x80) : Utf8Text l := by
  induction l with
  | nil => exact utf8Text_nil
  | cons b l ih =>
    rw [List.forall_mem_cons] at h
    exact (utf8Seq_ascii h.1).utf8Text.append (ih h.2)

end Sequences

section Replacement

/-- Byte `k` of `l` is part of a well-formed sequence. -/
def InSeq (l : Bytes) (k : ℕ) : Prop :=
  ∃ a s b, l = a ++ s ++ b ∧ Utf8Seq s ∧ a.length ≤ k ∧ k < a.length + s.length

/-- U+FFFD -/
def replacementChar : Bytes :=
  [0xEF, 0xBF, 0xBD]

open Classical in
/-- Every byte that is not part of a well-formed sequence replaced by U+FFFD -/
noncomputable def replaceIll (l : Bytes) : Bytes :=
  (List.range l.length).flatMap fun k => if InSeq l k then [l.getD k 0] else replacementChar

/-- No sequence of the whole lies on both sides. -/
def Boundary (pre post : Bytes) : Prop :=
  ∀ a s b, pre ++ post = a ++ s ++ b → Utf8Seq s →
    a.length + s.length ≤ pre.length ∨ pre.length ≤ a.length

lemma inSeq_append_left {pre post : Bytes} (h : Boundary pre post) {k : ℕ} (hk : k < pre.length) :
    InSeq (pre ++ post) k ↔ InSeq pre k := by
  constructor
  · rintro ⟨a, s, b, heq, hs, hle, hlt⟩
    have hin : (a ++ s).length ≤ pre.length := by
      rw [List.length_append]
      have := h a s b heq hs
      omega
    obtain ⟨c, rfl⟩ := List.prefix_of_prefix_length_le (List.prefix_append (a ++ s) b)
      (heq ▸ List.prefix_append pre post) hin
    exact ⟨a, s, c, rfl, hs, hle, hlt⟩
  · rintro ⟨a, s, b, rfl, hs, hle, hlt⟩
    exact ⟨a, s, b ++ post, by rw [List.append_assoc], hs, hle, hlt⟩

lemma inSeq_append_right {pre post : Bytes} (h : Boundary pre post) (k : ℕ) :
    InSeq (pre ++ post) (pre.length + k) ↔ InSeq post k := by
  constructor
  · rintro ⟨a, s, b, heq, hs, hle, hlt⟩
    have hout : pre.length ≤ a.length := by
      have := h a s b heq hs
      omega
    rw [List.append_assoc] at heq
    obtain ⟨c, rfl⟩ := List.prefix_of_prefix_length_le (List.prefix_append pre post)
      (heq ▸ List.prefix_append a (s ++ b)) hout
    rw [List.append_assoc, List.append_cancel_left_eq] at heq
    rw [List.length_append] at hle hlt
    exact ⟨c, s, b, by rw [heq, List.append_assoc], hs, by omega, by omega⟩
  · rintro ⟨a, s, b, rfl, hs, hle, hlt⟩
    refine ⟨pre ++ a, s, b, by simp only [List.append_assoc], hs, ?_, ?_⟩ <;>
      rw [List.length_append] <;> omega

/-- The replacement goes piece by piece. -/
lemma replaceIll_append {pre post : Bytes} (h : Boundary pre post) :
    replaceIll (pre ++ post) = replaceIll pre ++ replaceIll post := by
  rw [replaceIll, List.length_append, List.range_add, List.flatMap_append, List.flatMap_map,
    replaceIll, replaceIll]
  congr 1
  · apply List.flatMap_congr
    intro k hk
    rw [List.mem_range] at hk
    have hget : (pre ++ post).getD k 0 = pre.getD k 0 := by
      rw [List.getD_eq_getElem?_getD, List.getElem?_append_left hk, List.getD_eq_getElem?_getD]
    rw [hget]
    by_cases hin : InSeq pre k
    · rw [if_pos hin, if_pos ((inSeq_append_left h hk).2 hin)]
    · rw [if_neg hin, if_neg (mt (inSeq_append_left h hk).1 hin)]
  · apply List.flatMap_congr
    intro k _
    have hget : (pre ++ post).getD (pre.length + k) 0 = post.getD k 0 := by
      rw [List.getD_eq_getElem?_getD, List.getElem?_append_right (Nat.le_add_right _ _),
        Nat.add_sub_cancel_left, List.getD_eq_getElem?_getD]
    rw [hget]
    by_cases hin : InSeq post k
    · rw [if_pos hin, if_pos ((inSeq_append_right h k).2 hin)]
    · rw [if_neg hin, if_neg (mt (inSeq_append_right h k).1 hin)]

lemma replaceIll_nil : replaceIll [] = [] :=
  rfl

lemma Boundary.append {p q r : Bytes} (h : Boundary p (q ++ r)) (h' : Boundary q r) :
    Boundary (p ++ q) r := by
  intro a s b heq hs
  rw [List.append_assoc] at heq
  rw [List.length_append]
  rcases h a s b heq hs with hin | hout
  · left
    omega
  · rw [List.append_assoc] at heq
    obtain ⟨c, rfl⟩ := List.prefix_of_prefix_length_le (List.prefix_append p (q ++ r))
      (heq ▸ List.prefix_append a (s ++ b)) hout
    rw [List.append_assoc, List.append_cancel_left_eq, ← List.append_assoc] at heq
    have := h' c s b heq hs
    rw [List.length_append]
    omega

/-- A sequence at the front ends at a boundary, whatever follows. -/
lemma Utf8Seq.boundary {s : Bytes} (h : Utf8Seq s) (post : Bytes) : Boundary s post := by
  intro a s' b heq hs'
  by_contra hnot
  rw [not_or] at hnot
  cases a with
  | nil =>
    rw [List.nil_append] at heq
    have hs := h.prefix_unique hs' heq
    rw [← hs, List.length_nil] at hnot
    omega
  | cons d a =>
    -- a sequence that starts inside `s` would start with a continuation byte
    cases s with
    | nil => exact h.ne_nil rfl
    | cons c s =>
      cases s' with
      | nil => exact hs'.ne_nil rfl
      | cons e s' =>
        have hlen : a.length < s.length := by
          simp only [List.length_cons] at hnot
          omega
        have hget : s[a.length]? = some e := by
          rw [List.cons_append, List.cons_append, List.cons_append, List.cons.injEq] at heq
          have hi := congrArg (fun l => l[a.length]?) heq.2
          simpa [List.getElem?_append_left hlen] using hi
        exact h.tail_no_lead (List.mem_of_getElem? hget) s' hs'

lemma replaceIll_seq {s : Bytes} (h : Utf8Seq s) : replaceIll s = s := by
  have hall : ∀ k ∈ List.range s.length, InSeq s k := by
    intro k hk
    rw [List.mem_range] at hk
    exact ⟨[], s, [], by simp, h, Nat.zero_le _, by simpa using hk⟩
  have hmap : replaceIll s = (List.range s.length).flatMap fun k => [s.getD k 0] := by
    rw [replaceIll]
    apply List.flatMap_congr
    intro k hk
    rw [if_pos (hall k hk)]
  rw [hmap, ← List.map_eq_flatMap]
  apply List.ext_getElem
  · simp
  · intro k hk hk'
    simp [hk']

/-- No sequence starts at the front of `l`. -/
def NoSeq (l : Bytes) : Prop :=
  ∀ s t, l = s ++ t → ¬Utf8Seq s

lemma NoSeq.boundary {c : UInt8} {l : Bytes} (h : NoSeq (c :: l)) : Boundary [c] l := by
  intro a s b heq hs
  cases a with
  | nil => exact absurd hs (h s b (by simpa using heq))
  | cons d a =>
    right
    simp

lemma NoSeq.replaceIll_singleton {c : UInt8} {l : Bytes} (h : NoSeq (c :: l)) :
    replaceIll [c] = replacementChar := by
  have hnot : ¬InSeq [c] 0 := by
    rintro ⟨a, s, b, heq, hs, hle, hlt⟩
    have ha : a = [] := List.length_eq_zero_iff.1 (Nat.le_zero.1 hle)
    rw [ha, List.nil_append] at heq
    refine h s (b ++ l) ?_ hs
    rw [← List.append_assoc, ← heq]
    rfl
  simp [replaceIll, hnot]

end Replacement

section Unescape

/-- The character after a backslash, other than `u` -/
def shortEscape (c : UInt8) : Option UInt8 :=
  if c = 34 ∨ c = 92 ∨ c = 47 then some c
  else if c = 98 then some 8
  else if c = 102 then some 12
  else if c = 110 then some 10
  else if c = 114 then some 13
  else if c = 116 then some 9
  else none

/-- Four hexadecimal digits -/
def codeUnit (a b c d : UInt8) : Option ℕ := do
  let w ← hexVal a
  let x ← hexVal b
  let y ← hexVal c
  let z ← hexVal d
  some (4096 * w + 256 * x + 16 * y + z)

/-- The text that the body of a JSON string stands for; `none` where it is not one. Bytes from 0x80
on stand for themselves, so UTF-8 in the body is UTF-8 in the text. -/
def jsonUnescape : Bytes → Option Bytes
  | [] => some []
  | b :: l =>
    if b = 92 then
      match l with
      | [] => none
      | c :: l =>
        if c = 117 then
          match l with
          | a :: b :: c :: d :: l =>
            match codeUnit a b c d with
            | none => none
            | some u =>
              if u < 0xD800 ∨ 0xE000 ≤ u then
                (jsonUnescape l).map (String.utf8EncodeChar (Char.ofNat u) ++ ·)
              else if u < 0xDC00 then
                -- the first half of a pair
                match l with
                | e :: f :: a :: b :: c :: d :: l =>
                  if e = 92 ∧ f = 117 then
                    match codeUnit a b c d with
                    | none => none
                    | some v =>
                      if 0xDC00 ≤ v ∧ v < 0xE000 then
                        (jsonUnescape l).map (String.utf8EncodeChar
                          (Char.ofNat (0x10000 + 1024 * (u - 0xD800) + (v - 0xDC00))) ++ ·)
                      else none
                  else none
                | _ => none
              else none
          | _ => none
        else
          match shortEscape c with
          | none => none
          | some e => (jsonUnescape l).map (e :: ·)
    else if b < 0x20 ∨ b = 34 then none
    else (jsonUnescape l).map (b :: ·)

lemma utf8EncodeChar_control : ∀ n < 32,
    String.utf8EncodeChar (Char.ofNat n) = [UInt8.ofNat n] := by
  decide

lemma codeUnit_control : ∀ n < 32,
    codeUnit 48 48 (hexDigit (n / 16)) (hexDigit (n % 16)) = some n := by
  decide

lemma jsonUnescape_escByte (b : UInt8) (l : Bytes) :
    jsonUnescape (escByte b ++ l) = (jsonUnescape l).map (b :: ·) := by
  rw [escByte]
  split_ifs with hquote hctl
  · have hne : b ≠ 117 := by
      rcases hquote with h | h <;> rw [h] <;> decide
    have hshort : shortEscape b = some b := by
      rcases hquote with h | h <;> rw [h] <;> rfl
    rw [List.cons_append, List.cons_append, List.nil_append, jsonUnescape.eq_def]
    simp only [if_true, if_neg hne, hshort]
  · have hb : b.toNat < 32 := UInt8.lt_iff_toNat_lt.1 hctl
    simp only [List.cons_append, List.nil_append, jsonUnescape, if_pos, codeUnit_control _ hb]
    rw [if_pos (by omega), utf8EncodeChar_control _ hb, UInt8.ofNat_toNat]
    rfl
  · obtain ⟨h34, h92⟩ := not_or.1 hquote
    rw [List.cons_append, List.nil_append, jsonUnescape.eq_def]
    simp only [if_neg h92, if_neg (not_or.2 ⟨hctl, h34⟩)]

/-- Unescaping inverts escaping. -/
lemma jsonUnescape_escape (t : Bytes) : jsonUnescape (escape t) = some t := by
  induction t with
  | nil => rfl
  | cons b t ih =>
    rw [escape, List.flatMap_cons, jsonUnescape_escByte]
    rw [escape] at ih
    rw [ih]
    rfl

end Unescape

end AsmTest.Lib
