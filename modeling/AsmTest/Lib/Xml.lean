import AsmTest.Lib.JsonText
import AsmTest.Lib.Utf8
import Mathlib.Tactic

/-!
# XML documents

The productions of XML 1.0, on the bytes of UTF-8, for documents without a document type
declaration. An element is read with its children and with the values of its attributes.
-/

namespace AsmTest.Lib.Xml

open String (utf8EncodeChar)

section Characters

/-- `Char` -/
def IsChar (c : Char) : Prop :=
  c.toNat = 9 ∨ c.toNat = 10 ∨ c.toNat = 13 ∨
    0x20 ≤ c.toNat ∧ c.toNat ≠ 0xFFFE ∧ c.toNat ≠ 0xFFFF

/-- `S`, or nothing -/
def Space (s : Bytes) : Prop := ∀ b ∈ s, b ∈ ([32, 9, 13, 10] : Bytes)

instance : DecidablePred Space := fun s => List.decidableBAll _ s

/-- `NameStartChar` -/
def startRanges : List (ℕ × ℕ) :=
  [(0x3A, 0x3A), (0x41, 0x5A), (0x5F, 0x5F), (0x61, 0x7A), (0xC0, 0xD6), (0xD8, 0xF6),
    (0xF8, 0x2FF), (0x370, 0x37D), (0x37F, 0x1FFF), (0x200C, 0x200D), (0x2070, 0x218F),
    (0x2C00, 0x2FEF), (0x3001, 0xD7FF), (0xF900, 0xFDCF), (0xFDF0, 0xFFFD), (0x10000, 0xEFFFF)]

/-- `NameChar` -/
def nameRanges : List (ℕ × ℕ) :=
  startRanges ++ [(0x2D, 0x2E), (0x30, 0x39), (0xB7, 0xB7), (0x300, 0x36F), (0x203F, 0x2040)]

def InRanges (rs : List (ℕ × ℕ)) (c : Char) : Prop := ∃ r ∈ rs, r.1 ≤ c.toNat ∧ c.toNat ≤ r.2

def Name (s : Bytes) : Prop :=
  ∃ c t, InRanges startRanges c ∧ Chars (InRanges nameRanges) t ∧ s = utf8EncodeChar c ++ t

/-- Names of encodings and targets are compared without their case. -/
def lower (b : UInt8) : UInt8 := if 65 ≤ b ∧ b ≤ 90 then b + 32 else b

end Characters

section References

def entities : List (Bytes × Bytes) :=
  [(ascii "amp", ascii "&"), (ascii "lt", ascii "<"), (ascii "gt", ascii ">"),
    (ascii "quot", ascii "\""), (ascii "apos", ascii "'")]

def numeral (base : ℕ) (ds : Bytes) : ℕ :=
  ds.foldl (fun n d => base * n + (hexVal d).getD 0) 0

/-- `Reference`, and what it stands for -/
inductive Ref : Bytes → Bytes → Prop
  | entity {e : Bytes × Bytes} : e ∈ entities → Ref (ascii "&" ++ e.1 ++ ascii ";") e.2
  | decimal {ds : Bytes} {c : Char} : ds ≠ [] → ds.all isDigit = true → IsChar c →
      numeral 10 ds = c.toNat → Ref (ascii "&#" ++ ds ++ ascii ";") (utf8EncodeChar c)
  | hex {ds : Bytes} {c : Char} : ds ≠ [] → ds.all (fun d => (hexVal d).isSome) = true → IsChar c →
      numeral 16 ds = c.toNat → Ref (ascii "&#x" ++ ds ++ ascii ";") (utf8EncodeChar c)

/-- The text of an `AttValue` in quotes `q`, and its value: white space in it counts as spaces. -/
inductive AttText (q : Char) : Bytes → Bytes → Prop
  | nil : AttText q [] []
  | char {c : Char} {s v : Bytes} : IsChar c → c ≠ '<' → c ≠ '&' → c ≠ q → AttText q s v →
      AttText q (utf8EncodeChar c ++ s)
        ((if c.toNat ∈ [9, 10, 13] then [32] else utf8EncodeChar c) ++ v)
  | ref {r w s v : Bytes} : Ref r w → AttText q s v → AttText q (r ++ s) (w ++ v)

/-- The attributes of a tag -/
inductive Attrs : Bytes → List (Bytes × Bytes) → Prop
  | nil : Attrs [] []
  | cons {s n e e' t v rest : Bytes} {as : List (Bytes × Bytes)} {q : Char} : Space s → s ≠ [] →
      Name n → Space e → Space e' → q = '"' ∨ q = '\'' → AttText q t v → Attrs rest as →
      Attrs (s ++ n ++ e ++ ascii "=" ++ e' ++ utf8EncodeChar q ++ t ++ utf8EncodeChar q ++ rest)
        ((n, v) :: as)

end References

section Documents

/-- `Comment` -/
def Comment (s : Bytes) : Prop :=
  ∃ t, Chars IsChar t ∧ ¬ascii "--" <:+: t ++ ascii "-" ∧ s = ascii "<!--" ++ t ++ ascii "-->"

/-- `PI` -/
def Instruction (s : Bytes) : Prop :=
  ∃ n sp t, Name n ∧ n.map lower ≠ ascii "xml" ∧ Space sp ∧ (sp = [] → t = []) ∧ Chars IsChar t ∧
    ¬ascii "?>" <:+: t ∧ s = ascii "<?" ++ n ++ sp ++ t ++ ascii "?>"

/-- `CDSect` -/
def CdSect (s : Bytes) : Prop :=
  ∃ t, Chars IsChar t ∧ ¬ascii "]]>" <:+: t ∧ s = ascii "<![CDATA[" ++ t ++ ascii "]]>"

/-- What stands in content besides characters and elements -/
def Markup (s : Bytes) : Prop := (∃ w, Ref s w) ∨ CdSect s ∨ Instruction s ∨ Comment s

inductive Node
  | elem (tag : Bytes) (attrs : List (Bytes × Bytes)) (children : List Node)

mutual

/-- `element` -/
inductive Element : Bytes → Node → Prop
  | empty {n a sp : Bytes} {as : List (Bytes × Bytes)} : Name n → Attrs a as →
      (as.map Prod.fst).Nodup → Space sp →
      Element (ascii "<" ++ n ++ a ++ sp ++ ascii "/>") (.elem n as [])
  | tags {n a sp s sp' : Bytes} {as : List (Bytes × Bytes)} {ns : List Node} : Name n →
      Attrs a as → (as.map Prod.fst).Nodup → Space sp → Content s ns → Space sp' →
      Element (ascii "<" ++ n ++ a ++ sp ++ ascii ">" ++ s ++ ascii "</" ++ n ++ sp' ++ ascii ">")
        (.elem n as ns)

/-- `content`: no `]]>` begins at a character of its own -/
inductive Content : Bytes → List Node → Prop
  | nil : Content [] []
  | char {c : Char} {s : Bytes} {ns : List Node} : IsChar c → c ≠ '<' → c ≠ '&' →
      ¬ascii "]]>" <+: utf8EncodeChar c ++ s → Content s ns → Content (utf8EncodeChar c ++ s) ns
  | markup {x s : Bytes} {ns : List Node} : Markup x → Content s ns → Content (x ++ s) ns
  | element {x s : Bytes} {n : Node} {ns : List Node} : Element x n → Content s ns →
      Content (x ++ s) (n :: ns)

end

/-- The parts of the declaration -/
def DeclPart (name : String) (value : Bytes → Prop) (s : Bytes) : Prop :=
  ∃ sp e e' v, ∃ q ∈ ([34, 39] : Bytes), Space sp ∧ sp ≠ [] ∧ Space e ∧ Space e' ∧ value v ∧
    s = sp ++ ascii name ++ e ++ ascii "=" ++ e' ++ [q] ++ v ++ [q]

/-- `XMLDecl` of a document in UTF-8 -/
def XmlDecl (s : Bytes) : Prop :=
  ∃ version encoding standalone sp, DeclPart "version" (· = ascii "1.0") version ∧
    (encoding = [] ∨ DeclPart "encoding" (fun v => v.map lower = ascii "utf-8") encoding) ∧
    (standalone = [] ∨
      DeclPart "standalone" (fun v => v = ascii "yes" ∨ v = ascii "no") standalone) ∧
    Space sp ∧ s = ascii "<?xml" ++ version ++ encoding ++ standalone ++ sp ++ ascii "?>"

/-- `Misc`, any number of times -/
inductive Misc : Bytes → Prop
  | nil : Misc []
  | space {s t : Bytes} : Space s → Misc t → Misc (s ++ t)
  | note {x t : Bytes} : Comment x ∨ Instruction x → Misc t → Misc (x ++ t)

/-- `document` -/
def Document (s : Bytes) (root : Node) : Prop :=
  ∃ decl pre x post, (decl = [] ∨ XmlDecl decl) ∧ Misc pre ∧ Element x root ∧ Misc post ∧
    s = decl ++ pre ++ x ++ post

/-- The ends of lines, as a processor passes them on -/
def eol : Bytes → Bytes
  | [] => []
  | 13 :: 10 :: s => 10 :: eol s
  | 13 :: s => 10 :: eol s
  | b :: s => b :: eol s

/-- The bytes are a well-formed document with this root. -/
def WellFormed (s : Bytes) (root : Node) : Prop := Document (eol s) root

end Documents

section Legal

variable {s t v : Bytes} {c : Char} {b : UInt8}

/-- An ASCII character that may stand in a document -/
def Plain (b : UInt8) : Prop := b ∈ ([9, 10, 13] : Bytes) ∨ 32 ≤ b ∧ b < 128

instance : DecidablePred Plain := fun _ => inferInstanceAs (Decidable (_ ∨ _))

def PlainText (s : Bytes) : Prop := ∀ b ∈ s, Plain b

instance : DecidablePred PlainText := fun s => List.decidableBAll _ s

lemma Plain.lt (h : Plain b) : b.toNat < 0x80 := by
  obtain h | ⟨-, h⟩ := h
  · simp only [List.mem_cons, List.not_mem_nil, or_false] at h
    obtain rfl | rfl | rfl := h <;> decide
  · exact UInt8.lt_iff_toNat_lt.mp h

lemma Plain.isChar (h : Plain b) : IsChar (Char.ofNat b.toNat) := by
  rw [IsChar, toNat_charOfByte h.lt]
  obtain h | ⟨hge, hlt⟩ := h
  · simp only [List.mem_cons, List.not_mem_nil, or_false] at h
    obtain rfl | rfl | rfl := h <;> decide
  · have := UInt8.le_iff_toNat_le.mp hge
    have := UInt8.lt_iff_toNat_lt.mp hlt
    have h32 : (32 : UInt8).toNat = 32 := rfl
    have h128 : (128 : UInt8).toNat = 128 := rfl
    omega

lemma chars_plain (h : PlainText s) : Chars IsChar s :=
  chars_of_bytes fun b hb => ⟨(h b hb).lt, (h b hb).isChar⟩

lemma Space.chars (h : Space s) : Chars IsChar s := by
  refine chars_plain fun b hb => ?_
  have := h b hb
  simp only [List.mem_cons, List.not_mem_nil, or_false] at this
  obtain rfl | rfl | rfl | rfl := this <;> decide

lemma plain_hexVal (h : (hexVal b).isSome = true) : Plain b := by
  have h32 : (32 : UInt8) ≤ 48 ∧ (57 : UInt8) < 128 := by decide
  rw [hexVal] at h
  split_ifs at h with hdigit hlow hup
  · exact .inr ⟨h32.1.trans hdigit.1, lt_of_le_of_lt hdigit.2 h32.2⟩
  · exact .inr ⟨le_trans (by decide) hlow.1, lt_of_le_of_lt hlow.2 (by decide)⟩
  · exact .inr ⟨le_trans (by decide) hup.1, lt_of_le_of_lt hup.2 (by decide)⟩
  · cases h

lemma plain_digit (h : isDigit b = true) : Plain b := by
  rw [isDigit, Bool.and_eq_true, decide_eq_true_iff, decide_eq_true_iff] at h
  exact .inr ⟨le_trans (by decide) h.1, lt_of_le_of_lt h.2 (by decide)⟩

lemma isChar_of_inRanges (h : InRanges nameRanges c) : IsChar c := by
  obtain ⟨r, hr, hle⟩ := h
  simp only [nameRanges, startRanges, List.cons_append, List.nil_append, List.mem_cons,
    List.not_mem_nil, or_false] at hr
  rw [IsChar]
  casesm* _ ∨ _ <;> subst hr <;> dsimp only at hle <;> omega

lemma Name.chars (h : Name s) : Chars IsChar s := by
  obtain ⟨c, t, hc, ht, rfl⟩ := h
  have hname : InRanges nameRanges c := by
    obtain ⟨r, hr, hle⟩ := hc
    exact ⟨r, List.mem_append_left _ hr, hle⟩
  exact (Chars.single (isChar_of_inRanges hname)).append (ht.mono fun d => isChar_of_inRanges)

lemma Ref.chars (h : Ref s v) : Chars IsChar s := by
  cases h with
  | @entity e he =>
    have hplain : ∀ e ∈ entities, PlainText (ascii "&" ++ e.1 ++ ascii ";") := by decide
    exact chars_plain (hplain e he)
  | decimal _ hds =>
    have hmid : Chars IsChar _ := chars_plain fun b hb =>
      plain_digit (List.all_eq_true.mp hds b hb)
    exact ((chars_plain (by decide)).append hmid).append (chars_plain (by decide))
  | hex _ hds =>
    have hmid : Chars IsChar _ := chars_plain fun b hb =>
      plain_hexVal (List.all_eq_true.mp hds b hb)
    exact ((chars_plain (by decide)).append hmid).append (chars_plain (by decide))

lemma AttText.chars {q : Char} (h : AttText q s v) : Chars IsChar s := by
  induction h with
  | nil => exact Chars.nil
  | char hc _ _ _ _ ih => exact (Chars.single hc).append ih
  | ref hr _ ih => exact hr.chars.append ih

lemma Attrs.chars {as : List (Bytes × Bytes)} (h : Attrs s as) : Chars IsChar s := by
  induction h with
  | nil => exact Chars.nil
  | @cons s n e e' t v rest as q hs _ hn he he' hq ht _ ih =>
    have hquote : Chars IsChar (utf8EncodeChar q) := by
      refine Chars.single ?_
      obtain rfl | rfl := hq
      · exact .inr (.inr (.inr (by decide)))
      · exact .inr (.inr (.inr (by decide)))
    have heq : Chars IsChar (ascii "=") := chars_plain (by decide)
    exact (((((((hs.chars.append hn.chars).append he.chars).append heq).append
      he'.chars).append hquote).append ht.chars).append hquote).append ih

lemma Comment.chars (h : Comment s) : Chars IsChar s := by
  obtain ⟨t, ht, -, rfl⟩ := h
  exact ((chars_plain (by decide)).append ht).append (chars_plain (by decide))

lemma Instruction.chars (h : Instruction s) : Chars IsChar s := by
  obtain ⟨n, sp, t, hn, -, hsp, -, ht, -, rfl⟩ := h
  exact ((((chars_plain (by decide)).append hn.chars).append hsp.chars).append ht).append
    (chars_plain (by decide))

lemma Markup.chars (h : Markup s) : Chars IsChar s := by
  obtain ⟨w, h⟩ | ⟨t, ht, -, rfl⟩ | h | h := h
  · exact h.chars
  · exact ((chars_plain (by decide)).append ht).append (chars_plain (by decide))
  · exact h.chars
  · exact h.chars

mutual

lemma Element.chars : ∀ {s : Bytes} {n : Node}, Element s n → Chars IsChar s
  | _, _, .empty hn ha _ hsp => by
    have hopen : Chars IsChar (ascii "<") := chars_plain (by decide)
    have hclose : Chars IsChar (ascii "/>") := chars_plain (by decide)
    exact (((hopen.append hn.chars).append ha.chars).append hsp.chars).append hclose
  | _, _, .tags hn ha _ hsp hs hsp' => by
    have hopen : Chars IsChar (ascii "<") := chars_plain (by decide)
    have hclose : Chars IsChar (ascii ">") := chars_plain (by decide)
    have hend : Chars IsChar (ascii "</") := chars_plain (by decide)
    have htag := (((hopen.append hn.chars).append ha.chars).append hsp.chars).append hclose
    exact ((((htag.append hs.chars).append hend).append hn.chars).append hsp'.chars).append hclose

lemma Content.chars : ∀ {s : Bytes} {ns : List Node}, Content s ns → Chars IsChar s
  | _, _, .nil => Chars.nil
  | _, _, .char hc _ _ _ hs => (Chars.single hc).append hs.chars
  | _, _, .markup hx hs => hx.chars.append hs.chars
  | _, _, .element hx hs => hx.chars.append hs.chars

end

lemma DeclPart.chars {name : String} {value : Bytes → Prop} (hname : PlainText (ascii name))
    (hvalue : ∀ v, value v → Chars IsChar v) (h : DeclPart name value s) : Chars IsChar s := by
  obtain ⟨sp, e, e', v, q, hq, hsp, -, he, he', hv, rfl⟩ := h
  have hquote : Chars IsChar [q] := by
    refine chars_plain fun b hb => ?_
    have hquotes : PlainText [34, 39] := by decide
    exact List.mem_singleton.mp hb ▸ hquotes q hq
  have heq : Chars IsChar (ascii "=") := chars_plain (by decide)
  exact ((((((hsp.chars.append (chars_plain hname)).append he.chars).append heq).append
    he'.chars).append hquote).append (hvalue v hv)).append hquote

lemma plain_lower (h : Plain (lower b)) : Plain b := by
  rw [lower] at h
  split_ifs at h with hup
  · exact .inr ⟨le_trans (by decide) hup.1, lt_of_le_of_lt hup.2 (by decide)⟩
  · exact h

lemma XmlDecl.chars (h : XmlDecl s) : Chars IsChar s := by
  obtain ⟨version, encoding, standalone, sp, hver, henc, hsa, hsp, rfl⟩ := h
  have hversion : Chars IsChar version := hver.chars (by decide) fun v hv => by
    rw [hv]
    exact chars_plain (by decide)
  have hencoding : Chars IsChar encoding := by
    obtain rfl | henc := henc
    · exact Chars.nil
    · refine henc.chars (by decide) fun v hv => chars_plain fun b hb => plain_lower ?_
      have hplain : PlainText (ascii "utf-8") := by decide
      exact hplain _ (hv ▸ List.mem_map_of_mem hb)
  have hstandalone : Chars IsChar standalone := by
    obtain rfl | hsa := hsa
    · exact Chars.nil
    · refine hsa.chars (by decide) fun v hv => ?_
      obtain rfl | rfl := hv
      · exact chars_plain (by decide)
      · exact chars_plain (by decide)
  have hopen : Chars IsChar (ascii "<?xml") := chars_plain (by decide)
  have hclose : Chars IsChar (ascii "?>") := chars_plain (by decide)
  exact ((((hopen.append hversion).append hencoding).append hstandalone).append hsp.chars).append
    hclose

lemma Misc.chars (h : Misc s) : Chars IsChar s := by
  induction h with
  | nil => exact Chars.nil
  | space hs _ ih => exact hs.chars.append ih
  | note hx _ ih => exact (hx.elim Comment.chars Instruction.chars).append ih

/-- A document is a text of characters that may stand in one. -/
lemma Document.chars {root : Node} (h : Document s root) : Chars IsChar s := by
  obtain ⟨decl, pre, x, post, hdecl, hpre, hx, hpost, rfl⟩ := h
  have hdecl : Chars IsChar decl := hdecl.elim (fun h => h ▸ Chars.nil) XmlDecl.chars
  exact ((hdecl.append hpre.chars).append hx.chars).append hpost.chars

end Legal

section Building

variable {s t u v w x n : Bytes} {ns ms : List Node} {as : List (Bytes × Bytes)} {q : Char}

/-- White space in the value of an attribute -/
def spaced (b : UInt8) : UInt8 := if b ∈ ([9, 10, 13] : Bytes) then 32 else b

lemma eol_eq (h : 13 ∉ s) : eol s = s := by
  fun_induction eol s with
  | case1 => rfl
  | case2 => simp at h
  | case3 => simp at h
  | case4 b s hcrlf hcr ih =>
    rw [ih fun hmem => h (List.mem_cons_of_mem b hmem)]

lemma AttText.append (hs : AttText q s v) (ht : AttText q t w) : AttText q (s ++ t) (v ++ w) := by
  induction hs with
  | nil => exact ht
  | char hc hlt hamp hq _ ih =>
    rw [List.append_assoc, List.append_assoc]
    exact .char hc hlt hamp hq ih
  | ref hr _ ih =>
    rw [List.append_assoc, List.append_assoc]
    exact .ref hr ih

/-- Text without markup is content. -/
lemma AttText.content (hs : AttText q s v) (hgt : 62 ∉ s) : Content s [] := by
  induction hs with
  | nil => exact .nil
  | @char c s v hc hlt hamp _ _ ih =>
    have hrest := ih fun hmem => hgt (List.mem_append_right _ hmem)
    exact .char hc hlt hamp (fun hpre => hgt (hpre.subset (by decide))) hrest
  | ref hr _ ih =>
    exact .markup (.inl ⟨_, hr⟩) (ih fun hmem => hgt (List.mem_append_right _ hmem))

lemma AttText.byte {b : UInt8} (h : Plain b) (hmark : b ∉ ([34, 38, 60] : Bytes)) :
    AttText '"' [b] [spaced b] := by
  have hcode := toNat_charOfByte h.lt
  simp only [List.mem_cons, List.not_mem_nil, or_false, not_or] at hmark
  have hbyte := @AttText.char '"' _ _ _ h.isChar (charOfByte_ne h.lt hmark.2.2)
    (charOfByte_ne h.lt hmark.2.1) (charOfByte_ne h.lt hmark.1) AttText.nil
  have hvalue : (if (Char.ofNat b.toNat).toNat ∈ [9, 10, 13] then [32] else [b]) = [spaced b] := by
    rw [hcode, spaced, apply_ite (fun b => [b])]
    simp only [List.mem_cons, List.not_mem_nil, or_false, UInt8.ext_iff]
    rfl
  rw [encode_byte h.lt, List.append_nil, List.append_nil, hvalue] at hbyte
  exact hbyte

/-- ASCII text without markup or quotes -/
lemma attText_plain (h : ∀ b ∈ s, Plain b ∧ b ∉ ([34, 38, 60] : Bytes)) :
    AttText '"' s (s.map spaced) := by
  induction s with
  | nil => exact .nil
  | cons b s ih =>
    obtain ⟨hplain, hmark⟩ := h b List.mem_cons_self
    exact (AttText.byte hplain hmark).append (ih fun d hd => h d (List.mem_cons_of_mem b hd))

lemma attText_self (h : ∀ b ∈ s, 32 ≤ b ∧ b < 128 ∧ b ∉ ([34, 38, 60] : Bytes)) :
    AttText '"' s s := by
  have hspaced : ∀ b ∈ s, spaced b = b := fun b hb => by
    rw [spaced, if_neg]
    intro hspace
    have hge := (h b hb).1
    simp only [List.mem_cons, List.not_mem_nil, or_false] at hspace
    obtain rfl | rfl | rfl := hspace <;> exact absurd hge (by decide)
  have htext := attText_plain fun b hb => ⟨.inr ⟨(h b hb).1, (h b hb).2.1⟩, (h b hb).2.2⟩
  rwa [List.map_congr_left hspaced, List.map_id'] at htext

lemma AttText.single {r w : Bytes} (h : Ref r w) : AttText q r w := by
  have hr := AttText.ref h (@AttText.nil q)
  rwa [List.append_nil, List.append_nil] at hr

lemma Attrs.attr (hn : Name n) (ht : AttText '"' t v) (hs : Attrs s as) :
    Attrs (ascii " " ++ n ++ ascii "=\"" ++ t ++ ascii "\"" ++ s) ((n, v) :: as) := by
  have hspace : Space (ascii " ") := fun b hb => List.mem_singleton.mp hb ▸ List.mem_cons_self
  have h := Attrs.cons hspace (by decide) hn (@List.forall_mem_nil _ _) (@List.forall_mem_nil _ _)
    (.inl rfl) ht hs
  have heq : ascii "=\"" = ascii "=" ++ utf8EncodeChar '"' := by decide
  have hquote : ascii "\"" = utf8EncodeChar '"' := by decide
  rw [heq, hquote]
  simpa only [List.append_nil, List.append_assoc] using h

lemma Content.space (hu : Space u) (hs : Content s ns) : Content (u ++ s) ns := by
  induction u with
  | nil => exact hs
  | cons b u ih =>
    have hrest := ih fun d hd => hu d (List.mem_cons_of_mem b hd)
    obtain ⟨hplain, hlt, hamp, hbracket⟩ : Plain b ∧ b ≠ 60 ∧ b ≠ 38 ∧ b ≠ 93 := by
      have hb := hu b List.mem_cons_self
      simp only [List.mem_cons, List.not_mem_nil, or_false] at hb
      obtain rfl | rfl | rfl | rfl := hb <;> decide
    have hclose : ¬ascii "]]>" <+: utf8EncodeChar (Char.ofNat b.toNat) ++ (u ++ s) := by
      rintro ⟨z, hz⟩
      rw [encode_byte hplain.lt] at hz
      exact hbracket (List.cons.inj hz).1.symm
    have hchar := Content.char hplain.isChar (charOfByte_ne hplain.lt hlt)
      (charOfByte_ne hplain.lt hamp) hclose hrest
    rw [encode_byte hplain.lt] at hchar
    exact hchar

lemma Element.between {a : Bytes} (hn : Name n) (ha : Attrs a as) (hnodup : (as.map Prod.fst).Nodup)
    (hs : Content s ns) :
    Element (ascii "<" ++ n ++ a ++ ascii ">" ++ s ++ ascii "</" ++ n ++ ascii ">")
      (.elem n as ns) := by
  have h := Element.tags hn ha hnodup (@List.forall_mem_nil _ _) hs (@List.forall_mem_nil _ _)
  rwa [List.append_nil, List.append_nil] at h

lemma Element.alone {a : Bytes} (hn : Name n) (ha : Attrs a as)
    (hnodup : (as.map Prod.fst).Nodup) :
    Element (ascii "<" ++ n ++ a ++ ascii "/>") (.elem n as []) := by
  have h := Element.empty hn ha hnodup (@List.forall_mem_nil _ _)
  rwa [List.append_nil] at h

/-- Names of small letters and hyphens -/
lemma name_letters {b : UInt8} {t : Bytes} (hb : 97 ≤ b ∧ b ≤ 122)
    (ht : t.all (fun d => (97 ≤ d ∧ d ≤ 122) ∨ d = 45) = true) : Name (b :: t) := by
  have hletter : ∀ d : UInt8, 97 ≤ d ∧ d ≤ 122 → d.toNat < 0x80 ∧ 97 ≤ d.toNat ∧ d.toNat ≤ 122 := by
    rintro d ⟨hge, hle⟩
    have h97 := UInt8.le_iff_toNat_le.mp hge
    have h122 := UInt8.le_iff_toNat_le.mp hle
    exact ⟨lt_of_le_of_lt h122 (by decide), h97, h122⟩
  obtain ⟨hlt, hge, hle⟩ := hletter b hb
  refine ⟨Char.ofNat b.toNat, t, ⟨(0x61, 0x7A), by decide, ?_⟩, chars_of_bytes fun d hd => ?_, ?_⟩
  · rw [toNat_charOfByte hlt]
    exact ⟨hge, hle⟩
  · obtain hd | rfl := of_decide_eq_true (List.all_eq_true.mp ht d hd)
    · obtain ⟨hlt, hge, hle⟩ := hletter d hd
      refine ⟨hlt, (0x61, 0x7A), by decide, ?_⟩
      rw [toNat_charOfByte hlt]
      exact ⟨hge, hle⟩
    · exact ⟨by decide, (0x2D, 0x2E), by decide, by decide⟩
  · rw [encode_byte hlt]
    rfl

end Building

end AsmTest.Lib.Xml
