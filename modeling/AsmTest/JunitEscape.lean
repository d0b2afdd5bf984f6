import AsmTest.JunitReport

/-!
# Escaped strings in the JUnit report

What `printf` writes is ASCII, so a report in UTF-8 can be cut at it. An escaped string is UTF-8 of
characters that a document may have exactly if the string is, control characters apart.
-/

namespace AsmTest.Report

open Lib Xml

section Pieces

variable {ps qs : List Piece} {s t : Bytes}

/-- What `printf` writes: ASCII, without carriage returns -/
def Ascii (s : Bytes) : Prop := ∀ b ∈ s, b.toNat < 0x80 ∧ b ≠ 13

instance : DecidablePred Ascii := fun s => List.decidableBAll _ s

/-- Something printed comes first. -/
def Leads : List Piece → Prop
  | .lit t :: _ => t ≠ []
  | _ => False

/-- Every escaped string is followed by something printed. -/
inductive Fenced : List Piece → Prop
  | nil : Fenced []
  | lit {s : Bytes} {ps : List Piece} : Ascii s → Fenced ps → Fenced (.lit s :: ps)
  | esc {s : Bytes} {ps : List Piece} : Leads ps → Fenced ps → Fenced (.esc s :: ps)

lemma Leads.append (h : Leads ps) : Leads (ps ++ qs) := by
  cases ps with
  | nil => exact h.elim
  | cons p ps =>
    cases p with
    | lit t => exact h
    | esc t => exact h.elim

lemma Fenced.append (hp : Fenced ps) (hq : Fenced qs) : Fenced (ps ++ qs) := by
  induction hp with
  | nil => exact hq
  | lit hs _ ih => exact .lit hs ih
  | esc hps _ ih => exact .esc hps.append ih

lemma fenced_flatMap {α : Type} {f : α → List Piece} {l : List α} (h : ∀ x ∈ l, Fenced (f x)) :
    Fenced (l.flatMap f) := by
  induction l with
  | nil => exact .nil
  | cons x l ih =>
    rw [List.flatMap_cons]
    exact (h x List.mem_cons_self).append (ih fun y hy => h y (List.mem_cons_of_mem x hy))

lemma Ascii.append (hs : Ascii s) (ht : Ascii t) : Ascii (s ++ t) := fun b hb =>
  (List.mem_append.mp hb).elim (hs b) (ht b)

lemma ascii_decimal (n : ℕ) : Ascii (decimal n) := fun b hb => by
  have hdigit := isDigit_of_mem_decimal hb
  refine ⟨(plain_digit hdigit).lt, ?_⟩
  rintro rfl
  exact absurd hdigit (by decide)

lemma ascii_decimalInt (n : ℤ) : Ascii (decimalInt n) := by
  cases n with
  | ofNat n => exact ascii_decimal n
  | negSucc n => exact @Ascii.append [45] (decimal (n + 1)) (by decide) (ascii_decimal _)

/-- A text can be cut before and behind a printed part. -/
lemma Chars.chunk {p : Char → Prop} {x y : Bytes} (hne : t ≠ []) (ht : Ascii t)
    (h : Chars p (x ++ (t ++ y))) : Chars p x ∧ Chars p t ∧ Chars p y := by
  induction t generalizing x with
  | nil => exact absurd rfl hne
  | cons b t ih =>
    have hascii := (ht b List.mem_cons_self).1
    obtain ⟨hx, hb, hrest⟩ := Chars.split hascii h
    by_cases hempty : t = []
    · rw [hempty] at hrest ⊢
      exact ⟨hx, Chars.byte hascii hb, hrest⟩
    · obtain ⟨-, ht, hy⟩ := @ih [] hempty (fun d hd => ht d (List.mem_cons_of_mem b hd)) hrest
      exact ⟨hx, (Chars.byte hascii hb).append ht, hy⟩

lemma Fenced.chars {p : Char → Prop} (hp : Fenced ps) (h : Chars p (piecesText ps)) :
    ∀ s, Piece.esc s ∈ ps → Chars p (xmlPrintEscaped s) := by
  induction hp with
  | nil => nofun
  | @lit t ps ht _ ih =>
    intro s hs
    obtain heq | hs := List.mem_cons.mp hs
    · cases heq
    · refine ih ?_ s hs
      by_cases hempty : t = []
      · rw [hempty] at h
        exact h
      · exact (@Chars.chunk t p [] (piecesText ps) hempty ht h).2.2
  | @esc t ps hleads hps ih =>
    cases hps with
    | nil => exact hleads.elim
    | esc => exact hleads.elim
    | @lit u ps hu _ =>
      obtain ⟨ht, htext, hrest⟩ :=
        @Chars.chunk u p (xmlPrintEscaped t) (piecesText ps) hleads hu h
      intro s hs
      obtain heq | hs := List.mem_cons.mp hs
      · obtain rfl := Piece.esc.inj heq
        exact ht
      · exact ih (htext.append hrest) s hs

end Pieces

section Escapes

variable {s t : Bytes} {b : UInt8}

lemma upperHex_spec : ∀ n < 16, Plain (upperHex n) ∧ upperHex n ∉ ([34, 38, 60, 62] : Bytes) ∧
    spaced (upperHex n) = upperHex n := by decide

/-- ASCII bytes that stand for `cs` in an attribute and in an element -/
abbrev EscapedAs (s cs : Bytes) : Prop := AttText '"' s cs ∧ 62 ∉ s ∧ s ≠ [] ∧ Ascii s

/-- A control character is written as a visible escape. -/
lemma attText_control (hcontrol : b < 0x20) (hb : b ≠ 9 ∧ b ≠ 10 ∧ b ≠ 13) :
    let s := ascii "\\x" ++ [upperHex (b.toNat / 16), upperHex (b.toNat % 16)]
    EscapedAs s (shownByte b) := by
  intro s
  have hlt : b.toNat < 32 := UInt8.lt_iff_toNat_lt.mp hcontrol
  obtain ⟨hplain, hmark, hspaced⟩ := upperHex_spec (b.toNat / 16) (by omega)
  obtain ⟨hplain', hmark', hspaced'⟩ := upperHex_spec (b.toNat % 16) (Nat.mod_lt _ (by decide))
  have hbytes : ∀ d ∈ s, Plain d ∧ d ∉ ([34, 38, 60, 62] : Bytes) ∧ spaced d = d := by
    intro d hd
    obtain hd | hd := List.mem_append.mp hd
    · have hmark : (ascii "\\x").all
          (fun d => Plain d ∧ d ∉ ([34, 38, 60, 62] : Bytes) ∧ spaced d = d) = true := by decide
      exact of_decide_eq_true (List.all_eq_true.mp hmark d hd)
    · simp only [List.mem_cons, List.not_mem_nil, or_false] at hd
      obtain rfl | rfl := hd
      · exact ⟨hplain, hmark, hspaced⟩
      · exact ⟨hplain', hmark', hspaced'⟩
  have hshown : shownByte b = s.map spaced := by
    rw [List.map_congr_left fun d hd => (hbytes d hd).2.2, List.map_id', shownByte, if_neg hb.1,
      if_pos ⟨hcontrol, hb.2⟩]
  rw [hshown]
  refine ⟨attText_plain fun d hd => ?_, fun h => (hbytes 62 h).2.1 (by decide),
    List.cons_ne_nil _ _, fun d hd => ?_⟩
  · obtain ⟨hplain, hmark, -⟩ := hbytes d hd
    exact ⟨hplain, fun h => hmark (List.mem_of_mem_dropLast h)⟩
  · obtain ⟨hplain, -, hspaced⟩ := hbytes d hd
    refine ⟨hplain.lt, ?_⟩
    rintro rfl
    exact absurd hspaced (by decide)

/-- A byte of an ASCII string comes out as a reference or as plain characters. -/
lemma attText_escapeByte (h : b.toNat < 0x80) : EscapedAs (xmlEscapeByte b) (shownByte b) := by
  have hb : b < 128 := UInt8.lt_iff_toNat_lt.mpr h
  rw [xmlEscapeByte]
  by_cases hamp : b = 38
  · rw [if_pos hamp, hamp]
    exact ⟨AttText.single (@Ref.entity (ascii "amp", ascii "&") (.head _)), by decide⟩
  rw [if_neg hamp]
  by_cases hlt : b = 60
  · rw [if_pos hlt, hlt]
    exact ⟨AttText.single (@Ref.entity (ascii "lt", ascii "<") (.tail _ (.head _))), by decide⟩
  rw [if_neg hlt]
  by_cases hgt : b = 62
  · rw [if_pos hgt, hgt]
    exact ⟨AttText.single (@Ref.entity (ascii "gt", ascii ">") (.tail _ (.tail _ (.head _)))),
      by decide⟩
  rw [if_neg hgt]
  by_cases hquote : b = 34
  · rw [if_pos hquote, hquote]
    exact ⟨AttText.single (@Ref.entity (ascii "quot", ascii "\"")
      (.tail _ (.tail _ (.tail _ (.head _))))), by decide⟩
  rw [if_neg hquote]
  by_cases hnl : b = 10
  · rw [if_pos hnl, hnl]
    exact ⟨AttText.single (@Ref.decimal (ascii "10") '\n' (by decide) (by decide) (.inr (.inl rfl))
      (by decide)), by decide⟩
  rw [if_neg hnl]
  by_cases hcr : b = 13
  · rw [if_pos hcr, hcr]
    exact ⟨AttText.single (@Ref.decimal (ascii "13") '\r' (by decide) (by decide)
      (.inr (.inr (.inl rfl))) (by decide)), by decide⟩
  rw [if_neg hcr]
  by_cases htab : b = 9
  · rw [if_pos htab, htab]
    exact ⟨AttText.byte (by decide) (by decide), by decide⟩
  rw [if_neg htab]
  by_cases hcontrol : b < 0x20
  · rw [if_pos hcontrol]
    exact attText_control hcontrol ⟨htab, hnl, hcr⟩
  · -- a byte that is written as it is
    rw [if_neg hcontrol]
    have hge : 32 ≤ b := not_lt.mp hcontrol
    have hspaced : shownByte b = [spaced b] := by
      rw [shownByte, if_neg htab, if_neg fun h => hcontrol h.1, spaced, if_neg]
      simp [htab, hnl, hcr]
    have hbyte : AttText '"' [b] [spaced b] := by
      refine AttText.byte (.inr ⟨hge, hb⟩) ?_
      simp [hamp, hlt, hquote]
    rw [hspaced]
    refine ⟨hbyte, ?_, List.cons_ne_nil _ _, fun d hd => ?_⟩
    · exact fun hmem => hgt (List.mem_singleton.mp hmem).symm
    · obtain rfl := List.mem_singleton.mp hd
      exact ⟨h, hcr⟩

lemma escapeByte_high (h : 0x80 ≤ b.toNat) : xmlEscapeByte b = [b] ∧ shownByte b = [b] := by
  have hne : ∀ c : UInt8, c.toNat < 0x80 → b ≠ c := by
    rintro c hc rfl
    omega
  have hge : ¬b < 0x20 := by
    rw [UInt8.lt_iff_toNat_lt, not_lt]
    exact le_trans (by decide) h
  rw [xmlEscapeByte, if_neg (hne 38 (by decide)), if_neg (hne 60 (by decide)),
    if_neg (hne 62 (by decide)), if_neg (hne 34 (by decide)), if_neg (hne 10 (by decide)),
    if_neg (hne 13 (by decide)), if_neg (hne 9 (by decide)), if_neg hge, shownByte,
    if_neg (hne 9 (by decide)), if_neg fun h => hge h.1]
  exact ⟨rfl, rfl⟩

lemma return_notMem_escape (s : Bytes) : 13 ∉ xmlPrintEscaped s := by
  intro hmem
  obtain ⟨b, -, hb⟩ := List.mem_flatMap.mp hmem
  by_cases hascii : b.toNat < 0x80
  · obtain ⟨-, -, -, hesc⟩ := attText_escapeByte hascii
    exact (hesc 13 hb).2 rfl
  · rw [(escapeByte_high (not_lt.mp hascii)).1] at hb
    obtain rfl := List.mem_singleton.mp hb
    exact hascii (by decide)

lemma escape_high (h : ∀ b ∈ s, 0x80 ≤ b.toNat) :
    xmlPrintEscaped s = s ∧ shown s = s := by
  induction s with
  | nil => exact ⟨rfl, rfl⟩
  | cons b s ih =>
    obtain ⟨hesc, hshown⟩ := ih fun d hd => h d (List.mem_cons_of_mem b hd)
    obtain ⟨hb, hb'⟩ := escapeByte_high (h b List.mem_cons_self)
    refine ⟨?_, ?_⟩
    · rw [xmlPrintEscaped, List.flatMap_cons, hb]
      exact congrArg _ hesc
    · rw [shown, List.flatMap_cons, hb']
      exact congrArg _ hshown

/-- A printable string is escaped to the text of an attribute or of an element. -/
lemma Printable.attText (h : Printable s) :
    AttText '"' (xmlPrintEscaped s) (shown s) ∧ 62 ∉ xmlPrintEscaped s := by
  obtain ⟨cs, hcs, rfl⟩ := h
  induction cs with
  | nil => exact ⟨.nil, List.not_mem_nil⟩
  | cons c cs ih =>
    obtain ⟨htext, hgt⟩ := ih fun d hd => hcs d (List.mem_cons_of_mem c hd)
    have hc := hcs c List.mem_cons_self
    have hchar : AttText '"' (xmlPrintEscaped (String.utf8EncodeChar c))
        (shown (String.utf8EncodeChar c)) ∧ 62 ∉ xmlPrintEscaped (String.utf8EncodeChar c) := by
      by_cases hascii : c.toNat < 0x80
      · have hbyte : (UInt8.ofNat c.toNat).toNat < 0x80 := by
          rw [UInt8.toNat_ofNat', Nat.mod_eq_of_lt (by omega)]
          exact hascii
        obtain ⟨hesc, hgt, -⟩ := attText_escapeByte hbyte
        rw [encode_ascii hascii, xmlPrintEscaped, shown, List.flatMap_singleton,
          List.flatMap_singleton]
        exact ⟨hesc, hgt⟩
      · -- a longer sequence is written as it is
        have hhigh : ∀ b ∈ String.utf8EncodeChar c, 0x80 ≤ b.toNat := fun b =>
          le_of_mem_encode (not_lt.mp hascii)
        obtain ⟨hesc, hshown⟩ := escape_high hhigh
        have hgt : 62 ∉ String.utf8EncodeChar c := fun hmem => absurd (hhigh 62 hmem) (by decide)
        have hne : ∀ d : Char, d.toNat < 0x80 → c ≠ d := by
          rintro d hd rfl
          exact hascii hd
        have htext := @AttText.char '"' c [] [] (.inr (.inr (.inr ⟨by omega, hc⟩)))
          (hne '<' (by decide)) (hne '&' (by decide)) (hne '"' (by decide)) .nil
        have hspace : c.toNat ∉ [9, 10, 13] := by
          simp only [List.mem_cons, List.not_mem_nil, or_false]
          omega
        rw [if_neg hspace, List.append_nil] at htext
        rw [hesc, hshown]
        exact ⟨htext, hgt⟩
    rw [List.flatMap_cons, xmlPrintEscaped, List.flatMap_append, shown, List.flatMap_append]
    exact ⟨hchar.1.append htext, fun h => (List.mem_append.mp h).elim hchar.2 hgt⟩

lemma escape_cons (b : UInt8) (s : Bytes) :
    xmlPrintEscaped (b :: s) = xmlEscapeByte b ++ xmlPrintEscaped s := List.flatMap_cons

/-- Bytes of longer sequences come from themselves. -/
lemma eq_of_escape_high {bs t : Bytes} (hbs : ∀ b ∈ bs, 0x80 ≤ b.toNat)
    (h : xmlPrintEscaped s = bs ++ t) : ∃ s', s = bs ++ s' ∧ xmlPrintEscaped s' = t := by
  induction bs generalizing s with
  | nil => exact ⟨s, rfl, h⟩
  | cons b bs ih =>
    have hb := hbs b List.mem_cons_self
    cases s with
    | nil => cases h
    | cons d s =>
      rw [escape_cons] at h
      by_cases hd : d.toNat < 0x80
      · obtain ⟨-, -, hne, hascii⟩ := attText_escapeByte hd
        obtain ⟨e, es, hes⟩ := List.exists_cons_of_ne_nil hne
        rw [hes] at h hascii
        obtain ⟨rfl, -⟩ := List.cons.inj h
        have := (hascii e List.mem_cons_self).1
        omega
      · rw [(escapeByte_high (not_lt.mp hd)).1] at h
        obtain ⟨rfl, hrest⟩ := List.cons.inj h
        obtain ⟨s', hs', ht⟩ := ih (fun c hc => hbs c (List.mem_cons_of_mem d hc)) hrest
        exact ⟨s', by rw [hs', List.cons_append], ht⟩

/-- What is escaped to a text of legal characters is printable. -/
lemma printable_of_chars (h : Chars IsChar (xmlPrintEscaped s)) : Printable s := by
  induction hlen : s.length using Nat.strong_induction_on generalizing s with
  | _ n ih =>
    cases s with
    | nil => exact Chars.nil
    | cons b s =>
      by_cases hb : b.toNat < 0x80
      · obtain ⟨-, -, hne, hascii⟩ := attText_escapeByte hb
        rw [escape_cons] at h
        have hrest :=
          (@Chars.chunk (xmlEscapeByte b) IsChar [] (xmlPrintEscaped s) hne hascii h).2.2
        have hs := ih s.length (by rw [← hlen]; exact Nat.lt_succ_self _) hrest rfl
        refine (Chars.byte hb ?_ : Printable [b]).append hs
        rw [toNat_charOfByte hb]
        omega
      · have hhigh := not_lt.mp hb
        rw [escape_cons, (escapeByte_high hhigh).1, List.singleton_append] at h
        obtain ⟨c, t, hc, heq, ht⟩ := h.cons_inv
        have hlong : 0x80 ≤ c.toNat := by
          by_contra hascii
          rw [encode_ascii (not_le.mp hascii)] at heq
          obtain ⟨rfl, -⟩ := List.cons.inj heq
          rw [UInt8.toNat_ofNat', Nat.mod_eq_of_lt (by omega)] at hhigh
          omega
        cases hcode : String.utf8EncodeChar c with
        | nil => exact absurd hcode String.utf8EncodeChar_ne_nil
        | cons d bs =>
          rw [hcode] at heq
          obtain ⟨rfl, hrest⟩ := List.cons.inj heq
          have hbs : ∀ d ∈ bs, 0x80 ≤ d.toNat := fun d hd =>
            le_of_mem_encode hlong (hcode ▸ List.mem_cons_of_mem b hd)
          obtain ⟨s', rfl, rfl⟩ := eq_of_escape_high hbs hrest
          have hshort : s'.length < n := by
            rw [← hlen, List.length_cons, List.length_append]
            omega
          have hchar : c.toNat ≠ 0xFFFE ∧ c.toNat ≠ 0xFFFF := by
            obtain h | h | h | h := hc <;> omega
          have hwhole : b :: (bs ++ s') = String.utf8EncodeChar c ++ s' := by
            rw [hcode]
            rfl
          rw [hwhole]
          exact (Chars.single hchar).append (ih _ hshort ht rfl)

end Escapes

section Fences

variable {ps : List Piece} {τ : Type} {sec : Seconds τ}

lemma Fenced.return_notMem (hp : Fenced ps) : 13 ∉ piecesText ps := by
  induction hp with
  | nil => exact List.not_mem_nil
  | lit hs _ ih =>
    intro hmem
    exact (List.mem_append.mp hmem).elim (fun h => (hs 13 h).2 rfl) ih
  | esc _ _ ih =>
    intro hmem
    exact (List.mem_append.mp hmem).elim (return_notMem_escape _) ih

lemma ascii_fixed (t : τ) : Ascii (sec.fixed t) := fun b hb => by
  obtain ⟨hge, hlt, -⟩ := sec.plain t b hb
  refine ⟨UInt8.lt_iff_toNat_lt.mp hlt, ?_⟩
  rintro rfl
  exact absurd hge (by decide)

lemma ascii_countTexts (n : ℕ) (t : Tally τ) : Ascii (countTexts sec n t) := by
  have hlit : ∀ s : String, Ascii (ascii s) → Ascii (ascii s) := fun _ h => h
  rw [countTexts]
  exact ((((((((((hlit "tests=\"" (by decide)).append (ascii_decimal _)).append
    (by decide)).append (ascii_decimal _)).append (by decide)).append (ascii_decimal _)).append
    (by decide)).append (ascii_decimal _)).append (by decide)).append (ascii_fixed _)).append
    (by decide)

lemma fenced_recordPieces (r : TestResult) (hps : Fenced ps) (hleads : Leads ps) :
    Fenced (recordPieces r ++ ps) ∧ Leads (recordPieces r ++ ps) := by
  rw [recordPieces]
  split
  · split
    · have hstep : Fenced (.lit (ascii "&#10;step: " ++ decimalInt r.recStep) :: ps) :=
        .lit (Ascii.append (by decide) (ascii_decimalInt _)) hps
      exact ⟨.lit (by decide) (.esc (List.cons_ne_nil _ _) hstep), List.cons_ne_nil _ _⟩
    · exact ⟨.lit (by decide) (.esc hleads hps), List.cons_ne_nil _ _⟩
  · exact ⟨hps, hleads⟩

lemma fenced_failPieces (r : TestResult) : Fenced (failPieces r) := by
  have htag : Ascii (if resultIsError r then ascii "error" else ascii "failure") := by
    split <;> decide
  rw [failPieces]
  generalize (if resultIsError r then ascii "error" else ascii "failure") = tag at *
  have hopen : Ascii (ascii "\n      <" ++ tag ++ ascii " message=\"") :=
    (Ascii.append (by decide) htag).append (by decide)
  have hline : Ascii (ascii ":" ++ decimalInt r.line ++ ascii "&#10;") :=
    (Ascii.append (by decide) (ascii_decimalInt _)).append (by decide)
  have hclose : Fenced [.lit (ascii "</" ++ tag ++ ascii ">\n    ")] :=
    .lit ((Ascii.append (by decide) htag).append (by decide)) .nil
  obtain ⟨hrecord, hleads⟩ := fenced_recordPieces r hclose (List.cons_ne_nil _ _)
  rw [List.append_assoc]
  exact .lit hopen (.esc (List.cons_ne_nil _ _) (.lit (by decide) (.esc (List.cons_ne_nil _ _)
    (.lit hline (.esc hleads hrecord)))))

lemma fenced_casePieces (suite : CStr) (r : Timed τ) : Fenced (casePieces sec suite r) := by
  have htime : Ascii (ascii "\" time=\"" ++ sec.fixed r.secs ++ ascii "\">") :=
    (Ascii.append (by decide) (ascii_fixed _)).append (by decide)
  have hclose : Fenced [.lit (ascii "</testcase>\n")] := .lit (by decide) .nil
  refine Fenced.append (Fenced.append ?_ ?_) hclose
  · exact .lit (by decide) (.esc (List.cons_ne_nil _ _) (.lit (by decide)
      (.esc (List.cons_ne_nil _ _) (.lit htime .nil))))
  · rw [outcomePieces]
    cases r.outcome with
    | pass => exact .nil
    | skip => exact .lit (by decide) (.esc (List.cons_ne_nil _ _) (.lit (by decide) .nil))
    | fail => exact fenced_failPieces r.toTestResult

lemma fenced_suitePieces (g : CStr × List (Timed τ)) (sysout : Option CStr) :
    Fenced (suitePieces sec g.1 g.2 sysout) := by
  have hcounts : Ascii (ascii "\" " ++ countTexts sec g.2.length (tally sec g.2)) :=
    Ascii.append (by decide) (ascii_countTexts _ _)
  have hclose : Fenced [.lit (ascii "  </testsuite>\n")] := .lit (by decide) .nil
  refine Fenced.append (Fenced.append (Fenced.append ?_ ?_) ?_) hclose
  · exact .lit (by decide) (.esc (List.cons_ne_nil _ _) (.lit hcounts .nil))
  · exact fenced_flatMap fun r _ => fenced_casePieces g.1 r
  · cases sysout with
    | none => exact .nil
    | some s =>
      rw [sysoutPieces]
      split
      · exact .lit (by decide) (.esc (List.cons_ne_nil _ _) (.lit (by decide) .nil))
      · exact .nil

lemma fenced_suitesPieces (sysout : Option CStr) (suites : List (CStr × List (Timed τ))) :
    Fenced (suitesPieces sec sysout suites) := by
  induction suites generalizing sysout with
  | nil => exact .nil
  | cons g gs ih => exact (fenced_suitePieces g sysout).append (ih none)

lemma fenced_headPieces (results : List (Timed τ)) : Fenced (headPieces sec results) := by
  have hcounts : Ascii (ascii "<testsuites " ++
      countTexts sec results.length (tally sec results)) :=
    Ascii.append (by decide) (ascii_countTexts _ _)
  exact .lit (by decide) (.lit hcounts .nil)

end Fences

end AsmTest.Report
