import AsmTest.JunitEscape

/-!
# The JUnit report is a document

The pieces of a report make elements in white space: the outcome in a test case, the cases in a
suite, the suites in the root.
-/

namespace AsmTest.Report

open Lib Xml

section Tree

variable {τ : Type} {sec : Seconds τ} {s t : Bytes}

/-- Text that may stand in an element -/
def IsText (s : Bytes) : Prop := (∃ v, AttText '"' s v) ∧ 62 ∉ s

lemma IsText.append (hs : IsText s) (ht : IsText t) : IsText (s ++ t) := by
  obtain ⟨⟨v, hv⟩, hgt⟩ := hs
  obtain ⟨⟨w, hw⟩, hgt'⟩ := ht
  exact ⟨⟨v ++ w, hv.append hw⟩, fun h => (List.mem_append.mp h).elim hgt hgt'⟩

/-- Characters that need no escape -/
def Bare (s : Bytes) : Prop := ∀ b ∈ s, Plain b ∧ b ≠ 34 ∧ b ≠ 38 ∧ b ≠ 60 ∧ b ≠ 62

instance : DecidablePred Bare := fun s => List.decidableBAll _ s

lemma isText_plain (h : Bare s) : IsText s := by
  refine ⟨⟨_, attText_plain fun b hb => ?_⟩, fun hgt => (h 62 hgt).2.2.2.2 rfl⟩
  obtain ⟨hplain, hquote, hamp, hlt, -⟩ := h b hb
  refine ⟨hplain, ?_⟩
  simp [hquote, hamp, hlt]

lemma Printable.isText (h : Printable s) : IsText (xmlPrintEscaped s) := by
  obtain ⟨htext, hgt⟩ := h.attText
  exact ⟨⟨_, htext⟩, hgt⟩

lemma isText_newline : IsText (ascii "&#10;") :=
  ⟨⟨_, AttText.single (@Ref.decimal (ascii "10") '\n' (by decide) (by decide) (.inr (.inl rfl))
    (by decide))⟩, by decide⟩

lemma plain_decimal {n : ℕ} {b : UInt8} (h : b ∈ decimal n) :
    32 ≤ b ∧ b < 128 ∧ b ∉ ([34, 38, 60, 62] : Bytes) := by
  have hdigit := isDigit_of_mem_decimal h
  have hmarks : ([34, 38, 60, 62] : Bytes).all (fun b => !isDigit b) = true := by decide
  have hmark : b ∉ ([34, 38, 60, 62] : Bytes) := fun hmem => by
    have hother := List.all_eq_true.mp hmarks b hmem
    rw [hdigit] at hother
    cases hother
  rw [isDigit, Bool.and_eq_true, decide_eq_true_iff, decide_eq_true_iff] at hdigit
  exact ⟨le_trans (by decide) hdigit.1, lt_of_le_of_lt hdigit.2 (by decide), hmark⟩

lemma attText_decimal (n : ℕ) : AttText '"' (decimal n) (decimal n) :=
  attText_self fun b hb => by
    obtain ⟨hge, hlt, hmark⟩ := plain_decimal hb
    exact ⟨hge, hlt, fun h => hmark (List.mem_of_mem_dropLast h)⟩

lemma isText_decimalInt (n : ℤ) : IsText (decimalInt n) := by
  have hdecimal : ∀ n, IsText (decimal n) := fun n => isText_plain fun b hb => by
    obtain ⟨hge, hlt, hmark⟩ := plain_decimal hb
    exact ⟨.inr ⟨hge, hlt⟩, by simpa using hmark⟩
  cases n with
  | ofNat n => exact hdecimal n
  | negSucc n => exact @IsText.append [45] _ (isText_plain (by decide)) (hdecimal _)

lemma attrs_counts (sec : Seconds τ) (n : ℕ) (t : Tally τ) :
    ∃ a, Attrs a (countAttrs sec n t) ∧ ascii " " ++ countTexts sec n t = a ++ ascii ">\n" := by
  have hname : Name (ascii "tests") ∧ Name (ascii "failures") ∧ Name (ascii "errors") ∧
      Name (ascii "skipped") ∧ Name (ascii "time") :=
    ⟨name_letters (by decide) (by decide), name_letters (by decide) (by decide),
      name_letters (by decide) (by decide), name_letters (by decide) (by decide),
      name_letters (by decide) (by decide)⟩
  obtain ⟨htests, hfailures, herrors, hskipped, htime⟩ := hname
  refine ⟨_, .attr htests (attText_decimal _) (.attr hfailures (attText_decimal _)
    (.attr herrors (attText_decimal _) (.attr hskipped (attText_decimal _)
      (.attr htime (attText_self (sec.plain _)) .nil)))), ?_⟩
  simp only [countTexts, List.append_assoc]
  rfl

lemma piecesText_append (ps qs : List Piece) :
    piecesText (ps ++ qs) = piecesText ps ++ piecesText qs := List.flatMap_append

lemma piecesText_cons (p : Piece) (ps : List Piece) :
    piecesText (p :: ps) = p.text ++ piecesText ps := rfl

lemma piecesText_nil : piecesText [] = [] := rfl

lemma isText_pieces {ps : List Piece} (h : ∀ p ∈ ps, IsText p.text) : IsText (piecesText ps) := by
  induction ps with
  | nil => exact isText_plain nofun
  | cons p ps ih =>
    exact (h p List.mem_cons_self).append (ih fun q hq => h q (List.mem_cons_of_mem p hq))

lemma isText_record {r : TestResult} (h : Printable r.recPath.bytes) :
    IsText (piecesText (recordPieces r)) := by
  have hrecording : IsText (ascii "&#10;recording: ") :=
    isText_newline.append (isText_plain (by decide : Bare (ascii "recording: ")))
  have hstep : IsText (ascii "&#10;step: " ++ decimalInt r.recStep) :=
    (isText_newline.append (isText_plain (by decide : Bare (ascii "step: ")))).append
      (isText_decimalInt r.recStep)
  refine isText_pieces fun p hp => ?_
  rw [recordPieces] at hp
  split_ifs at hp
  · simp only [List.cons_append, List.nil_append, List.mem_cons, List.not_mem_nil, or_false] at hp
    obtain rfl | rfl | rfl := hp
    · exact hrecording
    · exact h.isText
    · exact hstep
  · simp only [List.append_nil, List.mem_cons, List.not_mem_nil, or_false] at hp
    obtain rfl | rfl := hp
    · exact hrecording
    · exact h.isText
  · cases hp

/-- An element in a text of pieces, between white space -/
def Framed (pre post : Bytes) (ps : List Piece) (n : Node) : Prop :=
  ∃ x, piecesText ps = pre ++ x ++ post ∧ Element x n

lemma Framed.content {pre post : Bytes} {ps : List Piece} {n : Node} {ns : List Node}
    (h : Framed pre post ps n) (hpre : Space pre) (hpost : Space post) (hs : Content s ns) :
    Content (piecesText ps ++ s) (n :: ns) := by
  obtain ⟨x, htext, hx⟩ := h
  rw [htext, List.append_assoc, List.append_assoc]
  exact Content.space hpre (.element hx (Content.space hpost hs))

/-- The attribute of a message -/
lemma attrs_message (h : Printable s) :
    Attrs (ascii " " ++ ascii "message" ++ ascii "=\"" ++ xmlPrintEscaped s ++ ascii "\"" ++ [])
      [(ascii "message", shown s)] :=
  Attrs.attr (name_letters (by decide) (by decide)) h.attText.1 .nil

lemma framed_fail {r : TestResult} (hmsg : Printable r.msg.bytes) (hfile : Printable r.file.bytes)
    (hpath : Printable r.recPath.bytes) :
    Framed (ascii "\n      ") (ascii "\n    ") (failPieces r)
      (.elem (if resultIsError r then ascii "error" else ascii "failure")
        [(ascii "message", shown r.msg.bytes)] []) := by
  have htag : Name (if resultIsError r then ascii "error" else ascii "failure") := by
    split
    · exact name_letters (by decide) (by decide)
    · exact name_letters (by decide) (by decide)
  rw [failPieces]
  generalize (if resultIsError r then ascii "error" else ascii "failure") = tag at *
  have hat : IsText (ascii "at ") := isText_plain (by decide)
  have hline : IsText (ascii ":" ++ decimalInt r.line ++ ascii "&#10;") :=
    ((isText_plain (by decide)).append (isText_decimalInt r.line)).append isText_newline
  obtain ⟨⟨v, hbody⟩, hgt⟩ := (((hat.append hfile.isText).append hline).append hmsg.isText).append
    (isText_record hpath)
  refine ⟨_, ?_, Element.between htag (attrs_message hmsg) (List.nodup_singleton _)
    (hbody.content hgt)⟩
  simp only [piecesText_append, piecesText_cons, piecesText_nil, Piece.text, List.append_assoc,
    List.append_nil]
  rfl

lemma content_outcome {r : TestResult} (h : ∀ s ∈ outcomeTexts r, Printable s) :
    Content (piecesText (outcomePieces r)) (outcomeNodes r) := by
  rw [outcomeTexts] at h
  rw [outcomePieces, outcomeNodes]
  cases hout : r.outcome with
  | pass => exact .nil
  | fail =>
    rw [hout] at h
    have hframed := framed_fail (h _ (.head _)) (h _ (.tail _ (.head _)))
      (h _ (.tail _ (.tail _ (.head _))))
    have hcontent := hframed.content (by decide) (by decide) .nil
    rwa [List.append_nil] at hcontent
  | skip =>
    rw [hout] at h
    have hframed : Framed (ascii "\n      ") (ascii "\n    ")
        [.lit (ascii "\n      <skipped message=\""), .esc r.msg.bytes, .lit (ascii "\"/>\n    ")]
        (.elem (ascii "skipped") [(ascii "message", shown r.msg.bytes)] []) := by
      refine ⟨_, ?_, Element.alone (name_letters (by decide) (by decide))
        (attrs_message (h _ (.head _))) (List.nodup_singleton _)⟩
      simp only [piecesText_cons, piecesText_nil, Piece.text, List.append_assoc, List.append_nil]
      rfl
    have hcontent := hframed.content (by decide) (by decide) .nil
    rwa [List.append_nil] at hcontent

lemma framed_case (sec : Seconds τ) {suite : CStr} {r : Timed τ} (hsuite : Printable suite.bytes)
    (hname : Printable r.name.bytes) (h : ∀ s ∈ outcomeTexts r.toTestResult, Printable s) :
    Framed (ascii "    ") (ascii "\n") (casePieces sec suite r) (caseNode sec suite r) := by
  have hattrs := Attrs.attr (name_letters (by decide) (by decide) : Name (ascii "classname"))
    hsuite.attText.1 (.attr (name_letters (by decide) (by decide) : Name (ascii "name"))
      hname.attText.1 (.attr (name_letters (by decide) (by decide) : Name (ascii "time"))
        (attText_self (sec.plain r.secs)) .nil))
  have hnodup : [ascii "classname", ascii "name", ascii "time"].Nodup := by decide
  refine ⟨_, ?_, Element.between (name_letters (by decide) (by decide) : Name (ascii "testcase"))
    hattrs hnodup (content_outcome h)⟩
  simp only [casePieces, piecesText_append, piecesText_cons, piecesText_nil, Piece.text,
    List.append_assoc, List.append_nil]
  rfl

lemma content_cases {suite : CStr} {rs : List (Timed τ)} {ns : List Node}
    (h : ∀ r ∈ rs, Framed (ascii "    ") (ascii "\n") (casePieces sec suite r)
      (caseNode sec suite r)) (hs : Content s ns) :
    Content (piecesText (rs.flatMap (casePieces sec suite)) ++ s)
      (rs.map (caseNode sec suite) ++ ns) := by
  induction rs with
  | nil => exact hs
  | cons r rs ih =>
    rw [List.flatMap_cons, piecesText_append, List.append_assoc]
    exact (h r List.mem_cons_self).content (by decide) (by decide)
      (ih fun q hq => h q (List.mem_cons_of_mem r hq))

lemma content_sysout {sysout : Option CStr} {ns : List Node}
    (h : ∀ o ∈ sysout, Printable o.bytes) (hs : Content s ns) :
    Content (piecesText (sysoutPieces sysout) ++ s) (sysoutNodes sysout ++ ns) := by
  cases sysout with
  | none => exact hs
  | some o =>
    rw [sysoutPieces, sysoutNodes]
    split
    · obtain ⟨⟨v, htext⟩, hgt⟩ := (h o rfl).isText
      have hframed : Framed (ascii "    ") (ascii "\n")
          [.lit (ascii "    <system-out>"), .esc o.bytes, .lit (ascii "</system-out>\n")]
          (.elem (ascii "system-out") [] []) := by
        refine ⟨_, ?_, Element.between (name_letters (by decide) (by decide)) .nil List.nodup_nil
          (htext.content hgt)⟩
        simp only [piecesText_cons, piecesText_nil, Piece.text, List.append_assoc, List.append_nil]
        rfl
      exact hframed.content (by decide) (by decide) hs
    · exact hs

lemma framed_suite {g : CStr × List (Timed τ)} {sysout : Option CStr}
    (hsuite : Printable g.1.bytes) (hsysout : ∀ o ∈ sysout, Printable o.bytes)
    (h : ∀ r ∈ g.2, Framed (ascii "    ") (ascii "\n") (casePieces sec g.1 r)
      (caseNode sec g.1 r)) :
    Framed (ascii "  ") (ascii "\n") (suitePieces sec g.1 g.2 sysout) (suiteNode sec g sysout) := by
  obtain ⟨a, hcounts, htext⟩ := attrs_counts sec g.2.length (tally sec g.2)
  have hattrs := Attrs.attr (name_letters (by decide) (by decide) : Name (ascii "name"))
    hsuite.attText.1 hcounts
  have hnodup : [ascii "name", ascii "tests", ascii "failures", ascii "errors", ascii "skipped",
      ascii "time"].Nodup := by decide
  have hend : Content (ascii "  ") [] := Content.space (by decide : Space (ascii "  ")) .nil
  have hcontent := Content.space (by decide : Space (ascii "\n"))
    (content_cases h (content_sysout hsysout hend))
  rw [List.append_nil] at hcontent
  refine ⟨_, ?_, Element.between (name_letters (by decide) (by decide) : Name (ascii "testsuite"))
    hattrs hnodup hcontent⟩
  have hsplit : ascii "\" " ++ countTexts sec g.2.length (tally sec g.2) =
      ascii "\"" ++ (a ++ ascii ">\n") := by
    rw [← htext]
    rfl
  simp only [suitePieces, piecesText_append, piecesText_cons, piecesText_nil, Piece.text, hsplit,
    List.append_assoc, List.append_nil]
  rfl

/-- What must be printable in a suite -/
def SuitePrintable (g : CStr × List (Timed τ)) : Prop :=
  Printable g.1.bytes ∧
    ∀ r ∈ g.2, Printable r.name.bytes ∧ ∀ s ∈ outcomeTexts r.toTestResult, Printable s

lemma content_suites (sec : Seconds τ) {suites : List (CStr × List (Timed τ))}
    {sysout : Option CStr} (h : ∀ g ∈ suites, SuitePrintable g)
    (hsysout : suites ≠ [] → ∀ o ∈ sysout, Printable o.bytes) :
    Content (piecesText (suitesPieces sec sysout suites)) (suiteNodes sec sysout suites) := by
  induction suites generalizing sysout with
  | nil => exact .nil
  | cons g gs ih =>
    obtain ⟨hsuite, hcases⟩ := h g List.mem_cons_self
    have hframed := framed_suite hsuite (hsysout (List.cons_ne_nil _ _)) fun r hr =>
      framed_case sec hsuite (hcases r hr).1 (hcases r hr).2
    rw [suitesPieces, piecesText_append]
    exact hframed.content (by decide) (by decide)
      (ih (fun g' hg' => h g' (List.mem_cons_of_mem g hg')) fun _ _ hnone => by cases hnone)

lemma xmlDecl_report : XmlDecl (ascii "<?xml version=\"1.0\" encoding=\"UTF-8\"?>") := by
  refine ⟨ascii " version=\"1.0\"", ascii " encoding=\"UTF-8\"", [], [], ?_, .inr ?_, .inl rfl,
    (by decide), rfl⟩
  · exact ⟨ascii " ", [], [], ascii "1.0", 34, .head _, by decide, by decide, by decide, by decide,
      rfl, rfl⟩
  · exact ⟨ascii " ", [], [], ascii "UTF-8", 34, .head _, by decide, by decide, by decide,
      by decide, by decide, rfl⟩

lemma framed_root (sec : Seconds τ) (results : List (Timed τ)) {ps : List Piece} {ns : List Node}
    (h : Content (piecesText ps) ns) :
    Framed [] (ascii "\n")
      (Piece.lit (ascii "<testsuites " ++
        countTexts sec results.length (tally sec results)) :: ps ++
          [Piece.lit (ascii "</testsuites>\n")])
      (.elem (ascii "testsuites") (countAttrs sec results.length (tally sec results)) ns) := by
  obtain ⟨a, hcounts, htext⟩ := attrs_counts sec results.length (tally sec results)
  have hnodup : [ascii "tests", ascii "failures", ascii "errors", ascii "skipped",
      ascii "time"].Nodup := by decide
  have hcontent := Content.space (by decide : Space (ascii "\n")) h
  refine ⟨_, ?_, Element.between (name_letters (by decide) (by decide) : Name (ascii "testsuites"))
    hcounts hnodup hcontent⟩
  have hsplit : ascii "<testsuites " ++ countTexts sec results.length (tally sec results) =
      ascii "<testsuites" ++ (a ++ ascii ">\n") := by
    rw [← htext]
    rfl
  simp only [List.cons_append, piecesText_append, piecesText_cons, piecesText_nil, Piece.text,
    hsplit, List.append_assoc, List.append_nil]
  rfl

lemma document_report {results : List (Timed τ)} {sysout : Option CStr}
    {suites : List (CStr × List (Timed τ))} (h : ∀ g ∈ suites, SuitePrintable g)
    (hsysout : suites ≠ [] → ∀ o ∈ sysout, Printable o.bytes) :
    Document (piecesText (headPieces sec results ++ suitesPieces sec sysout suites ++
      [Piece.lit (ascii "</testsuites>\n")])) (reportNode sec results sysout suites) := by
  obtain ⟨x, htext, hx⟩ := framed_root sec results (content_suites sec h hsysout)
  have hbreak : Misc (ascii "\n") := by
    have := Misc.space (by decide : Space (ascii "\n")) .nil
    rwa [List.append_nil] at this
  refine ⟨_, _, _, _, .inr xmlDecl_report, hbreak, hx, hbreak, ?_⟩
  have hdecl : ascii "<?xml version=\"1.0\" encoding=\"UTF-8\"?>\n" =
      ascii "<?xml version=\"1.0\" encoding=\"UTF-8\"?>" ++ ascii "\n" := rfl
  have hrest : piecesText (headPieces sec results ++ suitesPieces sec sysout suites ++
      [Piece.lit (ascii "</testsuites>\n")]) =
        ascii "<?xml version=\"1.0\" encoding=\"UTF-8\"?>\n" ++ ([] ++ x ++ ascii "\n") := by
    rw [← htext]
    rfl
  rw [hrest, hdecl]
  simp only [List.nil_append, List.append_assoc]

end Tree

section Report

variable {τ : Type} {sec : Seconds τ} {results : List (Timed τ)} {sysout : Option CStr}
  {suites : List (CStr × List (Timed τ))} {s : Bytes}

lemma exists_report (sec : Seconds τ) (results : List (Timed τ)) (sysout : Option CStr) :
    ∃ suites, Grouped results suites ∧ renderJunit sec results sysout =
      headPieces sec results ++ suitesPieces sec sysout suites ++
        [Piece.lit (ascii "</testsuites>\n")] := by
  have htogether : Together (results.map fun r => (r, false)) := by
    intro q hq q' hq' _
    obtain ⟨r, -, rfl⟩ := List.mem_map.mp hq
    obtain ⟨r', -, rfl⟩ := List.mem_map.mp hq'
    rfl
  have hpending : pending (results.map fun r => (r, false)) = results := by
    rw [pending, List.filterMap_map]
    exact List.filterMap_some
  obtain ⟨suites, hgrouped, heq⟩ := exists_suites sec _ htogether sysout true
  rw [hpending] at hgrouped
  refine ⟨suites, hgrouped, ?_⟩
  rw [renderJunit, heq]
  rfl

lemma mem_outcomePieces {r : TestResult} (h : s ∈ outcomeTexts r) :
    s = [] ∨ .esc s ∈ outcomePieces r := by
  rw [outcomeTexts] at h
  rw [outcomePieces]
  cases hout : r.outcome with
  | pass =>
    rw [hout] at h
    cases h
  | skip =>
    rw [hout] at h
    obtain rfl := List.mem_singleton.mp h
    exact .inr (.tail _ (.head _))
  | fail =>
    rw [hout] at h
    simp only [List.mem_cons, List.not_mem_nil, or_false] at h
    dsimp only
    rw [failPieces, List.append_assoc]
    obtain rfl | rfl | rfl := h
    · exact .inr (.tail _ (.head _))
    · exact .inr (.tail _ (.tail _ (.tail _ (.head _))))
    · by_cases hpath : r.recPath.bytes = []
      · exact .inl hpath
      · refine .inr (List.mem_append_right _ (List.mem_append_left _ ?_))
        rw [recordPieces, if_pos hpath]
        exact .tail _ (.head _)

lemma mem_casePieces (sec : Seconds τ) {suite : CStr} {r : Timed τ} (hsuite : r.suite = suite)
    (h : s ∈ r.suite.bytes :: r.name.bytes :: outcomeTexts r.toTestResult) :
    s = [] ∨ .esc s ∈ casePieces sec suite r := by
  rw [casePieces, List.append_assoc]
  obtain rfl | h := List.mem_cons.mp h
  · rw [hsuite]
    exact .inr (.tail _ (.head _))
  obtain rfl | h := List.mem_cons.mp h
  · exact .inr (.tail _ (.tail _ (.tail _ (.head _))))
  · exact (mem_outcomePieces h).imp_right fun h =>
      List.mem_append_right _ (List.mem_append_left _ h)

lemma suitePieces_subset (sec : Seconds τ) {g : CStr × List (Timed τ)} (hg : g ∈ suites)
    (sysout : Option CStr) :
    ∃ o, suitePieces sec g.1 g.2 o ⊆ suitesPieces sec sysout suites := by
  induction suites generalizing sysout with
  | nil => cases hg
  | cons g' gs ih =>
    obtain rfl | hg := List.mem_cons.mp hg
    · exact ⟨sysout, List.subset_append_left _ _⟩
    · obtain ⟨o, hsub⟩ := ih hg none
      exact ⟨o, fun p hp => List.mem_append_right _ (hsub hp)⟩

lemma mem_suitesPieces (sec : Seconds τ) (hgrouped : Grouped results suites)
    (h : s ∈ printedTexts results sysout) :
    s = [] ∨ .esc s ∈ suitesPieces sec sysout suites := by
  obtain h | h := List.mem_append.mp h
  · obtain ⟨r, hr, h⟩ := List.mem_flatMap.mp h
    obtain ⟨g, hg, hmem⟩ := List.mem_flatMap.mp (hgrouped.once.symm.subset hr)
    obtain ⟨o, hsub⟩ := suitePieces_subset sec hg sysout
    refine (mem_casePieces sec ((hgrouped.own g hg).2 r hmem) h).imp_right fun h => hsub ?_
    rw [suitePieces, List.append_assoc, List.append_assoc]
    exact List.mem_append_right _ (List.mem_append_left _ (List.mem_flatMap.mpr ⟨r, hmem, h⟩))
  · split_ifs at h with hne
    · obtain ⟨o, ho, rfl⟩ := List.mem_map.mp h
      obtain rfl := Option.mem_toList.mp ho
      cases suites with
      | nil => exact absurd hgrouped.once.symm.eq_nil hne
      | cons g gs =>
        by_cases hempty : o.bytes = []
        · exact .inl hempty
        · refine .inr (List.mem_append_left _ ?_)
          rw [suitePieces, List.append_assoc, sysoutPieces, if_pos hempty]
          exact List.mem_append_right _ (.tail _ (.head _))
    · cases h

lemma WellFormed.chars {root : Node} (h : WellFormed s root) (hs : 13 ∉ s) : Chars IsChar s := by
  have hdocument := Document.chars h
  rwa [eol_eq hs] at hdocument

/-- What the report escapes is fenced by what it prints. -/
lemma fenced_report (sec : Seconds τ) (results : List (Timed τ)) (sysout : Option CStr)
    (suites : List (CStr × List (Timed τ))) :
    Fenced (headPieces sec results ++ suitesPieces sec sysout suites ++
      [Piece.lit (ascii "</testsuites>\n")]) :=
  ((fenced_headPieces results).append (fenced_suitesPieces sysout suites)).append
    (.lit (by decide) .nil)

/-- The strings in a report that reads as a document are printable. -/
lemma printable_of_wellFormed {root : Node} (h : WellFormed (junitReport sec results sysout) root) :
    ∀ s ∈ printedTexts results sysout, Printable s := by
  intro s hs
  obtain ⟨suites, hgrouped, heq⟩ := exists_report sec results sysout
  rw [junitReport, heq] at h
  have hfenced := fenced_report sec results sysout suites
  have hchars := hfenced.chars (WellFormed.chars h hfenced.return_notMem)
  obtain rfl | hmem := mem_suitesPieces sec hgrouped hs
  · exact Chars.nil
  · exact printable_of_chars
      (hchars s (List.mem_append_left _ (List.mem_append_right _ hmem)))

/-- The report is a document with every result once, in its own suite, and with counts that add up,
exactly if the strings in it are printable. -/
theorem junit_report_iff (sec : Seconds τ) (results : List (Timed τ)) (sysout : Option CStr) :
    (∃ suites, InSuites sec results suites ∧
        WellFormed (junitReport sec results sysout) (reportNode sec results sysout suites)) ↔
      ∀ s ∈ printedTexts results sysout, Printable s := by
  refine ⟨fun ⟨_, _, hwf⟩ => printable_of_wellFormed hwf, fun h => ?_⟩
  obtain ⟨suites, hgrouped, heq⟩ := exists_report sec results sysout
  have hresult : ∀ r ∈ results,
      ∀ s ∈ r.suite.bytes :: r.name.bytes :: outcomeTexts r.toTestResult, Printable s :=
    fun r hr s hs => h s (List.mem_append_left _ (List.mem_flatMap.mpr ⟨r, hr, hs⟩))
  have hsuites : ∀ g ∈ suites, SuitePrintable g := by
    intro g hg
    obtain ⟨r, hr, hsuite⟩ := hgrouped.exists_mem hg
    refine ⟨hsuite ▸ hresult r hr _ (.head _), fun r hr => ?_⟩
    have hmem := hgrouped.once.subset (List.mem_flatMap.mpr ⟨g, hg, hr⟩)
    exact ⟨hresult r hmem _ (.tail _ (.head _)), fun s hs =>
      hresult r hmem s (.tail _ (.tail _ hs))⟩
  have hsysout : suites ≠ [] → ∀ o ∈ sysout, Printable o.bytes := by
    intro hne o ho
    have hresults : results ≠ [] := by
      obtain ⟨g, hg⟩ := List.exists_mem_of_ne_nil suites hne
      obtain ⟨r, hr, -⟩ := hgrouped.exists_mem hg
      exact List.ne_nil_of_mem hr
    refine h _ (List.mem_append_right _ ?_)
    rw [if_pos hresults]
    exact List.mem_map_of_mem (Option.mem_toList.mpr ho)
  refine ⟨suites, inSuites results hgrouped, ?_⟩
  have hfenced := fenced_report sec results sysout suites
  rw [WellFormed, junitReport, heq, eol_eq hfenced.return_notMem]
  exact document_report hsuites hsysout

/-- Times in microseconds -/
def microseconds : Seconds ℕ where
  zero := 0
  add := (· + ·)
  fixed t := decimal (t / 10 ^ 6) ++ ascii "." ++
    [5, 4, 3, 2, 1, 0].map fun i => UInt8.ofNat (48 + t / 10 ^ i % 10)
  plain t b hb := by
    have hdigit : ∀ k < 10, 32 ≤ UInt8.ofNat (48 + k) ∧ UInt8.ofNat (48 + k) < 128 ∧
        UInt8.ofNat (48 + k) ∉ ([34, 38, 60] : Bytes) := by decide
    obtain hb | hb := List.mem_append.mp hb
    · obtain hb | hb := List.mem_append.mp hb
      · obtain ⟨hge, hlt, hmark⟩ := plain_decimal hb
        exact ⟨hge, hlt, fun h => hmark (List.mem_of_mem_dropLast h)⟩
      · obtain rfl := List.mem_singleton.mp hb
        decide
    · obtain ⟨i, -, rfl⟩ := List.mem_map.mp hb
      exact hdigit _ (Nat.mod_lt _ (by decide))

/-- A failure whose message has a byte that is no UTF-8 -/
def strayFailure : Timed ℕ where
  suite := forgingSkip.suite
  name := forgingSkip.name
  outcome := .fail
  line := 1
  file := ⟨ascii "f.c", by decide⟩
  msg := ⟨[255], by decide⟩
  recPath := forgingSkip.recPath
  recStep := -1
  secs := 0

/-- No reader takes the report of it for a document. -/
theorem junit_report_stray :
    ¬∃ root, WellFormed (junitReport microseconds [strayFailure] none) root := by
  rintro ⟨root, h⟩
  have hstray : Printable [255] :=
    printable_of_wellFormed h [255] (.tail _ (.tail _ (.head _)))
  obtain ⟨c, t, -, heq, -⟩ := hstray.cons_inv
  by_cases hascii : c.toNat < 0x80
  · rw [encode_ascii hascii] at heq
    have hbyte := congrArg UInt8.toNat (List.cons.inj heq).1
    rw [UInt8.toNat_ofNat', Nat.mod_eq_of_lt (by omega)] at hbyte
    have h255 : (255 : UInt8).toNat = 255 := rfl
    omega
  · -- a longer sequence does not end behind its first byte
    have hval : ¬c.val.toNat ≤ 127 := fun h => hascii (Nat.lt_succ_of_le h)
    rw [String.utf8EncodeChar] at heq
    rw [if_neg hval] at heq
    split_ifs at heq <;> exact List.cons_ne_nil _ _ (List.cons.inj heq).2.symm

end Report

end AsmTest.Report
