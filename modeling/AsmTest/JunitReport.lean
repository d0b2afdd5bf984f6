import AsmTest.Lib.Xml
import AsmTest.TapReport

/-!
# The JUnit report

`render_junit` prints the results as an XML document, one `testsuite` for each suite. Strings go
through `xml_print_escaped`, which works on single bytes.
-/

namespace AsmTest.Report

open Lib Xml

/-- The arithmetic of `double` and `%.6f` -/
structure Seconds (τ : Type) where
  zero : τ
  add : τ → τ → τ
  fixed : τ → Bytes
  plain : ∀ t, ∀ b ∈ fixed t, 32 ≤ b ∧ b < 128 ∧ b ∉ ([34, 38, 60] : Bytes)

/-- `test_result_t` -/
structure Timed (τ : Type) extends TestResult where
  secs : τ

/-- What a call prints: a `printf`, or `xml_print_escaped` -/
inductive Piece
  | lit (s : Bytes)
  | esc (s : Bytes)
deriving DecidableEq

section Source

def upperHex (n : ℕ) : UInt8 := if n < 10 then UInt8.ofNat (48 + n) else UInt8.ofNat (55 + n)

def xmlEscapeByte (c : UInt8) : Bytes :=
  if c = 38 then ascii "&amp;"
  else if c = 60 then ascii "&lt;"
  else if c = 62 then ascii "&gt;"
  else if c = 34 then ascii "&quot;"
  else if c = 10 then ascii "&#10;"
  else if c = 13 then ascii "&#13;"
  else if c = 9 then [9]
  else if c < 0x20 then ascii "\\x" ++ [upperHex (c.toNat / 16), upperHex (c.toNat % 16)]
  else [c]

/-- `xml_print_escaped` -/
def xmlPrintEscaped (s : Bytes) : Bytes := s.flatMap xmlEscapeByte

def Piece.text : Piece → Bytes
  | .lit s => s
  | .esc s => xmlPrintEscaped s

def errorPrefixes : List Bytes :=
  [ascii "caught fatal signal", ascii "timed out", ascii "crashed:",
    ascii "child exited abnormally", ascii "no result reported"]

def resultIsError (r : TestResult) : Bool :=
  r.outcome = .fail && errorPrefixes.any (·.isPrefixOf r.msg.bytes)

/-- The counters of a document or of a suite -/
structure Tally (τ : Type) where
  failures : ℕ := 0
  errors : ℕ := 0
  skipped : ℕ := 0
  secs : τ

variable {τ : Type} (sec : Seconds τ)

def Tally.count (t : Tally τ) (r : Timed τ) : Tally τ :=
  let t := { t with secs := sec.add t.secs r.secs }
  if resultIsError r.toTestResult then { t with errors := t.errors + 1 }
  else if r.outcome = .fail then { t with failures := t.failures + 1 }
  else if r.outcome = .skip then { t with skipped := t.skipped + 1 }
  else t

def tally (rs : List (Timed τ)) : Tally τ := rs.foldl (Tally.count sec) { secs := sec.zero }

def countTexts (tests : ℕ) (t : Tally τ) : Bytes :=
  ascii "tests=\"" ++ decimal tests ++ ascii "\" failures=\"" ++ decimal t.failures ++
    ascii "\" errors=\"" ++ decimal t.errors ++ ascii "\" skipped=\"" ++ decimal t.skipped ++
    ascii "\" time=\"" ++ sec.fixed t.secs ++ ascii "\">\n"

def recordPieces (r : TestResult) : List Piece :=
  if r.recPath.bytes ≠ [] then
    [.lit (ascii "&#10;recording: "), .esc r.recPath.bytes] ++
      if 0 ≤ r.recStep then [.lit (ascii "&#10;step: " ++ decimalInt r.recStep)] else []
  else []

def failPieces (r : TestResult) : List Piece :=
  let tag := if resultIsError r then ascii "error" else ascii "failure"
  [.lit (ascii "\n      <" ++ tag ++ ascii " message=\""), .esc r.msg.bytes, .lit (ascii "\">at "),
    .esc r.file.bytes, .lit (ascii ":" ++ decimalInt r.line ++ ascii "&#10;"), .esc r.msg.bytes] ++
  recordPieces r ++ [.lit (ascii "</" ++ tag ++ ascii ">\n    ")]

def outcomePieces (r : TestResult) : List Piece :=
  match r.outcome with
  | .fail => failPieces r
  | .skip =>
    [.lit (ascii "\n      <skipped message=\""), .esc r.msg.bytes, .lit (ascii "\"/>\n    ")]
  | .pass => []

def casePieces (suite : CStr) (r : Timed τ) : List Piece :=
  [.lit (ascii "    <testcase classname=\""), .esc suite.bytes, .lit (ascii "\" name=\""),
    .esc r.name.bytes, .lit (ascii "\" time=\"" ++ sec.fixed r.secs ++ ascii "\">")] ++
  outcomePieces r.toTestResult ++ [.lit (ascii "</testcase>\n")]

def sysoutPieces : Option CStr → List Piece
  | some s =>
    if s.bytes ≠ [] then
      [.lit (ascii "    <system-out>"), .esc s.bytes, .lit (ascii "</system-out>\n")]
    else []
  | none => []

/-- The element of a suite, with the results that the inner loops find -/
def suitePieces (suite : CStr) (rs : List (Timed τ)) (sysout : Option CStr) : List Piece :=
  [.lit (ascii "  <testsuite name=\""), .esc suite.bytes,
    .lit (ascii "\" " ++ countTexts sec rs.length (tally sec rs))] ++
  rs.flatMap (casePieces sec suite) ++ sysoutPieces sysout ++ [.lit (ascii "  </testsuite>\n")]

/-- Sets `done` for the results of the suite. -/
def markDone (suite : CStr) (l : List (Timed τ × Bool)) : List (Timed τ × Bool) :=
  l.map fun q => if q.1.suite = suite then (q.1, true) else q

/-- The loop over the results that are not `done`: its suite takes all that follow and are of it. -/
def suiteLoop (sysout : Option CStr) (firstSuite : Bool) : List (Timed τ × Bool) → List Piece
  | [] => []
  | (r, done) :: rest =>
    if done then suiteLoop sysout firstSuite rest
    else
      let rs := (((r, done) :: rest).map Prod.fst).filter (·.suite = r.suite)
      suitePieces sec r.suite rs (if firstSuite then sysout else none) ++
        suiteLoop sysout false (markDone r.suite rest)
termination_by l => l.length
decreasing_by
  · rw [List.length_cons]
    omega
  · rw [markDone, List.length_map, List.length_cons]
    omega

def headPieces (results : List (Timed τ)) : List Piece :=
  [.lit (ascii "<?xml version=\"1.0\" encoding=\"UTF-8\"?>\n"),
    .lit (ascii "<testsuites " ++ countTexts sec results.length (tally sec results))]

def renderJunit (results : List (Timed τ)) (sysout : Option CStr) : List Piece :=
  headPieces sec results ++ suiteLoop sec sysout true (results.map fun r => (r, false)) ++
    [.lit (ascii "</testsuites>\n")]

def piecesText (ps : List Piece) : Bytes := ps.flatMap Piece.text

/-- The output of `render_junit` -/
def junitReport (results : List (Timed τ)) (sysout : Option CStr) : Bytes :=
  piecesText (renderJunit sec results sysout)

end Source

section Document

variable {τ : Type} (sec : Seconds τ)

/-- The value of an attribute with an escaped string -/
def shownByte (c : UInt8) : Bytes :=
  if c = 9 then [32]
  else if c < 0x20 ∧ c ≠ 10 ∧ c ≠ 13 then
    ascii "\\x" ++ [upperHex (c.toNat / 16), upperHex (c.toNat % 16)]
  else [c]

def shown (s : Bytes) : Bytes := s.flatMap shownByte

def countAttrs (tests : ℕ) (t : Tally τ) : List (Bytes × Bytes) :=
  [(ascii "tests", decimal tests), (ascii "failures", decimal t.failures),
    (ascii "errors", decimal t.errors), (ascii "skipped", decimal t.skipped),
    (ascii "time", sec.fixed t.secs)]

def outcomeNodes (r : TestResult) : List Node :=
  match r.outcome with
  | .fail =>
    [.elem (if resultIsError r then ascii "error" else ascii "failure")
      [(ascii "message", shown r.msg.bytes)] []]
  | .skip => [.elem (ascii "skipped") [(ascii "message", shown r.msg.bytes)] []]
  | .pass => []

def caseNode (suite : CStr) (r : Timed τ) : Node :=
  .elem (ascii "testcase")
    [(ascii "classname", shown suite.bytes), (ascii "name", shown r.name.bytes),
      (ascii "time", sec.fixed r.secs)]
    (outcomeNodes r.toTestResult)

def sysoutNodes : Option CStr → List Node
  | some s => if s.bytes ≠ [] then [.elem (ascii "system-out") [] []] else []
  | none => []

def suiteNode (g : CStr × List (Timed τ)) (sysout : Option CStr) : Node :=
  .elem (ascii "testsuite")
    ((ascii "name", shown g.1.bytes) :: countAttrs sec g.2.length (tally sec g.2))
    (g.2.map (caseNode sec g.1) ++ sysoutNodes sysout)

/-- The captured output goes to the first suite. -/
def suiteNodes (sysout : Option CStr) : List (CStr × List (Timed τ)) → List Node
  | [] => []
  | g :: gs => suiteNode sec g sysout :: suiteNodes none gs

/-- The document that the results in these suites should give -/
def reportNode (results : List (Timed τ)) (sysout : Option CStr)
    (suites : List (CStr × List (Timed τ))) : Node :=
  .elem (ascii "testsuites") (countAttrs sec results.length (tally sec results))
    (suiteNodes sec sysout suites)

/-- Every result stands once, in its own suite, and the counts of the suites add up. -/
structure InSuites (results : List (Timed τ)) (suites : List (CStr × List (Timed τ))) : Prop where
  once : (suites.flatMap Prod.snd).Perm results
  own : ∀ g ∈ suites, ∀ r ∈ g.2, r.suite = g.1
  distinct : (suites.map Prod.fst).Nodup
  tests : (suites.map fun g => g.2.length).sum = results.length
  failures : (suites.map fun g => (tally sec g.2).failures).sum = (tally sec results).failures
  errors : (suites.map fun g => (tally sec g.2).errors).sum = (tally sec results).errors
  skipped : (suites.map fun g => (tally sec g.2).skipped).sum = (tally sec results).skipped

def outcomeTexts (r : TestResult) : List Bytes :=
  match r.outcome with
  | .fail => [r.msg.bytes, r.file.bytes, r.recPath.bytes]
  | .skip => [r.msg.bytes]
  | .pass => []

/-- The strings that the results and the captured output bring into the report -/
def printedTexts (results : List (Timed τ)) (sysout : Option CStr) : List Bytes :=
  (results.flatMap fun r => r.suite.bytes :: r.name.bytes :: outcomeTexts r.toTestResult) ++
    if results ≠ [] then sysout.toList.map CStr.bytes else []

/-- UTF-8, without the two characters that a document may not have and no escape replaces -/
def Printable (s : Bytes) : Prop := Chars (fun c => c.toNat ≠ 0xFFFE ∧ c.toNat ≠ 0xFFFF) s

end Document

section Suites

variable {τ : Type} {sec : Seconds τ} {sysout : Option CStr}
  {suites : List (CStr × List (Timed τ))}

/-- The results that no suite has taken -/
def pending (l : List (Timed τ × Bool)) : List (Timed τ) :=
  l.filterMap fun q => if q.2 then none else some q.1

/-- Results of one suite are taken together. -/
def Together (l : List (Timed τ × Bool)) : Prop :=
  ∀ q ∈ l, ∀ q' ∈ l, q.1.suite = q'.1.suite → q.2 = q'.2

def suitesPieces (sec : Seconds τ) : Option CStr → List (CStr × List (Timed τ)) → List Piece
  | _, [] => []
  | sysout, g :: gs => suitePieces sec g.1 g.2 sysout ++ suitesPieces sec none gs

/-- What the loop makes of the results that are left -/
structure Grouped (left : List (Timed τ)) (suites : List (CStr × List (Timed τ))) : Prop where
  once : (suites.flatMap Prod.snd).Perm left
  own : ∀ g ∈ suites, g.2 ≠ [] ∧ ∀ r ∈ g.2, r.suite = g.1
  distinct : (suites.map Prod.fst).Nodup

lemma Grouped.exists_mem {left : List (Timed τ)} (h : Grouped left suites)
    {g : CStr × List (Timed τ)} (hg : g ∈ suites) : ∃ r ∈ left, r.suite = g.1 := by
  obtain ⟨hne, hown⟩ := h.own g hg
  obtain ⟨r, hr⟩ := List.exists_mem_of_ne_nil g.2 hne
  exact ⟨r, h.once.subset (List.mem_flatMap.mpr ⟨g, hg, hr⟩), hown r hr⟩

lemma together_markDone {l : List (Timed τ × Bool)} (h : Together l) (suite : CStr) :
    Together (markDone suite l) := by
  intro q hq q' hq' heq
  obtain ⟨p, hp, rfl⟩ := List.mem_map.mp hq
  obtain ⟨p', hp', rfl⟩ := List.mem_map.mp hq'
  have hsuite : ∀ p : Timed τ × Bool,
      (if p.1.suite = suite then (p.1, true) else p).1 = p.1 := by
    intro p
    split <;> rfl
  rw [hsuite, hsuite] at heq
  rw [heq]
  split
  · rfl
  · exact h p hp p' hp' heq

lemma pending_markDone (suite : CStr) (l : List (Timed τ × Bool)) :
    pending (markDone suite l) = (pending l).filter (·.suite ≠ suite) := by
  rw [pending, markDone, List.filterMap_map, pending, List.filter_filterMap]
  refine congrFun (congrArg List.filterMap (funext fun q => ?_)) l
  obtain ⟨r, done⟩ := q
  rw [Function.comp_apply]
  by_cases hsuite : r.suite = suite
  · cases done <;> simp [hsuite, Option.filter_some]
  · cases done <;> simp [hsuite, Option.filter_some]

/-- The results of a suite that has not been taken are all left. -/
lemma filter_pending {l : List (Timed τ × Bool)} {suite : CStr}
    (h : ∀ q ∈ l, q.1.suite = suite → q.2 = false) :
    (l.map Prod.fst).filter (·.suite = suite) = (pending l).filter (·.suite = suite) := by
  rw [pending, List.filter_filterMap, List.filter_map, ← List.filterMap_eq_map,
    ← List.filterMap_eq_filter, List.filterMap_filterMap]
  refine List.filterMap_congr fun q hq => ?_
  by_cases hsuite : q.1.suite = suite
  · simp [hsuite, h q hq hsuite, Option.guard, Option.filter_some]
  · cases q.2 <;> simp [hsuite, Option.guard, Option.filter_some]

/-- What the loop prints are suites of the results that are left. -/
lemma exists_suites (sec : Seconds τ) (l : List (Timed τ × Bool)) (hl : Together l)
    (sysout : Option CStr) (first : Bool) :
    ∃ suites, Grouped (pending l) suites ∧
      suiteLoop sec sysout first l = suitesPieces sec (if first then sysout else none) suites := by
  fun_induction suiteLoop sec sysout first l with
  | case1 first => exact ⟨[], ⟨List.Perm.refl _, nofun, List.nodup_nil⟩, rfl⟩
  | case2 first r rest ih =>
    have hleft : pending ((r, true) :: rest) = pending rest := rfl
    rw [hleft]
    exact ih fun q hq q' hq' =>
      hl q (List.mem_cons_of_mem _ hq) q' (List.mem_cons_of_mem _ hq')
  | case3 first r done rest hdone rs ih =>
    rw [Bool.not_eq_true] at hdone
    subst hdone
    have hrest : Together rest := fun q hq q' hq' =>
      hl q (List.mem_cons_of_mem _ hq) q' (List.mem_cons_of_mem _ hq')
    obtain ⟨suites, hgrouped, heq⟩ := ih (together_markDone hrest r.suite)
    rw [pending_markDone] at hgrouped
    have hleft : pending ((r, false) :: rest) = r :: pending rest := rfl
    have hrs : rs = (r :: pending rest).filter (·.suite = r.suite) := by
      rw [← hleft]
      exact filter_pending fun q hq hsuite =>
        hl q hq (r, false) List.mem_cons_self hsuite
    have hothers : (pending rest).filter (·.suite ≠ r.suite) =
        (r :: pending rest).filter fun q => !decide (q.suite = r.suite) := by
      rw [List.filter_cons_of_neg (by simp)]
      refine List.filter_congr fun q _ => ?_
      simp
    refine ⟨(r.suite, rs) :: suites, ⟨?_, ?_, ?_⟩, ?_⟩
    · rw [List.flatMap_cons, hleft]
      refine (hgrouped.once.append_left rs).trans ?_
      rw [hrs, hothers]
      exact List.filter_append_perm (·.suite = r.suite) (r :: pending rest)
    · rintro g hg
      obtain rfl | hg := List.mem_cons.mp hg
      · refine ⟨?_, fun q hq => ?_⟩
        · rw [hrs, List.filter_cons_of_pos (by simp)]
          exact List.cons_ne_nil _ _
        · rw [hrs] at hq
          simpa using (List.mem_filter.mp hq).2
      · exact hgrouped.own g hg
    · rw [List.map_cons, List.nodup_cons]
      refine ⟨fun hmem => ?_, hgrouped.distinct⟩
      obtain ⟨g, hg, hsuite⟩ := List.mem_map.mp hmem
      obtain ⟨q, hq, hown⟩ := hgrouped.exists_mem hg
      have hne := (List.mem_filter.mp hq).2
      rw [hown, hsuite] at hne
      simp at hne
    · rw [heq, suitesPieces]
      rfl

/-- A failure that is no error -/
def isFailure (r : TestResult) : Bool := !resultIsError r && r.outcome = .fail

lemma isSkip_of_not_error {r : TestResult} (h : r.outcome = .skip) : resultIsError r = false := by
  rw [resultIsError, h]
  rfl

lemma tally_eq (rs : List (Timed τ)) :
    (tally sec rs).failures = rs.countP (fun r => isFailure r.toTestResult) ∧
      (tally sec rs).errors = rs.countP (fun r => resultIsError r.toTestResult) ∧
      (tally sec rs).skipped = rs.countP (·.outcome = .skip) := by
  induction rs using List.reverseRecOn with
  | nil => exact ⟨rfl, rfl, rfl⟩
  | append_singleton rs r ih =>
    obtain ⟨hfail, herr, hskip⟩ := ih
    have hstep : tally sec (rs ++ [r]) = (tally sec rs).count sec r := by
      rw [tally, List.foldl_append]
      rfl
    rw [hstep, List.countP_append, List.countP_append, List.countP_append, ← hfail, ← herr,
      ← hskip, Tally.count]
    cases herror : resultIsError r.toTestResult with
    | true =>
      have hout : r.outcome ≠ .skip := fun h =>
        Bool.false_ne_true ((isSkip_of_not_error h).symm.trans herror)
      simp [isFailure, herror, hout]
    | false =>
      cases hout : r.outcome <;> simp [isFailure, herror, hout]

lemma inSuites (results : List (Timed τ)) (h : Grouped results suites) :
    InSuites sec results suites := by
  have hcount : ∀ p : Timed τ → Bool,
      (suites.map fun g => g.2.countP p).sum = results.countP p := fun p => by
    rw [← h.once.countP_eq p, List.countP_flatMap]
    rfl
  have hlength : (suites.map fun g => g.2.length).sum = results.length := by
    rw [← h.once.length_eq, List.length_flatMap]
  refine ⟨h.once, fun g hg => (h.own g hg).2, h.distinct, hlength, ?_, ?_, ?_⟩
  · simp only [(tally_eq _).1]
    exact hcount _
  · simp only [(tally_eq _).2.1]
    exact hcount _
  · simp only [(tally_eq _).2.2]
    exact hcount _

end Suites

end AsmTest.Report
