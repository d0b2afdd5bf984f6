import AsmTest.GlobMatch

/-!
# Bracket classes against POSIX

The bracket expressions of `fnmatch` in the C locale as a grammar, and where the two scanners of the
glob matcher read a class as POSIX does.
-/

namespace AsmTest.Glob

open Lib

section Posix

inductive ClassName where
  | alnum
  | alpha
  | blank
  | cntrl
  | digit
  | graph
  | lower
  | print
  | punct
  | space
  | upper
  | xdigit
  deriving DecidableEq, Repr

namespace ClassName

def text : ClassName → Bytes
  | alnum => ascii "alnum"
  | alpha => ascii "alpha"
  | blank => ascii "blank"
  | cntrl => ascii "cntrl"
  | digit => ascii "digit"
  | graph => ascii "graph"
  | lower => ascii "lower"
  | print => ascii "print"
  | punct => ascii "punct"
  | space => ascii "space"
  | upper => ascii "upper"
  | xdigit => ascii "xdigit"

def isLower (c : UInt8) : Bool := 97 ≤ c && c ≤ 122

def isUpper (c : UInt8) : Bool := 65 ≤ c && c ≤ 90

def isDecimal (c : UInt8) : Bool := 48 ≤ c && c ≤ 57

/-- The characters of a class in the C locale -/
def has : ClassName → UInt8 → Bool
  | alnum, c => isLower c || isUpper c || isDecimal c
  | alpha, c => isLower c || isUpper c
  | blank, c => c = 32 || c = 9
  | cntrl, c => c < 32 || c = 127
  | digit, c => isDecimal c
  | graph, c => 33 ≤ c && c ≤ 126
  | lower, c => isLower c
  | print, c => 32 ≤ c && c ≤ 126
  | punct, c => (33 ≤ c && c ≤ 126) && !(isLower c || isUpper c || isDecimal c)
  | space, c => c = 32 || (9 ≤ c && c ≤ 13)
  | upper, c => isUpper c
  | xdigit, c => isDecimal c || (97 ≤ c && c ≤ 102) || (65 ≤ c && c ≤ 70)

end ClassName

/-- A character of a bracket expression, and whether it was written as `[.c.]` -/
structure Sym where
  char : UInt8
  collating : Bool := false
  deriving DecidableEq, Repr

inductive Elem where
  | single (s : Sym)
  | range (lo hi : Sym)
  | equiv (c : UInt8)
  | named (k : ClassName)

namespace Elem

def Has : Elem → UInt8 → Prop
  | single s, c => c = s.char
  | range lo hi, c => lo.char ≤ c ∧ c ≤ hi.char
  | equiv d, c => c = d
  | named k, c => k.has c = true

/-- Without the forms that have a bracket of their own -/
def Plain : Elem → Prop
  | single s => s.collating = false
  | range lo hi => lo.collating = false ∧ hi.collating = false
  | equiv _ => False
  | named _ => False

end Elem

/-- A bracket that is followed by one of these opens a form of its own. -/
def opensForm (p : Bytes) : Prop :=
  p.head? = some 58 ∨ p.head? = some 61 ∨ p.head? = some 46

/-- A character, alone or as the end of a range: itself, escaped or as a collating symbol. A closing
bracket stands for itself only in the first place. -/
inductive Endpoint (first : Bool) : Bytes → Sym → Bytes → Prop
  | plain {c : UInt8} {p : Bytes} : c ≠ 92 → (c = 93 → first = true) → (c = 91 → ¬opensForm p) →
      Endpoint first (c :: p) ⟨c, false⟩ p
  | escaped {c : UInt8} {p : Bytes} : Endpoint first (92 :: c :: p) ⟨c, false⟩ p
  | collating {c : UInt8} {p : Bytes} :
      Endpoint first (91 :: 46 :: c :: 46 :: 93 :: p) ⟨c, true⟩ p

/-- The members of a bracket expression up to its closing bracket -/
inductive Members : Bool → Bytes → List Elem → Bytes → Prop
  | close {p : Bytes} : Members false (93 :: p) [] p
  | single {first : Bool} {p q r : Bytes} {s : Sym} {es : List Elem} : Endpoint first p s q →
      (∀ q', q = 45 :: q' → q'.head? = none ∨ q'.head? = some 93) → Members false q es r →
      Members first p (.single s :: es) r
  | range {first : Bool} {p q q' r : Bytes} {lo hi : Sym} {es : List Elem} :
      Endpoint first p lo (45 :: q) → q.head? ≠ some 93 → Endpoint false q hi q' →
      Members false q' es r → Members first p (.range lo hi :: es) r
  | equiv {first : Bool} {p r : Bytes} {c : UInt8} {es : List Elem} : Members false p es r →
      Members first (91 :: 61 :: c :: 61 :: 93 :: p) (.equiv c :: es) r
  | named {first : Bool} {p r : Bytes} {k : ClassName} {es : List Elem} : Members false p es r →
      Members first (91 :: 58 :: (k.text ++ 58 :: 93 :: p)) (.named k :: es) r

/-- A bracket expression behind its opening bracket -/
inductive Bracket : Bytes → Bool → List Elem → Bytes → Prop
  | list {p r : Bytes} {es : List Elem} : p.head? ≠ some 33 → p.head? ≠ some 94 →
      Members true p es r → Bracket p false es r
  | negation {c : UInt8} {p r : Bytes} {es : List Elem} : c = 33 ∨ c = 94 →
      Members true p es r → Bracket (c :: p) true es r

/-- The character is accepted: it is a member, or it is not one and the list is negated. -/
def Accepted (neg : Bool) (es : List Elem) (c : UInt8) : Prop :=
  (∃ e ∈ es, e.Has c) ↔ neg = false

end Posix

section Agreement

variable {p q r : Bytes} {es : List Elem} {s : Sym}

lemma Endpoint.readMember (h : Endpoint false p s q) (hs : s.collating = false) :
    Glob.readMember p = (s.char, q) ∧ p.head? ≠ some 93 ∧ p ≠ [] := by
  cases h with
  | plain h92 h93 _ =>
    refine ⟨readMember_cons h92 q, ?_, List.cons_ne_nil _ _⟩
    intro hhead
    exact Bool.false_ne_true (h93 (Option.some.inj hhead))
  | escaped =>
    refine ⟨readMember_escape _ q, ?_, List.cons_ne_nil _ _⟩
    intro hhead
    cases hhead
  | collating => cases hs

lemma startsRange_eq_false (h : ∀ q', q = 45 :: q' → q'.head? = none ∨ q'.head? = some 93) :
    startsRange q = false := by
  rw [← Bool.not_eq_true, startsRange_iff]
  rintro ⟨x, t, rfl, hx⟩
  have := h (x :: t) rfl
  simp [hx] at this

/-- One turn of the loop over a member that is not a range -/
lemma matchMembers_single (c : UInt8) (fuel : ℕ) (m : Bool) {x : UInt8}
    (hread : readMember p = (x, q)) (h93 : p.head? ≠ some 93) (hne : p ≠ [])
    (hrange : startsRange q = false) :
    matchMembers c (fuel + 1) m p = matchMembers c fuel (m || c = x) q := by
  have hstop : ¬(p.head? = none ∨ p.head? = some 93) :=
    not_or.2 ⟨fun hnone => hne (List.head?_eq_none_iff.1 hnone), h93⟩
  rw [matchMembers, if_neg hstop, hread]
  dsimp only
  rw [hrange, if_neg Bool.false_ne_true]

lemma matchMembers_range (c : UInt8) (fuel : ℕ) (m : Bool) {x y : UInt8} {q' : Bytes}
    (hread : readMember p = (x, 45 :: q)) (h93 : p.head? ≠ some 93) (hne : p ≠ [])
    (hread' : readMember q = (y, q')) (h93' : q.head? ≠ some 93) (hne' : q ≠ []) :
    matchMembers c (fuel + 1) m p = matchMembers c fuel (m || (x ≤ c && c ≤ y)) q' := by
  have hstop : ¬(p.head? = none ∨ p.head? = some 93) :=
    not_or.2 ⟨fun hnone => hne (List.head?_eq_none_iff.1 hnone), h93⟩
  have hrange : startsRange (45 :: q) = true := by
    cases q with
    | nil => exact absurd rfl hne'
    | cons h t => exact startsRange_iff.2 ⟨h, t, rfl, fun hh => h93' (by rw [hh]; rfl)⟩
  rw [matchMembers, if_neg hstop, hread]
  dsimp only
  rw [if_pos hrange, List.tail_cons, hread']

/-- The loop reads plain members as POSIX does, up to the same bracket. -/
lemma Members.exact (h : Members false p es r) (hplain : ∀ e ∈ es, e.Plain) (c : UInt8)
    {fuel : ℕ} (hf : p.length ≤ fuel) (m : Bool) :
    classScan p = some (93 :: r) ∧ (matchMembers c fuel m p).2 = 93 :: r ∧
      ((matchMembers c fuel m p).1 = true ↔ m = true ∨ ∃ e ∈ es, e.Has c) := by
  induction es generalizing p fuel m with
  | nil =>
    cases h
    obtain ⟨fuel, rfl⟩ := Nat.exists_eq_succ_of_ne_zero (show fuel ≠ 0 by
      rw [List.length_cons] at hf
      omega)
    refine ⟨classScan_close r, ?_⟩
    rw [matchMembers, if_pos (show _ ∨ (93 :: r).head? = some 93 from Or.inr rfl)]
    simp
  | cons e es ih =>
    rw [List.forall_mem_cons] at hplain
    have hpos : ∀ {t : Bytes}, t ≠ [] → t.length ≤ fuel → ∃ k, fuel = k + 1 := by
      intro t ht hle
      have := List.length_pos_of_ne_nil ht
      exact ⟨fuel - 1, by omega⟩
    cases h with
    | single hend hnot hrest =>
      obtain ⟨hread, h93, hne⟩ := hend.readMember hplain.1
      obtain ⟨k, rfl⟩ := hpos hne hf
      have hlen := length_readMember hne
      rw [hread] at hlen
      dsimp only at hlen
      obtain ⟨hscan, hsnd, hfst⟩ := ih hrest hplain.2 (show _ ≤ k by omega) (m || c = _)
      rw [matchMembers_single c k m hread h93 hne (startsRange_eq_false hnot),
        classScan_readMember h93, hread]
      refine ⟨hscan, hsnd, hfst.trans ?_⟩
      rw [Bool.or_eq_true, decide_eq_true_eq, List.exists_mem_cons_iff, or_assoc]
      rfl
    | range hend hhead hend' hrest =>
      obtain ⟨hread, h93, hne⟩ := hend.readMember hplain.1.1
      obtain ⟨hread', h93', hne'⟩ := hend'.readMember hplain.1.2
      obtain ⟨k, rfl⟩ := hpos hne hf
      have hlen := length_readMember hne
      have hlen' := length_readMember hne'
      rw [hread, List.length_cons] at hlen
      rw [hread'] at hlen'
      dsimp only at hlen hlen'
      obtain ⟨hscan, hsnd, hfst⟩ := ih hrest hplain.2 (show _ ≤ k by omega) (m || (_ ≤ c && c ≤ _))
      rw [matchMembers_range c k m hread h93 hne hread' h93' hne', classScan_readMember h93, hread,
        classScan_cons (by decide) (by decide), classScan_readMember h93', hread']
      refine ⟨hscan, hsnd, hfst.trans ?_⟩
      rw [Bool.or_eq_true, Bool.and_eq_true, decide_eq_true_eq, decide_eq_true_eq,
        List.exists_mem_cons_iff, or_assoc]
      rfl
    | equiv _ => exact absurd hplain.1 id
    | named _ => exact absurd hplain.1 id

/-- Away from a closing bracket the first place is like any other. -/
lemma Endpoint.not_first {first : Bool} (h : Endpoint first p s q) (h93 : p.head? ≠ some 93) :
    Endpoint false p s q := by
  cases h with
  | plain h92 _ hform => exact .plain h92 (fun hc => absurd (by rw [hc]; rfl) h93) hform
  | escaped => exact .escaped
  | collating => exact .collating

lemma Members.not_first {first : Bool} (h : Members first p es r) (h93 : p.head? ≠ some 93) :
    Members false p es r := by
  cases h with
  | close => exact .close
  | single hend hnot hrest => exact .single (hend.not_first h93) hnot hrest
  | range hend hhead hend' hrest => exact .range (hend.not_first h93) hhead hend' hrest
  | equiv hrest => exact .equiv hrest
  | named hrest => exact .named hrest

/-- A `]` in the first place starts a range. -/
def LeadingRange (p : Bytes) : Prop :=
  (skipNegation p).head? = some 93 ∧ startsRange (skipNegation p).tail = true

/-- The first member of a list that begins with `]` and not with a range -/
lemma Members.leading (h : Members true (93 :: q) es r) (hrange : startsRange q ≠ true) :
    ∃ es', es = .single ⟨93, false⟩ :: es' ∧ Members false q es' r := by
  cases h with
  | single hend _ hrest =>
    cases hend with
    | plain => exact ⟨_, rfl, hrest⟩
  | range hend hhead hend' _ =>
    cases hend with
    | plain =>
      refine absurd (startsRange_iff.2 ?_) hrange
      cases hend' with
      | plain _ h93 _ => exact ⟨_, _, rfl, fun hc => Bool.false_ne_true (h93 hc)⟩
      | escaped => exact ⟨_, _, rfl, by decide⟩
      | collating => exact ⟨_, _, rfl, by decide⟩

/-- Behind the negation, where a leading `]` is no range -/
lemma Members.exact_first (h : Members true p es r) (hplain : ∀ e ∈ es, e.Plain) (c : UInt8)
    (hrange : ¬(p.head? = some 93 ∧ startsRange p.tail = true)) :
    classScan (if p.head? = some 93 then p.tail else p) = some (93 :: r) ∧
      ((if p.head? = some 93 then matchMembers c p.length (c = 93) p.tail
        else matchMembers c p.length false p).1 = true ↔ ∃ e ∈ es, e.Has c) := by
  by_cases h93 : p.head? = some 93
  · cases p with
    | nil => cases h93
    | cons d q =>
      have hd : d = 93 := Option.some.inj h93
      rw [hd] at h hrange h93 ⊢
      obtain ⟨es', rfl, hrest⟩ := h.leading fun hr => hrange ⟨rfl, hr⟩
      rw [List.forall_mem_cons] at hplain
      obtain ⟨hscan, -, hfst⟩ := hrest.exact hplain.2 c
        (show q.length ≤ (93 :: q).length from Nat.le_succ _) (c = 93)
      rw [if_pos h93, if_pos h93, List.tail_cons]
      refine ⟨hscan, hfst.trans ?_⟩
      rw [decide_eq_true_eq, List.exists_mem_cons_iff]
      rfl
  · obtain ⟨hscan, -, hfst⟩ := (h.not_first h93).exact hplain c le_rfl false
    rw [if_neg h93, if_neg h93]
    refine ⟨hscan, hfst.trans ?_⟩
    rw [or_iff_right Bool.false_ne_true]

lemma skipNegation_cons {c : UInt8} (h : c = 33 ∨ c = 94) :
    negated (c :: p) = true ∧ skipNegation (c :: p) = p := by
  have hneg : negated (c :: p) = true := by
    rcases h with rfl | rfl <;> rfl
  exact ⟨hneg, by rw [skipNegation, if_pos hneg]; rfl⟩

lemma skipNegation_of_ne (h33 : p.head? ≠ some 33) (h94 : p.head? ≠ some 94) :
    negated p = false ∧ skipNegation p = p := by
  have hneg : negated p = false := by
    simp [negated, h33, h94]
  exact ⟨hneg, by rw [skipNegation, hneg, if_neg Bool.false_ne_true]⟩

lemma Bracket.exact {neg : Bool} (h : Bracket p neg es r) (hplain : ∀ e ∈ es, e.Plain)
    (hrange : ¬LeadingRange p) (c : UInt8) :
    classEnd p = some (93 :: r) ∧ ((matchClass p c).1 = true ↔ Accepted neg es c) := by
  rw [LeadingRange] at hrange
  rw [classEnd, matchClass, Accepted]
  cases h with
  | list h33 h94 hmem =>
    obtain ⟨hneg, hskip⟩ := skipNegation_of_ne h33 h94
    rw [hskip] at hrange ⊢
    obtain ⟨hscan, hfst⟩ := hmem.exact_first hplain c hrange
    refine ⟨hscan, ?_⟩
    dsimp only
    rw [hneg, if_neg Bool.false_ne_true, hfst]
    simp
  | negation hc hmem =>
    obtain ⟨hneg, hskip⟩ := skipNegation_cons (p := _) hc
    rw [hskip] at hrange ⊢
    obtain ⟨hscan, hfst⟩ := hmem.exact_first hplain c hrange
    refine ⟨hscan, ?_⟩
    dsimp only
    rw [hneg, if_pos rfl, Bool.not_eq_true', ← Bool.not_eq_true, hfst]
    simp

end Agreement

section Existence

/-- No bracket in the pattern opens a form of its own. -/
def NoForms (p : Bytes) : Prop :=
  ∀ d t, p = d ++ 91 :: t → ¬opensForm t

lemma NoForms.suffix {p q : Bytes} (h : NoForms p) (hq : q <:+ p) : NoForms q := by
  obtain ⟨a, rfl⟩ := hq
  intro d t ht
  exact h (a ++ d) t (by rw [ht, List.append_assoc])

lemma endpoint_readMember (first : Bool) {p : Bytes} (hne : p ≠ [])
    (h93 : p.head? = some 93 → first = true) (hforms : NoForms p) (h92 : p ≠ [92]) :
    Endpoint first p ⟨(readMember p).1, false⟩ (readMember p).2 ∧ (readMember p).2 <:+ p := by
  rcases scan_cases p with rfl | ⟨q, rfl⟩ | rfl | ⟨x, q, rfl⟩ | ⟨c, q, rfl, hc93, hc92⟩
  · exact absurd rfl hne
  · rw [readMember_cons (by decide)]
    exact ⟨.plain (by decide) (fun _ => h93 rfl) (fun hc => absurd hc (by decide)),
      List.suffix_cons _ _⟩
  · exact absurd rfl h92
  · rw [readMember_escape]
    exact ⟨.escaped, List.suffix_append [92, x] q⟩
  · rw [readMember_cons hc92]
    exact ⟨.plain hc92 (fun hc => absurd hc hc93) (fun hc => hforms [] q (by rw [hc]; rfl)),
      List.suffix_cons _ _⟩

/-- A class that is closed is a bracket expression of POSIX, with the same end. -/
lemma exists_members {p e : Bytes} (h : classScan p = some e) (hforms : NoForms p) :
    ∃ es, Members false p es e.tail ∧ ∀ e ∈ es, e.Plain := by
  induction hn : p.length using Nat.strong_induction_on generalizing p with
  | _ n ih =>
    by_cases h93 : p.head? = some 93
    · cases p with
      | nil => cases h93
      | cons d q =>
        have hd : d = 93 := Option.some.inj h93
        rw [hd, classScan_close] at h
        cases h
        rw [hd]
        exact ⟨[], .close, by simp⟩
    · have hne : p ≠ [] := by
        rintro rfl
        cases h
      have h92 : p ≠ [92] := by
        rintro rfl
        cases h
      have hlen := length_readMember hne
      obtain ⟨hend, hsuf⟩ := endpoint_readMember false hne (fun hc => absurd hc h93)
        hforms h92
      rw [classScan_readMember h93] at h
      by_cases hrange : startsRange (readMember p).2 = true
      · obtain ⟨x, t, hq, hx⟩ := startsRange_iff.1 hrange
        rw [hq, classScan_cons (by decide) (by decide)] at h
        have hx93 : (x :: t).head? ≠ some 93 := fun hh => hx (Option.some.inj hh)
        have hne' : (x :: t) ≠ [] := List.cons_ne_nil _ _
        have h92' : (x :: t) ≠ [92] := by
          intro hh
          rw [hh] at h
          cases h
        have hsuf' : (x :: t) <:+ p := by
          rw [hq] at hsuf
          exact (List.suffix_cons 45 _).trans hsuf
        obtain ⟨hend', hsuf''⟩ := endpoint_readMember false hne'
          (fun hc => absurd hc hx93) (hforms.suffix hsuf') h92'
        have hlen' := length_readMember hne'
        rw [classScan_readMember hx93] at h
        rw [hq, List.length_cons] at hlen
        obtain ⟨es, hes, hplain⟩ := ih _ (by omega) h (hforms.suffix (hsuf''.trans hsuf')) rfl
        rw [hq] at hend
        exact ⟨_, .range hend hx93 hend' hes, List.forall_mem_cons.2 ⟨⟨rfl, rfl⟩, hplain⟩⟩
      · obtain ⟨es, hes, hplain⟩ := ih _ (by omega) h (hforms.suffix hsuf) rfl
        refine ⟨_, .single hend ?_ hes, List.forall_mem_cons.2 ⟨rfl, hplain⟩⟩
        intro q' hq'
        rw [hq', startsRange_iff] at hrange
        cases q' with
        | nil => exact Or.inl rfl
        | cons x t =>
          right
          by_contra hx
          exact hrange ⟨x, t, rfl, fun hc => hx (by rw [hc]; rfl)⟩

lemma Members.first {p r : Bytes} {es : List Elem} (h : Members false p es r)
    (h93 : p.head? ≠ some 93) : Members true p es r := by
  have hend : ∀ {s : Sym} {q : Bytes}, Endpoint false p s q → Endpoint true p s q := by
    intro s q h
    cases h with
    | plain h92 _ hform => exact .plain h92 (fun _ => rfl) hform
    | escaped => exact .escaped
    | collating => exact .collating
  cases h with
  | close => exact absurd rfl h93
  | single h hnot hrest => exact .single (hend h) hnot hrest
  | range h hhead h' hrest => exact .range (hend h) hhead h' hrest
  | equiv hrest => exact .equiv hrest
  | named hrest => exact .named hrest

lemma exists_members_first {p e : Bytes}
    (h : classScan (if p.head? = some 93 then p.tail else p) = some e) (hforms : NoForms p) :
    ∃ es, Members true p es e.tail ∧ ∀ e ∈ es, e.Plain := by
  by_cases h93 : p.head? = some 93
  · cases p with
    | nil => cases h93
    | cons d q =>
      have hd : d = 93 := Option.some.inj h93
      rw [if_pos h93, List.tail_cons] at h
      have hq : NoForms q := hforms.suffix (List.suffix_cons d q)
      have hlead : Endpoint true (d :: q) ⟨93, false⟩ q := by
        rw [hd]
        exact .plain (by decide) (fun _ => rfl) (fun hc => absurd hc (by decide))
      obtain ⟨es, hes, hplain⟩ := exists_members h hq
      by_cases hrange : startsRange q = true
      · -- the bracket is the start of a range, whose end is the member behind the hyphen
        obtain ⟨x, t, rfl, hx⟩ := startsRange_iff.1 hrange
        have hx93 : (x :: t).head? ≠ some 93 := fun hh => hx (Option.some.inj hh)
        have h92 : (x :: t) ≠ [92] := by
          intro hh
          rw [classScan_cons (by decide) (by decide), hh] at h
          cases h
        have hforms' := hq.suffix (List.suffix_cons 45 (x :: t))
        obtain ⟨hend', hsuf⟩ := endpoint_readMember false (List.cons_ne_nil x t)
          (fun hc => absurd hc hx93) hforms' h92
        rw [classScan_cons (by decide) (by decide), classScan_readMember hx93] at h
        obtain ⟨es, hes, hplain⟩ := exists_members h (hforms'.suffix hsuf)
        exact ⟨_, .range hlead hx93 hend' hes, List.forall_mem_cons.2 ⟨⟨rfl, rfl⟩, hplain⟩⟩
      · refine ⟨_, .single hlead ?_ hes, List.forall_mem_cons.2 ⟨rfl, hplain⟩⟩
        intro q' hq'
        rw [hq', startsRange_iff] at hrange
        cases q' with
        | nil => exact Or.inl rfl
        | cons x t =>
          right
          by_contra hx
          exact hrange ⟨x, t, rfl, fun hc => hx (by rw [hc]; rfl)⟩
  · rw [if_neg h93] at h
    obtain ⟨es, hes, hplain⟩ := exists_members h hforms
    exact ⟨es, hes.first h93, hplain⟩

lemma exists_bracket {p e : Bytes} (h : classEnd p = some e) (hforms : NoForms p) :
    ∃ neg es, Bracket p neg es e.tail ∧ ∀ e ∈ es, e.Plain := by
  rw [classEnd] at h
  by_cases hneg : p.head? = some 33 ∨ p.head? = some 94
  · cases p with
    | nil => rcases hneg with hneg | hneg <;> cases hneg
    | cons c q =>
      have hc : c = 33 ∨ c = 94 := hneg.imp Option.some.inj Option.some.inj
      rw [(skipNegation_cons hc).2] at h
      obtain ⟨es, hes, hplain⟩ := exists_members_first h (hforms.suffix (List.suffix_cons c q))
      exact ⟨true, es, .negation hc hes, hplain⟩
  · obtain ⟨h33, h94⟩ := not_or.1 hneg
    rw [(skipNegation_of_ne h33 h94).2] at h
    obtain ⟨es, hes, hplain⟩ := exists_members_first h hforms
    exact ⟨false, es, .list h33 h94 hes, hplain⟩

end Existence

/-- Both scanners end a class at one bracket. Where POSIX reads the class without named classes,
equivalence classes and collating symbols and without a range from a leading `]`, they end it where
POSIX does and accept the characters that POSIX accepts; and every class they find in a pattern
without those forms is such an expression. -/
theorem match_class_posix (p : Bytes) (c : UInt8) :
    (∀ e, classEnd p = some e → (matchClass p c).2 = e.tail) ∧
    (∀ neg es rest, Bracket p neg es rest → (∀ e ∈ es, e.Plain) → ¬LeadingRange p →
      classEnd p = some (93 :: rest) ∧ ((matchClass p c).1 = true ↔ Accepted neg es c)) ∧
    ∀ e, classEnd p = some e → NoForms p →
      ∃ neg es, Bracket p neg es e.tail ∧ ∀ e ∈ es, e.Plain :=
  ⟨fun _ h => matchClass_end h c, fun _ _ _ h hplain hrange => h.exact hplain hrange c,
    fun _ h hforms => exists_bracket h hforms⟩

/-- POSIX takes `]-a` in front as a range and `[:digit:]` as the digits. -/
theorem match_class_not_posix :
    (Bracket [93, 45, 97, 93] false [.range ⟨93, false⟩ ⟨97, false⟩] [] ∧
      Accepted false [.range ⟨93, false⟩ ⟨97, false⟩] 94 ∧
      classEnd [93, 45, 97, 93] = some [93] ∧ (matchClass [93, 45, 97, 93] 94).1 = false) ∧
    (Bracket (91 :: 58 :: (ClassName.digit.text ++ [58, 93, 93])) false [.named .digit] [] ∧
      Accepted false [.named .digit] 53 ∧
      classEnd (91 :: 58 :: (ClassName.digit.text ++ [58, 93, 93])) = some [93, 93] ∧
      (matchClass (91 :: 58 :: (ClassName.digit.text ++ [58, 93, 93])) 53).1 = false) := by
  have htext : ClassName.digit.text = [100, 105, 103, 105, 116] := by decide +kernel
  refine ⟨⟨?_, ?_, by decide, by decide⟩, ?_, ?_, ?_, ?_⟩
  · have hlo : Endpoint true [93, 45, 97, 93] ⟨93, false⟩ [45, 97, 93] :=
      .plain (by decide) (fun _ => rfl) (fun hc => absurd hc (by decide))
    have hhi : Endpoint false [97, 93] ⟨97, false⟩ [93] :=
      .plain (by decide) (fun hc => absurd hc (by decide)) (fun hc => absurd hc (by decide))
    exact .list (by decide) (by decide) (.range hlo (by decide) hhi .close)
  · exact iff_of_true ⟨_, List.mem_cons_self, by decide, by decide⟩ rfl
  · exact .list (by rw [htext]; decide) (by rw [htext]; decide) (.named .close)
  · exact iff_of_true ⟨_, List.mem_cons_self, show ClassName.digit.has 53 = true by decide⟩ rfl
  · rw [htext]
    decide
  · rw [htext]
    decide

end AsmTest.Glob
