import AsmTest.Lib.Json
import AsmTest.Lib.Wildcard

/-!
# The portable glob matcher

`asmtest_glob_match` with its two scanners of bracket classes. A string is the list of its bytes
before the terminator, and a pointer into it is what is left of it.
-/

namespace AsmTest.Glob

open Lib Wildcard

section Code

/-- The loop of `class_end` -/
def classScan : Bytes → Option Bytes
  | [] => none
  | c :: p =>
    if c = 93 then some (c :: p)
    else if c = 92 then
      match p with
      | [] => none
      | _ :: p => classScan p
    else classScan p

/-- A `!` or `^` in front -/
def negated (p : Bytes) : Bool :=
  p.head? = some 33 || p.head? = some 94

def skipNegation (p : Bytes) : Bytes :=
  if negated p then p.tail else p

/-- `class_end`: the closing bracket and what follows it -/
def classEnd (p : Bytes) : Option Bytes :=
  let p := skipNegation p
  classScan (if p.head? = some 93 then p.tail else p)

/-- A member or an endpoint, escaped or not, and what follows it -/
def readMember : Bytes → UInt8 × Bytes
  | [] => (0, [])
  | c :: p =>
    if c = 92 then
      match p with
      | [] => (c, [])
      | x :: p => (x, p)
    else (c, p)

/-- `p[0] == '-' && p[1] != '\0' && p[1] != ']'` -/
def startsRange : Bytes → Bool
  | a :: h :: _ => a = 45 && h ≠ 93
  | _ => false

/-- The loop of `match_class` -/
def matchMembers (c : UInt8) : ℕ → Bool → Bytes → Bool × Bytes
  | 0, matched, p => (matched, p)
  | fuel + 1, matched, p =>
    if p.head? = none ∨ p.head? = some 93 then (matched, p)
    else
      let lo := readMember p
      if startsRange lo.2 then
        let hi := readMember lo.2.tail
        matchMembers c fuel (matched || (lo.1 ≤ c && c ≤ hi.1)) hi.2
      else matchMembers c fuel (matched || c = lo.1) lo.2

/-- `match_class`: whether `c` is accepted, and the pattern behind the class -/
def matchClass (p : Bytes) (c : UInt8) : Bool × Bytes :=
  let negate := negated p
  let p := skipNegation p
  let r :=
    if p.head? = some 93 then matchMembers c p.length (c = 93) p.tail
    else matchMembers c p.length false p
  (if negate then !r.1 else r.1, if r.2.head? = some 93 then r.2.tail else r.2)

structure GlobState where
  pattern : Bytes
  str : Bytes
  /-- The pattern behind the last `*` and the text where it was seen -/
  star : Option (Bytes × Bytes)

/-- `pattern = star; str = ++ss`, or `return 0` when there was no star -/
def backtrack (s : GlobState) : Option GlobState :=
  match s.star with
  | none => none
  | some (star, ss) => some ⟨star, ss.tail, some (star, ss.tail)⟩

/-- One turn of the loop, at the byte `c` with `t` behind it; `none` is `return 0`. -/
def globStep (s : GlobState) (c : UInt8) (t : Bytes) : Option GlobState :=
  match s.pattern with
  | [] => backtrack s
  | p :: rest =>
    if p = 63 then some { s with pattern := rest, str := t }
    else if p = 42 then some ⟨rest, c :: t, some (rest, c :: t)⟩
    else if p = 91 ∧ (classEnd rest).isSome then
      if (matchClass rest c).1 then some { s with pattern := (matchClass rest c).2, str := t }
      else backtrack s
    else if p = 92 then
      match rest with
      | [] => none
      | x :: rest => if x = c then some { s with pattern := rest, str := t } else backtrack s
    else if p = c then some { s with pattern := rest, str := t }
    else backtrack s

/-- The loop, for at most `fuel` turns, and the test behind it -/
def globLoop : ℕ → GlobState → Option Bool
  | 0, _ => none
  | fuel + 1, s =>
    match s.str with
    | [] => some (s.pattern.dropWhile (fun p => p = 42) = [])
    | c :: t =>
      match globStep s c t with
      | none => some false
      | some s' => globLoop fuel s'

/-- `asmtest_glob_match`, for at most `fuel` turns of its loop -/
def globMatch (fuel : ℕ) (pattern str : Bytes) : Option Bool :=
  globLoop fuel ⟨pattern, str, none⟩

end Code

section Classes

lemma classScan_close (p : Bytes) : classScan (93 :: p) = some (93 :: p) := by
  rw [classScan.eq_def]
  simp

lemma classScan_escape (x : UInt8) (p : Bytes) : classScan (92 :: x :: p) = classScan p := by
  simp [classScan]

lemma classScan_cons {c : UInt8} (h93 : c ≠ 93) (h92 : c ≠ 92) (p : Bytes) :
    classScan (c :: p) = classScan p := by
  rw [classScan.eq_def]
  simp [h93, h92]

lemma classScan_backslash : classScan [92] = none := by
  simp [classScan]

lemma readMember_escape (x : UInt8) (p : Bytes) : readMember (92 :: x :: p) = (x, p) :=
  rfl

lemma readMember_cons {c : UInt8} (h92 : c ≠ 92) (p : Bytes) : readMember (c :: p) = (c, p) := by
  rw [readMember.eq_def]
  simp [h92]

/-- The kinds of text a scanner can stand at -/
lemma scan_cases (p : Bytes) : p = [] ∨ (∃ q, p = 93 :: q) ∨ p = [92] ∨ (∃ x q, p = 92 :: x :: q) ∨
    ∃ c q, p = c :: q ∧ c ≠ 93 ∧ c ≠ 92 := by
  match p with
  | [] => exact Or.inl rfl
  | [c] =>
    by_cases h93 : c = 93
    · exact Or.inr (Or.inl ⟨[], by rw [h93]⟩)
    · by_cases h92 : c = 92
      · exact Or.inr (Or.inr (Or.inl (by rw [h92])))
      · exact Or.inr (Or.inr (Or.inr (Or.inr ⟨c, [], rfl, h93, h92⟩)))
  | c :: x :: q =>
    by_cases h93 : c = 93
    · exact Or.inr (Or.inl ⟨x :: q, by rw [h93]⟩)
    · by_cases h92 : c = 92
      · exact Or.inr (Or.inr (Or.inr (Or.inl ⟨x, q, by rw [h92]⟩)))
      · exact Or.inr (Or.inr (Or.inr (Or.inr ⟨c, x :: q, rfl, h93, h92⟩)))

lemma length_classScan {p e : Bytes} (h : classScan p = some e) :
    e.length ≤ p.length ∧ e.head? = some 93 := by
  induction hn : p.length using Nat.strong_induction_on generalizing p with
  | _ n ih =>
    rcases scan_cases p with rfl | ⟨q, rfl⟩ | rfl | ⟨x, q, rfl⟩ | ⟨c, q, rfl, h93, h92⟩
    · cases h
    · rw [classScan_close] at h
      cases h
      exact ⟨hn.le, rfl⟩
    · rw [classScan_backslash] at h
      cases h
    · rw [classScan_escape] at h
      simp only [List.length_cons] at hn
      have := ih q.length (by omega) h rfl
      exact ⟨by omega, this.2⟩
    · rw [classScan_cons h93 h92] at h
      simp only [List.length_cons] at hn
      have := ih q.length (by omega) h rfl
      exact ⟨by omega, this.2⟩

lemma length_classEnd {p e : Bytes} (h : classEnd p = some e) :
    e.length ≤ p.length ∧ e.head? = some 93 := by
  have hscan := length_classScan h
  have hskip : (skipNegation p).length ≤ p.length := by
    rw [skipNegation]
    split_ifs <;> simp
  refine ⟨?_, hscan.2⟩
  have hle := hscan.1
  split_ifs at hle
  · rw [List.length_tail] at hle
    omega
  · omega

/-- A step of `match_class` over a member is a step of `class_end`. -/
lemma classScan_readMember {p : Bytes} (h : p.head? ≠ some 93) :
    classScan p = classScan (readMember p).2 := by
  rcases scan_cases p with rfl | ⟨q, rfl⟩ | rfl | ⟨x, q, rfl⟩ | ⟨c, q, rfl, h93, h92⟩
  · rfl
  · exact absurd rfl h
  · rfl
  · rw [classScan_escape, readMember_escape]
  · rw [classScan_cons h93 h92, readMember_cons h92]

lemma length_readMember {p : Bytes} (h : p ≠ []) : (readMember p).2.length < p.length := by
  rcases scan_cases p with rfl | ⟨q, rfl⟩ | rfl | ⟨x, q, rfl⟩ | ⟨c, q, rfl, h93, h92⟩
  · exact absurd rfl h
  · rw [readMember_cons (by decide)]
    exact Nat.lt_succ_self _
  · exact Nat.zero_lt_one
  · rw [readMember_escape]
    simp only [List.length_cons]
    omega
  · rw [readMember_cons h92]
    exact Nat.lt_succ_self _

lemma startsRange_iff {p : Bytes} :
    startsRange p = true ↔ ∃ h q, p = 45 :: h :: q ∧ h ≠ 93 := by
  match p with
  | [] => simp [startsRange]
  | [a] => simp [startsRange]
  | a :: h :: q => simp [startsRange]

/-- Both scanners stop at the same bracket. -/
lemma matchMembers_end (c : UInt8) {fuel : ℕ} {p e : Bytes} (matched : Bool)
    (h : classScan p = some e) (hf : p.length ≤ fuel) :
    (matchMembers c fuel matched p).2 = e := by
  induction fuel generalizing p matched with
  | zero =>
    rw [List.length_eq_zero_iff.1 (Nat.le_zero.1 hf)] at h
    cases h
  | succ fuel ih =>
    rw [matchMembers]
    by_cases hstop : p.head? = none ∨ p.head? = some 93
    · rw [if_pos hstop]
      cases p with
      | nil => cases h
      | cons b p =>
        have hb : b = 93 := by simpa using hstop
        rw [hb, classScan_close] at h
        cases h
        rw [hb]
    · rw [if_neg hstop]
      obtain ⟨hne, h93⟩ := not_or.1 hstop
      have hnil : p ≠ [] := fun hnil => hne (by rw [hnil]; rfl)
      have hlen := length_readMember hnil
      rw [classScan_readMember h93] at h
      dsimp only
      split_ifs with hrange
      · obtain ⟨x, q, hq, hx⟩ := startsRange_iff.1 hrange
        have hscan : classScan (readMember (x :: q)).2 = some e := by
          rw [hq, classScan_cons (by decide) (by decide)] at h
          rwa [classScan_readMember (by simpa using hx)] at h
        have hlen' := length_readMember (List.cons_ne_nil x q)
        rw [hq] at hlen
        rw [hq, List.tail_cons]
        apply ih _ hscan
        simp only [List.length_cons] at hlen hlen'
        omega
      · exact ih _ h (by omega)

lemma matchClass_end {p e : Bytes} (h : classEnd p = some e) (c : UInt8) :
    (matchClass p c).2 = e.tail := by
  have hhead := (length_classEnd h).2
  have hmem : ∀ m : Bool, (if (skipNegation p).head? = some 93 then
      matchMembers c (skipNegation p).length (c = 93) (skipNegation p).tail
      else matchMembers c (skipNegation p).length m (skipNegation p)).2 = e := by
    intro m
    rw [classEnd] at h
    split_ifs at h ⊢
    · exact matchMembers_end c _ h (by rw [List.length_tail]; omega)
    · exact matchMembers_end c _ h le_rfl
  rw [matchClass]
  dsimp only
  rw [hmem, if_pos hhead]

end Classes

section Backslash

lemma classScan_suffix {p e : Bytes} (h : classScan p = some e) : e <:+ p := by
  induction hn : p.length using Nat.strong_induction_on generalizing p with
  | _ n ih =>
    rcases scan_cases p with rfl | ⟨q, rfl⟩ | rfl | ⟨x, q, rfl⟩ | ⟨c, q, rfl, h93, h92⟩
    · cases h
    · rw [classScan_close] at h
      cases h
      exact List.suffix_refl _
    · rw [classScan_backslash] at h
      cases h
    · rw [classScan_escape] at h
      simp only [List.length_cons] at hn
      exact (ih q.length (by omega) h rfl).trans (List.suffix_append [92, x] q)
    · rw [classScan_cons h93 h92] at h
      simp only [List.length_cons] at hn
      exact (ih q.length (by omega) h rfl).trans (List.suffix_cons c q)

lemma classEnd_suffix {p e : Bytes} (h : classEnd p = some e) : e <:+ p := by
  have hskip : skipNegation p <:+ p := by
    rw [skipNegation]
    split_ifs
    · exact List.tail_suffix p
    · exact List.suffix_refl p
  have hscan := classScan_suffix h
  split_ifs at hscan
  · exact hscan.trans ((List.tail_suffix _).trans hskip)
  · exact hscan.trans hskip

/-- A backslash that nothing escapes stands at the end: an odd number of them does. -/
def LoneBackslash (p : Bytes) : Prop :=
  ∃ q k, p = q ++ List.replicate (2 * k + 1) 92 ∧ q.getLast? ≠ some 92

/-- What is left of the text before the backslashes still does not end in one. -/
lemma getLast?_ne_of_append {d q : Bytes} (h : (d ++ q).getLast? ≠ some 92) :
    q.getLast? ≠ some 92 := by
  intro hq
  rw [List.getLast?_append, hq] at h
  exact h rfl

lemma LoneBackslash.tail {c : UInt8} {rest : Bytes} (hc : c ≠ 92)
    (h : LoneBackslash (c :: rest)) : LoneBackslash rest := by
  obtain ⟨q, k, heq, hq⟩ := h
  cases q with
  | nil =>
    rw [List.nil_append, List.replicate_succ, List.cons.injEq] at heq
    exact absurd heq.1 hc
  | cons d q =>
    rw [List.cons_append, List.cons.injEq] at heq
    exact ⟨q, k, heq.2, getLast?_ne_of_append (d := [d]) hq⟩

lemma LoneBackslash.escaped {x : UInt8} {rest : Bytes} (h : LoneBackslash (92 :: x :: rest)) :
    LoneBackslash rest := by
  obtain ⟨q, k, heq, hq⟩ := h
  match q with
  | [] =>
    cases k with
    | zero =>
      rw [List.nil_append] at heq
      cases heq
    | succ k =>
      rw [List.nil_append, Nat.mul_succ, List.replicate_succ, List.replicate_succ, List.cons.injEq,
        List.cons.injEq] at heq
      exact ⟨[], k, heq.2.2, by simp⟩
  | [d] =>
    rw [List.cons_append, List.cons.injEq] at heq
    rw [← heq.1] at hq
    exact absurd rfl hq
  | d :: d' :: q =>
    rw [List.cons_append, List.cons_append, List.cons.injEq, List.cons.injEq] at heq
    exact ⟨q, k, heq.2.2, getLast?_ne_of_append (d := [d, d']) hq⟩

/-- A class that is closed ends before the backslashes. -/
lemma LoneBackslash.class {rest e : Bytes} (he : classEnd rest = some e)
    (h : LoneBackslash (91 :: rest)) : LoneBackslash e.tail := by
  obtain ⟨q, k, heq, hq⟩ := h.tail (by decide)
  obtain ⟨d, hd⟩ := classEnd_suffix he
  have hhead := (length_classEnd he).2
  rw [heq, List.append_eq_append_iff] at hd
  rcases hd with ⟨a, rfl, he'⟩ | ⟨a, rfl, he'⟩
  · cases a with
    | nil =>
      rw [he', List.nil_append, List.replicate_succ] at hhead
      cases hhead
    | cons b a =>
      rw [he']
      exact ⟨a, k, rfl, getLast?_ne_of_append (d := [b]) (getLast?_ne_of_append hq)⟩
  · have hmem : (93 : UInt8) ∈ e := List.mem_of_mem_head? hhead
    have hrun : (93 : UInt8) ∈ List.replicate (2 * k + 1) (92 : UInt8) := by
      rw [he']
      exact List.mem_append_right _ hmem
    exact absurd (List.eq_of_mem_replicate hrun) (by decide)

end Backslash

section Tokens

/-- The items of a pattern: a star, any character, a character of a class, or one character. A
backslash at the end stands for no character. -/
def tokens (p : Bytes) : List (Item UInt8) :=
  match p with
  | [] => []
  | c :: rest =>
    if c = 63 then .one (fun _ => True) :: tokens rest
    else if c = 42 then .star :: tokens rest
    else if c = 92 then
      match rest with
      | [] => [.one fun _ => False]
      | x :: rest => .one (fun b => b = x) :: tokens rest
    else if c = 91 then
      match _he : classEnd rest with
      | some e => .one (fun b => (matchClass rest b).1 = true) :: tokens e.tail
      | none => .one (fun b => b = c) :: tokens rest
    else .one (fun b => b = c) :: tokens rest
termination_by p.length
decreasing_by
  all_goals simp only [List.length_cons, List.length_tail]
  · omega
  · omega
  · omega
  · have := (length_classEnd _he).1
    omega
  · omega
  · omega

lemma tokens_nil : tokens [] = [] := by
  rw [tokens]

lemma tokens_star (p : Bytes) : tokens (42 :: p) = .star :: tokens p := by
  rw [tokens.eq_def]
  simp

/-- The item at the front is a test of one byte, whose outcome is that of the branch of the code. -/
lemma tokens_cons {c : UInt8} (rest : Bytes) (hstar : c ≠ 42) :
    ∃ test rest', tokens (c :: rest) = .one test :: tokens rest' ∧ rest'.length ≤ rest.length ∧
      (LoneBackslash (c :: rest) → (∀ b, ¬test b) ∨ LoneBackslash rest') ∧
      ∀ (s : GlobState) (b : UInt8) (t : Bytes), s.pattern = c :: rest →
        (test b ∧ globStep s b t = some { s with pattern := rest', str := t }) ∨
        (¬test b ∧ globStep s b t = backtrack s) ∨
        ((∀ b, ¬test b) ∧ globStep s b t = none) := by
  by_cases hany : c = 63
  · refine ⟨fun _ => True, rest, ?_, le_rfl, fun h => Or.inr (h.tail ?_), ?_⟩
    · rw [tokens.eq_def]
      simp [hany]
    · rw [hany]
      decide
    · intro s b t hs
      left
      rw [globStep, hs]
      simp [hany]
  by_cases hesc : c = 92
  · cases rest with
    | nil =>
      refine ⟨fun _ => False, [], ?_, le_rfl, fun _ => Or.inl fun _ => id, ?_⟩
      · rw [tokens.eq_def, hesc]
        simp [tokens_nil]
      · intro s b t hs
        right
        right
        rw [globStep, hs, hesc]
        simp
    | cons x rest =>
      refine ⟨fun b => b = x, rest, ?_, Nat.le_succ _, fun h => Or.inr ?_, ?_⟩
      · rw [tokens.eq_def, hesc]
        simp
      · rw [hesc] at h
        exact h.escaped
      · intro s b t hs
        rw [globStep, hs, hesc]
        by_cases hb : x = b
        · left
          simp [hb]
        · right
          left
          simp [hb, Ne.symm hb]
  by_cases hcls : c = 91 ∧ (classEnd rest).isSome = true
  · obtain ⟨e, he⟩ := Option.isSome_iff_exists.1 hcls.2
    refine ⟨fun b => (matchClass rest b).1 = true, e.tail, ?_, ?_, fun h => Or.inr ?_, ?_⟩
    · rw [tokens.eq_def]
      dsimp only
      rw [if_neg hany, if_neg hstar, if_neg hesc, if_pos hcls.1]
      split
      · rename_i e' he'
        rw [he] at he'
        cases he'
        rfl
      · rename_i hnone
        rw [he] at hnone
        cases hnone
    · have := (length_classEnd he).1
      rw [List.length_tail]
      omega
    · rw [hcls.1] at h
      exact h.class he
    · intro s b t hs
      rw [globStep, hs]
      dsimp only
      rw [if_neg hany, if_neg hstar, if_pos hcls, matchClass_end he b]
      by_cases hb : (matchClass rest b).1 = true
      · left
        rw [if_pos hb]
        exact ⟨hb, rfl⟩
      · right
        left
        rw [if_neg hb]
        exact ⟨hb, rfl⟩
  · -- a plain character, among them a bracket that nothing closes
    refine ⟨fun b => b = c, rest, ?_, le_rfl, fun h => Or.inr (h.tail hesc), ?_⟩
    · rw [tokens.eq_def]
      dsimp only
      rw [if_neg hany, if_neg hstar, if_neg hesc]
      split_ifs with h91
      · split
        · rename_i e' he'
          exact absurd ⟨h91, by rw [he']; rfl⟩ hcls
        · rfl
      · rfl
    · intro s b t hs
      rw [globStep, hs]
      dsimp only
      rw [if_neg hany, if_neg hstar, if_neg hcls, if_neg hesc]
      by_cases hb : c = b
      · left
        rw [if_pos hb]
        exact ⟨hb.symm, rfl⟩
      · right
        left
        rw [if_neg hb]
        exact ⟨Ne.symm hb, rfl⟩

end Tokens

section Run

/-- What the loop knows: without a star the rest has to match; with one, the text from the star on
has to match what follows it, and the letters since then are matched as early as they can be. -/
def Invariant (pattern str : Bytes) (s : GlobState) : Prop :=
  match s.star with
  | none => Matches (tokens pattern) str ↔ Matches (tokens s.pattern) s.str
  | some (star, ss) => ∃ n, s.str = ss.drop n ∧ n ≤ ss.length ∧
      Consumes (tokens star) (tokens s.pattern) n ∧
      (Matches (tokens s.pattern) s.str → Matches (tokens star) ss) ∧
      (Matches (tokens pattern) str ↔ Matches (.star :: tokens star) ss)

variable {pattern str : Bytes} {s : GlobState}

/-- In every state a match of the whole is a match of the rest, or one of a later start. -/
lemma Invariant.of_rest (h : Invariant pattern str s) (hm : Matches (tokens s.pattern) s.str) :
    Matches (tokens pattern) str := by
  rw [Invariant] at h
  cases hstar : s.star with
  | none =>
    rw [hstar] at h
    exact h.2 hm
  | some p =>
    rw [hstar] at h
    obtain ⟨n, -, -, -, hback, hiff⟩ := h
    exact hiff.2 (matches_star.2 ⟨0, hback hm⟩)

/-- Going past a letter that the item accepts -/
lemma Invariant.advance (h : Invariant pattern str s) {test : UInt8 → Prop} {rest' : Bytes}
    {c : UInt8} {t : Bytes} (htok : tokens s.pattern = .one test :: tokens rest')
    (hstr : s.str = c :: t) (hc : test c) :
    Invariant pattern str { s with pattern := rest', str := t } := by
  have hrest : Matches (tokens s.pattern) s.str ↔ Matches (tokens rest') t := by
    rw [htok, hstr, matches_one]
    constructor
    · rintro ⟨c', t', heq, -, ht⟩
      rw [List.cons.injEq] at heq
      rwa [heq.2]
    · exact fun ht => ⟨c, t, rfl, hc, ht⟩
  rw [Invariant] at h ⊢
  dsimp only
  cases hstar : s.star with
  | none =>
    rw [hstar] at h
    exact h.trans hrest
  | some p =>
    rw [hstar] at h
    obtain ⟨n, hdrop, hn, hcons, hback, hiff⟩ := h
    have hn' : n < p.2.length := by
      by_contra hge
      rw [hdrop, List.drop_of_length_le (not_lt.1 hge)] at hstr
      cases hstr
    refine ⟨n + 1, ?_, hn', ?_, fun hm => hback (hrest.2 hm), hiff⟩
    · rw [← List.drop_drop, ← hdrop, hstr]
      rfl
    · rw [htok] at hcons
      exact hcons.step

/-- A new star takes over from the old one. -/
lemma Invariant.star (h : Invariant pattern str s) {rest : Bytes} (hp : s.pattern = 42 :: rest) :
    Invariant pattern str ⟨rest, s.str, some (rest, s.str)⟩ := by
  have htok : tokens s.pattern = .star :: tokens rest := by rw [hp, tokens_star]
  refine ⟨0, rfl, Nat.zero_le _, consumes_refl _, id, ?_⟩
  rw [Invariant] at h
  cases hstar : s.star with
  | none =>
    rw [hstar, htok] at h
    exact h
  | some p =>
    rw [hstar, htok] at h
    obtain ⟨n, hdrop, -, hcons, hback, hiff⟩ := h
    rw [hiff]
    constructor
    · intro hm
      rw [hdrop]
      exact matches_star_of_consumes hcons hm
    · exact fun hm => matches_star.2 ⟨0, hback hm⟩

/-- Where the rest cannot match, the loop returns 0 or starts again one letter later. -/
lemma Invariant.backtrack (h : Invariant pattern str s) {c : UInt8} {t : Bytes}
    (hstr : s.str = c :: t) (hno : ¬Matches (tokens s.pattern) s.str) :
    (Glob.backtrack s = none ∧ ¬Matches (tokens pattern) str) ∨
      ∃ star ss, s.star = some (star, ss) ∧ ss ≠ [] ∧
        Glob.backtrack s = some ⟨star, ss.tail, some (star, ss.tail)⟩ ∧
        Invariant pattern str ⟨star, ss.tail, some (star, ss.tail)⟩ := by
  rw [Invariant] at h
  cases hstar : s.star with
  | none =>
    rw [hstar] at h
    left
    refine ⟨?_, mt h.1 hno⟩
    rw [Glob.backtrack, hstar]
  | some p =>
    obtain ⟨star, ss⟩ := p
    rw [hstar] at h
    obtain ⟨n, hdrop, -, hcons, hback, hiff⟩ := h
    right
    cases ss with
    | nil =>
      rw [hdrop, List.drop_nil] at hstr
      cases hstr
    | cons d ss =>
      refine ⟨star, d :: ss, rfl, List.cons_ne_nil _ _, ?_, 0, rfl, Nat.zero_le _,
        consumes_refl _, id, ?_⟩
      · rw [Glob.backtrack, hstar]
      · rw [hiff]
        apply matches_star_tail
        intro hm
        apply hno
        rw [hdrop]
        exact hcons _ hm

/-- At the end of the text -/
lemma Invariant.finish (h : Invariant pattern str s) (hstr : s.str = []) :
    Matches (tokens pattern) str ↔ Matches (tokens s.pattern) [] := by
  constructor
  · intro hm
    rw [Invariant] at h
    cases hstar : s.star with
    | none =>
      rw [hstar, hstr] at h
      exact h.1 hm
    | some p =>
      rw [hstar] at h
      obtain ⟨n, hdrop, -, hcons, -, hiff⟩ := h
      obtain ⟨k, hk⟩ := matches_star.1 (hiff.1 hm)
      have hrest := hcons _ hk
      rwa [List.drop_drop, Nat.add_comm k n, ← List.drop_drop, ← hdrop, hstr, List.drop_nil]
        at hrest
  · intro hm
    rw [← hstr] at hm
    exact h.of_rest hm

/-- Where no text matches the rest, none matches the whole. -/
lemma Invariant.never (h : Invariant pattern str s) (hno : ∀ u, ¬Matches (tokens s.pattern) u) :
    ¬Matches (tokens pattern) str := by
  intro hm
  rw [Invariant] at h
  cases hstar : s.star with
  | none =>
    rw [hstar] at h
    exact hno _ (h.1 hm)
  | some p =>
    rw [hstar] at h
    obtain ⟨n, -, -, hcons, -, hiff⟩ := h
    obtain ⟨k, hk⟩ := matches_star.1 (hiff.1 hm)
    exact hno _ (hcons _ hk)

lemma matches_tokens_nil (p : Bytes) :
    Matches (tokens p) [] ↔ p.dropWhile (fun b => b = 42) = [] := by
  induction p with
  | nil =>
    rw [tokens_nil, matches_nil]
    exact iff_of_true rfl rfl
  | cons c p ih =>
    by_cases hc : c = 42
    · rw [hc, tokens_star, List.dropWhile_cons, if_pos (by decide), ← ih, matches_star]
      constructor
      · rintro ⟨k, hk⟩
        rwa [List.drop_nil] at hk
      · exact fun hm => ⟨0, hm⟩
    · obtain ⟨test, rest', htok, -⟩ := tokens_cons p hc
      rw [htok, matches_one, List.dropWhile_cons, if_neg (by simpa using hc)]
      constructor
      · rintro ⟨c', t, heq, -⟩
        cases heq
      · intro h
        cases h

/-- The turns that a state may still take, for a text of `L` and a pattern of `M` bytes -/
def turns (L M : ℕ) (s : GlobState) : ℕ :=
  (s.star.elim (L + 1) fun p => p.2.length) * (M + 1) + s.pattern.length

/-- The state lies inside the pattern and the text. -/
structure Within (L M : ℕ) (s : GlobState) : Prop where
  pattern : s.pattern.length ≤ M
  star : ∀ p ∈ s.star, p.1.length ≤ M ∧ s.str.length ≤ p.2.length ∧ p.2.length ≤ L
  str : s.str.length ≤ L

lemma turns_advance {L M : ℕ} {s : GlobState} {t : Bytes} {c : UInt8} (rest' : Bytes)
    (h : Within L M s) (hstr : s.str = c :: t) (hlen : rest'.length < s.pattern.length) :
    Within L M { s with pattern := rest', str := t } ∧
      turns L M { s with pattern := rest', str := t } < turns L M s := by
  have hp := h.pattern
  have hs := h.str
  rw [hstr, List.length_cons] at hs
  refine ⟨⟨by dsimp only; omega, ?_, by dsimp only; omega⟩, ?_⟩
  · intro p hmem
    have := h.star p hmem
    rw [hstr, List.length_cons] at this
    dsimp only
    omega
  · rw [turns, turns]
    dsimp only
    omega

lemma turns_star {L M : ℕ} {s : GlobState} {rest : Bytes} (h : Within L M s)
    (hp : s.pattern = 42 :: rest) :
    Within L M ⟨rest, s.str, some (rest, s.str)⟩ ∧
      turns L M ⟨rest, s.str, some (rest, s.str)⟩ < turns L M s := by
  have hlen := h.pattern
  rw [hp, List.length_cons] at hlen
  have hstr := h.str
  refine ⟨⟨by dsimp only; omega, ?_, hstr⟩, ?_⟩
  · intro p hmem
    cases hmem
    exact ⟨by dsimp only; omega, le_rfl, hstr⟩
  · have hle : s.str.length ≤ s.star.elim (L + 1) fun p => p.2.length := by
      cases hstar : s.star with
      | none =>
        rw [Option.elim_none]
        omega
      | some p => exact (h.star p hstar).2.1
    have hmul := Nat.mul_le_mul_right (M + 1) hle
    rw [turns, turns, hp, List.length_cons]
    dsimp only [Option.elim_some]
    omega

lemma turns_backtrack {L M : ℕ} {s : GlobState} {star ss : Bytes} (h : Within L M s)
    (hstar : s.star = some (star, ss)) (hne : ss ≠ []) :
    Within L M ⟨star, ss.tail, some (star, ss.tail)⟩ ∧
      turns L M ⟨star, ss.tail, some (star, ss.tail)⟩ < turns L M s := by
  obtain ⟨hlen, -, hss⟩ := h.star (star, ss) hstar
  have hpos := List.length_pos_of_ne_nil hne
  dsimp only at hlen hss
  refine ⟨⟨hlen, ?_, ?_⟩, ?_⟩
  · intro p hmem
    cases hmem
    refine ⟨hlen, le_rfl, ?_⟩
    dsimp only
    rw [List.length_tail]
    omega
  · dsimp only
    rw [List.length_tail]
    omega
  · rw [turns, turns, hstar]
    dsimp only [Option.elim_some]
    obtain ⟨k, hk⟩ := Nat.exists_eq_succ_of_ne_zero hpos.ne'
    rw [List.length_tail, hk, Nat.succ_sub_one, Nat.succ_mul]
    omega

lemma globLoop_exact {L M fuel : ℕ} (h : Invariant pattern str s) (hw : Within L M s)
    (hf : turns L M s < fuel) :
    ∃ b, globLoop fuel s = some b ∧ (b = true ↔ Matches (tokens pattern) str) := by
  induction fuel generalizing s with
  | zero => exact absurd hf (Nat.not_lt_zero _)
  | succ fuel ih =>
    rw [globLoop]
    cases hstr : s.str with
    | nil =>
      refine ⟨_, rfl, ?_⟩
      rw [h.finish hstr, matches_tokens_nil, decide_eq_true_eq]
    | cons c t =>
      have hback : ¬Matches (tokens s.pattern) s.str → globStep s c t = backtrack s →
          ∃ b, (match globStep s c t with
            | none => some false
            | some s' => globLoop fuel s') = some b ∧
              (b = true ↔ Matches (tokens pattern) str) := by
        intro hno hstep
        rw [hstep]
        rcases h.backtrack hstr hno with ⟨hnone, hfail⟩ | ⟨star, ss, hstar, hne, hsome, hinv⟩
        · rw [hnone]
          exact ⟨false, rfl, iff_of_false Bool.false_ne_true hfail⟩
        · rw [hsome]
          obtain ⟨hw', hlt⟩ := turns_backtrack hw hstar hne
          exact ih hinv hw' (by omega)
      dsimp only
      cases hp : s.pattern with
      | nil =>
        apply hback
        · rw [hp, hstr, tokens_nil, matches_nil]
          exact List.cons_ne_nil _ _
        · rw [globStep, hp]
      | cons p rest =>
        by_cases hstar : p = 42
        · rw [hstar] at hp
          have hstep : globStep s c t = some ⟨rest, s.str, some (rest, s.str)⟩ := by
            rw [globStep, hp, hstr]
            rfl
          obtain ⟨hw', hlt⟩ := turns_star hw hp
          rw [hstep]
          exact ih (h.star hp) hw' (by omega)
        · obtain ⟨test, rest', htok, hlen, -, hstep⟩ := tokens_cons rest hstar
          have hno : ¬test c → ¬Matches (tokens s.pattern) s.str := by
            intro hc hm
            rw [hp, htok, hstr] at hm
            obtain ⟨c', t', heq, hc', -⟩ := matches_one.1 hm
            cases heq
            exact hc hc'
          rcases hstep s c t hp with ⟨hc, hnext⟩ | ⟨hc, hnext⟩ | ⟨hnever, hnext⟩
          · obtain ⟨hw', hlt⟩ := turns_advance rest' hw hstr (by
              rw [hp, List.length_cons]
              omega)
            rw [hnext]
            exact ih (h.advance (by rw [hp, htok]) hstr hc) hw' (by omega)
          · exact hback (hno hc) hnext
          · -- a backslash at the end: no start can match
            rw [hnext]
            refine ⟨false, rfl, iff_of_false Bool.false_ne_true (h.never ?_)⟩
            intro u hu
            rw [hp, htok] at hu
            obtain ⟨c', -, -, hc', -⟩ := matches_one.1 hu
            exact hnever c' hc'

end Run

/-- A lone backslash at the end leaves an item that accepts nothing. -/
lemma LoneBackslash.not_matches {p : Bytes} (h : LoneBackslash p) (u : Bytes) :
    ¬Matches (tokens p) u := by
  induction hn : p.length using Nat.strong_induction_on generalizing p u with
  | _ n ih =>
    cases p with
    | nil =>
      obtain ⟨q, k, heq, -⟩ := h
      rw [List.replicate_succ'] at heq
      simp at heq
    | cons c rest =>
      rw [List.length_cons] at hn
      by_cases hstar : c = 42
      · rw [hstar] at h
        rw [hstar, tokens_star, matches_star]
        rintro ⟨k, hk⟩
        exact ih rest.length (by omega) (h.tail (by decide)) _ rfl hk
      · obtain ⟨test, rest', htok, hlen, hlone, -⟩ := tokens_cons rest hstar
        rw [htok, matches_one]
        rintro ⟨b, t, -, hb, ht⟩
        rcases hlone h with hnever | hlone'
        · exact hnever b hb
        · exact ih rest'.length (by omega) hlone' t rfl ht

/-- `asmtest_glob_match` returns for every pattern and text, and it returns 1 exactly when the text
can be cut into pieces that the items of the pattern accept; a pattern that ends in a lone backslash
matches nothing. -/
theorem glob_match_exact (pattern str : Bytes) :
    ∃ b, (∀ fuel > (str.length + 1) * (pattern.length + 1) + pattern.length,
        globMatch fuel pattern str = some b) ∧
      (b = true ↔ Matches (tokens pattern) str) ∧ (LoneBackslash pattern → b = false) := by
  have hinv : Invariant pattern str ⟨pattern, str, none⟩ := Iff.rfl
  have hw : Within str.length pattern.length ⟨pattern, str, none⟩ := by
    refine ⟨le_rfl, fun p hp => ?_, le_rfl⟩
    cases hp
  have hexact : ∀ fuel > (str.length + 1) * (pattern.length + 1) + pattern.length,
      ∃ b, globMatch fuel pattern str = some b ∧ (b = true ↔ Matches (tokens pattern) str) :=
    fun fuel hf => globLoop_exact hinv hw hf
  obtain ⟨b, -, hb⟩ := hexact _ (Nat.lt_succ_self _)
  refine ⟨b, fun fuel hf => ?_, hb, fun hlone => ?_⟩
  · -- the answer does not depend on the fuel
    obtain ⟨b', hb', hiff⟩ := hexact fuel hf
    rw [hb', Bool.eq_iff_iff.2 (hiff.trans hb.symm)]
  · rw [Bool.eq_false_iff]
    exact fun htrue => hlone.not_matches str (hb.1 htrue)

example : globMatch 60 (ascii "a*[b-d]") (ascii "abxc") = some true := by
  decide +kernel

end AsmTest.Glob
