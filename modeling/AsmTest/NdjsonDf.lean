import AsmTest.Streams
import AsmTest.DefUse

/-!
# The data-flow wire format

The C writer of `df_step` and `df_edge` lines. It prints piece by piece into a bounded buffer; what
it prints is compact JSON, and the decoder of the desktop reads the operands back.
-/

namespace AsmTest.Doc

open Lib
open Dataflow (LocKind DefUseEdge)

/-- The bytes of a C string up to its end -/
def cstr (s : Bytes) : Bytes :=
  s.takeWhile fun b => b ≠ 0

/-- `(b & 0xC0) == 0x80` -/
def isCont (b : UInt8) : Prop :=
  b &&& 0xC0 = 0x80

instance (b : UInt8) : Decidable (isCont b) :=
  inferInstanceAs (Decidable (_ = _))

/-- The length of the UTF-8 sequence at the front, or 0 -/
def asmtraceUtf8Len (s : Bytes) : ℕ :=
  let c0 := s.getD 0 0
  let s1 := s.getD 1 0
  let s2 := s.getD 2 0
  let s3 := s.getD 3 0
  if s.length = 0 then 0
  else if c0 < 0x80 then 1
  else if c0 < 0xC2 then 0
  else if c0 < 0xE0 then
    if s.length < 2 ∨ ¬isCont s1 then 0 else 2
  else if c0 < 0xF0 then
    if s.length < 3 ∨ ¬isCont s1 ∨ ¬isCont s2 then 0
    else if c0 = 0xE0 ∧ s1 < 0xA0 then 0
    else if c0 = 0xED ∧ 0xA0 ≤ s1 then 0
    else 3
  else if c0 < 0xF5 then
    if s.length < 4 ∨ ¬isCont s1 ∨ ¬isCont s2 ∨ ¬isCont s3 then 0
    else if c0 = 0xF0 ∧ s1 < 0x90 then 0
    else if c0 = 0xF4 ∧ 0x90 ≤ s1 then 0
    else 4
  else 0

/-- The loop of `asmtrace_escape` over what is left of the text, with what has been written. It
stops where the widest expansion might not fit. -/
def asmtraceEscapeLoop (cap : ℕ) : ℕ → Bytes → Bytes → Bytes
  | 0, out, _ => out
  | _ + 1, out, [] => out
  | n + 1, out, c :: src =>
    if out.length + 7 < cap then
      if c < 0x80 then asmtraceEscapeLoop cap n (out ++ escByte c) src
      else if asmtraceUtf8Len (c :: src) = 0 then
        asmtraceEscapeLoop cap n (out ++ [0xEF, 0xBF, 0xBD]) src
      else
        let len := asmtraceUtf8Len (c :: src)
        asmtraceEscapeLoop cap n (out ++ (c :: src).take len) ((c :: src).drop len)
    else out

def asmtraceEscape (cap : ℕ) (src : Bytes) : Bytes :=
  asmtraceEscapeLoop cap (cstr src).length [] (cstr src)

/-- Bounded append -/
def bp (cap : ℕ) (b s : Bytes) : Bytes :=
  if cap ≤ b.length + 1 then b else (b ++ s).take (cap - 1)

def locSpace : LocKind → String
  | .reg => "reg"
  | .memAbs => "abs"
  | .memOff => "off"

def boolText (b : Bool) : Bytes :=
  ascii (if b then "true" else "false")

/-- `%02x` -/
def hexByte (b : UInt8) : Bytes :=
  [hexDigit (b.toNat / 16), hexDigit (b.toNat % 16)]

/-- The bytes of a wide operand, when the side buffer holds them. The index is an unsigned int. -/
def wideBytes (r : Dataflow.ValRec) (wide : Option Bytes) : Option Bytes :=
  match wide with
  | none => none
  | some buf =>
    if r.valueValid = true ∧ 0 < r.size ∧ r.wideOff.toNat + r.size ≤ buf.length then
      some ((List.range r.size).map fun k => buf.getD ((r.wideOff.toNat + k) % 2 ^ 32) 0)
    else none

/-- The register, or the addressing terms and the address -/
def locPieces (r : Dataflow.ValRec) : List Bytes :=
  if r.kind = .reg then [ascii ",\"reg\":" ++ decimal r.reg.toNat]
  else [ascii ",\"reg\":" ++ decimal r.reg.toNat ++ ascii ",\"base\":" ++ decimal r.base.toNat ++
    ascii ",\"index\":" ++ decimal r.index.toNat ++ ascii ",\"scale\":" ++
    decimalInt r.scale.toInt ++ ascii ",\"disp\":" ++ decimalInt r.disp.toInt ++
    ascii ",\"addr\":" ++ decimal r.addr.toNat]

/-- The value, or the bytes of a wide one; nothing that was not measured -/
def valuePieces (r : Dataflow.ValRec) (wide : Option Bytes) : List Bytes :=
  if r.wide then
    [ascii ",\"wide\":true"] ++
      match wideBytes r wide with
      | none => []
      | some bytes => [ascii ",\"bytes\":\""] ++ bytes.map hexByte ++ [ascii "\""]
  else if r.valueValid then [ascii ",\"value\":" ++ decimal r.value.toNat] else []

/-- What `op_body` prints, one piece for each call of `bp` -/
def opPieces (r : Dataflow.ValRec) (wide : Option Bytes) : List Bytes :=
  [ascii "\x7b\"space\":\"" ++ ascii (locSpace r.kind) ++ ascii "\""] ++ locPieces r ++
  [ascii ",\"size\":" ++ decimal r.size ++ ascii ",\"write\":" ++ boolText r.isWrite ++
    ascii ",\"value_valid\":" ++ boolText r.valueValid] ++ valuePieces r wide ++ [ascii "\x7d"]

/-- The arguments of `asmtrace_df_step_body`; an absent text or buffer is a null pointer. -/
structure DfStepArgs where
  step : BitVec 32
  off : BitVec 64
  rbase : BitVec 64
  when : BitVec 64
  disasm : Bytes
  recs : List Dataflow.ValRec
  wide : Option Bytes

def opsPieces (wide : Option Bytes) : List Dataflow.ValRec → List Bytes
  | [] => []
  | r :: recs => opPieces r wide ++ recs.flatMap fun r => ascii "," :: opPieces r wide

/-- The size of the buffer a disassembly is escaped into -/
def escCap : ℕ := 512

def dfStepPieces (a : DfStepArgs) : List Bytes :=
  [ascii "\"step\":" ++ decimal a.step.toNat ++ ascii ",\"off\":" ++ decimal a.off.toNat] ++
  (if a.rbase ≠ 0 then [ascii ",\"rbase\":" ++ decimal a.rbase.toNat] else []) ++
  (if a.when ≠ 0 then [ascii ",\"when\":" ++ decimal a.when.toNat] else []) ++
  (if cstr a.disasm ≠ [] then
    [ascii ",\"disasm\":\"" ++ asmtraceEscape escCap a.disasm ++ ascii "\""] else []) ++
  [ascii ",\"ops\":["] ++ opsPieces a.wide a.recs ++ [ascii "]"]

def asmtraceDfStepBody (cap : ℕ) (a : DfStepArgs) : Bytes :=
  (dfStepPieces a).foldl (bp cap) []

def dfEdgePieces (e : DefUseEdge) : List Bytes :=
  [ascii "\"from\":" ++ decimal e.fromStep ++ ascii ",\"to\":" ++ decimal e.toStep ++
    ascii ",\"loc\":"] ++ opPieces e.loc none

def asmtraceDfEdgeBody (cap : ℕ) (e : DefUseEdge) : Bytes :=
  (dfEdgePieces e).foldl (bp cap) []

/-- The line that `asmtrace_emit` writes around a body -/
def asmtraceEmit (kind : String) (body : Bytes) : Bytes :=
  ascii "\x7b\"k\":\"" ++ ascii kind ++ ascii "\"," ++ body ++ ascii "\x7d"

/-- A large buffer takes every piece. -/
lemma foldl_bp {cap : ℕ} (pieces : List Bytes) (b : Bytes)
    (h : (b ++ pieces.flatten).length < cap) : pieces.foldl (bp cap) b = b ++ pieces.flatten := by
  induction pieces generalizing b with
  | nil => simp
  | cons s pieces ih =>
    rw [List.flatten_cons, ← List.append_assoc] at h ⊢
    have hlen : b.length + s.length + pieces.flatten.length < cap := by
      simpa [Nat.add_assoc] using h
    by_cases hs : s = []
    · have hb : bp cap b s = b := by
        rw [bp, hs, List.append_nil]
        split_ifs
        · rfl
        · exact List.take_of_length_le (by omega)
      rw [List.foldl_cons, hb, ih b (by simpa [hs] using h), hs, List.append_nil]
    · have hpos : 0 < s.length := List.length_pos_of_ne_nil hs
      have hb : bp cap b s = b ++ s := by
        rw [bp, if_neg (by omega)]
        exact List.take_of_length_le (by rw [List.length_append]; omega)
      rw [List.foldl_cons, hb, ih (b ++ s) h]

section Escape

lemma isCont_iff (b : UInt8) : isCont b ↔ 0x80 ≤ b ∧ b ≤ 0xBF := by
  have hall : ∀ n < 256, isCont (UInt8.ofNat n) ↔
      0x80 ≤ UInt8.ofNat n ∧ UInt8.ofNat n ≤ 0xBF := by decide +kernel
  have h := hall b.toNat b.toNat_lt
  rwa [UInt8.ofNat_toNat] at h

lemma utf8Ok_cons (a : UInt8) (l : Bytes) {n : ℕ} {lo hi : UInt8}
    (h : utf8Lead a = some (n, lo, hi)) : utf8Ok (a :: l) = utf8From n lo hi l := by
  rw [utf8Ok, utf8From, h]

lemma lt_iff_le_pred (b : UInt8) :
    (b < 0xA0 ↔ b ≤ 0x9F) ∧ (b < 0x90 ↔ b ≤ 0x8F) := by
  simp only [UInt8.lt_iff_toNat_lt, UInt8.le_iff_toNat_le]
  exact ⟨Nat.lt_succ_iff, Nat.lt_succ_iff⟩

/-- The bytes that are due, the first of them in its own range -/
lemma utf8From_take_succ (n : ℕ) (lo hi : UInt8) (s : Bytes) :
    n + 1 ≤ s.length ∧ utf8From (n + 1) lo hi (s.take (n + 1)) = true ↔
      (lo ≤ s.getD 0 0 ∧ s.getD 0 0 ≤ hi) ∧ 0 < s.length ∧
        n ≤ s.tail.length ∧ utf8From n 0x80 0xBF (s.tail.take n) = true := by
  cases s with
  | nil => exact ⟨fun h => absurd h.1 (Nat.not_succ_le_zero n), fun h => absurd h.2.1 (lt_irrefl 0)⟩
  | cons a s =>
    simp only [List.length_cons, List.take_succ_cons, utf8From, Bool.and_eq_true,
      decide_eq_true_eq, List.getD_cons_zero, List.tail_cons]
    constructor
    · rintro ⟨hlen, hr, hs⟩
      exact ⟨hr, Nat.succ_pos _, Nat.le_of_succ_le_succ hlen, hs⟩
    · rintro ⟨hr, -, hlen, hs⟩
      exact ⟨Nat.succ_le_succ hlen, hr, hs⟩

/-- As many continuation bytes as are due -/
lemma utf8From_take_cont (n : ℕ) (s : Bytes) :
    n ≤ s.length ∧ utf8From n 0x80 0xBF (s.take n) = true ↔
      n ≤ s.length ∧ ∀ i < n, isCont (s.getD i 0) := by
  induction n generalizing s with
  | zero => exact ⟨fun h => ⟨h.1, fun i hi => absurd hi (Nat.not_lt_zero i)⟩, fun h => ⟨h.1, rfl⟩⟩
  | succ n ih =>
    rw [utf8From_take_succ, ih, ← isCont_iff]
    cases s with
    | nil =>
      exact ⟨fun h => absurd h.2.1 (lt_irrefl 0), fun h => absurd h.1 (Nat.not_succ_le_zero n)⟩
    | cons a s =>
      simp only [List.tail_cons, List.length_cons, Nat.succ_le_succ_iff, Nat.succ_pos, true_and]
      constructor
      · rintro ⟨ha, hlen, hs⟩
        refine ⟨hlen, fun i hi => ?_⟩
        cases i with
        | zero => exact ha
        | succ i => exact hs i (Nat.lt_of_succ_lt_succ hi)
      · rintro ⟨hlen, hs⟩
        exact ⟨hs 0 (Nat.succ_pos n), hlen, fun i hi => hs (i + 1) (Nat.succ_lt_succ hi)⟩

/-- The continuation bytes of a sequence, as the branches test them -/
lemma conts_two (s : Bytes) : (2 ≤ s.length ∧ ∀ i < 2, isCont (s.getD i 0)) ↔
    ¬(s.length + 1 < 3 ∨ ¬isCont (s.getD 0 0) ∨ ¬isCont (s.getD 1 0)) := by
  rw [Nat.forall_lt_succ_right, Nat.forall_lt_succ_right]
  simp only [Nat.not_lt_zero, false_imp_iff, forall_const, true_and]
  rw [not_or, not_or, not_not, not_not, Nat.not_lt, Nat.succ_le_succ_iff]

lemma conts_three (s : Bytes) : (3 ≤ s.length ∧ ∀ i < 3, isCont (s.getD i 0)) ↔
    ¬(s.length + 1 < 4 ∨ ¬isCont (s.getD 0 0) ∨ ¬isCont (s.getD 1 0) ∨ ¬isCont (s.getD 2 0)) := by
  rw [Nat.forall_lt_succ_right, Nat.forall_lt_succ_right, Nat.forall_lt_succ_right]
  simp only [Nat.not_lt_zero, false_imp_iff, forall_const, true_and, and_assoc]
  rw [not_or, not_or, not_or, not_not, not_not, not_not, Nat.not_lt, Nat.succ_le_succ_iff]

section Measure

variable {c : UInt8} (s : Bytes)

lemma asmtraceUtf8Len_two (h0 : ¬c < 0x80) (h1 : ¬c < 0xC2) (h2 : c < 0xE0) :
    asmtraceUtf8Len (c :: s) =
      if 1 ≤ s.length ∧ utf8From 1 0x80 0xBF (s.take 1) = true then 2 else 0 := by
  have hcont : (1 ≤ s.length ∧ ∀ i < 1, isCont (s.getD i 0)) ↔
      ¬(s.length + 1 < 2 ∨ ¬isCont (s.getD 0 0)) := by
    rw [not_or, not_not, Nat.not_lt, Nat.succ_le_succ_iff]
    simp only [Nat.lt_one_iff, forall_eq]
  simp only [asmtraceUtf8Len, List.getD_cons_zero, List.getD_cons_succ, List.length_cons,
    Nat.succ_ne_zero, h0, h1, h2, if_false, if_true, utf8From_take_cont, hcont, ite_not]

lemma asmtraceUtf8Len_three (h2 : ¬c < 0xE0) (h3 : c < 0xF0) :
    asmtraceUtf8Len (c :: s) =
      if (2 ≤ s.length ∧ utf8From 2 0x80 0xBF (s.take 2) = true) ∧
        ¬(c = 0xE0 ∧ s.getD 0 0 < 0xA0) ∧ ¬(c = 0xED ∧ 0xA0 ≤ s.getD 0 0) then 3 else 0 := by
  have h0 : ¬c < 0x80 := fun h => h2 (h.trans (by decide))
  have h1 : ¬c < 0xC2 := fun h => h2 (h.trans (by decide))
  simp only [asmtraceUtf8Len, List.getD_cons_zero, List.getD_cons_succ, List.length_cons,
    Nat.succ_ne_zero, h0, h1, h2, h3, if_false, if_true, utf8From_take_cont, conts_two, ite_not,
    ite_and]

lemma asmtraceUtf8Len_four (h3 : ¬c < 0xF0) (h4 : c < 0xF5) :
    asmtraceUtf8Len (c :: s) =
      if (3 ≤ s.length ∧ utf8From 3 0x80 0xBF (s.take 3) = true) ∧
        ¬(c = 0xF0 ∧ s.getD 0 0 < 0x90) ∧ ¬(c = 0xF4 ∧ 0x90 ≤ s.getD 0 0) then 4 else 0 := by
  have h0 : ¬c < 0x80 := fun h => h3 (h.trans (by decide))
  have h1 : ¬c < 0xC2 := fun h => h3 (h.trans (by decide))
  have h2 : ¬c < 0xE0 := fun h => h3 (h.trans (by decide))
  simp only [asmtraceUtf8Len, List.getD_cons_zero, List.getD_cons_succ, List.length_cons,
    Nat.succ_ne_zero, h0, h1, h2, h3, h4, if_false, if_true, utf8From_take_cont, conts_three,
    ite_not, ite_and]

/-- Raising the floor of the first byte or lowering its ceiling -/
lemma utf8From_take_floor (n : ℕ) (lo : UInt8) (hlo : 0x80 ≤ lo) :
    ((n + 1 ≤ s.length ∧ utf8From (n + 1) 0x80 0xBF (s.take (n + 1)) = true) ∧ ¬s.getD 0 0 < lo) ↔
      n + 1 ≤ s.length ∧ utf8From (n + 1) lo 0xBF (s.take (n + 1)) = true := by
  rw [utf8From_take_succ, utf8From_take_succ, not_lt]
  constructor
  · rintro ⟨⟨⟨-, hhi⟩, hrest⟩, hge⟩
    exact ⟨⟨hge, hhi⟩, hrest⟩
  · rintro ⟨⟨hge, hhi⟩, hrest⟩
    exact ⟨⟨⟨hlo.trans hge, hhi⟩, hrest⟩, hge⟩

lemma utf8From_take_ceil (n : ℕ) {top hi : UInt8} (hhi : hi ≤ 0xBF)
    (hpred : ∀ b : UInt8, b < top ↔ b ≤ hi) :
    ((n + 1 ≤ s.length ∧ utf8From (n + 1) 0x80 0xBF (s.take (n + 1)) = true) ∧
        ¬top ≤ s.getD 0 0) ↔
      n + 1 ≤ s.length ∧ utf8From (n + 1) 0x80 hi (s.take (n + 1)) = true := by
  rw [utf8From_take_succ, utf8From_take_succ, not_le, hpred]
  constructor
  · rintro ⟨⟨⟨hlo, -⟩, hrest⟩, hle⟩
    exact ⟨⟨hlo, hle⟩, hrest⟩
  · rintro ⟨⟨hlo, hle⟩, hrest⟩
    exact ⟨⟨⟨hlo, hle.trans hhi⟩, hrest⟩, hle⟩

end Measure

/-- The measured length is the length that the lead byte announces, when the bytes behind it are
there and in range. -/
lemma asmtraceUtf8Len_eq (c : UInt8) (s : Bytes) :
    asmtraceUtf8Len (c :: s) =
      match utf8Lead c with
      | none => 0
      | some (n, lo, hi) =>
        if n ≤ s.length ∧ utf8From n lo hi (s.take n) = true then n + 1 else 0 := by
  rw [utf8Lead]
  by_cases h1 : c < 0x80
  · rw [if_pos h1]
    simp only [asmtraceUtf8Len, List.getD_cons_zero, List.length_cons, Nat.succ_ne_zero, h1,
      if_true, if_false, Nat.zero_le, List.take_zero, utf8From, and_self]
  rw [if_neg h1]
  by_cases h2 : c < 0xC2
  · rw [if_pos h2]
    simp only [asmtraceUtf8Len, List.getD_cons_zero, List.length_cons, Nat.succ_ne_zero, h1, h2,
      if_true, if_false]
  rw [if_neg h2]
  by_cases h3 : c < 0xE0
  · rw [if_pos h3]
    exact asmtraceUtf8Len_two s h1 h2 h3
  rw [if_neg h3]
  by_cases h4 : c = 0xE0
  · subst h4
    rw [if_pos rfl, asmtraceUtf8Len_three s (by decide) (by decide)]
    apply if_congr _ rfl rfl
    rw [← utf8From_take_floor s 1 0xA0 (by decide)]
    simp
  rw [if_neg h4]
  by_cases h5 : c = 0xED
  · subst h5
    rw [if_pos rfl, asmtraceUtf8Len_three s (by decide) (by decide)]
    apply if_congr _ rfl rfl
    rw [← utf8From_take_ceil s 1 (by decide) fun b => (lt_iff_le_pred b).1]
    simp
  rw [if_neg h5]
  by_cases h6 : c < 0xF0
  · rw [if_pos h6, asmtraceUtf8Len_three s h3 h6]
    apply if_congr _ rfl rfl
    exact and_iff_left ⟨fun h => h4 h.1, fun h => h5 h.1⟩
  rw [if_neg h6]
  by_cases h7 : c = 0xF0
  · subst h7
    rw [if_pos rfl, asmtraceUtf8Len_four s (by decide) (by decide)]
    apply if_congr _ rfl rfl
    rw [← utf8From_take_floor s 2 0x90 (by decide)]
    simp
  rw [if_neg h7]
  by_cases h8 : c < 0xF4
  · rw [if_pos h8, asmtraceUtf8Len_four s h6 (h8.trans (by decide))]
    apply if_congr _ rfl rfl
    exact and_iff_left ⟨fun h => h7 h.1, fun h => h8.ne h.1⟩
  rw [if_neg h8]
  by_cases h9 : c = 0xF4
  · subst h9
    rw [if_pos rfl, asmtraceUtf8Len_four s (by decide) (by decide)]
    apply if_congr _ rfl rfl
    rw [← utf8From_take_ceil s 2 (by decide) fun b => (lt_iff_le_pred b).2]
    simp
  rw [if_neg h9]
  have h10 : ¬c < 0xF5 := by
    rw [UInt8.lt_iff_toNat_lt] at h8 ⊢
    rw [← UInt8.toNat_inj] at h9
    have h244 : (0xF4 : UInt8).toNat = 244 := rfl
    have h245 : (0xF5 : UInt8).toNat = 245 := rfl
    omega
  simp only [asmtraceUtf8Len, List.getD_cons_zero, List.length_cons, Nat.succ_ne_zero, h1, h2, h3,
    h6, h10, if_false]

lemma asmtraceUtf8Len_cons (c : UInt8) (s : Bytes) {n : ℕ} {lo hi : UInt8}
    (h : utf8Lead c = some (n, lo, hi)) :
    asmtraceUtf8Len (c :: s) =
      if n ≤ s.length ∧ utf8From n lo hi (s.take n) = true then n + 1 else 0 := by
  rw [asmtraceUtf8Len_eq, h]

lemma asmtraceUtf8Len_of_lead_none {c : UInt8} (s : Bytes) (h : utf8Lead c = none) :
    asmtraceUtf8Len (c :: s) = 0 := by
  rw [asmtraceUtf8Len_eq, h]

/-- A sequence that is under way takes the bytes it announced, all of them continuation bytes. -/
lemma utf8From_take {n : ℕ} {lo hi : UInt8} (hlo : 0x80 ≤ lo) {l : Bytes}
    (h : utf8From n lo hi l = true) :
    n ≤ l.length ∧ utf8From n lo hi (l.take n) = true ∧ ∀ b ∈ l.take n, 0x80 ≤ b := by
  induction n generalizing lo hi l with
  | zero => exact ⟨Nat.zero_le _, rfl, by simp⟩
  | succ n ih =>
    cases l with
    | nil => simp [utf8From] at h
    | cons a l =>
      simp only [utf8From, Bool.and_eq_true, decide_eq_true_eq] at h
      obtain ⟨hlen, htake, hcont⟩ := ih le_rfl h.2
      refine ⟨Nat.succ_le_succ hlen, ?_, ?_⟩
      · simp [utf8From, h.1, htake]
      · rw [List.take_succ_cons, List.forall_mem_cons]
        exact ⟨hlo.trans h.1.1, hcont⟩

lemma utf8Lead_lo {c : UInt8} {n : ℕ} {lo hi : UInt8} (h : utf8Lead c = some (n, lo, hi)) :
    0x80 ≤ lo := by
  have hall : ∀ n < 256, ∀ p ∈ utf8Lead (UInt8.ofNat n), 0x80 ≤ p.2.1 := by decide +kernel
  exact hall c.toNat c.toNat_lt (n, lo, hi) (by rw [UInt8.ofNat_toNat]; exact h)

/-- What is measured is one sequence of bytes from 0x80 on. -/
lemma utf8Ok_take_len {c : UInt8} {s : Bytes} (hc : 0x80 ≤ c)
    (h : asmtraceUtf8Len (c :: s) ≠ 0) :
    utf8Ok ((c :: s).take (asmtraceUtf8Len (c :: s))) = true ∧
      ∀ b ∈ (c :: s).take (asmtraceUtf8Len (c :: s)), 0x80 ≤ b := by
  cases hlead : utf8Lead c with
  | none => exact absurd (asmtraceUtf8Len_of_lead_none s hlead) h
  | some p =>
    obtain ⟨n, lo, hi⟩ := p
    rw [asmtraceUtf8Len_cons c s hlead] at h ⊢
    split_ifs at h ⊢ with hn
    · obtain ⟨-, -, hcont⟩ := utf8From_take (utf8Lead_lo hlead) hn.2
      rw [List.take_succ_cons, utf8Ok_cons c _ hlead, List.forall_mem_cons]
      refine ⟨hn.2, hc, ?_⟩
      rwa [List.take_take, min_self] at hcont
    · exact absurd rfl h

lemma asmtraceUtf8Len_ne_zero {c : UInt8} {s : Bytes} (h : utf8Ok (c :: s) = true) :
    asmtraceUtf8Len (c :: s) ≠ 0 := by
  cases hlead : utf8Lead c with
  | none => simp [utf8Ok, utf8From, hlead] at h
  | some p =>
    obtain ⟨n, lo, hi⟩ := p
    rw [utf8Ok_cons c s hlead] at h
    obtain ⟨hlen, htake, -⟩ := utf8From_take (utf8Lead_lo hlead) h
    rw [asmtraceUtf8Len_cons c s hlead, if_pos ⟨hlen, htake⟩]
    exact Nat.succ_ne_zero n

lemma escape_append (s t : Bytes) : escape (s ++ t) = escape s ++ escape t :=
  List.flatMap_append

lemma escape_of_high {s : Bytes} (h : ∀ b ∈ s, 0x80 ≤ b) : escape s = s := by
  induction s with
  | nil => rfl
  | cons b s ih =>
    rw [List.forall_mem_cons] at h
    have hb : escByte b = [b] := by
      have h34 : b ≠ 34 := fun hb => absurd h.1 (by rw [hb]; decide)
      have h92 : b ≠ 92 := fun hb => absurd h.1 (by rw [hb]; decide)
      have h32 : ¬b < 0x20 := not_lt.2 (le_trans (by decide) h.1)
      simp [escByte, h34, h92, h32]
    rw [escape, List.flatMap_cons, hb, List.singleton_append]
    exact congrArg _ (ih h.2)

lemma utf8Ok_singleton {c : UInt8} (h : c < 0x80) : utf8Ok [c] = true := by
  simp [utf8Ok, utf8From, utf8Lead, h]

/-- Whatever the text was, what is written is the escaped form of some UTF-8 text. -/
lemma asmtraceEscapeLoop_spec (cap n : ℕ) {t : Bytes} (ht : utf8Ok t = true) (src : Bytes) :
    ∃ t', asmtraceEscapeLoop cap n (escape t) src = escape t' ∧ utf8Ok t' = true := by
  induction n generalizing t src with
  | zero => exact ⟨t, rfl, ht⟩
  | succ n ih =>
    cases src with
    | nil => exact ⟨t, rfl, ht⟩
    | cons c src =>
      rw [asmtraceEscapeLoop]
      split_ifs with hroom hascii hbad
      · have h := ih (utf8Ok_append ht (utf8Ok_singleton hascii)) src
        rwa [escape_append, show escape [c] = escByte c by simp [escape]] at h
      · have h := ih (utf8Ok_append ht (show utf8Ok [0xEF, 0xBF, 0xBD] = true by decide)) src
        have hhigh : ∀ b ∈ ([0xEF, 0xBF, 0xBD] : Bytes), 0x80 ≤ b := by
          rw [List.forall_mem_cons, List.forall_mem_cons, List.forall_mem_singleton]
          decide
        rwa [escape_append, escape_of_high hhigh] at h
      · obtain ⟨hok, hhigh⟩ := utf8Ok_take_len (not_lt.1 hascii) hbad
        have h := ih (utf8Ok_append ht hok) ((c :: src).drop (asmtraceUtf8Len (c :: src)))
        rwa [escape_append, escape_of_high hhigh] at h
      · exact ⟨t, rfl, ht⟩

/-- Before its last character the text leaves room for the widest expansion. -/
def EscapeFits (s : Bytes) : Prop :=
  ∀ pre post, s = pre ++ post → post ≠ [] → utf8Ok pre = true → (escape pre).length + 7 < escCap

lemma asmtraceEscapeLoop_fits {n : ℕ} {t src : Bytes} (ht : utf8Ok t = true)
    (hsrc : utf8Ok src = true) (hn : src.length ≤ n) (hfits : EscapeFits (t ++ src)) :
    asmtraceEscapeLoop escCap n (escape t) src = escape (t ++ src) := by
  induction n generalizing t src with
  | zero =>
    obtain rfl := List.length_eq_zero_iff.1 (Nat.le_zero.1 hn)
    rw [List.append_nil]
    rfl
  | succ n ih =>
    cases src with
    | nil =>
      rw [List.append_nil]
      rfl
    | cons c src =>
      have hroom := hfits t (c :: src) rfl (List.cons_ne_nil _ _) ht
      rw [asmtraceEscapeLoop, if_pos hroom]
      by_cases hascii : c < 0x80
      · have hc := utf8Ok_singleton hascii
        have hrest : utf8Ok src = true := by
          rw [← List.singleton_append, utf8Ok, utf8From_append hc] at hsrc
          exact hsrc
        have happ : t ++ c :: src = t ++ [c] ++ src := by simp
        have h := ih (utf8Ok_append ht hc) hrest (by simpa using hn) (happ ▸ hfits)
        rw [escape_append, show escape [c] = escByte c by simp [escape]] at h
        rw [if_pos hascii, h, happ]
      · have hbad := asmtraceUtf8Len_ne_zero hsrc
        obtain ⟨hok, hhigh⟩ := utf8Ok_take_len (not_lt.1 hascii) hbad
        set len := asmtraceUtf8Len (c :: src)
        have hsplit : (c :: src).take len ++ (c :: src).drop len = c :: src :=
          List.take_append_drop _ _
        have hrest : utf8Ok ((c :: src).drop len) = true := by
          rw [← hsplit, utf8Ok, utf8From_append hok] at hsrc
          exact hsrc
        have happ : t ++ c :: src = t ++ (c :: src).take len ++ (c :: src).drop len := by
          rw [List.append_assoc, hsplit]
        have hlen : ((c :: src).drop len).length ≤ n := by
          have := Nat.pos_of_ne_zero hbad
          rw [List.length_drop, List.length_cons] at *
          omega
        have h := ih (utf8Ok_append ht hok) hrest hlen (happ ▸ hfits)
        rw [escape_append, escape_of_high hhigh] at h
        rw [if_neg hascii, if_neg hbad, h, happ]

theorem asmtraceEscape_spec (src : Bytes) :
    ∃ t, asmtraceEscape escCap src = escape t ∧ utf8Ok t = true ∧
      (utf8Ok (cstr src) = true → EscapeFits (cstr src) → t = cstr src) := by
  by_cases h : utf8Ok (cstr src) = true ∧ EscapeFits (cstr src)
  · refine ⟨cstr src, ?_, h.1, fun _ _ => rfl⟩
    have hloop := @asmtraceEscapeLoop_fits (cstr src).length [] (cstr src) rfl h.1 le_rfl h.2
    rwa [List.nil_append] at hloop
  · obtain ⟨t, hloop, ht⟩ := asmtraceEscapeLoop_spec escCap (cstr src).length
      (show utf8Ok [] = true from rfl) (cstr src)
    exact ⟨t, hloop, ht, fun hok hfits => absurd ⟨hok, hfits⟩ h⟩

end Escape

section Text

/-- The members of an operand's object, in the order they are printed -/
def locMembers (r : Dataflow.ValRec) : List (Bytes × JText) :=
  if r.kind = .reg then [(ascii "reg", .int r.reg.toNat)]
  else [(ascii "reg", .int r.reg.toNat), (ascii "base", .int r.base.toNat),
    (ascii "index", .int r.index.toNat), (ascii "scale", .int r.scale.toInt),
    (ascii "disp", .int r.disp.toInt), (ascii "addr", .int r.addr.toNat)]

def valueMembers (r : Dataflow.ValRec) (wide : Option Bytes) : List (Bytes × JText) :=
  if r.wide then
    (ascii "wide", .bool true) ::
      match wideBytes r wide with
      | none => []
      | some bytes => [(ascii "bytes", .str (bytes.flatMap hexByte))]
  else if r.valueValid then [(ascii "value", .int r.value.toNat)] else []

def opText (r : Dataflow.ValRec) (wide : Option Bytes) : JText :=
  .obj ((ascii "space", .str (ascii (locSpace r.kind))) :: (locMembers r ++
    [(ascii "size", .int r.size), (ascii "write", .bool r.isWrite),
      (ascii "value_valid", .bool r.valueValid)] ++ valueMembers r wide))

lemma escape_hexByte (b : UInt8) : escape (hexByte b) = hexByte b := by
  have hdigit : ∀ n < 16, escByte (hexDigit n) = [hexDigit n] := by decide
  have hlt := b.toNat_lt
  simp [escape, hexByte, hdigit _ (show b.toNat / 16 < 16 by omega),
    hdigit _ (show b.toNat % 16 < 16 by omega)]

lemma escape_flatMap_hexByte (bs : Bytes) : escape (bs.flatMap hexByte) = bs.flatMap hexByte := by
  induction bs with
  | nil => rfl
  | cons b bs ih =>
    have happ : escape (hexByte b ++ bs.flatMap hexByte) =
        escape (hexByte b) ++ escape (bs.flatMap hexByte) := List.flatMap_append
    rw [List.flatMap_cons, happ, escape_hexByte, ih]

/-- How a member is printed behind another one -/
def comma (m : Bytes × JText) : Bytes :=
  44 :: JText.memberText m

lemma comma_bool (b : Bool) :
    (ascii ",\"write\":" ++ boolText b = comma (ascii "write", .bool b)) ∧
      (ascii ",\"value_valid\":" ++ boolText b = comma (ascii "value_valid", .bool b)) := by
  cases b <;> exact ⟨rfl, rfl⟩

lemma head_space (k : LocKind) :
    ascii "\x7b\"space\":\"" ++ ascii (locSpace k) ++ ascii "\"" =
      123 :: JText.memberText (ascii "space", .str (ascii (locSpace k))) := by
  cases k <;> rfl

lemma flatten_locPieces (r : Dataflow.ValRec) :
    (locPieces r).flatten = (locMembers r).flatMap comma := by
  rw [locPieces, locMembers]
  split_ifs
  · simp only [List.flatten_singleton, List.flatMap_singleton]
    rfl
  · have hreg : comma (ascii "reg", .int r.reg.toNat) = ascii ",\"reg\":" ++ decimal r.reg.toNat :=
      rfl
    have hbase : comma (ascii "base", .int r.base.toNat) =
        ascii ",\"base\":" ++ decimal r.base.toNat := rfl
    have hindex : comma (ascii "index", .int r.index.toNat) =
        ascii ",\"index\":" ++ decimal r.index.toNat := rfl
    have hscale : comma (ascii "scale", .int r.scale.toInt) =
        ascii ",\"scale\":" ++ decimalInt r.scale.toInt := rfl
    have hdisp : comma (ascii "disp", .int r.disp.toInt) =
        ascii ",\"disp\":" ++ decimalInt r.disp.toInt := rfl
    have haddr : comma (ascii "addr", .int r.addr.toNat) =
        ascii ",\"addr\":" ++ decimal r.addr.toNat := rfl
    simp only [List.flatten_singleton, List.flatMap_cons, List.flatMap_nil, hreg, hbase, hindex,
      hscale, hdisp, haddr, List.append_assoc, List.append_nil]

lemma flatten_valuePieces (r : Dataflow.ValRec) (wide : Option Bytes) :
    (valuePieces r wide).flatten = (valueMembers r wide).flatMap comma := by
  rw [valuePieces, valueMembers]
  split_ifs
  · cases wideBytes r wide with
    | none => rfl
    | some bytes =>
      have hhex : (bytes.map hexByte).flatten = escape (bytes.flatMap hexByte) := by
        rw [escape_flatMap_hexByte]
        rfl
      have hbytes : comma (ascii "bytes", .str (bytes.flatMap hexByte)) =
          ascii ",\"bytes\":\"" ++ (escape (bytes.flatMap hexByte) ++ ascii "\"") := rfl
      simp only [List.flatten_append, List.flatten_singleton, List.flatMap_cons, List.flatMap_nil,
        hhex, hbytes, List.append_assoc, List.append_nil]
      rfl
  · simp only [List.flatten_singleton, List.flatMap_singleton]
    rfl
  · rfl

lemma flatten_opPieces (r : Dataflow.ValRec) (wide : Option Bytes) :
    (opPieces r wide).flatten = (opText r wide).render := by
  have hmid : ascii ",\"size\":" ++ decimal r.size ++ ascii ",\"write\":" ++ boolText r.isWrite ++
      ascii ",\"value_valid\":" ++ boolText r.valueValid =
      comma (ascii "size", .int r.size) ++ (comma (ascii "write", .bool r.isWrite) ++
        comma (ascii "value_valid", .bool r.valueValid)) := by
    rw [← (comma_bool r.isWrite).1, ← (comma_bool r.valueValid).2]
    simp only [List.append_assoc]
    rfl
  rw [opPieces, opText, JText.render_obj_cons, ← head_space, hmid]
  simp only [List.flatten_append, List.flatMap_append, flatten_locPieces, flatten_valuePieces,
    List.flatten_singleton, List.flatMap_cons, List.flatMap_nil, List.append_nil, List.append_assoc]
  rfl

/-- The `df_step` line; `t` is the disassembly as it is spelled out in it. -/
def stepText (a : DfStepArgs) (t : Bytes) : JText :=
  .obj ((ascii "k", .str (ascii "df_step")) :: ([(ascii "step", JText.int a.step.toNat),
    (ascii "off", .int a.off.toNat)] ++
    (if a.rbase ≠ 0 then [(ascii "rbase", JText.int a.rbase.toNat)] else []) ++
    (if a.when ≠ 0 then [(ascii "when", JText.int a.when.toNat)] else []) ++
    (if cstr a.disasm ≠ [] then [(ascii "disasm", JText.str t)] else []) ++
    [(ascii "ops", JText.arr (a.recs.map fun r => opText r a.wide))]))

def edgeText (e : DefUseEdge) : JText :=
  .obj [(ascii "k", .str (ascii "df_edge")), (ascii "from", .int e.fromStep),
    (ascii "to", .int e.toStep), (ascii "loc", opText e.loc none)]

lemma render_obj_comma (m : Bytes × JText) (ms : List (Bytes × JText)) :
    (JText.obj (m :: ms)).render = 123 :: JText.memberText m ++ ms.flatMap comma ++ [125] :=
  JText.render_obj_cons m ms

lemma flatten_ite {p : Prop} [Decidable p] (s : Bytes) :
    (if p then [s] else []).flatten = if p then s else [] := by
  split_ifs <;> simp

lemma flatMap_comma_ite {p : Prop} [Decidable p] (m : Bytes × JText) :
    (if p then [m] else []).flatMap comma = if p then comma m else [] := by
  split_ifs <;> simp

lemma flatten_opsPieces (wide : Option Bytes) (recs : List Dataflow.ValRec) :
    ascii ",\"ops\":[" ++ (opsPieces wide recs).flatten ++ ascii "]" =
      comma (ascii "ops", .arr (recs.map fun r => opText r wide)) := by
  cases recs with
  | nil => rfl
  | cons r recs =>
    have hrest : (recs.flatMap fun r => ascii "," :: opPieces r wide).flatten =
        (recs.map fun r => opText r wide).flatMap fun t => 44 :: t.render := by
      induction recs with
      | nil => rfl
      | cons r recs ih =>
        simp only [List.flatMap_cons, List.flatten_append, List.flatten_cons, List.map_cons, ih,
          flatten_opPieces]
        rfl
    simp only [opsPieces, List.flatten_append, flatten_opPieces, hrest, comma, JText.memberText,
      List.map_cons, JText.render, JText.renderElems_eq, List.append_assoc]
    rfl

lemma flatten_dfStepPieces {a : DfStepArgs} {t : Bytes}
    (ht : asmtraceEscape escCap a.disasm = escape t) :
    asmtraceEmit "df_step" (dfStepPieces a).flatten = (stepText a t).render := by
  have hhead : ascii "\x7b\"k\":\"" ++ ascii "df_step" ++ ascii "\"," ++
      (ascii "\"step\":" ++ decimal a.step.toNat ++ ascii ",\"off\":" ++ decimal a.off.toNat) =
      123 :: JText.memberText (ascii "k", .str (ascii "df_step")) ++
        (comma (ascii "step", .int a.step.toNat) ++ comma (ascii "off", .int a.off.toNat)) := by
    simp only [List.append_assoc]
    rfl
  have hrbase : ascii ",\"rbase\":" ++ decimal a.rbase.toNat =
      comma (ascii "rbase", .int a.rbase.toNat) := rfl
  have hwhen : ascii ",\"when\":" ++ decimal a.when.toNat =
      comma (ascii "when", .int a.when.toNat) := rfl
  have hdisasm : ascii ",\"disasm\":\"" ++ escape t ++ ascii "\"" =
      comma (ascii "disasm", .str t) := by
    rw [List.append_assoc]
    rfl
  rw [stepText, render_obj_comma, asmtraceEmit, dfStepPieces, ht, hrbase, hwhen, hdisasm]
  simp only [List.flatten_append, List.flatten_singleton, flatten_ite]
  calc _ = ascii "\x7b\"k\":\"" ++ ascii "df_step" ++ ascii "\"," ++ (ascii "\"step\":" ++
          decimal a.step.toNat ++ ascii ",\"off\":" ++ decimal a.off.toNat) ++
        (if a.rbase ≠ 0 then comma (ascii "rbase", .int a.rbase.toNat) else []) ++
        (if a.when ≠ 0 then comma (ascii "when", .int a.when.toNat) else []) ++
        (if cstr a.disasm ≠ [] then comma (ascii "disasm", .str t) else []) ++
        (ascii ",\"ops\":[" ++ (opsPieces a.wide a.recs).flatten ++ ascii "]") ++ ascii "\x7d" := by
        simp only [List.append_assoc]
    _ = _ := by
        rw [hhead, flatten_opsPieces]
        simp only [List.flatMap_append, List.flatMap_cons, List.flatMap_nil,
          flatMap_comma_ite, List.append_nil, List.append_assoc]
        rfl

lemma flatten_dfEdgePieces (e : DefUseEdge) :
    asmtraceEmit "df_edge" (dfEdgePieces e).flatten = (edgeText e).render := by
  have hhead : ascii "\x7b\"k\":\"" ++ ascii "df_edge" ++ ascii "\"," ++
      (ascii "\"from\":" ++ decimal e.fromStep ++ ascii ",\"to\":" ++ decimal e.toStep ++
        ascii ",\"loc\":" ++ (opText e.loc none).render) =
      123 :: JText.memberText (ascii "k", .str (ascii "df_edge")) ++
        (comma (ascii "from", .int e.fromStep) ++ (comma (ascii "to", .int e.toStep) ++
          comma (ascii "loc", opText e.loc none))) := by
    simp only [List.append_assoc]
    rfl
  rw [edgeText, JText.render_obj_cons, asmtraceEmit, dfEdgePieces, List.flatten_append,
    List.flatten_singleton, flatten_opPieces, hhead]
  simp only [List.flatMap_cons, List.flatMap_nil, List.append_nil]
  rfl

end Text

end AsmTest.Doc
