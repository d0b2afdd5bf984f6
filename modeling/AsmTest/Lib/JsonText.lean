import AsmTest.Lib.Json
import Mathlib.Data.Char

/-!
# Compact JSON text

Texts without white space, with the members of an object in any order, and a parser that reads
them. It reads integers only, so its values have no other numbers.
-/

namespace AsmTest.Lib

section Scalars

def charByte (c : Char) : UInt8 :=
  UInt8.ofNat c.toNat

def byteChar (b : UInt8) : Char :=
  Char.ofNat b.toNat

/-- A number in decimal, as `printf` writes it -/
def decimal (n : ℕ) : Bytes :=
  (Nat.toDigits 10 n).map charByte

def decimalInt : ℤ → Bytes
  | .ofNat n => decimal n
  | .negSucc n => 45 :: decimal (n + 1)

def isDigit (b : UInt8) : Bool :=
  48 ≤ b && b ≤ 57

def hexDigit (n : ℕ) : UInt8 :=
  if n < 10 then UInt8.ofNat (48 + n) else UInt8.ofNat (87 + n)

def hexVal (b : UInt8) : Option ℕ :=
  if 48 ≤ b ∧ b ≤ 57 then some (b.toNat - 48)
  else if 97 ≤ b ∧ b ≤ 102 then some (b.toNat - 87)
  else if 65 ≤ b ∧ b ≤ 70 then some (b.toNat - 55)
  else none

/-- A byte inside a string literal -/
def escByte (b : UInt8) : Bytes :=
  if b = 34 ∨ b = 92 then [92, b]
  else if b < 0x20 then [92, 117, 48, 48, hexDigit (b.toNat / 16), hexDigit (b.toNat % 16)]
  else [b]

def escape (s : Bytes) : Bytes :=
  s.flatMap escByte

end Scalars

inductive JText where
  | null
  | bool (b : Bool)
  | int (n : ℤ)
  | str (s : Bytes)
  | arr (l : List JText)
  | obj (m : List (Bytes × JText))

namespace JText

mutual

def render : JText → Bytes
  | .null => ascii "null"
  | .bool true => ascii "true"
  | .bool false => ascii "false"
  | .int n => decimalInt n
  | .str s => 34 :: escape s ++ [34]
  | .arr [] => [91, 93]
  | .arr (t :: ts) => 91 :: render t ++ renderElems ts
  | .obj [] => [123, 125]
  | .obj ((k, t) :: ms) => 123 :: 34 :: escape k ++ 34 :: 58 :: render t ++ renderMembers ms

/-- The elements after the first, and the bracket -/
def renderElems : List JText → Bytes
  | [] => [93]
  | t :: ts => 44 :: render t ++ renderElems ts

/-- The members after the first, and the brace -/
def renderMembers : List (Bytes × JText) → Bytes
  | [] => [125]
  | (k, t) :: ms => 44 :: 34 :: escape k ++ 34 :: 58 :: render t ++ renderMembers ms

end

mutual

def Ok : JText → Prop
  | .null | .bool _ => True
  | .int n => -2 ^ 63 ≤ n ∧ n < 2 ^ 64
  | .str s => utf8Ok s = true
  | .arr ts => OkElems ts
  | .obj ms => OkMembers ms

def OkElems : List JText → Prop
  | [] => True
  | t :: ts => Ok t ∧ OkElems ts

def OkMembers : List (Bytes × JText) → Prop
  | [] => True
  | (k, t) :: ms => utf8Ok k = true ∧ Ok t ∧ OkMembers ms

end

variable {F : Type}

mutual

def value : JText → Json F
  | .null => .null
  | .bool b => .bool b
  | .int n => .int n
  | .str s => .str s
  | .arr ts => .arr (values ts)
  | .obj ms => .obj (memberValues ms [])

def values : List JText → List (Json F)
  | [] => []
  | t :: ts => value t :: values ts

/-- A later member takes the place of an earlier one with the same key. -/
def memberValues : List (Bytes × JText) → List (Bytes × Json F) → List (Bytes × Json F)
  | [], acc => acc
  | (k, t) :: ms, acc => memberValues ms (mapInsert k (value t) acc)

end

/-- A member of an object, without what stands before and after it -/
def memberText (m : Bytes × JText) : Bytes :=
  34 :: escape m.1 ++ 34 :: 58 :: render m.2

lemma renderMembers_eq (ms : List (Bytes × JText)) :
    renderMembers ms = (ms.flatMap fun m => 44 :: memberText m) ++ [125] := by
  induction ms with
  | nil => simp [renderMembers]
  | cons m ms ih =>
    obtain ⟨k, t⟩ := m
    rw [renderMembers, ih]
    simp [memberText]

lemma render_obj_cons (m : Bytes × JText) (ms : List (Bytes × JText)) :
    render (.obj (m :: ms)) =
      123 :: memberText m ++ (ms.flatMap fun m => 44 :: memberText m) ++ [125] := by
  obtain ⟨k, t⟩ := m
  rw [render, renderMembers_eq]
  simp [memberText]

lemma renderElems_eq (ts : List JText) :
    renderElems ts = (ts.flatMap fun t => 44 :: render t) ++ [93] := by
  induction ts with
  | nil => simp [renderElems]
  | cons t ts ih =>
    rw [renderElems, ih]
    simp

lemma memberValues_append (ms ms' : List (Bytes × JText)) (acc : List (Bytes × Json F)) :
    memberValues (ms ++ ms') acc = memberValues ms' (memberValues ms acc) := by
  induction ms generalizing acc with
  | nil => simp [memberValues]
  | cons m ms ih =>
    obtain ⟨k, t⟩ := m
    rw [List.cons_append, memberValues, memberValues, ih]

lemma values_eq_map (ts : List JText) : (values ts : List (Json F)) = ts.map value := by
  induction ts with
  | nil => simp [values]
  | cons t ts ih => rw [values, ih, List.map_cons]

lemma okElems_iff (ts : List JText) : OkElems ts ↔ ∀ t ∈ ts, t.Ok := by
  induction ts with
  | nil => simp [OkElems]
  | cons t ts ih => rw [OkElems, ih, List.forall_mem_cons]

lemma okMembers_iff (ms : List (Bytes × JText)) :
    OkMembers ms ↔ ∀ m ∈ ms, utf8Ok m.1 = true ∧ m.2.Ok := by
  induction ms with
  | nil => simp [OkMembers]
  | cons m ms ih =>
    obtain ⟨k, t⟩ := m
    rw [OkMembers, ih, List.forall_mem_cons, and_assoc]

lemma ok_int_of_lt {n : ℕ} (h : n < 2 ^ 64) : (int n).Ok := by
  rw [Ok]
  omega

end JText

section Parser

/-- The digits of a number and what follows them -/
def readNat (l : Bytes) : Option (ℕ × Bytes) :=
  match l.span isDigit with
  | ([], _) => none
  | (ds, rest) => some (Nat.ofDigitChars 10 (ds.map byteChar) 0, rest)

/-- One byte of a string literal, escaped or not -/
def readItem : Bytes → Option (UInt8 × Bytes)
  | [] => none
  | b :: l =>
    if b = 92 then
      match l with
      | [] => none
      | c :: l =>
        if c = 34 ∨ c = 92 then some (c, l)
        else if c = 117 then
          match l with
          | z :: z' :: h :: g :: l =>
            if z = 48 ∧ z' = 48 then
              match hexVal h, hexVal g with
              | some x, some y => if x < 8 then some (UInt8.ofNat (16 * x + y), l) else none
              | _, _ => none
            else none
          | _ => none
        else none
    else if b < 0x20 ∨ b = 34 then none
    else some (b, l)

def readItems : ℕ → Bytes → Option (Bytes × Bytes)
  | 0, _ => none
  | _ + 1, [] => none
  | n + 1, b :: l =>
    if b = 34 then some ([], l)
    else
      match readItem (b :: l) with
      | none => none
      | some (c, l) =>
        match readItems n l with
        | none => none
        | some (s, l) => some (c :: s, l)

/-- The rest of a string literal, after its first quote -/
def readStr (l : Bytes) : Option (Bytes × Bytes) :=
  match readItems (l.length + 1) l with
  | none => none
  | some (s, l) => if utf8Ok s then some (s, l) else none

variable {F : Type}

def readInt (n : ℤ) (l : Bytes) : Option (Json F × Bytes) :=
  if -2 ^ 63 ≤ n ∧ n < 2 ^ 64 then some (.int n, l) else none

def readWord (word : String) (j : Json F) (l : Bytes) : Option (Json F × Bytes) :=
  if l.take (ascii word).length = ascii word then some (j, l.drop (ascii word).length) else none

mutual

def readValue : ℕ → Bytes → Option (Json F × Bytes)
  | 0, _ => none
  | _ + 1, [] => none
  | n + 1, b :: l =>
    if b = 34 then (readStr l).map fun p => (.str p.1, p.2)
    else if b = 91 then
      if l.head? = some 93 then some (.arr [], l.tail)
      else (readElems n l).map fun p => (.arr p.1, p.2)
    else if b = 123 then
      if l.head? = some 125 then some (.obj [], l.tail)
      else (readMembers n l []).map fun p => (.obj p.1, p.2)
    else if b = 45 then (readNat l).bind fun p => readInt (-p.1) p.2
    else if isDigit b then (readNat (b :: l)).bind fun p => readInt p.1 p.2
    else if b = 110 then readWord "null" .null (b :: l)
    else if b = 116 then readWord "true" (.bool true) (b :: l)
    else readWord "false" (.bool false) (b :: l)

def readElems : ℕ → Bytes → Option (List (Json F) × Bytes)
  | 0, _ => none
  | n + 1, l =>
    match readValue n l with
    | none => none
    | some (_, []) => none
    | some (j, c :: l) =>
      if c = 93 then some ([j], l)
      else if c = 44 then (readElems n l).map fun p => (j :: p.1, p.2)
      else none

def readMembers : ℕ → Bytes → List (Bytes × Json F) → Option (List (Bytes × Json F) × Bytes)
  | 0, _, _ => none
  | _ + 1, [], _ => none
  | n + 1, q :: l, acc =>
    if q ≠ 34 then none
    else
      match readStr l with
      | none => none
      | some (_, []) => none
      | some (k, c :: l) =>
        if c ≠ 58 then none
        else
          match readValue n l with
          | none => none
          | some (_, []) => none
          | some (j, c :: l) =>
            if c = 125 then some (mapInsert k j acc, l)
            else if c = 44 then readMembers n l (mapInsert k j acc)
            else none

end

/-- One value and nothing else -/
def readJson (l : Bytes) : Option (Json F) :=
  match readValue (l.length + 1) l with
  | some (j, []) => some j
  | _ => none

end Parser

section Literals

lemma byteChar_charByte {c : Char} (h : c.isDigit = true) : byteChar (charByte c) = c := by
  have hc : c.toNat ≤ 57 := by
    have := h
    simp only [Char.isDigit, Bool.and_eq_true, decide_eq_true_eq] at this
    exact UInt32.le_iff_toNat_le.1 this.2
  rw [byteChar, charByte, UInt8.toNat_ofNat', Nat.mod_eq_of_lt (by omega), Char.ofNat_toNat]

lemma isDigit_charByte {c : Char} (h : c.isDigit = true) : isDigit (charByte c) = true := by
  simp only [Char.isDigit, Bool.and_eq_true, decide_eq_true_eq] at h
  have hlo : 48 ≤ c.toNat := UInt32.le_iff_toNat_le.1 h.1
  have hhi : c.toNat ≤ 57 := UInt32.le_iff_toNat_le.1 h.2
  have hb : (charByte c).toNat = c.toNat := by
    rw [charByte, UInt8.toNat_ofNat', Nat.mod_eq_of_lt (by omega)]
  simp only [isDigit, Bool.and_eq_true, decide_eq_true_eq, UInt8.le_iff_toNat_le, hb]
  exact ⟨hlo, hhi⟩

lemma isDigit_of_mem_decimal {n : ℕ} {b : UInt8} (h : b ∈ decimal n) : isDigit b = true := by
  obtain ⟨c, hc, rfl⟩ := List.mem_map.1 h
  exact isDigit_charByte (Nat.isDigit_of_mem_toDigits (by norm_num) (by norm_num) hc)

lemma decimal_ne_nil (n : ℕ) : decimal n ≠ [] := by
  simp [decimal, Nat.toDigits_ne_nil]

/-- The text goes on with something that is no digit. -/
def NoDigit (l : Bytes) : Prop :=
  ∀ b ∈ l.head?, isDigit b = false

lemma span_decimal (n : ℕ) {rest : Bytes} (h : NoDigit rest) :
    (decimal n ++ rest).span isDigit = (decimal n, rest) := by
  have hrest : rest.takeWhile isDigit = [] ∧ rest.dropWhile isDigit = rest := by
    cases rest with
    | nil => exact ⟨rfl, rfl⟩
    | cons b rest =>
      have hb : isDigit b = false := h b (by simp)
      simp [hb]
  have hall : ∀ b ∈ decimal n, isDigit b = true := fun b => isDigit_of_mem_decimal
  rw [List.span_eq_takeWhile_dropWhile, List.takeWhile_append_of_pos hall,
    List.dropWhile_append_of_pos hall, hrest.1, hrest.2, List.append_nil]

lemma readNat_decimal (n : ℕ) {rest : Bytes} (h : NoDigit rest) :
    readNat (decimal n ++ rest) = some (n, rest) := by
  have hback : (decimal n).map byteChar = Nat.toDigits 10 n := by
    rw [decimal, List.map_map]
    refine (List.map_congr_left fun c hc => ?_).trans (List.map_id _)
    exact byteChar_charByte (Nat.isDigit_of_mem_toDigits (by norm_num) (by norm_num) hc)
  rw [readNat, span_decimal n h]
  split
  · rename_i hnil
    exact absurd (Prod.mk.inj hnil).1 (decimal_ne_nil n)
  · rename_i heq
    obtain ⟨rfl, rfl⟩ := Prod.mk.inj heq
    rw [hback, Nat.ofDigitChars_ten_toDigits]

lemma hexVal_hexDigit : ∀ n < 16, hexVal (hexDigit n) = some n := by
  decide

lemma readItem_escByte (b : UInt8) (rest : Bytes) :
    readItem (escByte b ++ rest) = some (b, rest) := by
  rw [escByte]
  split_ifs with hquote hctl
  · simp [readItem, hquote]
  · have hb : b.toNat < 32 := UInt8.lt_iff_toNat_lt.1 hctl
    have hval : UInt8.ofNat (16 * (b.toNat / 16) + b.toNat % 16) = b := by
      rw [Nat.div_add_mod, UInt8.ofNat_toNat]
    have hlt : b.toNat / 16 < 8 := by omega
    simp [readItem, hexVal_hexDigit _ (show b.toNat / 16 < 16 by omega),
      hexVal_hexDigit _ (show b.toNat % 16 < 16 by omega), hval, hlt]
  · obtain ⟨h34, h92⟩ := not_or.1 hquote
    simp [readItem, h34, h92, hctl]

/-- No byte of a string is written as a bare quote. -/
lemma exists_escByte_eq (b : UInt8) : ∃ c l, escByte b = c :: l ∧ c ≠ 34 := by
  rw [escByte]
  split_ifs with hquote hctl
  · exact ⟨_, _, rfl, by decide⟩
  · exact ⟨_, _, rfl, by decide⟩
  · exact ⟨_, _, rfl, (not_or.1 hquote).1⟩

lemma readItems_escape (s rest : Bytes) {n : ℕ} (h : s.length < n) :
    readItems n (escape s ++ 34 :: rest) = some (s, rest) := by
  induction s generalizing n with
  | nil =>
    obtain ⟨n, rfl⟩ := Nat.exists_eq_succ_of_ne_zero (Nat.ne_of_gt h)
    rfl
  | cons b s ih =>
    obtain ⟨n, rfl⟩ := Nat.exists_eq_succ_of_ne_zero (Nat.ne_of_gt (Nat.zero_lt_of_lt h))
    obtain ⟨c, l, hesc, hc⟩ := exists_escByte_eq b
    have hitem := readItem_escByte b (escape s ++ 34 :: rest)
    have htext : escape (b :: s) ++ 34 :: rest = c :: (l ++ (escape s ++ 34 :: rest)) := by
      simp [escape, hesc]
    rw [hesc, List.cons_append] at hitem
    rw [htext, readItems, if_neg hc, hitem]
    dsimp only
    rw [ih (by simpa using h)]

lemma length_le_length_escape (s : Bytes) : s.length ≤ (escape s).length := by
  induction s with
  | nil => exact le_rfl
  | cons b s ih =>
    obtain ⟨c, l, hesc, -⟩ := exists_escByte_eq b
    simp only [escape, List.flatMap_cons, List.length_append, hesc, List.length_cons] at ih ⊢
    omega

lemma readStr_escape {s : Bytes} (h : utf8Ok s = true) (rest : Bytes) :
    readStr (escape s ++ 34 :: rest) = some (s, rest) := by
  have hlen := length_le_length_escape s
  rw [readStr, readItems_escape s rest (by simp; omega)]
  simp [h]

end Literals

section Complete

variable {F : Type}

lemma exists_decimal_eq (n : ℕ) : ∃ b l, decimal n = b :: l ∧ isDigit b = true := by
  obtain ⟨b, l, h⟩ := List.exists_cons_of_ne_nil (decimal_ne_nil n)
  exact ⟨b, l, h, isDigit_of_mem_decimal (h ▸ List.mem_cons_self)⟩

lemma ne_of_isDigit {b c : UInt8} (h : isDigit b = true) (hc : isDigit c = false) : b ≠ c := by
  rintro rfl
  rw [h] at hc
  cases hc

/-- A value never starts like the end of an array. -/
lemma exists_render_eq (t : JText) : ∃ b l, t.render = b :: l ∧ b ≠ 93 := by
  cases t with
  | null => exact ⟨_, _, rfl, by decide⟩
  | bool b => cases b <;> exact ⟨_, _, rfl, by decide⟩
  | int n =>
    cases n with
    | ofNat n =>
      obtain ⟨b, l, h, hb⟩ := exists_decimal_eq n
      exact ⟨b, l, h, ne_of_isDigit hb (by decide)⟩
    | negSucc n => exact ⟨_, _, rfl, by decide⟩
  | str s => exact ⟨_, _, rfl, by decide⟩
  | arr ts => cases ts <;> exact ⟨_, _, rfl, by decide⟩
  | obj ms => cases ms <;> exact ⟨_, _, rfl, by decide⟩

lemma noDigit_cons {b : UInt8} (h : isDigit b = false) (l : Bytes) : NoDigit (b :: l) := by
  intro c hc
  obtain rfl : b = c := by simpa using hc
  exact h

lemma noDigit_renderElems (ts : List JText) (l : Bytes) : NoDigit (JText.renderElems ts ++ l) := by
  cases ts <;> exact noDigit_cons (by decide) _

lemma noDigit_renderMembers (ms : List (Bytes × JText)) (l : Bytes) :
    NoDigit (JText.renderMembers ms ++ l) := by
  cases ms <;> exact noDigit_cons (by decide) _

lemma readValue_decimalInt {n : ℤ} (hn : -2 ^ 63 ≤ n ∧ n < 2 ^ 64) (m : ℕ) {rest : Bytes}
    (h : NoDigit rest) :
    readValue (m + 1) (decimalInt n ++ rest) = some ((.int n : Json F), rest) := by
  cases n with
  | ofNat n =>
    obtain ⟨b, l, hdec, hb⟩ := exists_decimal_eq n
    have hne : b ≠ 34 ∧ b ≠ 91 ∧ b ≠ 123 ∧ b ≠ 45 :=
      ⟨ne_of_isDigit hb (by decide), ne_of_isDigit hb (by decide), ne_of_isDigit hb (by decide),
        ne_of_isDigit hb (by decide)⟩
    have hread := readNat_decimal n h
    rw [decimalInt, hdec, List.cons_append] at *
    rw [readValue, if_neg hne.1, if_neg hne.2.1, if_neg hne.2.2.1, if_neg hne.2.2.2, if_pos hb,
      hread, Option.bind_some, readInt]
    rw [if_pos (by exact hn)]
    rfl
  | negSucc n =>
    have hread := readNat_decimal (n + 1) h
    rw [decimalInt, List.cons_append, readValue, if_neg (by decide), if_neg (by decide),
      if_neg (by decide), if_pos rfl, hread, Option.bind_some, readInt]
    rw [if_pos (by exact hn)]
    rfl

/-- Fuel beyond the length of the text is enough to read a value, the elements of an array and the
members of an object. -/
structure Reads (F : Type) (n : ℕ) : Prop where
  value : ∀ t : JText, t.Ok → t.render.length < n → ∀ rest, NoDigit rest →
    readValue n (t.render ++ rest) = some ((t.value : Json F), rest)
  elems : ∀ (t : JText) (ts : List JText), t.Ok → JText.OkElems ts →
    (t.render ++ JText.renderElems ts).length < n → ∀ rest,
    readElems n (t.render ++ (JText.renderElems ts ++ rest)) =
      some ((t.value : Json F) :: JText.values ts, rest)
  members : ∀ (k : Bytes) (t : JText) (ms : List (Bytes × JText)), JText.OkMembers ((k, t) :: ms) →
    (JText.renderMembers ((k, t) :: ms)).length ≤ n → ∀ (acc : List (Bytes × Json F)) rest,
    readMembers n (34 :: (escape k ++ 34 :: 58 :: (t.render ++ (JText.renderMembers ms ++ rest)))) acc =
      some (JText.memberValues ((k, t) :: ms) acc, rest)

lemma readValue_render_succ {n : ℕ} (ih : Reads F n) (t : JText) (ht : t.Ok)
    (hlen : t.render.length < n + 1) (rest : Bytes) (hrest : NoDigit rest) :
    readValue (n + 1) (t.render ++ rest) = some ((t.value : Json F), rest) := by
  cases t with
  | null => rfl
  | bool b => cases b <;> rfl
  | int m =>
    rw [JText.Ok] at ht
    rw [JText.render, JText.value]
    exact readValue_decimalInt ht n hrest
  | str s =>
    rw [JText.Ok] at ht
    have htext : (JText.str s).render ++ rest = 34 :: (escape s ++ 34 :: rest) := by
      simp [JText.render]
    rw [htext, readValue, if_pos rfl, readStr_escape ht, JText.value]
    rfl
  | arr ts =>
    rw [JText.Ok] at ht
    cases ts with
    | nil => simp [JText.render, JText.value, JText.values, readValue]
    | cons t ts =>
      rw [JText.OkElems] at ht
      obtain ⟨b, l, hrender, hb⟩ := exists_render_eq t
      have hread := ih.elems t ts ht.1 ht.2 (by simpa [JText.render] using hlen) rest
      have htext : (JText.arr (t :: ts)).render ++ rest =
          91 :: b :: (l ++ (JText.renderElems ts ++ rest)) := by
        simp [JText.render, hrender]
      rw [hrender, List.cons_append] at hread
      rw [htext, readValue, if_neg (by decide), if_pos rfl, if_neg (by simpa using hb), hread,
        JText.value, JText.values]
      rfl
  | obj ms =>
    rw [JText.Ok] at ht
    cases ms with
    | nil => simp [JText.render, JText.value, JText.memberValues, readValue]
    | cons m ms =>
      obtain ⟨k, t⟩ := m
      have hread := ih.members k t ms ht
        (by simp [JText.render, JText.renderMembers] at hlen ⊢; omega) [] rest
      have htext : (JText.obj ((k, t) :: ms)).render ++ rest = 123 :: 34 ::
          (escape k ++ 34 :: 58 :: (t.render ++ (JText.renderMembers ms ++ rest))) := by
        simp [JText.render]
      rw [htext, readValue, if_neg (by decide), if_neg (by decide), if_pos rfl,
        if_neg (by simp), hread, JText.value]
      rfl

lemma readElems_render_succ {n : ℕ} (ih : Reads F n) (t : JText) (ts : List JText) (ht : t.Ok)
    (hts : JText.OkElems ts) (hlen : (t.render ++ JText.renderElems ts).length < n + 1)
    (rest : Bytes) :
    readElems (n + 1) (t.render ++ (JText.renderElems ts ++ rest)) =
      some ((t.value : Json F) :: JText.values ts, rest) := by
  have hpos : 0 < (JText.renderElems ts).length := by cases ts <;> simp [JText.renderElems]
  rw [List.length_append] at hlen
  rw [readElems, ih.value t ht (by omega) _ (noDigit_renderElems ts rest)]
  cases ts with
  | nil => rfl
  | cons t' ts =>
    rw [JText.OkElems] at hts
    have hread := ih.elems t' ts hts.1 hts.2 (by simp [JText.renderElems] at hlen ⊢; omega) rest
    have htext : JText.renderElems (t' :: ts) ++ rest =
        44 :: (t'.render ++ (JText.renderElems ts ++ rest)) := by
      simp [JText.renderElems]
    rw [htext]
    dsimp only
    rw [if_neg (by decide), if_pos rfl, hread, JText.values]
    rfl

lemma readMembers_render_succ {n : ℕ} (ih : Reads F n) (k : Bytes) (t : JText)
    (ms : List (Bytes × JText)) (hms : JText.OkMembers ((k, t) :: ms))
    (hlen : (JText.renderMembers ((k, t) :: ms)).length ≤ n + 1)
    (acc : List (Bytes × Json F)) (rest : Bytes) :
    readMembers (n + 1)
        (34 :: (escape k ++ 34 :: 58 :: (t.render ++ (JText.renderMembers ms ++ rest)))) acc =
      some (JText.memberValues ((k, t) :: ms) acc, rest) := by
  rw [JText.OkMembers] at hms
  obtain ⟨hk, ht, hms⟩ := hms
  have hlen' : t.render.length < n ∧ (JText.renderMembers ms).length ≤ n := by
    simp [JText.renderMembers] at hlen
    omega
  rw [readMembers, if_neg (by decide), readStr_escape hk]
  dsimp only
  rw [if_neg (by decide), ih.value t ht hlen'.1 _ (noDigit_renderMembers ms rest)]
  cases ms with
  | nil => simp [JText.renderMembers, JText.memberValues]
  | cons m ms =>
    obtain ⟨k', t'⟩ := m
    have hread := ih.members k' t' ms hms hlen'.2 (mapInsert k t.value acc) rest
    have htext : JText.renderMembers ((k', t') :: ms) ++ rest = 44 :: 34 ::
        (escape k' ++ 34 :: 58 :: (t'.render ++ (JText.renderMembers ms ++ rest))) := by
      simp [JText.renderMembers]
    rw [htext]
    dsimp only
    rw [if_neg (by decide), if_pos rfl, hread, JText.memberValues, JText.memberValues,
      JText.memberValues]

theorem reads (n : ℕ) : Reads F n := by
  induction n with
  | zero =>
    refine ⟨fun _ _ h => absurd h (Nat.not_lt_zero _), fun _ _ _ _ h => absurd h (Nat.not_lt_zero _),
      fun k t ms _ h => ?_⟩
    simp [JText.renderMembers] at h
  | succ n ih =>
    exact ⟨readValue_render_succ ih, readElems_render_succ ih, readMembers_render_succ ih⟩

/-- The parser reads every compact text. -/
theorem readJson_render (t : JText) (ht : t.Ok) : readJson t.render = some (t.value : Json F) := by
  have hread := (@reads F (t.render.length + 1)).value t ht (Nat.lt_succ_self _) []
    (by intro b hb; simp at hb)
  rw [List.append_nil] at hread
  rw [readJson, hread]

end Complete

section Sound

variable {F : Type}

lemma utf8Ok_of_readStr {l rest s : Bytes} (h : readStr l = some (s, rest)) : utf8Ok s = true := by
  rw [readStr] at h
  split at h
  · cases h
  · split_ifs at h with hs
    obtain ⟨rfl, rfl⟩ := Prod.mk.inj (Option.some.inj h)
    exact hs

lemma wf_of_readInt {n : ℤ} {l rest : Bytes} {j : Json F} (h : readInt n l = some (j, rest)) :
    j.WF := by
  rw [readInt] at h
  split_ifs at h with hn
  obtain ⟨rfl, rfl⟩ := Prod.mk.inj (Option.some.inj h)
  exact .int hn.1 hn.2

lemma eq_of_readWord {word : String} {j j' : Json F} {l rest : Bytes}
    (h : readWord word j' l = some (j, rest)) : j = j' := by
  rw [readWord] at h
  split_ifs at h with hw
  exact (Prod.mk.inj (Option.some.inj h)).1.symm

/-- Whatever is read is a well-formed value. -/
structure ReadsWF (F : Type) (n : ℕ) : Prop where
  value : ∀ {l rest : Bytes} {j : Json F}, readValue n l = some (j, rest) → j.WF
  elems : ∀ {l rest : Bytes} {js : List (Json F)}, readElems n l = some (js, rest) →
    ∀ j ∈ js, j.WF
  members : ∀ {l rest : Bytes} {acc m : List (Bytes × Json F)}, (Json.obj acc).WF →
    readMembers n l acc = some (m, rest) → (Json.obj m).WF

lemma wf_of_readValue_succ {n : ℕ} (ih : ReadsWF F n) {l rest : Bytes} {j : Json F}
    (h : readValue (n + 1) l = some (j, rest)) : j.WF := by
  cases l with
  | nil => cases h
  | cons b l =>
    rw [readValue] at h
    split_ifs at h
    · obtain ⟨p, hp, heq⟩ := Option.map_eq_some_iff.1 h
      obtain ⟨rfl, -⟩ := Prod.mk.inj heq
      exact .str (utf8Ok_of_readStr hp)
    · obtain ⟨rfl, -⟩ := Prod.mk.inj (Option.some.inj h)
      exact .arr (by simp)
    · obtain ⟨p, hp, heq⟩ := Option.map_eq_some_iff.1 h
      obtain ⟨rfl, -⟩ := Prod.mk.inj heq
      exact .arr (ih.elems hp)
    · obtain ⟨rfl, -⟩ := Prod.mk.inj (Option.some.inj h)
      exact .obj_nil
    · obtain ⟨p, hp, heq⟩ := Option.map_eq_some_iff.1 h
      obtain ⟨rfl, -⟩ := Prod.mk.inj heq
      exact ih.members .obj_nil hp
    · obtain ⟨p, -, hint⟩ := Option.bind_eq_some_iff.1 h
      exact wf_of_readInt hint
    · obtain ⟨p, -, hint⟩ := Option.bind_eq_some_iff.1 h
      exact wf_of_readInt hint
    · exact eq_of_readWord h ▸ .null
    · exact eq_of_readWord h ▸ .bool true
    · exact eq_of_readWord h ▸ .bool false

lemma wf_of_readElems_succ {n : ℕ} (ih : ReadsWF F n) {l rest : Bytes} {js : List (Json F)}
    (h : readElems (n + 1) l = some (js, rest)) : ∀ j ∈ js, j.WF := by
  rw [readElems] at h
  split at h
  · cases h
  · cases h
  · rename_i j c l' hj
    have hwf := ih.value hj
    split_ifs at h
    · obtain ⟨rfl, -⟩ := Prod.mk.inj (Option.some.inj h)
      simpa using hwf
    · obtain ⟨p, hp, heq⟩ := Option.map_eq_some_iff.1 h
      obtain ⟨rfl, -⟩ := Prod.mk.inj heq
      exact List.forall_mem_cons.2 ⟨hwf, ih.elems hp⟩

lemma wf_of_readMembers_succ {n : ℕ} (ih : ReadsWF F n) {l rest : Bytes}
    {acc m : List (Bytes × Json F)} (hacc : (Json.obj acc).WF)
    (h : readMembers (n + 1) l acc = some (m, rest)) : (Json.obj m).WF := by
  cases l with
  | nil => cases h
  | cons q l =>
    rw [readMembers] at h
    split at h
    · cases h
    split at h
    · cases h
    · cases h
    rename_i k c l₁ hk
    split at h
    · cases h
    split at h
    · cases h
    · cases h
    rename_i j c' l₂ hj
    have hins : (Json.obj (mapInsert k j acc)).WF :=
      hacc.mapInsert (utf8Ok_of_readStr hk) (ih.value hj)
    split_ifs at h
    · obtain ⟨rfl, -⟩ := Prod.mk.inj (Option.some.inj h)
      exact hins
    · exact ih.members hins h

theorem readsWF (n : ℕ) : ReadsWF F n := by
  induction n with
  | zero =>
    refine ⟨fun h => ?_, fun h => ?_, fun _ h => ?_⟩
    · simp [readValue] at h
    · simp [readElems] at h
    · simp [readMembers] at h
  | succ n ih =>
    exact ⟨wf_of_readValue_succ ih, wf_of_readElems_succ ih, wf_of_readMembers_succ ih⟩

lemma wf_of_readJson {l : Bytes} {j : Json F} (h : readJson l = some j) : j.WF := by
  rw [readJson] at h
  split at h
  · rename_i j' hj
    obtain rfl := Option.some.inj h
    exact (readsWF _).value hj
  · cases h

end Sound

section Dump

variable {F : Type}

namespace JText

mutual

/-- The compact text of a value, its members in order -/
def ofJson : Json Empty → JText
  | .null => .null
  | .bool b => .bool b
  | .int n => .int n
  | .str s => .str s
  | .arr l => .arr (ofElems l)
  | .obj m => .obj (ofMembers m)

def ofElems : List (Json Empty) → List JText
  | [] => []
  | j :: l => ofJson j :: ofElems l

def ofMembers : List (Bytes × Json Empty) → List (Bytes × JText)
  | [] => []
  | (k, j) :: m => (k, ofJson j) :: ofMembers m

end

lemma ok_ofElems {l : List (Json Empty)} (h : ∀ j ∈ l, (ofJson j).Ok) : OkElems (ofElems l) := by
  induction l with
  | nil => simp [ofElems, OkElems]
  | cons j l ih =>
    rw [ofElems, OkElems]
    exact ⟨h j List.mem_cons_self, ih fun j' hj' => h j' (List.mem_cons_of_mem _ hj')⟩

lemma ok_ofMembers {m : List (Bytes × Json Empty)} (hkeys : ∀ e ∈ m, utf8Ok e.1 = true)
    (h : ∀ e ∈ m, (ofJson e.2).Ok) : OkMembers (ofMembers m) := by
  induction m with
  | nil => simp [ofMembers, OkMembers]
  | cons e m ih =>
    rw [ofMembers, OkMembers]
    exact ⟨hkeys e List.mem_cons_self, h e List.mem_cons_self,
      ih (fun e' he' => hkeys e' (List.mem_cons_of_mem _ he'))
        fun e' he' => h e' (List.mem_cons_of_mem _ he')⟩

lemma ok_ofJson {j : Json Empty} (h : j.WF) : (ofJson j).Ok := by
  induction h with
  | null | bool b => simp [ofJson, Ok]
  | int hlo hhi => simpa [ofJson, Ok] using ⟨hlo, hhi⟩
  | float x => exact x.elim
  | str h => simpa [ofJson, Ok] using h
  | arr _ ih =>
    rw [ofJson, Ok]
    exact ok_ofElems ih
  | obj _ hkeys _ ih =>
    rw [ofJson, Ok]
    exact ok_ofMembers hkeys ih

lemma values_ofElems {l : List (Json Empty)} (h : ∀ j ∈ l, (ofJson j).value = j) :
    values (ofElems l) = l := by
  induction l with
  | nil => simp [ofElems, values]
  | cons j l ih =>
    rw [ofElems, values, h j List.mem_cons_self, ih fun j' hj' => h j' (List.mem_cons_of_mem _ hj')]

/-- Members that come in order go to the end one by one. -/
lemma memberValues_ofMembers {m : List (Bytes × Json Empty)} (hsorted : KeysSorted m)
    (h : ∀ e ∈ m, (ofJson e.2).value = e.2) {acc : List (Bytes × Json Empty)}
    (hacc : ∀ a ∈ acc, ∀ e ∈ m, a.1 < e.1) : memberValues (ofMembers m) acc = acc ++ m := by
  induction m generalizing acc with
  | nil => simp [ofMembers, memberValues]
  | cons e m ih =>
    obtain ⟨hhead, htail⟩ := List.pairwise_cons.1 hsorted
    rw [ofMembers, memberValues, h e List.mem_cons_self,
      mapInsert_of_forall_lt _ _ fun a ha => hacc a ha e List.mem_cons_self,
      ih htail (fun e' he' => h e' (List.mem_cons_of_mem _ he')), List.append_assoc]
    · rfl
    · intro a ha e' he'
      rcases List.mem_append.1 ha with ha | ha
      · exact hacc a ha e' (List.mem_cons_of_mem _ he')
      · obtain rfl := List.mem_singleton.1 ha
        exact hhead e' he'

lemma value_ofJson {j : Json Empty} (h : j.WF) : (ofJson j).value = j := by
  induction h with
  | null | bool b | int | str => simp [ofJson, value]
  | float x => exact x.elim
  | arr _ ih => rw [ofJson, value, values_ofElems ih]
  | obj hsorted _ _ ih =>
    rw [ofJson, value, memberValues_ofMembers hsorted ih (by simp), List.nil_append]

lemma newline_notMem_escape (s : Bytes) : 10 ∉ escape s := by
  intro h
  obtain ⟨b, -, hb⟩ := List.mem_flatMap.1 h
  rw [escByte] at hb
  split_ifs at hb with hquote hctl
  · rcases hquote with rfl | rfl <;> simp at hb
  · have hhex : ∀ n < 16, hexDigit n ≠ 10 := by decide
    have hlt : b.toNat < 32 := UInt8.lt_iff_toNat_lt.1 hctl
    simp [(hhex _ (show b.toNat / 16 < 16 by omega)).symm,
      (hhex _ (show b.toNat % 16 < 16 by omega)).symm] at hb
  · obtain rfl := List.mem_singleton.1 hb
    exact hctl (by decide)

lemma newline_notMem_decimalInt (n : ℤ) : 10 ∉ decimalInt n := by
  have hdec : ∀ n, 10 ∉ decimal n := fun n h => by
    have := isDigit_of_mem_decimal h
    revert this
    decide
  cases n with
  | ofNat n => exact hdec n
  | negSucc n => simp [decimalInt, hdec]

mutual

theorem newline_notMem_render : (t : JText) → 10 ∉ t.render
  | .null => by simp [render]; decide
  | .bool true => by simp [render]; decide
  | .bool false => by simp [render]; decide
  | .int n => by rw [render]; exact newline_notMem_decimalInt n
  | .str s => by simp [render, newline_notMem_escape]
  | .arr [] => by simp [render]
  | .arr (t :: ts) => by
    simp [render, newline_notMem_render t, newline_notMem_renderElems ts]
  | .obj [] => by simp [render]
  | .obj ((k, t) :: ms) => by
    simp [render, newline_notMem_escape, newline_notMem_render t, newline_notMem_renderMembers ms]

theorem newline_notMem_renderElems : (ts : List JText) → 10 ∉ renderElems ts
  | [] => by simp [renderElems]
  | t :: ts => by simp [renderElems, newline_notMem_render t, newline_notMem_renderElems ts]

theorem newline_notMem_renderMembers : (ms : List (Bytes × JText)) → 10 ∉ renderMembers ms
  | [] => by simp [renderMembers]
  | (k, t) :: ms => by
    simp [renderMembers, newline_notMem_escape, newline_notMem_render t,
      newline_notMem_renderMembers ms]

end

end JText

/-- The library over compact text -/
def compactJson : JsonLib Empty where
  parse := readJson
  dump j := (JText.ofJson j).render
  floatToU64 := Empty.elim
  floatToU32 := Empty.elim
  floatToI32 := Empty.elim

theorem compactJson_lawful : compactJson.Lawful where
  parse_wf := wf_of_readJson
  parse_dump {j} hj := by
    have h := @readJson_render Empty (JText.ofJson j) (JText.ok_ofJson hj)
    rwa [JText.value_ofJson hj] at h
  newline_notMem_dump j := JText.newline_notMem_render _
  parse_nil := rfl

/-- The library reads every compact text as the value it spells out. -/
def JsonLib.ReadsCompact (L : JsonLib F) : Prop :=
  ∀ t : JText, t.Ok → L.parse t.render = some t.value

lemma compactJson_readsCompact : compactJson.ReadsCompact :=
  readJson_render

end Dump

end AsmTest.Lib
