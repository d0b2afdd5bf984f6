import Mathlib.Data.UInt
import Mathlib.Order.Basic
import Mathlib.Data.List.Basic
import Mathlib.Tactic
import AsmTest.Lib.OrderedMap

/-!
# JSON values and the library that reads and writes them

Byte strings, maps ordered by key, JSON values over them, and what a program may rely on of a JSON
library: a value that came out of the parser survives a dump and a second parse.
-/

namespace AsmTest.Lib

abbrev Bytes := List UInt8

instance linearOrderByte : LinearOrder UInt8 where
  le_refl a := UInt8.le_refl a
  le_trans _ _ _ := UInt8.le_trans
  lt_iff_le_not_ge a b := by
    rw [UInt8.lt_iff_toNat_lt, UInt8.le_iff_toNat_le, UInt8.le_iff_toNat_le]
    omega
  le_antisymm _ _ := UInt8.le_antisymm
  le_total a b := UInt8.le_total a b
  toDecidableLE := inferInstance
  toDecidableLT := inferInstance
  toDecidableEq := inferInstance

/-- The bytes of an ASCII literal. -/
def ascii (s : String) : Bytes :=
  s.toList.map fun c => UInt8.ofNat c.toNat

section Utf8

/-- A byte that begins a sequence: how many bytes must follow, and the range of the next one. -/
def utf8Lead (a : UInt8) : Option (ℕ × UInt8 × UInt8) :=
  if a < 0x80 then some (0, 0x80, 0xBF)
  else if a < 0xC2 then none
  else if a < 0xE0 then some (1, 0x80, 0xBF)
  else if a = 0xE0 then some (2, 0xA0, 0xBF)
  else if a = 0xED then some (2, 0x80, 0x9F)
  else if a < 0xF0 then some (2, 0x80, 0xBF)
  else if a = 0xF0 then some (3, 0x90, 0xBF)
  else if a < 0xF4 then some (3, 0x80, 0xBF)
  else if a = 0xF4 then some (3, 0x80, 0x8F)
  else none

/-- UTF-8 when `n` more bytes of a sequence are due, the next one from `lo` to `hi`. -/
def utf8From : ℕ → UInt8 → UInt8 → Bytes → Bool
  | 0, _, _, [] => true
  | _ + 1, _, _, [] => false
  | 0, _, _, a :: l =>
    match utf8Lead a with
    | none => false
    | some (n, lo, hi) => utf8From n lo hi l
  | n + 1, lo, hi, a :: l => (lo ≤ a && a ≤ hi) && utf8From n 0x80 0xBF l

/-- RFC 3629: no overlong form, no surrogate, nothing past U+10FFFF. -/
def utf8Ok (l : Bytes) : Bool :=
  utf8From 0 0x80 0xBF l

lemma utf8From_append {n : ℕ} {lo hi : UInt8} {l l' : Bytes} (h : utf8From n lo hi l = true) :
    utf8From n lo hi (l ++ l') = utf8Ok l' := by
  fun_induction utf8From n lo hi l with
  | case1 => cases l' <;> rfl
  | case2 => simp at h
  | case3 => simp at h
  | case4 _ _ a l n' lo' hi' hlead ih => simp [utf8From, hlead, ih h]
  | case5 n lo hi a l ih =>
    simp only [Bool.and_eq_true] at h
    simp [utf8From, h.1.1, h.1.2, ih h.2]

lemma utf8Ok_append {l l' : Bytes} (h : utf8Ok l = true) (h' : utf8Ok l' = true) :
    utf8Ok (l ++ l') = true := by
  rw [utf8Ok, utf8From_append h, h']

end Utf8

/-- A JSON value; `F` holds the numbers that are not integers of 64 bits. -/
inductive Json (F : Type) where
  | null
  | bool (b : Bool)
  | int (n : ℤ)
  | float (x : F)
  | str (s : Bytes)
  | arr (l : List (Json F))
  | obj (m : List (Bytes × Json F))

namespace Json

variable {F : Type}

/-- Values that a parser builds: 64-bit integers, UTF-8 strings, one member for a key. -/
inductive WF : Json F → Prop where
  | null : WF .null
  | bool (b : Bool) : WF (.bool b)
  | int {n : ℤ} (hlo : -2 ^ 63 ≤ n) (hhi : n < 2 ^ 64) : WF (.int n)
  | float (x : F) : WF (.float x)
  | str {s : Bytes} (h : utf8Ok s = true) : WF (.str s)
  | arr {l : List (Json F)} (h : ∀ j ∈ l, WF j) : WF (.arr l)
  | obj {m : List (Bytes × Json F)} (hsorted : KeysSorted m)
      (hkeys : ∀ e ∈ m, utf8Ok e.1 = true) (h : ∀ e ∈ m, WF e.2) : WF (.obj m)

def asStr : Json F → Option Bytes
  | .str s => some s
  | _ => none

def asBool : Json F → Option Bool
  | .bool b => some b
  | _ => none

def asInt : Json F → Option ℤ
  | .int n => some n
  | _ => none

def asObj : Json F → Option (List (Bytes × Json F))
  | .obj m => some m
  | _ => none

def asArr : Json F → Option (List (Json F))
  | .arr l => some l
  | _ => none

lemma asObj_eq_some {j : Json F} {m : List (Bytes × Json F)} : j.asObj = some m ↔ j = .obj m := by
  cases j <;> simp [asObj]

lemma WF.utf8Ok_str {s : Bytes} (h : WF (.str s : Json F)) : utf8Ok s = true := by
  cases h with
  | str h => exact h

lemma WF.of_mapFind {m : List (Bytes × Json F)} {k : Bytes} {j : Json F}
    (h : WF (.obj m)) (hk : mapFind k m = some j) : j.WF := by
  cases h with
  | obj _ _ h => exact h _ (mem_of_mapFind hk)

lemma WF.obj_nil : WF (.obj [] : Json F) :=
  .obj keysSorted_nil (by simp) (by simp)

lemma WF.mapInsert {m : List (Bytes × Json F)} {k : Bytes} {j : Json F} (h : WF (.obj m))
    (hk : utf8Ok k = true) (hj : j.WF) : WF (.obj (mapInsert k j m)) := by
  cases h with
  | obj hsorted hkeys hvals =>
    refine .obj (keysSorted_mapInsert k j hsorted) (fun e he => ?_) fun e he => ?_
    · rcases mem_mapInsert he with rfl | he
      exacts [hk, hkeys e he]
    · rcases mem_mapInsert he with rfl | he
      exacts [hj, hvals e he]

end Json

/-- A JSON library as its callers see it. -/
structure JsonLib (F : Type) where
  parse : Bytes → Option (Json F)
  dump : Json F → Bytes
  /-- A number converted to a 64-bit unsigned integer -/
  floatToU64 : F → ℕ
  /-- A number converted to a 32-bit unsigned integer -/
  floatToU32 : F → ℕ
  /-- A number converted to a 32-bit signed integer -/
  floatToI32 : F → ℤ

namespace JsonLib

variable {F : Type}

structure Lawful (L : JsonLib F) : Prop where
  parse_wf : ∀ {t : Bytes} {j : Json F}, L.parse t = some j → j.WF
  parse_dump : ∀ {j : Json F}, j.WF → L.parse (L.dump j) = some j
  /-- One value, one line -/
  newline_notMem_dump : ∀ j : Json F, 10 ∉ L.dump j
  parse_nil : L.parse [] = none

variable {L : JsonLib F}

lemma Lawful.dump_ne_nil (hL : L.Lawful) {j : Json F} (hj : j.WF) : L.dump j ≠ [] := by
  intro h
  have hp := hL.parse_dump hj
  rw [h, hL.parse_nil] at hp
  cases hp

end JsonLib

end AsmTest.Lib
