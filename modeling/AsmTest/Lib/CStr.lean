import Mathlib.Data.List.Basic

/-!
# C strings

The bytes of a string before its terminator, none of which is zero.
-/

/-- A C string: its bytes before the terminator -/
structure CStr where
  bytes : List UInt8
  noNul : 0 ∉ bytes
deriving DecidableEq

namespace CStr

variable {s t : CStr} {n : ℕ}

/-- `strcmp` finds no difference. -/
@[ext] lemma ext (h : s.bytes = t.bytes) : s = t := by
  cases s
  cases t
  congr

def length (s : CStr) : ℕ := s.bytes.length

/-- `snprintf(buf, n + 1, "%s", s)` -/
def take (n : ℕ) (s : CStr) : CStr where
  bytes := s.bytes.take n
  noNul h := s.noNul (List.mem_of_mem_take h)

/-- `"%s%s"` -/
def append (s t : CStr) : CStr where
  bytes := s.bytes ++ t.bytes
  noNul h := (List.mem_append.mp h).elim s.noNul t.noNul

lemma length_take_le : (s.take n).length ≤ n :=
  List.length_take_le n s.bytes

lemma take_of_length_le (h : s.length ≤ n) : s.take n = s :=
  ext (List.take_of_length_le h)

end CStr
