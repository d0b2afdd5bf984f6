import Mathlib.Tactic
import Mathlib.Data.List.Basic

namespace AsmTest.Dataflow

/-- The conversion of a `size_t` index to `int`. -/
def toInt32 (i : ℕ) : ℤ := Int.bmod i (2 ^ 32)

/-- `asmtest_method_t`; a name is its bytes up to the NUL, `none` the null pointer. -/
structure Method where
  addr : BitVec 64
  size : BitVec 64
  name : Option (List Char)
  version : BitVec 64
  deriving DecidableEq, Repr

def methodOwns (m : Method) (pc : BitVec 64) : Bool :=
  if m.size = 0 then pc = m.addr
  else
    let fin := m.addr + m.size
    if fin < m.addr then m.addr ≤ pc else m.addr ≤ pc ∧ pc < fin

/-- The loop body of `asmtest_method_resolve_pc` over `(best, best_ver)`. -/
def resolveStep (pc : BitVec 64) (best : ℤ × BitVec 64) (m : Method × ℕ) : ℤ × BitVec 64 :=
  if methodOwns m.1 pc ∧ (best.1 < 0 ∨ best.2 ≤ m.1.version) then (toInt32 m.2, m.1.version) else best

def methodResolvePc (methods : List Method) (pc : BitVec 64) : ℤ :=
  (methods.zipIdx.foldl (resolveStep pc) (-1, 0)).1

end AsmTest.Dataflow
