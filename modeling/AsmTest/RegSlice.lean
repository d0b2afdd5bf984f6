import Mathlib.Tactic

/-!
# Sub-register aliases

`reg_slice` of `dataflow.c`: an x86 general-purpose register alias, given by its
Capstone id, as a byte range of its 64-bit container.
-/

namespace AsmTest.Dataflow

structure RegSlice where
  container : ℕ
  off : ℕ
  len : ℕ
  deriving DecidableEq, Repr

/-- The first switch of `reg_slice`: container id and the aliases it holds. -/
def containerCases : List (ℕ × List ℕ) := [
  (35, [35, 19, 3, 2, 1]), -- rax eax ax al ah
  (37, [37, 21, 8, 5, 4]), -- rbx ebx bx bl bh
  (38, [38, 22, 12, 10, 9]), -- rcx ecx cx cl ch
  (40, [40, 24, 18, 16, 13]), -- rdx edx dx dl dh
  (43, [43, 29, 45, 46]), -- rsi esi si sil
  (39, [39, 23, 14, 15]), -- rdi edi di dil
  (36, [36, 20, 6, 7]), -- rbp ebp bp bpl
  (44, [44, 30, 47, 48]), -- rsp esp sp spl
  (106, [106, 226, 234, 218]), -- r8 r8d r8w r8b
  (107, [107, 227, 235, 219]),
  (108, [108, 228, 236, 220]),
  (109, [109, 229, 237, 221]),
  (110, [110, 230, 238, 222]),
  (111, [111, 231, 239, 223]),
  (112, [112, 232, 240, 224]),
  (113, [113, 233, 241, 225])] -- r15 r15d r15w r15b

/-- The second switch: byte offset and length, and the aliases of that shape. -/
def extentCases : List ((ℕ × ℕ) × List ℕ) := [
  ((0, 8), [35, 37, 38, 40, 43, 39, 36, 44, 106, 107, 108, 109, 110, 111, 112, 113]),
  ((0, 4), [19, 21, 22, 24, 29, 23, 20, 30, 226, 227, 228, 229, 230, 231, 232, 233]),
  ((0, 2), [3, 8, 12, 18, 45, 14, 6, 47, 234, 235, 236, 237, 238, 239, 240, 241]),
  ((0, 1), [2, 5, 10, 16, 46, 15, 7, 48, 218, 219, 220, 221, 222, 223, 224, 225]),
  ((1, 1), [1, 4, 9, 13])] -- ah bh ch dh

/-- `switch (n)` over a table of results and their case labels. -/
def switchOn {α : Type*} (cases : List (α × List ℕ)) (n : ℕ) : Option α :=
  (cases.find? fun c => n ∈ c.2).map Prod.fst

/-- `none` is the raw-id fallback: vector, segment, EFLAGS, RIP, ... -/
def regSlice (reg : BitVec 32) : Option RegSlice := do
  let container ← switchOn containerCases reg.toNat
  let (off, len) ← switchOn extentCases reg.toNat
  return ⟨container, off, len⟩

lemma switchOn_mem {α : Type*} {cases : List (α × List ℕ)} {n : ℕ} {x : α}
    (h : switchOn cases n = some x) : x ∈ cases.map Prod.fst := by
  obtain ⟨c, hc, rfl⟩ := Option.map_eq_some_iff.mp h
  exact List.mem_map_of_mem (List.mem_of_find?_eq_some hc)

/-- The ranges of the aliases: the low 8, 4, 2 or 1 bytes, or the second byte. -/
lemma regSlice_cases {reg : BitVec 32} {s : RegSlice} (h : regSlice reg = some s) :
    s.container < 256 ∧
      (s.off = 0 ∧ (s.len = 8 ∨ s.len = 4 ∨ s.len = 2 ∨ s.len = 1) ∨ s.off = 1 ∧ s.len = 1) := by
  simp only [regSlice, Option.bind_eq_bind, Option.bind_eq_some_iff, Option.pure_def,
    Option.some.injEq] at h
  obtain ⟨c, hc, ⟨o, l⟩, hol, rfl⟩ := h
  have hcont : ∀ x ∈ containerCases.map Prod.fst, x < 256 := by decide
  have hext : ∀ x ∈ extentCases.map Prod.fst,
      x.1 = 0 ∧ (x.2 = 8 ∨ x.2 = 4 ∨ x.2 = 2 ∨ x.2 = 1) ∨ x.1 = 1 ∧ x.2 = 1 := by decide
  exact ⟨hcont c (switchOn_mem hc), hext (o, l) (switchOn_mem hol)⟩

end AsmTest.Dataflow
