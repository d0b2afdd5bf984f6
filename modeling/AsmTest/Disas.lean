import Mathlib.Tactic
import Mathlib.Data.List.Basic

/-!
# Code regions and their decoder

The `asmtest_disas_*` layer stands over a third-party disassembler. Here it is a structure
of answers about the bytes of one region, with the laws that `disasm.c` gives any answer.
Addresses are natural numbers: a region is an object in memory and does not wrap.
-/

namespace AsmTest.Hwtrace

/-- What `asmtest_disas_probe` reports of one instruction; length 0 is undecodable. -/
structure Probe where
  len : ℕ
  isCall : Bool
  isRet : Bool
deriving DecidableEq, Repr

/-- The bytes `code[0, len)` at the pointer `ptr`, as the decoder sees them. -/
structure Code where
  ptr : ℕ
  len : ℕ
  disasAvailable : Bool
  disasProbe : ℕ → Probe
  /-- Any control transfer: a jump, a call or a return. -/
  disasIsBranch : ℕ → Bool
  disasIsUncondJump : ℕ → Bool
  /-- The absolute target of a direct transfer, decoded at `base_addr + off`. -/
  disasBranchTarget : ℕ → ℕ → Option ℕ
  probe_off : ptr = 0 ∨ disasAvailable = false → ∀ off, (disasProbe off).len = 0
  probe_fits : ∀ off, (disasProbe off).len ≠ 0 → off + (disasProbe off).len ≤ len
  ret_isBranch : ∀ off, (disasProbe off).isRet = true → disasIsBranch off = true
  ret_indirect : ∀ base off, (disasProbe off).isRet = true → disasBranchTarget base off = none

namespace Code

variable {c : Code} {base : ℕ}

def Decodes (c : Code) (off : ℕ) : Prop :=
  (c.disasProbe off).len ≠ 0

instance (c : Code) (off : ℕ) : Decidable (c.Decodes off) :=
  inferInstanceAs (Decidable (_ ≠ _))

/-- The address lies in `[base_ip, end_ip)`. -/
def InRegion (c : Code) (base ip : ℕ) : Prop :=
  base ≤ ip ∧ ip < base + c.len

instance (c : Code) (base ip : ℕ) : Decidable (c.InRegion base ip) :=
  inferInstanceAs (Decidable (_ ∧ _))

/-- A direct transfer that may fall through. -/
def Conditional (c : Code) (base off : ℕ) : Prop :=
  (c.disasBranchTarget base off).isSome = true ∧ (c.disasProbe off).isCall = false ∧
    c.disasIsUncondJump off = false

instance (c : Code) (base off : ℕ) : Decidable (c.Conditional base off) :=
  inferInstanceAs (Decidable (_ ∧ _ ∧ _))

lemma Decodes.lt {off : ℕ} (h : c.Decodes off) : off < c.len := by
  have hfits := c.probe_fits off h
  rw [Decodes] at h
  omega

lemma Decodes.present {off : ℕ} (h : c.Decodes off) : c.ptr ≠ 0 ∧ c.disasAvailable = true := by
  constructor
  · intro hp
    exact h (c.probe_off (.inl hp) off)
  · by_contra hav
    exact h (c.probe_off (.inr (by simpa using hav)) off)

/-- A region that holds an address holds its base. -/
lemma InRegion.start {ip : ℕ} (h : c.InRegion base ip) : c.InRegion base base := by
  obtain ⟨hlo, hhi⟩ := h
  exact ⟨le_rfl, by omega⟩

end Code

/-- The kinds of instruction the reconstructors tell apart. -/
inductive Insn where
  | plain
  | jcc (tgt : ℕ)
  | jmp (tgt : ℕ)
  | call (tgt : ℕ)
  | jmpInd
  | ret
deriving DecidableEq, Repr

namespace Insn

def probe : Insn → Probe
  | .call _ => ⟨1, true, false⟩
  | .ret => ⟨1, false, true⟩
  | _ => ⟨1, false, false⟩

def isBranch : Insn → Bool
  | .plain => false
  | _ => true

def isUncondJump : Insn → Bool
  | .jmp _ => true
  | .jmpInd => true
  | _ => false

def target : Insn → Option ℕ
  | .jcc tgt => some tgt
  | .jmp tgt => some tgt
  | .call tgt => some tgt
  | _ => none

end Insn

/-- A region of one-byte instructions. -/
def unitCode (ptr : ℕ) (insns : List Insn) : Code where
  ptr := ptr
  len := insns.length
  disasAvailable := true
  disasProbe off := if ptr = 0 then ⟨0, false, false⟩ else insns[off]?.elim ⟨0, false, false⟩ Insn.probe
  disasIsBranch off := insns[off]?.elim false Insn.isBranch
  disasIsUncondJump off := insns[off]?.elim false Insn.isUncondJump
  disasBranchTarget _ off := insns[off]?.bind Insn.target
  probe_off h off := by
    rw [if_pos (h.resolve_right (by simp))]
  probe_fits off h := by
    split_ifs at h ⊢
    · exact absurd rfl h
    · cases hi : insns[off]? with
      | none => simp [hi] at h
      | some i =>
        have hlt := (List.getElem?_eq_some_iff.mp hi).1
        cases i <;> simp [Insn.probe] <;> omega
  ret_isBranch off h := by
    split_ifs at h
    cases hi : insns[off]? with
    | none => simp [hi] at h
    | some i => cases i <;> simp [hi, Insn.probe, Insn.isBranch] at h ⊢
  ret_indirect _ off h := by
    split_ifs at h
    cases hi : insns[off]? with
    | none => rfl
    | some i => cases i <;> simp [hi, Insn.probe, Insn.target] at h ⊢

end AsmTest.Hwtrace
