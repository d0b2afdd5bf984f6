import AsmTest.Lib.CStr
import AsmTest.Sha256
import AsmTest.Lib.SelfDelimiting

/-!
# The digest of a memory map

A snapshot of `/proc/<pid>/maps` is emitted only when its digest differs from the last one. The
bytes that are hashed determine the snapshot: numbers have eight bytes and strings end with a NUL.
-/

namespace AsmTest.Doc

open Lib

section Code

/-- `asmspy_vmspan_t`, the `char` arrays up to their NUL -/
structure VmSpan where
  base : BitVec 64
  len : BitVec 64
  perms : CStr
  name : CStr
  path : CStr
deriving DecidableEq

/-- What `asmspy_vmmap_digest` is called with -/
structure VmMap where
  spans : List VmSpan
  total : BitVec 64
  readable : Bool
deriving DecidableEq

/-- The bytes of a number, lowest first -/
def le64 (x : BitVec 64) : Bytes :=
  (List.range 8).map fun i => lowByte x (i * 8)

def vmHeader (m : VmMap) : Bytes :=
  le64 m.total ++ List.replicate 8 0 ++ [if m.readable then 1 else 0]

/-- The updates of a span -/
def vmRow (v : VmSpan) : List Bytes :=
  [le64 v.base ++ le64 v.len, v.perms.bytes ++ [0], v.name.bytes ++ [0], v.path.bytes ++ [0]]

/-- What is fed to the hash, update by update -/
def vmUpdates (m : VmMap) : List Bytes :=
  vmHeader m :: m.spans.flatMap vmRow

def hexDigit (d : ℕ) : Char := if d < 10 then Char.ofNat (48 + d) else Char.ofNat (87 + d)

/-- `asmspy_vmmap_digest`; the buffer of the hash holds what was there. -/
def vmmapDigest (buf : Bytes) (m : VmMap) : Option String :=
  (sha256Final ((vmUpdates m).foldl sha256Update (sha256Init buf))).map fun d =>
    String.ofList (d.flatMap fun b => [hexDigit (b.toNat / 16), hexDigit (b.toNat % 16)])

end Code

section Injective

lemma length_le64 (x : BitVec 64) : (le64 x).length = 8 := rfl

lemma le64_injective : Function.Injective le64 := by
  intro x y h
  have hbyte : ∀ i < 8, lowByte x (i * 8) = lowByte y (i * 8) := fun i hi =>
    List.map_inj_left.1 h i (List.mem_range.2 hi)
  apply BitVec.eq_of_getLsbD_eq
  intro j hj
  have hlow := congrArg (fun b : UInt8 => b.toBitVec.getLsbD (j % 8)) (hbyte (j / 8) (by omega))
  have hlt : j % 8 < 8 := Nat.mod_lt _ (by decide)
  have hsum : j / 8 * 8 + j % 8 = j := Nat.div_add_mod' j 8
  simpa [lowByte, hlt, hsum] using hlow

/-- The bytes of a span say where they end. -/
lemma selfDelimiting_row : SelfDelimiting fun v : VmSpan => (vmRow v).flatten := by
  have hnum : SelfDelimiting le64 := .of_length length_le64 le64_injective
  have hsub : Function.Injective
      fun s : CStr => (⟨s.bytes, s.noNul⟩ : { l : Bytes // 0 ∉ l }) :=
    fun s t h => CStr.ext (congrArg Subtype.val h)
  have hstr : SelfDelimiting fun s : CStr => s.bytes ++ [0] :=
    (SelfDelimiting.terminated 0).comp hsub
  have hrow := hnum.pair (hnum.pair (hstr.pair (hstr.pair hstr)))
  have hinj : Function.Injective fun v : VmSpan => (v.base, v.len, v.perms, v.name, v.path) := by
    rintro ⟨⟩ ⟨⟩ h
    cases h
    rfl
  intro a b x y h
  refine hrow.comp hinj (?_ : _ = _)
  simpa [vmRow] using h

lemma vmUpdates_flatten (m : VmMap) :
    (vmUpdates m).flatten = vmHeader m ++ m.spans.flatMap fun v => (vmRow v).flatten := by
  rw [vmUpdates, List.flatten_cons]
  congr 1
  induction m.spans with
  | nil => rfl
  | cons v spans ih => rw [List.flatMap_cons, List.flatten_append, ih, List.flatMap_cons]

lemma vmHeader_inj {a b : VmMap} (h : vmHeader a = vmHeader b) :
    a.total = b.total ∧ a.readable = b.readable := by
  rw [vmHeader, vmHeader] at h
  obtain ⟨hnum, hflag⟩ := List.append_inj h rfl
  refine ⟨le64_injective (List.append_inj hnum rfl).1, ?_⟩
  revert hflag
  cases a.readable <;> cases b.readable <;> decide

/-- Two snapshots that feed the same bytes to the hash are the same: every span with all its
fields, in order, the total and the flag. -/
theorem vmmap_preimage_injective : Function.Injective fun m : VmMap => (vmUpdates m).flatten := by
  intro a b h
  dsimp only at h
  rw [vmUpdates_flatten, vmUpdates_flatten] at h
  obtain ⟨hheader, hrows⟩ := List.append_inj h rfl
  obtain ⟨htotal, hreadable⟩ := vmHeader_inj hheader
  have hne : ∀ v : VmSpan, (vmRow v).flatten ≠ [] := by
    intro v hnil
    have hlen := congrArg List.length hnil
    simp [vmRow, length_le64] at hlen
  have hspans := selfDelimiting_row.flatMap_injective hne hrows
  cases a
  cases b
  cases htotal
  cases hreadable
  cases hspans
  rfl

end Injective

end AsmTest.Doc
