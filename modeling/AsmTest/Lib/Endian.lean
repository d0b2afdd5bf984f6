import Mathlib.Data.List.TakeDrop
import Mathlib.Tactic

/-!
# Fixed-width words in either byte order

A word is read as a little-endian number and its bytes are exchanged when the file has the
other order.
-/

namespace Endian

def ofLe : List UInt8 → ℕ
  | [] => 0
  | b :: bs => b.toNat + 256 * ofLe bs

def leBytes : ℕ → ℕ → List UInt8
  | 0, _ => []
  | n + 1, v => UInt8.ofNat v :: leBytes n (v / 256)

/-- The word of `n` bytes with its bytes in the other order. -/
def bswap (n v : ℕ) : ℕ := ofLe (leBytes n v).reverse

/-- The first `n` bytes as a word. -/
def rd (n : ℕ) (swap : Bool) (p : List UInt8) : ℕ :=
  if swap then bswap n (ofLe (p.take n)) else ofLe (p.take n)

def put (n : ℕ) (swap : Bool) (v : ℕ) : List UInt8 :=
  if swap then (leBytes n v).reverse else leBytes n v

@[simp] theorem length_leBytes (n v : ℕ) : (leBytes n v).length = n := by
  induction n generalizing v with
  | zero => rfl
  | succ n ih => simp [leBytes, ih]

@[simp] theorem length_put (n : ℕ) (swap : Bool) (v : ℕ) : (put n swap v).length = n := by
  cases swap <;> simp [put]

theorem ofLe_leBytes {n v : ℕ} (h : v < 256 ^ n) : ofLe (leBytes n v) = v := by
  induction n generalizing v with
  | zero =>
    have : v = 0 := by simpa using h
    simp [leBytes, ofLe, this]
  | succ n ih =>
    have hlt : v / 256 < 256 ^ n := by
      apply Nat.div_lt_of_lt_mul
      rwa [pow_succ'] at h
    simp only [leBytes, ofLe, ih hlt, UInt8.toNat_ofNat']
    exact Nat.mod_add_div v 256

theorem leBytes_ofLe (p : List UInt8) : leBytes p.length (ofLe p) = p := by
  induction p with
  | nil => rfl
  | cons b bs ih =>
    have hb : b.toNat < 256 := b.toNat_lt
    have hdiv : (b.toNat + 256 * ofLe bs) / 256 = ofLe bs := by omega
    have hmod : UInt8.ofNat (b.toNat + 256 * ofLe bs) = b := by
      apply UInt8.toNat_inj.mp
      rw [UInt8.toNat_ofNat']
      omega
    simp only [List.length_cons, ofLe, leBytes, hdiv, hmod, ih]

/-- A word that was written in an order is read back in it. -/
theorem rd_put {n v : ℕ} (swap : Bool) (h : v < 256 ^ n) (rest : List UInt8) :
    rd n swap (put n swap v ++ rest) = v := by
  have htake : (put n swap v ++ rest).take n = put n swap v := by
    rw [List.take_append_of_le_length (by simp), List.take_of_length_le (by simp)]
  unfold rd
  rw [htake]
  cases swap with
  | false => simpa [put] using ofLe_leBytes h
  | true =>
    have hrev := leBytes_ofLe (leBytes n v).reverse
    rw [List.length_reverse, length_leBytes] at hrev
    simp only [put, if_true, bswap, hrev, List.reverse_reverse]
    exact ofLe_leBytes h

end Endian
