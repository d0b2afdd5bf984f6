import Mathlib.Data.List.Basic
import Mathlib.Tactic

/-!
# Circular buffers

A buffer in which the element at position `k` of a stream lies at `k` modulo the buffer's size, and
the two pieces a range of the stream is copied out in.
-/

namespace Circular

variable {α : Type*} {ring stream : List α} {tail n : ℕ}

/-- The element of position `pos` -/
def put (ring : List α) (pos : ℕ) (x : α) : List α := ring.set (pos % ring.length) x

@[simp] lemma length_put (ring : List α) (pos : ℕ) (x : α) :
    (put ring pos x).length = ring.length := List.length_set

/-- The `n` elements from position `tail` on: up to the end of the buffer, then from its start -/
def unwrap (ring : List α) (tail n : ℕ) : List α :=
  let start := tail % ring.length
  let first := min n (ring.length - start)
  (ring.drop start).take first ++ ring.take (n - first)

/-- The buffer shows the newest elements of the stream, as many as it has room for. -/
def Shows (ring stream : List α) : Prop :=
  ∀ k < stream.length, stream.length ≤ k + ring.length → ring[k % ring.length]? = stream[k]?

lemma Shows.nil : Shows ring [] := nofun

lemma Shows.put (h : Shows ring stream) (hpos : 0 < ring.length) (x : α) :
    Shows (put ring stream.length x) (stream ++ [x]) := by
  intro k hk hroom
  rw [List.length_append, List.length_singleton] at hk hroom
  rw [length_put] at hroom ⊢
  rw [Circular.put]
  obtain hlt | rfl := Nat.lt_succ_iff_lt_or_eq.mp hk
  · have hne : stream.length % ring.length ≠ k % ring.length := by
      intro heq
      obtain ⟨d, hd⟩ : ring.length ∣ stream.length - k :=
        (Nat.modEq_iff_dvd' hlt.le).mp heq.symm
      obtain rfl | hd' := Nat.eq_zero_or_pos d
      · omega
      · have := Nat.le_mul_of_pos_right ring.length hd'
        omega
    rw [List.getElem?_set_ne hne, List.getElem?_append_left hlt]
    exact h k hlt (by omega)
  · rw [List.getElem?_set_self (Nat.mod_lt _ hpos), List.getElem?_concat_length]

lemma Shows.set (h : Shows ring stream) (hn : ring.length = n) (hpos : 0 < n) (x : α) :
    (ring.set (stream.length % n) x).length = n ∧
      Shows (ring.set (stream.length % n) x) (stream ++ [x]) := by
  subst hn
  exact ⟨List.length_set, h.put hpos x⟩

lemma length_unwrap (hn : n ≤ ring.length) : (unwrap ring tail n).length = n := by
  simp only [unwrap, List.length_append, List.length_take, List.length_drop]
  omega

lemma getElem?_unwrap (hn : n ≤ ring.length) {i : ℕ} (hi : i < n) :
    (unwrap ring tail n)[i]? = ring[(tail + i) % ring.length]? := by
  have hpos : 0 < ring.length := by omega
  have hstart : tail % ring.length < ring.length := Nat.mod_lt _ hpos
  rw [Nat.add_mod, Nat.mod_eq_of_lt (a := i) (by omega)]
  simp only [unwrap]
  by_cases hfirst : tail % ring.length + i < ring.length
  · rw [List.getElem?_append_left (by simp only [List.length_take, List.length_drop]; omega),
      List.getElem?_take_of_lt (by omega), List.getElem?_drop, Nat.mod_eq_of_lt hfirst]
  · have hwrap : (tail % ring.length + i) % ring.length = tail % ring.length + i - ring.length := by
      rw [Nat.mod_eq_sub_mod (by omega), Nat.mod_eq_of_lt (by omega)]
    rw [List.getElem?_append_right (by simp only [List.length_take, List.length_drop]; omega),
      List.length_take, List.length_drop, List.getElem?_take_of_lt (by omega), hwrap]
    congr 1
    omega

/-- What is copied out is the rest of the stream, as long as none of it has been overwritten. -/
lemma Shows.unwrap_eq (h : Shows ring stream) (hle : tail ≤ stream.length)
    (hroom : stream.length ≤ tail + ring.length) :
    unwrap ring tail (stream.length - tail) = stream.drop tail := by
  apply List.ext_getElem?
  intro i
  by_cases hi : i < stream.length - tail
  · rw [getElem?_unwrap (by omega) hi, h (tail + i) (by omega) (by omega), List.getElem?_drop]
  · rw [List.getElem?_eq_none (by rw [length_unwrap (by omega)]; omega),
      List.getElem?_eq_none (by rw [List.length_drop]; omega)]

end Circular
