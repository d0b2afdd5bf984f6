import AsmTest.Lib.ProbeTable

/-!
# The last-writer map of `dataflow.c`

Allocations succeed here: neither `calloc` nor the `size_t` guard of
`asmtest_grow_pow2` refuses a growth.
-/

namespace AsmTest.Dataflow

open ProbeTable

/-- `(kind, a)`: 0 a raw register id, 1 a memory byte, 2 a container byte. -/
structure LwKey where
  kind : BitVec 8
  a : BitVec 64
  deriving DecidableEq, Repr

def lwHash (k : LwKey) : BitVec 64 :=
  let h := k.a * 0x9E3779B97F4A7C15#64 + k.kind.setWidth 64
  let h := h ^^^ (h >>> 29)
  let h := h * 0xBF58476D1CE4E5B9#64
  h ^^^ (h >>> 32)

/-- `while (n < min) n *= 2`, for at most `fuel` rounds. -/
def doubleUntil : ℕ → ℕ → ℕ → ℕ
  | 0, n, _ => n
  | fuel + 1, n, min => if n < min then doubleUntil fuel (2 * n) min else n

/-- `asmtest_grow_pow2`: double past `cap` until `minSlots` fit. -/
def growPow2 (cap minSlots : ℕ) : ℕ := doubleUntil minSlots (2 * if cap = 0 then 1 else cap) minSlots

/-- `while (ncap < want * 2)` of `lw_grow`. -/
def lwGrowLoop : ℕ → ℕ → ℕ → ℕ
  | 0, ncap, _ => ncap
  | fuel + 1, ncap, want =>
    if ncap < want * 2 then lwGrowLoop fuel (growPow2 ncap (ncap + 1)) want else ncap

/-- The capacity `lw_grow` allocates. -/
def lwNewCap (cap want : ℕ) : ℕ :=
  lwGrowLoop (want * 2) (growPow2 cap (if cap = 0 then 64 else cap)) want

abbrev LwMap := Table LwKey ℕ

def lwPut (m : LwMap) (k : LwKey) (step : ℕ) : Option LwMap :=
  m.put (fun k => (lwHash k).toNat) lwNewCap k step

def lwGet (m : LwMap) (k : LwKey) : Option (Option ℕ) := m.get (fun k => (lwHash k).toNat) k

/-! ## Growth keeps powers of two -/

lemma pow2_doubleUntil (fuel : ℕ) {n : ℕ} (hn : ∃ e, n = 2 ^ e) (min : ℕ) :
    ∃ e, doubleUntil fuel n min = 2 ^ e := by
  induction fuel generalizing n with
  | zero => exact hn
  | succ fuel ih =>
    rw [doubleUntil]
    split_ifs
    · obtain ⟨e, rfl⟩ := hn
      exact ih ⟨e + 1, by rw [pow_succ]; ring⟩
    · exact hn

lemma le_doubleUntil (fuel n min : ℕ) : n ≤ doubleUntil fuel n min := by
  induction fuel generalizing n with
  | zero => exact le_rfl
  | succ fuel ih =>
    rw [doubleUntil]
    split_ifs
    · exact (Nat.le_mul_of_pos_left n (by omega)).trans (ih _)
    · exact le_rfl

lemma pow2_growPow2 {cap : ℕ} (hc : cap = 0 ∨ ∃ e, cap = 2 ^ e) (minSlots : ℕ) :
    ∃ e, growPow2 cap minSlots = 2 ^ e := by
  apply pow2_doubleUntil
  rcases hc with rfl | ⟨e, rfl⟩
  · exact ⟨1, rfl⟩
  · exact ⟨e + 1, by simp [pow_succ, Nat.mul_comm]⟩

lemma lt_growPow2 (cap minSlots : ℕ) : cap < growPow2 cap minSlots := by
  have h := le_doubleUntil minSlots (2 * if cap = 0 then 1 else cap) minSlots
  unfold growPow2
  split_ifs at h ⊢ <;> omega

lemma pow2_lwGrowLoop (fuel : ℕ) {ncap : ℕ} (hn : ∃ e, ncap = 2 ^ e) (want : ℕ) :
    ∃ e, lwGrowLoop fuel ncap want = 2 ^ e := by
  induction fuel generalizing ncap with
  | zero => exact hn
  | succ fuel ih =>
    rw [lwGrowLoop]
    split_ifs
    · exact ih (pow2_growPow2 (Or.inr hn) _)
    · exact hn

lemma le_lwGrowLoop {fuel ncap want : ℕ} (h : want * 2 ≤ ncap + fuel) :
    want * 2 ≤ lwGrowLoop fuel ncap want := by
  induction fuel generalizing ncap with
  | zero => exact h
  | succ fuel ih =>
    rw [lwGrowLoop]
    split_ifs with hc
    · have := lt_growPow2 ncap (ncap + 1)
      exact ih (by omega)
    · omega

lemma lwNewCap_policy : Table.Policy lwNewCap := by
  intro cap cnt h
  have hc : cap = 0 ∨ ∃ e, cap = 2 ^ e := h.imp And.left And.left
  refine ⟨pow2_lwGrowLoop _ (pow2_growPow2 hc _) _, ?_⟩
  have : (cnt + 1) * 2 ≤ lwNewCap cap (cnt + 1) := le_lwGrowLoop (by omega)
  omega

/-! ## The map it stands for -/

namespace LwMap

def Ok (m : LwMap) : Prop := Table.Ok (fun k => (lwHash k).toNat) m

def view (m : LwMap) (k : LwKey) : Option ℕ := lookup m.e k

lemma ok_empty : Ok Table.empty := Table.ok_empty

/-- Every probe of a lookup ends; the answer is the map's. -/
theorem lwGet_eq {m : LwMap} (hm : m.Ok) (k : LwKey) : lwGet m k = some (m.view k) :=
  Table.get_eq_lookup hm k

theorem lwPut_spec {m : LwMap} (hm : m.Ok) (k : LwKey) (step : ℕ) :
    ∃ m', lwPut m k step = some m' ∧ Ok m' ∧ view m' = Function.update m.view k (some step) :=
  Table.put_spec lwNewCap_policy hm k step

/-- What holds of the map after `puts`: every lookup ends, with the last value put. -/
structure Holds (m : LwMap) (puts : List (LwKey × ℕ)) : Prop where
  get : ∀ k, lwGet m k = some (Table.lastPut puts k)
  uniq : ∀ i j k s t, slot m.e i = some (k, s) → slot m.e j = some (k, t) → i = j
  count : m.cnt = used m.e
  load : m.e.length = 0 ∨ m.cnt * 4 < m.e.length * 3

/-- A run of puts from the empty map; `none` if one of its probes never ends. -/
def lwPuts (puts : List (LwKey × ℕ)) : Option LwMap :=
  puts.foldlM (fun m p => lwPut m p.1 p.2) Table.empty

lemma Ok.holds {m : LwMap} {puts : List (LwKey × ℕ)} (hm : m.Ok)
    (hview : m.view = Table.lastPut puts) : Holds m puts := by
  have hget : ∀ k, lwGet m k = some (Table.lastPut puts k) := fun k => by
    rw [lwGet_eq hm k, hview]
  rcases hm with ⟨he, hcnt⟩ | ⟨hinv, hcnt, hload⟩
  · refine ⟨hget, fun i j k s t hi => ?_, by simp [he, hcnt, used], .inl (by simp [he])⟩
    simp [he, slot] at hi
  · exact ⟨hget, fun i j k s t hi hj => hinv.uniq i j _ _ hi hj rfl, hcnt, .inr hload⟩

/-- After any puts the map is the finite map of the last values put. -/
theorem lw_map_exact (puts : List (LwKey × ℕ)) :
    ∃ m, lwPuts puts = some m ∧ Holds m puts := by
  obtain ⟨m, hrun, hm, hview⟩ := Table.puts_spec lwNewCap_policy puts
  exact ⟨m, hrun, Ok.holds hm hview⟩

end LwMap

end AsmTest.Dataflow
