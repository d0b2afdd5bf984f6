import AsmTest.Lib.Scan

/-!
# Records that carry their size

A buffer of records, each with a header that says how many bytes the record has, and the loop that
goes from one to the next until a header is empty, or runs past the end.
-/

namespace Framing

open Scan

variable {σ : Type*} (header span : ℕ) (size : ℕ → ℕ) (peek body : ℕ → σ → σ)

/-- The header at `off` fits, and so does the record it announces. -/
def Framed (off : ℕ) : Prop := off + header ≤ span ∧ size off ≠ 0 ∧ off + size off ≤ span

instance (off : ℕ) : Decidable (Framed header span size off) :=
  inferInstanceAs (Decidable (_ ∧ _ ∧ _))

/-- Where the records start, from `off` on -/
def frames (off : ℕ) : List ℕ :=
  if _ : Framed header span size off then off :: frames (off + size off) else []
termination_by span - off
decreasing_by
  obtain ⟨-, hsize, hfits⟩ := ‹Framed header span size off›
  omega

/-- A round of the loop: `peek` sees every header, `body` the records that fit. -/
def step (s : ℕ × σ) : (ℕ × σ) ⊕ (ℕ × σ) :=
  if s.1 + header ≤ span then
    let seen := peek s.1 s.2
    if size s.1 = 0 ∨ span < s.1 + size s.1 then .inr (s.1, seen)
    else .inl (s.1 + size s.1, body s.1 seen)
  else .inr s

variable {header span size peek body}

lemma framed_of_mem {off p : ℕ} (h : p ∈ frames header span size off) :
    Framed header span size p := by
  fun_induction frames header span size off with
  | case1 off hframed ih =>
    obtain rfl | h := List.mem_cons.mp h
    · exact hframed
    · exact ih h
  | case2 => cases h

/-- The loop ends after the last record, or after one more header. -/
theorem exists_run (off : ℕ) (s : σ) :
    ∃ stop r, (∀ fuel, span - off < fuel →
        scan (step header span size peek body) fuel (off, s) = some (stop, r)) ∧
      ∃ t, (frames header span size off).foldl (fun s p => body p (peek p s)) s = t ∧
        (r = t ∨ stop + header ≤ span ∧ r = peek stop t) := by
  fun_induction frames header span size off generalizing s with
  | case1 off hframed ih =>
    obtain ⟨hheader, hsize, hfits⟩ := hframed
    obtain ⟨stop, r, hrun, hr⟩ := ih (body off (peek off s))
    refine ⟨stop, r, fun fuel hfuel => ?_, hr⟩
    obtain ⟨n, rfl⟩ : ∃ n, fuel = n + 1 := ⟨fuel - 1, by omega⟩
    have hgo : step header span size peek body (off, s) =
        .inl (off + size off, body off (peek off s)) := by
      rw [step, if_pos hheader]
      dsimp only
      rw [if_neg (by omega)]
    rw [scan_go hgo, hrun n (by omega)]
  | case2 off hframed =>
    by_cases hheader : off + header ≤ span
    · refine ⟨off, peek off s, fun fuel hfuel => ?_, s, rfl, .inr ⟨hheader, rfl⟩⟩
      obtain ⟨n, rfl⟩ : ∃ n, fuel = n + 1 := ⟨fuel - 1, by omega⟩
      have hbad : size off = 0 ∨ span < off + size off := by
        by_contra hgood
        exact hframed ⟨hheader, by omega, by omega⟩
      apply scan_stop
      rw [step, if_pos hheader]
      dsimp only
      rw [if_pos hbad]
    · refine ⟨off, s, fun fuel hfuel => ?_, s, rfl, .inl rfl⟩
      obtain ⟨n, rfl⟩ : ∃ n, fuel = n + 1 := ⟨fuel - 1, by omega⟩
      apply scan_stop
      rw [step, if_neg hheader]

end Framing
