import Mathlib.Data.BitVec
import Mathlib.Data.List.FinRange
import Mathlib.Logic.Function.Iterate
import Mathlib.Tactic

/-!
# Shrinking a counterexample

`match_ref_run` draws argument tuples until the routine and its reference disagree on one, and
`match_ref_shrink` replaces the arguments of that tuple one after the other by boundary values or
halves them, as long as the two still disagree.
-/

namespace AsmTest.MatchRef

section Source

/-- `long` -/
abbrev Long := BitVec 64

/-- The arguments; `arity` is 1, 2 or 3 in the callers. -/
abbrev Tuple (arity : ℕ) := Fin arity → Long

def longMax : Long := 0x7FFFFFFFFFFFFFFF

def longMin : Long := 0x8000000000000000

def cand : List Long := [0, 1, -1, longMax, longMin]

/-- `match_ref_diverges`: what was got, what was wanted, and whether they differ. The routine sees
eight arguments, the unused ones zero. -/
def matchRefDiverges {arity : ℕ} (fn : List Long → Long) (ref : Tuple arity → Long)
    (a : Tuple arity) : Long × Long × Bool :=
  let expected := ref a
  let got := fn (List.ofFn a ++ List.replicate (8 - arity) 0)
  (got, expected, got != expected)

variable {arity : ℕ} (diverges : Tuple arity → Bool)

/-- The loop over the candidates for position `i`, and whether one was kept -/
def tryCands (i : Fin arity) (keep : Long) : List Long → Tuple arity → Tuple arity × Bool
  | [], a => (a, false)
  | c :: cs, a =>
    if c = keep then tryCands i keep cs a
    else
      let a := Function.update a i c
      if diverges a then (a, true) else tryCands i keep cs a

/-- `while (a[i] != 0)`: halve toward zero while it still fails -/
def halve (i : Fin arity) : ℕ → Tuple arity → Option (Tuple arity)
  | 0, _ => none
  | fuel + 1, a =>
    if a i = 0 then some a
    else
      let prev := a i
      let a := Function.update a i (prev.sdiv 2)
      if diverges a then halve i fuel a else some (Function.update a i prev)

/-- A round of the loop over the positions -/
def shrinkAt (fuel : ℕ) (a : Tuple arity) (i : Fin arity) : Option (Tuple arity) :=
  let keep := a i
  let (a, replaced) := tryCands diverges i keep cand a
  if replaced then some a else halve diverges i fuel (Function.update a i keep)

/-- `match_ref_shrink`; `none` when a halving is out of fuel -/
def matchRefShrink (fuel : ℕ) (a : Tuple arity) : Option (Tuple arity) :=
  (List.finRange arity).foldlM (shrinkAt diverges fuel) a

/-- What `match_ref_run` fails with -/
inductive Report (arity : ℕ)
  | arityOf (returned : ℕ)
  | mismatch (trial : ℕ) (input : Tuple arity) (got want : Long)
      (shrunk : Option (Tuple arity × Long × Long))

/-- The failure for a tuple on which the two disagree -/
def report (fn : List Long → Long) (ref : Tuple arity → Long) (fuel trial : ℕ)
    (a : Tuple arity) : Option (Report arity) :=
  let (got, want, _) := matchRefDiverges fn ref a
  (matchRefShrink (fun s => (matchRefDiverges fn ref s).2.2) fuel a).map fun s =>
    .mismatch trial a got want <|
      if s = a then none
      else some (s, (matchRefDiverges fn ref s).1, (matchRefDiverges fn ref s).2.1)

/-- The trials of `match_ref_run`; the generator returns the arguments it has filled in. The inner
`none` is a run that passes. -/
def matchRefTrials {σ : Type} (gen : σ → σ × List Long) (fn : List Long → Long)
    (ref : Tuple arity → Long) (fuel trials : ℕ) : ℕ → σ → Option (Option (Report arity))
  | 0, _ => some none
  | left + 1, rng =>
    let (rng, drawn) := gen rng
    if drawn.length ≠ arity then some (some (.arityOf drawn.length))
    else
      let a : Tuple arity := fun i => drawn.getD i 0
      if (matchRefDiverges fn ref a).2.2 then
        (report fn ref fuel (trials - (left + 1)) a).map some
      else matchRefTrials gen fn ref fuel trials left rng

/-- `match_ref_run` -/
def matchRefRun {σ : Type} (gen : σ → σ × List Long) (fn : List Long → Long)
    (ref : Tuple arity → Long) (fuel trials : ℕ) (seed : σ) : Option (Option (Report arity)) :=
  matchRefTrials gen fn ref fuel trials trials seed

end Source

section Spec

variable {arity : ℕ}

/-- Halved toward zero `k` times -/
def halved (k : ℕ) (v : Long) : Long := (fun v => v.sdiv 2)^[k] v

/-- The values a position may end with -/
def Origin (v w : Long) : Prop := w ∈ cand ∨ ∃ k, w = halved k v

/-- The tuple is still a counterexample, made of candidates and of halves of the arguments. -/
structure Shrinks (diverges : Tuple arity → Bool) (a s : Tuple arity) : Prop where
  diverges : diverges s = true
  origin : ∀ i, Origin (a i) (s i)

/-- What a failure says is so: the input and what it shrinks to are counterexamples, with the values
that are printed. -/
def Report.Sound (fn : List Long → Long) (ref : Tuple arity → Long) : Report arity → Prop
  | .arityOf returned => returned ≠ arity
  | .mismatch _ a got want shrunk =>
    matchRefDiverges fn ref a = (got, want, true) ∧
      ∀ s sg sw, shrunk = some (s, sg, sw) →
        s ≠ a ∧ matchRefDiverges fn ref s = (sg, sw, true) ∧
          Shrinks (fun a => (matchRefDiverges fn ref a).2.2) a s

end Spec

section Halve

variable {arity : ℕ} {diverges : Tuple arity → Bool} {i : Fin arity} {a : Tuple arity} {fuel : ℕ}

lemma natAbs_half (v : Long) : (v.sdiv 2).toInt.natAbs = v.toInt.natAbs / 2 := by
  have hne : (2 : Long) ≠ -1#64 := by decide
  have htwo : (2 : Long).toInt = 2 := by decide
  rw [BitVec.toInt_sdiv_of_ne_or_ne _ _ (.inr hne), htwo, Int.natAbs_tdiv]
  rfl

lemma eq_zero_of_natAbs {v : Long} (h : v.toInt.natAbs = 0) : v = 0 := by
  apply BitVec.eq_of_toInt_eq
  rw [Int.natAbs_eq_zero.mp h]
  rfl

lemma natAbs_lt (v : Long) : v.toInt.natAbs < 2 ^ 64 := by
  have hlo := v.le_toInt
  have hhi := v.toInt_lt
  omega

/-- The halving ends, and leaves a half of the argument with which the tuple diverges. -/
lemma exists_halve (ha : diverges a = true) {bits : ℕ} (hbits : (a i).toInt.natAbs < 2 ^ bits) :
    ∃ k, diverges (Function.update a i (halved k (a i))) = true ∧
      ∀ fuel, bits < fuel →
        halve diverges i fuel a = some (Function.update a i (halved k (a i))) := by
  induction bits generalizing a with
  | zero =>
    have hzero : a i = 0 := eq_zero_of_natAbs (by omega)
    have hself : Function.update a i (halved 0 (a i)) = a := Function.update_eq_self i a
    refine ⟨0, by rw [hself]; exact ha, fun fuel hfuel => ?_⟩
    obtain ⟨n, rfl⟩ : ∃ n, fuel = n + 1 := ⟨fuel - 1, by omega⟩
    rw [halve, if_pos hzero, hself]
  | succ bits ih =>
    by_cases hzero : a i = 0
    · have hself : Function.update a i (halved 0 (a i)) = a := Function.update_eq_self i a
      refine ⟨0, by rw [hself]; exact ha, fun fuel hfuel => ?_⟩
      obtain ⟨n, rfl⟩ : ∃ n, fuel = n + 1 := ⟨fuel - 1, by omega⟩
      rw [halve, if_pos hzero, hself]
    · by_cases hdiv : diverges (Function.update a i ((a i).sdiv 2)) = true
      · have hlt : ((Function.update a i ((a i).sdiv 2)) i).toInt.natAbs < 2 ^ bits := by
          rw [Function.update_self, natAbs_half]
          rw [pow_succ] at hbits
          omega
        obtain ⟨k, hk, hrun⟩ := ih hdiv hlt
        rw [Function.update_self, Function.update_idem] at hk
        refine ⟨k + 1, hk, fun fuel hfuel => ?_⟩
        obtain ⟨n, rfl⟩ : ∃ n, fuel = n + 1 := ⟨fuel - 1, by omega⟩
        rw [halve, if_neg hzero]
        dsimp only
        rw [if_pos hdiv, hrun n (by omega), Function.update_self, Function.update_idem]
        rfl
      · have hself : Function.update a i (halved 0 (a i)) = a := Function.update_eq_self i a
        refine ⟨0, by rw [hself]; exact ha, fun fuel hfuel => ?_⟩
        obtain ⟨n, rfl⟩ : ∃ n, fuel = n + 1 := ⟨fuel - 1, by omega⟩
        rw [halve, if_neg hzero]
        dsimp only
        rw [if_neg hdiv, Function.update_idem]
        rfl

end Halve

section Shrink

variable {arity : ℕ} {diverges : Tuple arity → Bool} {i : Fin arity} {a : Tuple arity}

/-- A candidate is kept only if the tuple diverges with it; after a loop that keeps none the old
argument is put back into the tuple as it was. -/
lemma tryCands_spec (keep : Long) (cs : List Long) :
    ((tryCands diverges i keep cs a).2 = true →
      ∃ c ∈ cs, (tryCands diverges i keep cs a).1 = Function.update a i c ∧
        diverges (Function.update a i c) = true) ∧
      ((tryCands diverges i keep cs a).2 = false →
        Function.update (tryCands diverges i keep cs a).1 i keep = Function.update a i keep) := by
  induction cs generalizing a with
  | nil => exact ⟨nofun, fun _ => rfl⟩
  | cons c cs ih =>
    rw [tryCands]
    by_cases hkeep : c = keep
    · obtain ⟨hkept, hnone⟩ := ih (a := a)
      rw [if_pos hkeep]
      refine ⟨fun h => ?_, hnone⟩
      obtain ⟨d, hd, hrest⟩ := hkept h
      exact ⟨d, List.mem_cons_of_mem c hd, hrest⟩
    · rw [if_neg hkeep]
      dsimp only
      by_cases hdiv : diverges (Function.update a i c) = true
      · rw [if_pos hdiv]
        exact ⟨fun _ => ⟨c, List.mem_cons_self, rfl, hdiv⟩, nofun⟩
      · obtain ⟨hkept, hnone⟩ := ih (a := Function.update a i c)
        rw [if_neg hdiv]
        simp only [Function.update_idem] at hkept hnone
        refine ⟨fun h => ?_, hnone⟩
        obtain ⟨d, hd, hrest⟩ := hkept h
        exact ⟨d, List.mem_cons_of_mem c hd, hrest⟩

/-- A round ends and changes its own position only. -/
lemma exists_shrinkAt (ha : diverges a = true) (i : Fin arity) :
    ∃ w, Origin (a i) w ∧ diverges (Function.update a i w) = true ∧
      ∀ fuel, 64 < fuel → shrinkAt diverges fuel a i = some (Function.update a i w) := by
  obtain ⟨hkept, hnone⟩ := @tryCands_spec _ diverges i a (a i) cand
  cases hreplaced : (tryCands diverges i (a i) cand a).2 with
  | true =>
    obtain ⟨c, hc, heq, hdiv⟩ := hkept hreplaced
    refine ⟨c, .inl hc, hdiv, fun fuel _ => ?_⟩
    rw [shrinkAt]
    dsimp only
    rw [hreplaced, if_pos rfl, heq]
  | false =>
    have hback : Function.update (tryCands diverges i (a i) cand a).1 i (a i) = a := by
      rw [hnone hreplaced, Function.update_eq_self]
    obtain ⟨k, hdiv, hrun⟩ := exists_halve (i := i) ha (natAbs_lt (a i))
    refine ⟨halved k (a i), .inr ⟨k, rfl⟩, hdiv, fun fuel hfuel => ?_⟩
    rw [shrinkAt]
    dsimp only
    rw [hreplaced, if_neg Bool.false_ne_true, hback, hrun fuel hfuel]

/-- The rounds over distinct positions, each still holding its original argument: every position
gets its origin from the first tuple, though the rounds before it have changed others. -/
lemma exists_rounds (positions : List (Fin arity)) (hnodup : positions.Nodup)
    (ha : diverges a = true) :
    ∃ s, diverges s = true ∧ (∀ i ∈ positions, Origin (a i) (s i)) ∧
      (∀ i ∉ positions, s i = a i) ∧
      ∀ fuel, 64 < fuel → positions.foldlM (shrinkAt diverges fuel) a = some s := by
  induction positions generalizing a with
  | nil => exact ⟨a, ha, nofun, fun _ _ => rfl, fun _ _ => rfl⟩
  | cons i positions ih =>
    obtain ⟨hi, hnodup⟩ := List.nodup_cons.mp hnodup
    obtain ⟨w, hw, hdiv, hround⟩ := exists_shrinkAt ha i
    obtain ⟨s, hs, horigin, hrest, hrun⟩ := ih hnodup hdiv
    refine ⟨s, hs, fun j hj => ?_, fun j hj => ?_, fun fuel hfuel => ?_⟩
    · obtain rfl | hj := List.mem_cons.mp hj
      · rw [hrest j hi, Function.update_self]
        exact hw
      · have hne : j ≠ i := fun h => hi (h ▸ hj)
        have := horigin j hj
        rwa [Function.update_of_ne hne] at this
    · obtain ⟨hne, hj⟩ := not_or.mp (mt List.mem_cons.mpr hj)
      rw [hrest j hj, Function.update_of_ne hne]
    · rw [List.foldlM_cons, hround fuel hfuel]
      exact hrun fuel hfuel

/-- Shrinking ends, and the tuple it leaves is a counterexample made of candidates and halves. -/
theorem match_ref_shrink_sound {arity : ℕ} (diverges : Tuple arity → Bool) (a : Tuple arity)
    (ha : diverges a = true) :
    ∃ s, (∀ fuel, 64 < fuel → matchRefShrink diverges fuel a = some s) ∧
      Shrinks diverges a s := by
  obtain ⟨s, hs, horigin, -, hrun⟩ := exists_rounds (List.finRange arity)
    (List.nodup_finRange arity) ha
  exact ⟨s, hrun, hs, fun i => horigin i (List.mem_finRange i)⟩

/-- The first argument lies between 10 and 1000 and the second is not zero. -/
def inBand (a : Tuple 2) : Bool :=
  BitVec.slt 10 (a 0) && BitVec.slt (a 0) 1000 && a 1 != 0

/-- No candidate lies in the band, so 96 is halved three times; -7 becomes the candidate 1. -/
theorem match_ref_shrink_to_twelve :
    inBand ![96, -7] = true ∧
      (∀ fuel, 64 < fuel → matchRefShrink inBand fuel ![96, -7] = some ![12, 1]) ∧
      Shrinks inBand ![96, -7] ![12, 1] := by
  have hin : inBand ![96, -7] = true := by decide
  have hrun : matchRefShrink inBand 65 ![96, -7] = some ![12, 1] := by decide +kernel
  obtain ⟨s, hs, hsound⟩ := match_ref_shrink_sound inBand ![96, -7] hin
  have heq := hs 65 (by decide)
  rw [hrun, Option.some.injEq] at heq
  rw [← heq] at hs hsound
  exact ⟨hin, hs, hsound⟩

end Shrink

section Driver

variable {arity : ℕ} {fn : List Long → Long} {ref : Tuple arity → Long} {fuel trials : ℕ}

lemma exists_report (trial : ℕ) {a : Tuple arity} (hfuel : 64 < fuel)
    (ha : (matchRefDiverges fn ref a).2.2 = true) :
    ∃ r, report fn ref fuel trial a = some r ∧ r.Sound fn ref := by
  obtain ⟨s, hs, horigin, -, hrun⟩ := @exists_rounds _
    (fun a => (matchRefDiverges fn ref a).2.2) a (List.finRange arity)
    (List.nodup_finRange arity) ha
  refine ⟨_, by rw [report, matchRefShrink, hrun fuel hfuel]; rfl, ?_⟩
  refine ⟨Prod.ext rfl (Prod.ext rfl ha), fun s' sg sw heq => ?_⟩
  split at heq
  · cases heq
  · next hne =>
    cases heq
    exact ⟨hne, Prod.ext rfl (Prod.ext rfl hs), hs, fun i => horigin i (List.mem_finRange i)⟩

/-- The driver ends, and what it fails with is sound. -/
theorem exists_matchRefRun {σ : Type} (gen : σ → σ × List Long) (hfuel : 64 < fuel) (seed : σ) :
    ∃ r, matchRefRun gen fn ref fuel trials seed = some r ∧ ∀ report ∈ r, report.Sound fn ref := by
  rw [matchRefRun]
  suffices h : ∀ left rng, ∃ r, matchRefTrials gen fn ref fuel trials left rng = some r ∧
      ∀ report ∈ r, report.Sound fn ref from h trials seed
  intro left
  induction left with
  | zero => exact fun rng => ⟨none, rfl, nofun⟩
  | succ left ih =>
    intro rng
    rw [matchRefTrials]
    dsimp only
    by_cases hlen : (gen rng).2.length ≠ arity
    · rw [if_pos hlen]
      exact ⟨_, rfl, fun _ h => Option.some.inj h ▸ hlen⟩
    · rw [if_neg hlen]
      split
      · next hdiv =>
        obtain ⟨r, hr, hsound⟩ := exists_report (trials - (left + 1)) hfuel hdiv
        exact ⟨some r, by rw [hr]; rfl, fun _ h => Option.some.inj h ▸ hsound⟩
      · exact ih _

end Driver

end AsmTest.MatchRef
