import AsmTest.AuxDrain

/-!
# Growing a pool

`asmtest_grow` and `asmtest_grow_pow2` double a capacity that is a `size_t`, so each product here
wraps. What the header promises is that no product the functions form ever does.
-/

namespace AsmTest.Grow

section Source

/-- `size_t` -/
abbrev Size := BitVec 64

/-- `SIZE_MAX` -/
def sizeMax : Size := BitVec.allOnes 64

/-- `*arr` and `*cap` -/
structure Pool where
  arr : BitVec 64
  cap : Size
  deriving DecidableEq, Repr

/-- The loop of `asmtest_grow`, for at most `fuel` tests of its condition -/
def growLoop (maxcap need : Size) : ℕ → Size → Option Size
  | 0, _ => none
  | fuel + 1, ncap =>
    if ncap < need then
      -- the next double would wrap
      if maxcap / 2 < ncap then some need
      else growLoop maxcap need fuel (ncap * 2)
    else some ncap

/-- What is returned, and the pool; `realloc` answers 0 when it fails. `none` is a run that has no
result: it divides by 0 or needs more fuel. -/
def asmtestGrow (realloc : BitVec 64 → Size → BitVec 64) (fuel : ℕ) (pool : Pool)
    (need elem : Size) : Option (Bool × Pool) :=
  if need ≤ pool.cap then some (true, pool)
  else if elem = 0 then none
  else
    let maxcap := sizeMax / elem
    if maxcap < need then some (false, pool)
    else
      (growLoop maxcap need fuel (if pool.cap ≠ 0 then pool.cap else 8)).map fun ncap =>
        let p := realloc pool.arr (ncap * elem)
        if p = 0 then (false, pool) else (true, ⟨p, ncap⟩)

/-- The loop of `asmtest_grow_pow2`, with what is returned and `*out` -/
def growPow2Loop (maxcap minSlots out : Size) : ℕ → Size → Option (Bool × Size)
  | 0, _ => none
  | fuel + 1, ncap =>
    if maxcap / 2 < ncap then some (false, out)
    else if minSlots ≤ ncap * 2 then some (true, ncap * 2)
    else growPow2Loop maxcap minSlots out fuel (ncap * 2)

def asmtestGrowPow2 (fuel : ℕ) (cap minSlots elem out : Size) : Option (Bool × Size) :=
  if elem = 0 then none
  else growPow2Loop (sizeMax / elem) minSlots out fuel (if cap ≠ 0 then cap else 1)

end Source

section Promise

/-- `cap` elements of `elem` bytes can be counted in a `size_t`. -/
def Fits (cap elem : Size) : Prop := cap.toNat * elem.toNat ≤ sizeMax.toNat

/-- Whatever `realloc` answers, the call ends, with the pool as it was or with room for `need`. -/
def GrowSafe (pool : Pool) (need elem : Size) : Prop :=
  ∀ realloc, ∃ ok pool', (∀ fuel, 64 ≤ fuel →
      asmtestGrow realloc fuel pool need elem = some (ok, pool')) ∧
    ((ok = false ∧ pool' = pool) ∨ (ok = true ∧ need ≤ pool'.cap ∧ Fits pool'.cap elem))

/-- The call ends, with `*out` as it was or with a capacity for `minSlots`. -/
def GrowPow2Safe (cap minSlots elem out : Size) : Prop :=
  ∃ ok out', (∀ fuel, 64 ≤ fuel →
      asmtestGrowPow2 fuel cap minSlots elem out = some (ok, out')) ∧
    ((ok = false ∧ out' = out) ∨ (ok = true ∧ minSlots ≤ out' ∧ Fits out' elem))

/-- An empty pool that asks for fewer than the 8 elements it starts with, where 8 do not fit -/
def SeedWraps (pool : Pool) (need elem : Size) : Prop :=
  pool.cap = 0 ∧ need ≠ 0 ∧ Fits need elem ∧ ¬Fits 8 elem

end Promise

section Words

variable {maxcap ncap elem : Size}

lemma pos_of_ne_zero (h : ncap ≠ 0) : 0 < ncap.toNat := by
  rw [Nat.pos_iff_ne_zero]
  exact fun h0 => h (BitVec.eq_of_toNat_eq (by simpa using h0))

lemma le_maxcap_iff (helem : elem ≠ 0) : ncap ≤ sizeMax / elem ↔ Fits ncap elem := by
  rw [BitVec.le_def, BitVec.toNat_udiv, Nat.le_div_iff_mul_le (pos_of_ne_zero helem), Fits]

/-- A double that passes the test does not wrap. -/
lemma toNat_double (h : ¬maxcap / 2 < ncap) :
    (ncap * 2).toNat = ncap.toNat * 2 ∧ ncap.toNat * 2 ≤ maxcap.toNat := by
  rw [BitVec.lt_def, BitVec.toNat_udiv] at h
  have hmax := maxcap.isLt
  have htwo : (2 : Size).toNat = 2 := rfl
  rw [htwo] at h
  rw [BitVec.toNat_mul, htwo]
  omega

/-- The power of two that is missing to `2 ^ 64` shrinks with each double. -/
lemma fuel_double {fuel : ℕ} (h : ¬maxcap / 2 < ncap)
    (hfuel : 2 ^ 64 ≤ ncap.toNat * 2 ^ (fuel + 1)) : 2 ^ 64 ≤ (ncap * 2).toNat * 2 ^ fuel := by
  rw [(toNat_double h).1, Nat.mul_assoc, ← pow_succ']
  exact hfuel

end Words

section Loops

variable {maxcap need minSlots ncap : Size} {fuel : ℕ}

/-- The capacity doubles at each test, so 64 tests are enough from any capacity but 0. -/
lemma growLoop_spec (hneed : need ≤ maxcap) (hfuel : 2 ^ 64 ≤ ncap.toNat * 2 ^ fuel) :
    ∃ c, (∀ f, fuel ≤ f → growLoop maxcap need f ncap = some c) ∧ need ≤ c ∧
      (c = ncap ∨ c ≤ maxcap) := by
  induction fuel generalizing ncap with
  | zero =>
    have := ncap.isLt
    omega
  | succ fuel ih =>
    by_cases hlt : ncap < need
    · by_cases hwrap : maxcap / 2 < ncap
      · refine ⟨need, fun f hf => ?_, BitVec.le_refl need, .inr hneed⟩
        obtain ⟨f, rfl⟩ := Nat.exists_eq_add_of_le' hf
        rw [← Nat.add_assoc, growLoop, if_pos hlt, if_pos hwrap]
      · obtain ⟨hdouble, hle⟩ := toNat_double hwrap
        obtain ⟨c, hrun, hc, hcap⟩ := ih (fuel_double hwrap hfuel)
        refine ⟨c, fun f hf => ?_, hc, .inr ?_⟩
        · obtain ⟨f, rfl⟩ := Nat.exists_eq_add_of_le' hf
          rw [← Nat.add_assoc, growLoop, if_pos hlt, if_neg hwrap]
          exact hrun _ (Nat.le_add_left _ _)
        · rcases hcap with rfl | hcap
          · rw [BitVec.le_def, hdouble]
            exact hle
          · exact hcap
    · refine ⟨ncap, fun f hf => ?_, BitVec.not_lt.mp hlt, .inl rfl⟩
      obtain ⟨f, rfl⟩ := Nat.exists_eq_add_of_le' hf
      rw [← Nat.add_assoc, growLoop, if_neg hlt]

/-- The loop over words is the loop over numbers: nothing wraps. -/
lemma growPow2Loop_eq (out : Size) (hpos : 0 < ncap.toNat)
    (hfuel : 2 ^ 64 ≤ ncap.toNat * 2 ^ fuel) :
    growPow2Loop maxcap minSlots out fuel ncap =
      some ((PtAttach.growLoop maxcap.toNat minSlots.toNat ncap.toNat hpos).elim (false, out)
        fun c => (true, BitVec.ofNat 64 c)) := by
  induction fuel generalizing ncap with
  | zero =>
    have := ncap.isLt
    omega
  | succ fuel ih =>
    have hhalf : maxcap / 2 < ncap ↔ maxcap.toNat / 2 < ncap.toNat := by
      rw [BitVec.lt_def, BitVec.toNat_udiv]
      rfl
    rw [growPow2Loop, PtAttach.growLoop]
    by_cases hwrap : maxcap / 2 < ncap
    · rw [if_pos hwrap, if_pos (hhalf.mp hwrap)]
      rfl
    · obtain ⟨hdouble, -⟩ := toNat_double hwrap
      have hslots : minSlots ≤ ncap * 2 ↔ minSlots.toNat ≤ ncap.toNat * 2 := by
        rw [BitVec.le_def, hdouble]
      rw [if_neg hwrap, if_neg (mt hhalf.mpr hwrap)]
      by_cases hfits : minSlots ≤ ncap * 2
      · rw [if_pos hfits, if_pos (hslots.mp hfits), Option.elim_some, ← hdouble,
          BitVec.ofNat_toNat, BitVec.setWidth_eq]
      · rw [if_neg hfits, if_neg (mt hslots.mpr hfits),
          ih (by omega) (fuel_double hwrap hfuel)]
        simp only [hdouble]

/-- A capacity that is found is at most the greatest that fits. -/
lemma growLoop_le {maxcap minSlots ncap n : ℕ} (hpos : 0 < ncap)
    (h : PtAttach.growLoop maxcap minSlots ncap hpos = some n) : n ≤ maxcap := by
  fun_induction PtAttach.growLoop maxcap minSlots ncap hpos with
  | case1 => cases h
  | case2 ncap hpos hwrap hslots =>
    cases h
    omega
  | case3 ncap hpos hwrap hslots ih => exact ih h

end Loops

section Safety

variable {pool : Pool} {need elem : Size}

lemma growSafe_iff_of_le (h : need ≤ pool.cap) :
    GrowSafe pool need elem ↔ Fits pool.cap elem := by
  have hrun : ∀ realloc fuel, asmtestGrow realloc fuel pool need elem = some (true, pool) :=
    fun realloc fuel => by rw [asmtestGrow, if_pos h]
  constructor
  · intro hsafe
    obtain ⟨ok, pool', hrun', hend⟩ := hsafe fun _ _ => 0
    have hres := (hrun _ 64).symm.trans (hrun' 64 le_rfl)
    obtain ⟨rfl, rfl⟩ := Prod.mk.inj (Option.some.inj hres)
    rcases hend with ⟨hok, -⟩ | ⟨-, -, hfits⟩
    · cases hok
    · exact hfits
  · exact fun hfits realloc =>
      ⟨true, pool, fun fuel _ => hrun realloc fuel, .inr ⟨rfl, h, hfits⟩⟩

lemma not_growSafe_zero (h : ¬need ≤ pool.cap) : ¬GrowSafe pool need 0 := by
  intro hsafe
  obtain ⟨ok, pool', hrun, -⟩ := hsafe fun _ _ => 0
  have := hrun 64 le_rfl
  rw [asmtestGrow, if_neg h, if_pos rfl] at this
  cases this

/-- A need that cannot be counted is refused. -/
lemma growSafe_of_not_fits (h : ¬need ≤ pool.cap) (helem : elem ≠ 0) (hneed : ¬Fits need elem) :
    GrowSafe pool need elem := by
  intro realloc
  refine ⟨false, pool, fun fuel _ => ?_, .inl ⟨rfl, rfl⟩⟩
  have hmax : sizeMax / elem < need := BitVec.not_le.mp (mt (le_maxcap_iff helem).mp hneed)
  rw [asmtestGrow, if_neg h, if_neg helem]
  dsimp only
  rw [if_pos hmax]

/-- A need that can be counted ends with what the loop finds. -/
lemma asmtestGrow_of_fits (realloc : BitVec 64 → Size → BitVec 64) (fuel : ℕ)
    (h : ¬need ≤ pool.cap) (helem : elem ≠ 0) (hneed : Fits need elem) :
    asmtestGrow realloc fuel pool need elem =
      (growLoop (sizeMax / elem) need fuel (if pool.cap ≠ 0 then pool.cap else 8)).map fun ncap =>
        if realloc pool.arr (ncap * elem) = 0 then (false, pool)
        else (true, ⟨realloc pool.arr (ncap * elem), ncap⟩) := by
  have hmax : ¬sizeMax / elem < need := BitVec.not_lt.mpr ((le_maxcap_iff helem).mpr hneed)
  rw [asmtestGrow, if_neg h, if_neg helem]
  dsimp only
  rw [if_neg hmax]

/-- The seed is never held against the greatest capacity. -/
lemma not_growSafe_of_seedWraps (helem : elem ≠ 0) (h : SeedWraps pool need elem) :
    ¬GrowSafe pool need elem := by
  obtain ⟨hcap, hpos, hneed, hseed⟩ := h
  have hlt : ¬need ≤ pool.cap := by
    rw [hcap, BitVec.not_le, BitVec.lt_def]
    exact pos_of_ne_zero hpos
  have height : ¬8 < need := by
    intro hgt
    refine hseed (le_trans (Nat.mul_le_mul_right _ ?_) hneed)
    exact (BitVec.lt_def.mp hgt).le
  intro hsafe
  obtain ⟨ok, pool', hrun, hend⟩ := hsafe fun _ _ => 1
  have hres := hrun 64 le_rfl
  rw [asmtestGrow_of_fits _ _ hlt helem hneed, if_neg (not_not_intro hcap), growLoop,
    if_neg height, Option.map_some, if_neg (by decide)] at hres
  obtain ⟨rfl, rfl⟩ := Prod.mk.inj (Option.some.inj hres)
  rcases hend with ⟨hok, -⟩ | ⟨-, -, hfits⟩
  · cases hok
  · exact hseed hfits

/-- The loop ends, with the seed or with a capacity that fits. -/
lemma asmtestGrow_run (h : ¬need ≤ pool.cap) (helem : elem ≠ 0) (hneed : Fits need elem) :
    ∃ c, need ≤ c ∧ (pool.cap = 0 ∧ c = 8 ∨ Fits c elem) ∧ ∀ realloc fuel, 64 ≤ fuel →
      asmtestGrow realloc fuel pool need elem =
        some (if realloc pool.arr (c * elem) = 0 then (false, pool)
          else (true, ⟨realloc pool.arr (c * elem), c⟩)) := by
  have hfuel : 2 ^ 64 ≤ (if pool.cap ≠ 0 then pool.cap else 8).toNat * 2 ^ 64 := by
    refine Nat.le_mul_of_pos_left _ ?_
    split
    next hne => exact pos_of_ne_zero hne
    next => decide
  obtain ⟨c, hrun, hc, hcap⟩ := growLoop_spec ((le_maxcap_iff helem).mpr hneed) hfuel
  refine ⟨c, hc, ?_, fun realloc fuel hf => ?_⟩
  · rcases hcap with rfl | hcap
    · by_cases hzero : pool.cap = 0
      · exact .inl ⟨hzero, if_neg (not_not_intro hzero)⟩
      · rw [if_pos hzero] at hc
        exact absurd hc h
    · exact .inr ((le_maxcap_iff helem).mp hcap)
  · rw [asmtestGrow_of_fits _ _ h helem hneed, hrun fuel hf, Option.map_some]

lemma growSafe_of_not_seedWraps (h : ¬need ≤ pool.cap) (helem : elem ≠ 0) (hneed : Fits need elem)
    (hseed : ¬SeedWraps pool need elem) : GrowSafe pool need elem := by
  have hpos : need ≠ 0 := fun h0 => h (by rw [h0, BitVec.le_def]; exact Nat.zero_le _)
  obtain ⟨c, hc, hcap, hrun⟩ := asmtestGrow_run h helem hneed
  have hfits : Fits c elem := by
    rcases hcap with ⟨hzero, rfl⟩ | hfits
    · exact not_not.mp fun hno => hseed ⟨hzero, hpos, hneed, hno⟩
    · exact hfits
  intro realloc
  by_cases hnull : realloc pool.arr (c * elem) = 0
  · refine ⟨false, pool, fun fuel hf => ?_, .inl ⟨rfl, rfl⟩⟩
    rw [hrun realloc fuel hf, if_pos hnull]
  · refine ⟨true, ⟨realloc pool.arr (c * elem), c⟩, fun fuel hf => ?_, .inr ⟨rfl, hc, hfits⟩⟩
    rw [hrun realloc fuel hf, if_neg hnull]

/-- Only a division by 0 has no result: the loop ends from the seed too. -/
lemma asmtestGrow_ends_iff (realloc : BitVec 64 → Size → BitVec 64) :
    (∃ res, ∀ fuel, 64 ≤ fuel → asmtestGrow realloc fuel pool need elem = some res) ↔
      need ≤ pool.cap ∨ elem ≠ 0 := by
  constructor
  · rintro ⟨res, hrun⟩
    by_contra! hno
    obtain ⟨hlt, rfl⟩ := hno
    have := hrun 64 le_rfl
    rw [asmtestGrow, if_neg hlt, if_pos rfl] at this
    cases this
  · intro hcall
    by_cases h : need ≤ pool.cap
    · exact ⟨(true, pool), fun fuel _ => by rw [asmtestGrow, if_pos h]⟩
    · have helem := hcall.resolve_left h
      by_cases hneed : Fits need elem
      · obtain ⟨c, -, -, hrun⟩ := asmtestGrow_run h helem hneed
        exact ⟨_, hrun realloc⟩
      · obtain ⟨ok, pool', hrun, -⟩ := growSafe_of_not_fits h helem hneed realloc
        exact ⟨(ok, pool'), hrun⟩

lemma growSafe_iff : GrowSafe pool need elem ↔
    (need ≤ pool.cap → Fits pool.cap elem) ∧
      (pool.cap < need → elem ≠ 0 ∧ ¬SeedWraps pool need elem) := by
  by_cases h : need ≤ pool.cap
  · rw [growSafe_iff_of_le h]
    exact ⟨fun hfits => ⟨fun _ => hfits, fun hlt => absurd h (BitVec.not_le.mpr hlt)⟩,
      fun hfits => hfits.1 h⟩
  · have hlt := BitVec.not_le.mp h
    constructor
    · refine fun hsafe => ⟨fun hle => absurd hle h, fun _ => ?_⟩
      have helem : elem ≠ 0 := by
        rintro rfl
        exact not_growSafe_zero h hsafe
      exact ⟨helem, fun hseed => not_growSafe_of_seedWraps helem hseed hsafe⟩
    · rintro ⟨-, hgrow⟩
      obtain ⟨helem, hseed⟩ := hgrow hlt
      by_cases hneed : Fits need elem
      · exact growSafe_of_not_seedWraps h helem hneed hseed
      · exact growSafe_of_not_fits h helem hneed

lemma growPow2Safe_iff {cap minSlots out : Size} :
    GrowPow2Safe cap minSlots elem out ↔ elem ≠ 0 := by
  constructor
  · rintro ⟨ok, out', hrun, -⟩ rfl
    have := hrun 64 le_rfl
    rw [asmtestGrowPow2, if_pos rfl] at this
    cases this
  · intro helem
    have hpos : 0 < (if cap ≠ 0 then cap else 1).toNat := by
      split
      next hne => exact pos_of_ne_zero hne
      next => decide
    have hrun : ∀ fuel, 64 ≤ fuel → asmtestGrowPow2 fuel cap minSlots elem out =
        some ((PtAttach.growLoop (sizeMax / elem).toNat minSlots.toNat _ hpos).elim (false, out)
          fun c => (true, BitVec.ofNat 64 c)) := by
      intro fuel hf
      rw [asmtestGrowPow2, if_neg helem]
      refine growPow2Loop_eq out hpos (le_trans (Nat.pow_le_pow_right two_pos hf) ?_)
      exact Nat.le_mul_of_pos_left _ hpos
    cases hgrow : PtAttach.growLoop (sizeMax / elem).toNat minSlots.toNat _ hpos with
    | none =>
      rw [hgrow] at hrun
      exact ⟨false, out, hrun, .inl ⟨rfl, rfl⟩⟩
    | some c =>
      have hle := growLoop_le hpos hgrow
      have hc : (BitVec.ofNat 64 c).toNat = c :=
        (BitVec.toNat_ofNat c 64).trans (Nat.mod_eq_of_lt (hle.trans_lt (sizeMax / elem).isLt))
      rw [hgrow] at hrun
      refine ⟨true, _, hrun, .inr ⟨rfl, ?_, (le_maxcap_iff helem).mp ?_⟩⟩
      · rw [BitVec.le_def, hc]
        exact PtAttach.le_of_growLoop hpos hgrow
      · rw [BitVec.le_def, hc]
        exact hle

/-- A growth keeps what the header promises but for three kinds of calls: elements of no size, a
capacity that was already past what fits, and a seed of 8 elements where 8 do not fit. -/
theorem capacity_growth_iff (realloc : BitVec 64 → Size → BitVec 64) (pool : Pool)
    (need elem cap minSlots out : Size) :
    (GrowSafe pool need elem ↔ (need ≤ pool.cap → Fits pool.cap elem) ∧
      (pool.cap < need → elem ≠ 0 ∧ ¬SeedWraps pool need elem)) ∧
    (GrowPow2Safe cap minSlots elem out ↔ elem ≠ 0) ∧
    ((∃ res, ∀ fuel, 64 ≤ fuel → asmtestGrow realloc fuel pool need elem = some res) ↔
      need ≤ pool.cap ∨ elem ≠ 0) :=
  ⟨growSafe_iff, growPow2Safe_iff, asmtestGrow_ends_iff realloc⟩

/-- The first element of more than `2 ^ 61` bytes: `realloc` is asked for 8 bytes, and room for 8
elements is recorded. -/
theorem seed_wraps_on_first :
    (∀ fuel, 64 ≤ fuel →
      asmtestGrow (fun _ size => 0x1000 + size) fuel ⟨0, 0⟩ 1 0x2000000000000001 =
        some (true, ⟨0x1000 + 8, 8⟩)) ∧
    ¬GrowSafe ⟨0, 0⟩ 1 0x2000000000000001 := by
  constructor
  · intro fuel hf
    obtain ⟨f, rfl⟩ := Nat.exists_eq_add_of_le' hf
    rfl
  · refine not_growSafe_of_seedWraps (by decide) ⟨rfl, by decide, ?_, ?_⟩
    · rw [Fits]
      decide
    · rw [Fits]
      decide

end Safety

end AsmTest.Grow
