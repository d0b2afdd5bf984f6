import AsmTest.Lib.CStr
import AsmTest.Lib.InPlace
import Mathlib.Data.BitVec

/-!
# Selecting the tests of a run

`main` collects the registered tests that pass the filter, keeps a shard of them, repeats what is
left and shuffles it. Every step rearranges two arrays: the tests, and the index each was registered
with. The counts are those of `int`.
-/

namespace AsmTest.Selection

open InPlace

section Source

/-- What the selection reads of `asmtest_case_t` -/
structure Case where
  suite : CStr
  name : CStr
deriving DecidableEq

def dot : CStr := ⟨[46], by decide⟩

/-- `id_matches`; the id is cut to its buffer. -/
def idMatches (fnmatch : CStr → CStr → Bool) (suite name glob : CStr) : Bool :=
  fnmatch glob (((suite.append dot).append name).take 255) || fnmatch glob suite ||
    fnmatch glob name

def testMatches (fnmatch : CStr → CStr → Bool) (tc : Case) (glob : CStr) : Bool :=
  idMatches fnmatch tc.suite tc.name glob

/-- `sel[0 .. n)` and `gidx[0 .. n)` -/
structure Arrays where
  sel : List Case
  gidx : List ℕ
deriving DecidableEq

/-- `opt.filter == NULL || test_matches(tc, opt.filter)` -/
def passes (fnmatch : CStr → CStr → Bool) (filter : Option CStr) (tc : Case) : Bool :=
  match filter with
  | none => true
  | some glob => testMatches fnmatch tc glob

/-- The loop over the registered tests -/
def collectLoop (keep : Case → Bool) : List Case → ℕ → Arrays → Arrays
  | [], _, s => s
  | tc :: tcs, gi, s =>
    if keep tc then collectLoop keep tcs (gi + 1) ⟨s.sel ++ [tc], s.gidx ++ [gi]⟩
    else collectLoop keep tcs (gi + 1) s

def collect (fnmatch : CStr → CStr → Bool) (filter : Option CStr) (registered : List Case) :
    Arrays :=
  collectLoop (passes fnmatch filter) registered 0 ⟨[], []⟩

/-- `--shard=K/N` -/
def shardLoop (shardK shardN : ℕ) : ℕ → ℕ → ℕ → Arrays → Arrays
  | 0, _, m, s => ⟨s.sel.take m, s.gidx.take m⟩
  | left + 1, i, m, s =>
    if i % shardN = shardK - 1 then
      shardLoop shardK shardN left (i + 1) (m + 1) ⟨assign s.sel m i, assign s.gidx m i⟩
    else shardLoop shardK shardN left (i + 1) m s

def shard (shardK shardN : ℕ) (s : Arrays) : Arrays :=
  if 1 < shardN then shardLoop shardK shardN s.sel.length 0 0 s else s

/-- The copies that `--repeat` makes of the first `n` entries behind those that are there -/
def repeatLoop (n : ℕ) : ℕ → Arrays → Arrays
  | 0, s => s
  | r + 1, s => repeatLoop n r ⟨s.sel ++ s.sel.take n, s.gidx ++ s.gidx.take n⟩

/-- `asmtest_rng_u64`: the next state, and the number drawn -/
def rngU64 (s : BitVec 64) : BitVec 64 × BitVec 64 :=
  let s := s + 0x9E3779B97F4A7C15#64
  let z := s
  let z := (z ^^^ (z >>> 30)) * 0xBF58476D1CE4E5B9#64
  let z := (z ^^^ (z >>> 27)) * 0x94D049BB133111EB#64
  (s, z ^^^ (z >>> 31))

/-- The loop of `--shuffle`, downwards from the last entry -/
def shuffleLoop : ℕ → BitVec 64 → Arrays → Arrays
  | 0, _, s => s
  | i + 1, rng, s =>
    let (rng, z) := rngU64 rng
    let j := z.toNat % (i + 2)
    shuffleLoop i rng ⟨s.sel.swap (i + 1) j, s.gidx.swap (i + 1) j⟩

def shuffle (seed : BitVec 64) (s : Arrays) : Arrays := shuffleLoop (s.sel.length - 1) seed s

/-- `INT_MAX` -/
def intMax : ℕ := 2147483647

/-- The options, as the command line is checked: a `shard_n` of zero is no `--shard`. The seed is
that of `--seed`, of the environment or of the clock. -/
structure Options where
  filter : Option CStr := none
  shardK : ℕ := 0
  shardN : ℕ := 0
  doList : Bool := false
  reps : ℕ := 1
  shuffleSeed : Option (BitVec 64) := none
  shard_ok : shardN = 0 ∨ 1 ≤ shardK ∧ shardK ≤ shardN ∧ shardN ≤ 1000000 := by decide
  reps_pos : 1 ≤ reps := by decide

/-- What `main` does with the selection: lists it, exits with status 2, or runs it -/
inductive Selected
  | list (tests : List Case)
  | refused
  | run (s : Arrays)
deriving DecidableEq

/-- The selection of `main`, from the collecting to the shuffle -/
def select (fnmatch : CStr → CStr → Bool) (opt : Options) (registered : List Case) : Selected :=
  let s := shard opt.shardK opt.shardN (collect fnmatch opt.filter registered)
  let n := s.sel.length
  if opt.doList then .list s.sel
  else if 1 < opt.reps ∧ 0 < n ∧ intMax / opt.reps < n then .refused
  else
    let s := if 1 < opt.reps ∧ 0 < n then repeatLoop n (opt.reps - 1) s else s
    .run (match opt.shuffleSeed with
      | none => s
      | some seed => shuffle seed s)

end Source

section Lockstep

variable {registered : List Case} {s : Arrays}

/-- At every place stands the test that was registered with the index at that place. -/
def Lockstep (registered : List Case) (s : Arrays) : Prop :=
  s.sel.map some = s.gidx.map (registered[·]?)

lemma Lockstep.length_eq (h : Lockstep registered s) : s.sel.length = s.gidx.length := by
  have := congrArg List.length h
  rwa [List.length_map, List.length_map] at this

lemma Lockstep.take (h : Lockstep registered s) (n : ℕ) :
    Lockstep registered ⟨s.sel.take n, s.gidx.take n⟩ := by
  rw [Lockstep, List.map_take, h, List.map_take]

lemma Lockstep.append (h : Lockstep registered s) {t : Arrays} (ht : Lockstep registered t) :
    Lockstep registered ⟨s.sel ++ t.sel, s.gidx ++ t.gidx⟩ := by
  rw [Lockstep, List.map_append, h, ht, List.map_append]

lemma Lockstep.assign (h : Lockstep registered s) (m i : ℕ) :
    Lockstep registered ⟨assign s.sel m i, assign s.gidx m i⟩ := by
  rw [Lockstep, map_assign, h, map_assign]

lemma Lockstep.swap (h : Lockstep registered s) (i j : ℕ) :
    Lockstep registered ⟨s.sel.swap i j, s.gidx.swap i j⟩ := by
  rw [Lockstep, map_swap, h, map_swap]

end Lockstep

section Collect

variable {registered : List Case}

/-- The tests that pass, each with its index -/
def passing (keep : Case → Bool) (gi : ℕ) (registered : List Case) : List (Case × ℕ) :=
  (registered.zipIdx gi).filter fun p => keep p.1

lemma collectLoop_eq (keep : Case → Bool) (tcs : List Case) (gi : ℕ) (s : Arrays) :
    collectLoop keep tcs gi s =
      ⟨s.sel ++ (passing keep gi tcs).map Prod.fst,
        s.gidx ++ (passing keep gi tcs).map Prod.snd⟩ := by
  induction tcs generalizing gi s with
  | nil =>
    rw [collectLoop, passing, List.zipIdx_nil, List.filter_nil, List.map_nil, List.map_nil,
      List.append_nil, List.append_nil]
  | cons tc tcs ih =>
    rw [collectLoop, passing, List.zipIdx_cons]
    by_cases hk : keep tc = true
    · rw [if_pos hk, ih, List.filter_cons_of_pos (by exact hk), List.append_assoc,
        List.append_assoc]
      rfl
    · rw [if_neg hk, ih, List.filter_cons_of_neg (by exact hk)]
      rfl

lemma collect_eq (fnmatch : CStr → CStr → Bool) (filter : Option CStr) (registered : List Case) :
    collect fnmatch filter registered =
      ⟨(passing (passes fnmatch filter) 0 registered).map Prod.fst,
        (passing (passes fnmatch filter) 0 registered).map Prod.snd⟩ :=
  collectLoop_eq _ _ _ _

lemma lockstep_collect (fnmatch : CStr → CStr → Bool) (filter : Option CStr)
    (registered : List Case) : Lockstep registered (collect fnmatch filter registered) := by
  rw [collect_eq, Lockstep, List.map_map, List.map_map]
  refine List.map_congr_left fun p hp => ?_
  exact (List.mem_zipIdx_iff_getElem?.mp (List.mem_filter.mp hp).1).symm

end Collect

section Shard

variable {registered : List Case} {s : Arrays} {shardK shardN : ℕ}

lemma lockstep_shardLoop (h : Lockstep registered s) (left i m : ℕ) :
    Lockstep registered (shardLoop shardK shardN left i m s) := by
  induction left generalizing i m s with
  | zero => exact h.take m
  | succ left ih =>
    rw [shardLoop]
    split
    · exact ih (h.assign m i) (i + 1) (m + 1)
    · exact ih h (i + 1) m

lemma shardLoop_gidx (left i m : ℕ) :
    (shardLoop shardK shardN left i m s).gidx =
      compact (fun i => i % shardN = shardK - 1) left i m s.gidx := by
  induction left generalizing i m s with
  | zero => rfl
  | succ left ih =>
    rw [shardLoop, compact]
    by_cases hi : i % shardN = shardK - 1
    · rw [if_pos hi, if_pos (decide_eq_true hi), ih]
    · rw [if_neg hi, if_neg (by rwa [decide_eq_true_iff]), ih]

lemma lockstep_shard (h : Lockstep registered s) :
    Lockstep registered (shard shardK shardN s) := by
  rw [shard]
  split
  · exact lockstep_shardLoop h _ 0 0
  · exact h

/-- The shard of a selection, as the option's text has it -/
lemma shard_gidx (h : Lockstep registered s) (hn : 1 < shardN) :
    (shard shardK shardN s).gidx = pick (fun i => i % shardN = shardK - 1) 0 s.gidx := by
  rw [shard, if_pos hn, shardLoop_gidx, h.length_eq, compact_eq]

lemma shard_sublist (h : Lockstep registered s) :
    (shard shardK shardN s).gidx.Sublist s.gidx := by
  by_cases hn : 1 < shardN
  · rw [shard_gidx h hn]
    exact pick_sublist 0 s.gidx
  · rw [shard, if_neg hn]

/-- The shards of a selection, one after the other, are a permutation of it. -/
lemma perm_shards (h : Lockstep registered s) (hn : 0 < shardN) :
    ((List.range' 1 shardN).flatMap fun k => (shard k shardN s).gidx).Perm s.gidx := by
  obtain rfl | hn' : shardN = 1 ∨ 1 < shardN := by omega
  · exact List.Perm.of_eq (List.append_nil _)
  · rw [List.flatMap_congr fun k _ => shard_gidx h hn']
    exact perm_slices hn s.gidx

end Shard

section Repeat

variable {registered : List Case} {s : Arrays} {n : ℕ}

lemma lockstep_repeatLoop (h : Lockstep registered s) (r : ℕ) :
    Lockstep registered (repeatLoop n r s) := by
  induction r generalizing s with
  | zero => exact h
  | succ r ih => exact ih (h.append (h.take n))

/-- `r` more copies of the first entries -/
lemma repeatLoop_gidx (r : ℕ) (hn : n ≤ s.gidx.length) :
    (repeatLoop n r s).gidx = s.gidx ++ (List.replicate r (s.gidx.take n)).flatten := by
  induction r generalizing s with
  | zero => exact (List.append_nil _).symm
  | succ r ih =>
    have hlen : n ≤ (s.gidx ++ s.gidx.take n).length := by
      rw [List.length_append]
      omega
    rw [repeatLoop, ih hlen, List.take_append_of_le_length hn, List.append_assoc,
      List.replicate_succ, List.flatten_cons]

end Repeat

section Shuffle

variable {registered : List Case} {s : Arrays}

lemma lockstep_shuffleLoop (h : Lockstep registered s) (i : ℕ) (rng : BitVec 64) :
    Lockstep registered (shuffleLoop i rng s) := by
  induction i generalizing rng s with
  | zero => exact h
  | succ i ih => exact ih (h.swap (i + 1) _) _

lemma perm_shuffleLoop (i : ℕ) (rng : BitVec 64) :
    (shuffleLoop i rng s).gidx.Perm s.gidx := by
  induction i generalizing rng s with
  | zero => exact List.Perm.refl _
  | succ i ih => exact (ih _).trans (List.swap_perm s.gidx (i + 1) _)

end Shuffle

section Select

variable {registered : List Case} {fnmatch : CStr → CStr → Bool}

/-- What a selection made from the shard `part` has to be: refused only where its length would not
be an `int`, and else every test of the shard as often as asked for -/
def Selected.Exact (registered : List Case) (reps : ℕ) (part : List ℕ) : Selected → Prop
  | .list tests => tests.map some = part.map (registered[·]?)
  | .refused => 1 < reps ∧ intMax < part.length * reps
  | .run s => (reps = 1 ∨ part.length * reps ≤ intMax) ∧ Lockstep registered s ∧
      s.gidx.Perm (List.replicate reps part).flatten

lemma refused_iff {n reps : ℕ} (hreps : 1 ≤ reps) :
    (1 < reps ∧ 0 < n ∧ intMax / reps < n) ↔ 1 < reps ∧ intMax < n * reps := by
  rw [Nat.div_lt_iff_lt_mul (by omega)]
  refine and_congr_right fun _ => and_iff_right_of_imp fun h => ?_
  rw [pos_iff_ne_zero]
  rintro rfl
  rw [Nat.zero_mul] at h
  exact Nat.not_lt_zero _ h

lemma repeat_gidx {s : Arrays} {reps : ℕ} (h : Lockstep registered s) (hreps : 1 ≤ reps) :
    (if 1 < reps ∧ 0 < s.sel.length then repeatLoop s.sel.length (reps - 1) s else s).gidx =
      (List.replicate reps s.gidx).flatten := by
  have hsucc : reps = reps - 1 + 1 := by omega
  split
  · rw [repeatLoop_gidx _ h.length_eq.le, h.length_eq, List.take_length, hsucc,
      List.replicate_succ, List.flatten_cons, Nat.add_sub_cancel]
  · next hno =>
    obtain rfl | hnil : reps = 1 ∨ s.gidx = [] := by
      rw [← List.length_eq_zero_iff, ← h.length_eq]
      omega
    · rw [List.replicate_one, List.flatten_singleton]
    · rw [hnil, List.flatten_replicate_nil]

lemma exact_select (fnmatch : CStr → CStr → Bool) (registered : List Case) (opt : Options) :
    (select fnmatch opt registered).Exact registered opt.reps
      (shard opt.shardK opt.shardN (collect fnmatch opt.filter registered)).gidx := by
  have hlock : Lockstep registered
      (shard opt.shardK opt.shardN (collect fnmatch opt.filter registered)) :=
    lockstep_shard (lockstep_collect fnmatch opt.filter registered)
  rw [select]
  generalize shard opt.shardK opt.shardN (collect fnmatch opt.filter registered) = s at hlock ⊢
  dsimp only
  split
  · exact hlock
  · split
    · next hrefused =>
      rw [refused_iff opt.reps_pos, hlock.length_eq] at hrefused
      exact hrefused
    · next hfits =>
      rw [refused_iff opt.reps_pos, hlock.length_eq] at hfits
      have hreps := opt.reps_pos
      have hgidx := repeat_gidx hlock opt.reps_pos
      have hlock' : Lockstep registered (if 1 < opt.reps ∧ 0 < s.sel.length then
          repeatLoop s.sel.length (opt.reps - 1) s else s) := by
        split
        · exact lockstep_repeatLoop hlock _
        · exact hlock
      refine ⟨by omega, ?_⟩
      split
      · exact ⟨hlock', List.Perm.of_eq hgidx⟩
      · exact ⟨lockstep_shuffleLoop hlock' _ _,
          (perm_shuffleLoop _ _).trans (List.Perm.of_eq hgidx)⟩

/-- The filter keeps exactly the tests that pass, the shards of any number partition what it keeps,
and a run has every test of its shard as often as asked for, in lockstep with its index. -/
theorem test_selection_exact (fnmatch : CStr → CStr → Bool) (registered : List Case)
    (opt : Options) :
    (collect fnmatch opt.filter registered).gidx =
        (passing (passes fnmatch opt.filter) 0 registered).map Prod.snd ∧
      (∀ n, 0 < n →
        ((List.range' 1 n).flatMap fun k =>
          (shard k n (collect fnmatch opt.filter registered)).gidx).Perm
            (collect fnmatch opt.filter registered).gidx) ∧
      (∀ k n, Lockstep registered (shard k n (collect fnmatch opt.filter registered)) ∧
        (shard k n (collect fnmatch opt.filter registered)).gidx.Sublist
          (collect fnmatch opt.filter registered).gidx) ∧
      (select fnmatch opt registered).Exact registered opt.reps
        (shard opt.shardK opt.shardN (collect fnmatch opt.filter registered)).gidx := by
  have hlock := lockstep_collect fnmatch opt.filter registered
  exact ⟨by rw [collect_eq], fun n hn => perm_shards hlock hn,
    fun k n => ⟨lockstep_shard hlock, shard_sublist hlock⟩, exact_select fnmatch registered opt⟩

/-- Two tests `--repeat=2147483647` times do not fit: nothing is run. -/
theorem test_selection_refused :
    select (fun _ _ => true) { reps := 2147483647 } [⟨dot, dot⟩, ⟨dot, dot⟩] = .refused := by
  decide

end Select

end AsmTest.Selection
