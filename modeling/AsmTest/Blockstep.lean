import Mathlib.Tactic
import Mathlib.Data.List.Basic
import AsmTest.BsRecon

/-!
# Reconstructing one block

A block-step stop closes the block that was open: the terminator scan finds the branch that
ended it and the run up to it is recorded. A pre-cover table decodes the run of a block start
once; the scan and the recording then read the table instead of the bytes. The length
`asmtest_disas` reports is the one `asmtest_disas_probe` reports.
-/

namespace AsmTest.Hwtrace

open Code

/-- `PTRACE_STREAM_CAP` -/
def ptraceStreamCap : ℕ := 2 ^ 16

/-- The output of a reconstruction: the offsets recorded so far and `*last_off`. -/
structure BlockOut where
  stream : List ℕ
  lastOff : ℕ
deriving DecidableEq, Repr

/-- `bs_pc_kind_t` -/
inductive PcKind where
  | none
  | hardUnknown
  | uncond
  | cond
deriving DecidableEq, Repr

/-- `bs_precover_insn_t` -/
structure PcInsn where
  off : ℕ
  len : ℕ
  kind : PcKind
  target : ℕ
  isRep : Bool
deriving DecidableEq, Repr

/-- `bs_precover_run_t` -/
structure PcRun where
  leader : ℕ
  insns : List PcInsn
deriving DecidableEq, Repr

section Model

variable (c : Code) (isRep : ℕ → Bool) (base : ℕ)

/-- `bs_record_run`: whether the terminator was reached, the output, and whether a `rep` string
instruction was recorded. -/
def bsRecordRun (term : ℕ) : ℕ → ℕ → BlockOut → Bool → Bool × BlockOut × Bool
  | 0, _, out, rep => (false, out, rep)
  | guard + 1, walk, out, rep =>
    if c.len ≤ walk ∨ term < walk then (false, out, rep)
    else if ptraceStreamCap ≤ out.stream.length then (false, out, rep)
    else
      let out' : BlockOut := ⟨out.stream ++ [walk], walk⟩
      let rep' := rep || isRep walk
      if (c.disasProbe walk).len = 0 then (false, out', rep')
      else if walk = term then (true, out', rep')
      else bsRecordRun term guard (walk + (c.disasProbe walk).len) out' rep'

/-- What a cached instruction keeps: its kind and its static target. -/
def pcKind (off : ℕ) : PcKind × ℕ :=
  if c.disasIsBranch off then
    if (c.disasProbe off).isRet then (.hardUnknown, 0)
    else
      match c.disasBranchTarget base off with
      | none => (.hardUnknown, 0)
      | some target =>
        if (c.disasProbe off).isCall ∨ c.disasIsUncondJump off then (.uncond, target)
        else (.cond, target)
  else (.none, 0)

def pcInsn (off : ℕ) : PcInsn :=
  ⟨off, (c.disasProbe off).len, (pcKind c base off).1, (pcKind c base off).2, isRep off⟩

/-- The run cached for a leader. It ends at an always-taken branch, at an undecodable byte or at
the end of the region. -/
def pcWalk : ℕ → ℕ → List PcInsn
  | 0, _ => []
  | guard + 1, walk =>
    if c.len ≤ walk then []
    else if (c.disasProbe walk).len = 0 then []
    else if (pcKind c base walk).1 = .hardUnknown ∨ (pcKind c base walk).1 = .uncond then
      [pcInsn c isRep base walk]
    else pcInsn c isRep base walk :: pcWalk guard (walk + (c.disasProbe walk).len)

/-- One covered block; a leader outside the region or undecodable is not cached. -/
def pcRun (leader : ℕ) : Option PcRun :=
  if c.len ≤ leader then none
  else
    let insns := pcWalk c isRep base (c.len + 1) leader
    if insns = [] then none else some ⟨leader, insns⟩

/-- `asmtest_bs_precover_build`; `covered` are the starts of the covered blocks. -/
def bsPrecoverBuild (covered : List ℕ) : Option (List PcRun) :=
  if c.ptr = 0 ∨ c.len = 0 ∨ covered = [] then none
  else
    let runs := covered.filterMap (pcRun c isRep base)
    if runs = [] then none else some runs

/-- The binary search of `bs_precover_find` between `lo` and `hi`. -/
def precoverSearch (runs : List PcRun) (fromOff : ℕ) : ℕ → ℕ → ℕ → Option PcRun
  | 0, _, _ => none
  | fuel + 1, lo, hi =>
    if lo < hi then
      let mid := lo + (hi - lo) / 2
      match runs[mid]? with
      | none => none
      | some run =>
        if run.leader = fromOff then some run
        else if run.leader < fromOff then precoverSearch runs fromOff fuel (mid + 1) hi
        else precoverSearch runs fromOff fuel lo mid
    else none

def bsPrecoverFind (table : Option (List PcRun)) (fromOff : ℕ) : Option PcRun :=
  table.bind fun runs => precoverSearch runs fromOff (runs.length + 1) 0 runs.length

variable (nextPc : ℕ)

/-- The loop of `bs_precover_scan_terminator`; both its breaks and its end lead to the count of
the candidates. -/
def precoverScan : List PcInsn → ℕ → ℕ → BsStatus × Option ℕ
  | [], first, ncand => scanDecided first ncand
  | e :: es, first, ncand =>
    match e.kind with
    | .none => precoverScan es first ncand
    | .cond =>
      if e.target = nextPc then precoverScan es (if ncand = 0 then e.off else first) (ncand + 1)
      else precoverScan es first ncand
    | .hardUnknown => if ncand = 0 then (.ok, some e.off) else scanDecided first ncand
    | .uncond =>
      if e.target = nextPc then scanDecided (if ncand = 0 then e.off else first) (ncand + 1)
      else scanDecided first ncand

/-- The emission loop over a cached run. -/
def precoverEmit (term : ℕ) : List PcInsn → BlockOut → Bool → Bool × BlockOut × Bool
  | [], out, rep => (false, out, rep)
  | e :: es, out, rep =>
    if ptraceStreamCap ≤ out.stream.length then (false, out, rep)
    else
      let out' : BlockOut := ⟨out.stream ++ [e.off], e.off⟩
      let rep' := rep || e.isRep
      if e.off = term then (true, out', rep') else precoverEmit term es out' rep'

/-- The verdict after the run is recorded: a `rep` string instruction retires many times and is
recorded once, so an exact block that holds one is downgraded. -/
def reconVerdict (r : BsStatus) (done : Bool × BlockOut × Bool) : BsStatus × BlockOut :=
  if done.1 then (if done.2.2 ∧ r = .ok then .ambiguous else r, done.2.1) else (.fail, done.2.1)

/-- `blockstep_reconstruct_precover` -/
def reconstructPrecover (run : PcRun) (out : BlockOut) : BsStatus × BlockOut :=
  match precoverScan nextPc run.insns 0 0 with
  | (r, some term) => reconVerdict r (precoverEmit term run.insns out false)
  | (_, none) => (.fail, out)

/-- `blockstep_reconstruct` with no table installed. -/
def reconstructFresh (fromOff : ℕ) (out : BlockOut) : BsStatus × BlockOut :=
  match bsScanTerminator c base nextPc fromOff with
  | (r, some term) => reconVerdict r (bsRecordRun c isRep term (c.len + 1) fromOff out false)
  | (_, none) => (.fail, out)

def blockstepReconstruct (table : Option (List PcRun)) (fromOff : ℕ) (out : BlockOut) :
    BsStatus × BlockOut :=
  match bsPrecoverFind table fromOff with
  | some run => reconstructPrecover nextPc run out
  | none => reconstructFresh c isRep base nextPc fromOff out

end Model

variable {c : Code} {isRep : ℕ → Bool} {base nextPc : ℕ}

/-! ## The two scans -/

/-- A fresh classification is the cached kind compared with the next stop. -/
lemma classifyBranch_eq {off : ℕ} (hd : c.Decodes off) :
    (classifyBranch c base nextPc off).1 =
      match (pcKind c base off).1 with
      | .none => .none
      | .hardUnknown => .hardUnknown
      | .uncond => if (pcKind c base off).2 = nextPc then .hardHit else .hardMiss
      | .cond => if (pcKind c base off).2 = nextPc then .condHit else .condMiss := by
  cases hb : c.disasIsBranch off with
  | false => simp [classifyBranch_plain hd hb, pcKind, hb]
  | true =>
    cases ht : c.disasBranchTarget base off with
    | none => simp [classifyBranch_indirect hd hb ht, pcKind, hb, ht]
    | some tgt =>
      have hret : ¬(c.disasProbe off).isRet = true := fun h => by
        rw [c.ret_indirect base off h] at ht
        cases ht
      rw [classifyBranch_direct hd hb ht]
      by_cases hhard : (c.disasProbe off).isCall ∨ c.disasIsUncondJump off
      · simp [pcKind, hb, hret, ht, hhard]
      · simp [pcKind, hb, hret, ht, hhard]

/-- A conditional whose static target is the next stop. -/
def PcInsn.candidate (nextPc : ℕ) (e : PcInsn) : Bool :=
  e.kind = .cond ∧ e.target = nextPc

/-- The run reaches no always-taken branch: it leaves the region or stops decoding. -/
def Loose (run : List PcInsn) : Prop :=
  ∀ e ∈ run, e.kind ≠ .hardUnknown ∧ e.kind ≠ .uncond

instance (run : List PcInsn) : Decidable (Loose run) :=
  inferInstanceAs (Decidable (∀ _ ∈ _, _))

/-- The first candidate and the number of candidates after a loose run. -/
def tally (nextPc : ℕ) (run : List PcInsn) (first n : ℕ) : ℕ × ℕ :=
  let cands := run.filter (PcInsn.candidate nextPc)
  (if n = 0 then (cands.head?.map PcInsn.off).getD first else first, n + cands.length)

lemma tally_cons_of_candidate {e : PcInsn} (h : e.candidate nextPc) (es : List PcInsn)
    (first n : ℕ) :
    tally nextPc (e :: es) first n = tally nextPc es (if n = 0 then e.off else first) (n + 1) := by
  simp only [tally, List.filter_cons_of_pos h, List.head?_cons, Option.map_some,
    Option.getD_some, List.length_cons, Nat.add_eq_zero_iff, one_ne_zero, and_false, if_false]
  rw [Nat.add_right_comm, Nat.add_assoc]

lemma tally_cons_of_not {e : PcInsn} (h : ¬e.candidate nextPc) (es : List PcInsn)
    (first n : ℕ) : tally nextPc (e :: es) first n = tally nextPc es first n := by
  simp only [tally, List.filter_cons_of_neg h]

lemma precoverScan_loose {run : List PcInsn} (h : Loose run) (first n : ℕ) :
    precoverScan nextPc run first n =
      scanDecided (tally nextPc run first n).1 (tally nextPc run first n).2 := by
  induction run generalizing first n with
  | nil => simp [precoverScan, tally]
  | cons e es ih =>
    obtain ⟨⟨hu, hd⟩, hes⟩ := List.forall_mem_cons.mp h
    rw [precoverScan]
    cases hk : e.kind with
    | none => rw [tally_cons_of_not (by simp [PcInsn.candidate, hk]), ← ih hes]
    | cond =>
      by_cases ht : e.target = nextPc
      · rw [tally_cons_of_candidate (by simp [PcInsn.candidate, hk, ht]), ← ih hes]
        dsimp only
        rw [if_pos ht]
      · rw [tally_cons_of_not (by simp [PcInsn.candidate, hk, ht]), ← ih hes]
        dsimp only
        rw [if_neg ht]
    | hardUnknown => exact absurd hk hu
    | uncond => exact absurd hk hd

section Walk

variable {guard walk : ℕ}

lemma pcWalk_of_not_decodes (h : ¬c.Decodes walk) : pcWalk c isRep base guard walk = [] := by
  have hlen : (c.disasProbe walk).len = 0 := not_not.mp h
  cases guard with
  | zero => rfl
  | succ guard => simp [pcWalk, hlen]

lemma pcWalk_succ (hd : c.Decodes walk) :
    pcWalk c isRep base (guard + 1) walk =
      if (pcKind c base walk).1 = .hardUnknown ∨ (pcKind c base walk).1 = .uncond then
        [pcInsn c isRep base walk]
      else pcInsn c isRep base walk ::
        pcWalk c isRep base guard (walk + (c.disasProbe walk).len) := by
  have hlen : ¬(c.disasProbe walk).len = 0 := hd
  rw [pcWalk, if_neg (Nat.not_le.mpr hd.lt), if_neg hlen]

/-- The cached run lies from its leader on. -/
lemma le_of_mem_pcWalk {e : PcInsn} (h : e ∈ pcWalk c isRep base guard walk) : walk ≤ e.off := by
  induction guard generalizing walk with
  | zero => cases h
  | succ guard ih =>
    by_cases hd : c.Decodes walk
    · rw [pcWalk_succ hd] at h
      split_ifs at h
      · rw [List.mem_singleton.mp h]
        rfl
      · obtain rfl | h := List.mem_cons.mp h
        · exact le_rfl
        · exact (Nat.le_add_right _ _).trans (ih h)
    · rw [pcWalk_of_not_decodes hd] at h
      cases h

/-- A cached run that ends at an always-taken branch is scanned as a fresh one is. On a loose run
the fresh scan falls out with the candidates the cached one counts. -/
lemma scanLoop_pcWalk (isRep : ℕ → Bool) (first n : ℕ) :
    scanLoop c base nextPc guard walk first n =
      if Loose (pcWalk c isRep base guard walk) then
        scanFellOut (tally nextPc (pcWalk c isRep base guard walk) first n).1
          (tally nextPc (pcWalk c isRep base guard walk) first n).2
      else precoverScan nextPc (pcWalk c isRep base guard walk) first n := by
  induction guard generalizing walk first n with
  | zero => simp [pcWalk, scanLoop, Loose, tally]
  | succ guard ih =>
    by_cases hd : c.Decodes walk
    swap
    · rw [pcWalk_of_not_decodes hd, scanLoop_of_not_decodes hd]
      simp [Loose, tally]
    rw [scanLoop_succ hd, pcWalk_succ hd, classifyBranch_eq hd]
    have hkind : (pcInsn c isRep base walk).kind = (pcKind c base walk).1 := rfl
    have htarget : (pcInsn c isRep base walk).target = (pcKind c base walk).2 := rfl
    have hoff : (pcInsn c isRep base walk).off = walk := rfl
    cases hk : (pcKind c base walk).1 with
    | hardUnknown =>
      have hclosed : ¬Loose [pcInsn c isRep base walk] := by simp [Loose, hkind, hk]
      simp only [true_or, if_true]
      rw [if_neg hclosed, precoverScan, hkind, hk]
      rfl
    | uncond =>
      have hclosed : ¬Loose [pcInsn c isRep base walk] := by simp [Loose, hkind, hk]
      simp only [or_true, if_true]
      rw [if_neg hclosed, precoverScan, hkind, hk]
      dsimp only
      rw [htarget, hoff]
      split_ifs <;> rfl
    | none =>
      have hrest : Loose (pcInsn c isRep base walk ::
            pcWalk c isRep base guard (walk + (c.disasProbe walk).len)) ↔
          Loose (pcWalk c isRep base guard (walk + (c.disasProbe walk).len)) := by
        simp [Loose, hkind, hk]
      simp only [reduceCtorEq, or_self, if_false, hrest]
      rw [ih, tally_cons_of_not (by simp [PcInsn.candidate, hkind, hk]), precoverScan, hkind, hk]
    | cond =>
      have hrest : Loose (pcInsn c isRep base walk ::
            pcWalk c isRep base guard (walk + (c.disasProbe walk).len)) ↔
          Loose (pcWalk c isRep base guard (walk + (c.disasProbe walk).len)) := by
        simp [Loose, hkind, hk]
      simp only [reduceCtorEq, or_self, if_false, hrest]
      by_cases ht : (pcKind c base walk).2 = nextPc
      · have hcand : (pcInsn c isRep base walk).candidate nextPc := by
          simp [PcInsn.candidate, hkind, hk, htarget, ht]
        rw [if_pos ht, tally_cons_of_candidate hcand, precoverScan, hkind, hk, htarget, hoff]
        dsimp only
        rw [if_pos ht, ih]
      · have hcand : ¬(pcInsn c isRep base walk).candidate nextPc := by
          simp [PcInsn.candidate, hkind, hk, htarget, ht]
        rw [if_neg ht, tally_cons_of_not hcand, precoverScan, hkind, hk, htarget]
        dsimp only
        rw [if_neg ht, ih]

/-- Recording from the bytes up to an instruction of the run is emitting the cached run. -/
lemma bsRecordRun_eq_emit {term : ℕ} (hterm : ∃ e ∈ pcWalk c isRep base guard walk, e.off = term)
    (out : BlockOut) (rep : Bool) :
    bsRecordRun c isRep term guard walk out rep =
      precoverEmit term (pcWalk c isRep base guard walk) out rep := by
  induction guard generalizing walk out rep with
  | zero =>
    obtain ⟨e, he, -⟩ := hterm
    cases he
  | succ guard ih =>
    by_cases hd : c.Decodes walk
    swap
    · rw [pcWalk_of_not_decodes hd] at hterm
      obtain ⟨e, he, -⟩ := hterm
      cases he
    have hlen : ¬(c.disasProbe walk).len = 0 := hd
    have hle : walk ≤ term := by
      obtain ⟨e, he, rfl⟩ := hterm
      exact le_of_mem_pcWalk he
    have hoff : (pcInsn c isRep base walk).off = walk := rfl
    have hrep : (pcInsn c isRep base walk).isRep = isRep walk := rfl
    have hlt := hd.lt
    rw [bsRecordRun, if_neg (by omega)]
    dsimp only
    rw [if_neg hlen]
    obtain ⟨es, hes, hrest⟩ : ∃ es, pcWalk c isRep base (guard + 1) walk =
        pcInsn c isRep base walk :: es ∧
        (es = [] ∨ es = pcWalk c isRep base guard (walk + (c.disasProbe walk).len)) := by
      rw [pcWalk_succ hd]
      split_ifs
      · exact ⟨_, rfl, .inl rfl⟩
      · exact ⟨_, rfl, .inr rfl⟩
    rw [hes] at hterm ⊢
    rw [precoverEmit]
    dsimp only
    rw [hoff, hrep]
    by_cases hfull : ptraceStreamCap ≤ out.stream.length
    · rw [if_pos hfull, if_pos hfull]
    rw [if_neg hfull, if_neg hfull]
    by_cases heq : walk = term
    · rw [if_pos heq, if_pos heq]
    rw [if_neg heq, if_neg heq]
    obtain ⟨e, he, hterm⟩ := hterm
    obtain rfl | he := List.mem_cons.mp he
    · exact absurd hterm heq
    · obtain rfl | rfl := hrest
      · cases he
      · exact ih ⟨e, he, hterm⟩ _ _

end Walk

/-- The terminator a scan answers with is an instruction of the run. -/
lemma precoverScan_mem {run : List PcInsn} {first n term : ℕ} {r : BsStatus}
    (h : precoverScan nextPc run first n = (r, some term)) :
    (∃ e ∈ run, e.off = term) ∨ 0 < n ∧ term = first := by
  have hdecided : ∀ {f m : ℕ}, scanDecided f m = (r, some term) → m ≠ 0 ∧ term = f := by
    intro f m hs
    unfold scanDecided at hs
    split_ifs at hs with h0 h1
    · cases hs
    · exact ⟨h0, (Option.some.inj (Prod.ext_iff.mp hs).2).symm⟩
    · exact ⟨h0, (Option.some.inj (Prod.ext_iff.mp hs).2).symm⟩
  induction run generalizing first n with
  | nil =>
    obtain ⟨hn, ht⟩ := hdecided h
    exact .inr ⟨Nat.pos_of_ne_zero hn, ht⟩
  | cons e es ih =>
    have hweak : (∃ x ∈ es, x.off = term) ∨ 0 < n ∧ term = first →
        (∃ x ∈ e :: es, x.off = term) ∨ 0 < n ∧ term = first := fun hx =>
      hx.imp_left fun ⟨x, hx, ht⟩ => ⟨x, List.mem_cons_of_mem e hx, ht⟩
    -- a new candidate is `e` itself unless one came before
    have hnew : term = (if n = 0 then e.off else first) →
        (∃ x ∈ e :: es, x.off = term) ∨ 0 < n ∧ term = first := by
      intro ht
      split_ifs at ht with h0
      · exact .inl ⟨e, List.mem_cons_self, ht.symm⟩
      · exact .inr ⟨Nat.pos_of_ne_zero h0, ht⟩
    rw [precoverScan] at h
    cases hk : e.kind with
    | none =>
      simp only [hk] at h
      exact hweak (ih h)
    | cond =>
      simp only [hk] at h
      by_cases ht : e.target = nextPc
      · rw [if_pos ht] at h
        obtain ⟨x, hx, hterm⟩ | ⟨-, hterm⟩ := ih h
        · exact .inl ⟨x, List.mem_cons_of_mem e hx, hterm⟩
        · exact hnew hterm
      · rw [if_neg ht] at h
        exact hweak (ih h)
    | hardUnknown =>
      simp only [hk] at h
      split_ifs at h with h0
      · exact .inl ⟨e, List.mem_cons_self, Option.some.inj (Prod.ext_iff.mp h).2⟩
      · obtain ⟨hn, ht⟩ := hdecided h
        exact .inr ⟨Nat.pos_of_ne_zero hn, ht⟩
    | uncond =>
      simp only [hk] at h
      by_cases ht : e.target = nextPc
      · rw [if_pos ht] at h
        exact hnew (hdecided h).2
      · rw [if_neg ht] at h
        obtain ⟨hn, ht⟩ := hdecided h
        exact .inr ⟨Nat.pos_of_ne_zero hn, ht⟩

/-- With room the emission reaches the terminator, and sees the `rep` flags up to it. -/
lemma precoverEmit_spec {term : ℕ} {run : List PcInsn} (hsorted : run.Pairwise fun a b => a.off < b.off)
    (hterm : ∃ e ∈ run, e.off = term) {out : BlockOut} {rep : Bool}
    (hroom : out.stream.length + run.length ≤ ptraceStreamCap) :
    (precoverEmit term run out rep).1 = true ∧
      ((precoverEmit term run out rep).2.2 = false ↔
        rep = false ∧ ∀ x ∈ run, x.off ≤ term → x.isRep = false) := by
  induction run generalizing out rep with
  | nil =>
    obtain ⟨e, he, -⟩ := hterm
    cases he
  | cons e es ih =>
    obtain ⟨hlt, hes⟩ := List.pairwise_cons.mp hsorted
    rw [List.length_cons] at hroom
    rw [precoverEmit, if_neg (by omega)]
    dsimp only
    by_cases heq : e.off = term
    · rw [if_pos heq]
      refine ⟨rfl, ?_⟩
      rw [Bool.or_eq_false_iff, List.forall_mem_cons]
      refine and_congr_right fun _ => ⟨fun he => ⟨fun _ => he, fun x hx hle => ?_⟩, fun h => h.1 heq.le⟩
      have := hlt x hx
      omega
    · rw [if_neg heq]
      have hrest : ∃ x ∈ es, x.off = term := by
        obtain ⟨x, hx, ht⟩ := hterm
        obtain rfl | hx := List.mem_cons.mp hx
        · exact absurd ht heq
        · exact ⟨x, hx, ht⟩
      have hle : e.off ≤ term := by
        obtain ⟨x, hx, rfl⟩ := hrest
        exact (hlt x hx).le
      obtain ⟨h1, h2⟩ := @ih hes hrest ⟨out.stream ++ [e.off], e.off⟩ (rep || e.isRep)
        (by simp; omega)
      refine ⟨h1, h2.trans ?_⟩
      rw [Bool.or_eq_false_iff, List.forall_mem_cons, and_assoc]
      exact and_congr_right fun _ => and_congr_left fun _ => ⟨fun he _ => he, fun he => he hle⟩

/-! ## The table -/

/-- The binary search finds a run of the wanted leader when there is one. -/
lemma precoverSearch_spec {runs : List PcRun} (hs : runs.Pairwise fun a b => a.leader ≤ b.leader)
    {fromOff fuel lo hi : ℕ} (hhi : hi ≤ runs.length) (hf : hi - lo < fuel)
    (hlow : ∀ i (h : i < runs.length), i < lo → runs[i].leader ≠ fromOff)
    (hhigh : ∀ i (h : i < runs.length), hi ≤ i → runs[i].leader ≠ fromOff) :
    (∃ run ∈ runs, run.leader = fromOff ∧ precoverSearch runs fromOff fuel lo hi = some run) ∨
      (∀ run ∈ runs, run.leader ≠ fromOff) ∧ precoverSearch runs fromOff fuel lo hi = none := by
  induction fuel generalizing lo hi with
  | zero => omega
  | succ fuel ih =>
    rw [precoverSearch]
    by_cases hlt : lo < hi
    swap
    · rw [if_neg hlt]
      refine .inr ⟨fun run hrun => ?_, rfl⟩
      obtain ⟨i, hi', rfl⟩ := List.mem_iff_getElem.mp hrun
      rcases Nat.lt_or_ge i lo with h | h
      · exact hlow i hi' h
      · exact hhigh i hi' (by omega)
    rw [if_pos hlt]
    dsimp only
    have hmid : lo + (hi - lo) / 2 < runs.length := by omega
    rw [List.getElem?_eq_getElem hmid]
    dsimp only
    have hmono : ∀ i j (hi : i < runs.length) (hj : j < runs.length), i ≤ j →
        runs[i].leader ≤ runs[j].leader := by
      intro i j hi hj hij
      obtain rfl | hij := Nat.eq_or_lt_of_le hij
      · exact le_rfl
      · exact List.pairwise_iff_getElem.mp hs i j hi hj hij
    split_ifs with heq hless
    · exact .inl ⟨_, List.getElem_mem hmid, heq, rfl⟩
    · refine ih hhi (by omega) (fun i h hi' => ?_) hhigh
      have := hmono i _ h hmid (by omega)
      omega
    · refine ih (by omega) (by omega) hlow fun i h hi' => ?_
      have := hmono _ i hmid h hi'
      omega

lemma pcRun_eq_some_iff {leader : ℕ} {run : PcRun} :
    pcRun c isRep base leader = some run ↔
      pcWalk c isRep base (c.len + 1) leader ≠ [] ∧
        run = ⟨leader, pcWalk c isRep base (c.len + 1) leader⟩ := by
  rw [pcRun]
  by_cases hd : c.Decodes leader
  · rw [if_neg (Nat.not_le.mpr hd.lt)]
    dsimp only
    split_ifs with hnil
    · simp [hnil]
    · simp [hnil, eq_comm]
  · simp [pcWalk_of_not_decodes hd]

/-- What the installed table answers: the run of a covered start that decodes. -/
lemma bsPrecoverFind_build {covered : List ℕ} (hasc : covered.Pairwise (· ≤ ·)) (fromOff : ℕ) :
    bsPrecoverFind (bsPrecoverBuild c isRep base covered) fromOff =
      if fromOff ∈ covered ∧ pcWalk c isRep base (c.len + 1) fromOff ≠ [] then
        some ⟨fromOff, pcWalk c isRep base (c.len + 1) fromOff⟩
      else none := by
  set runs := covered.filterMap (pcRun c isRep base) with hruns
  have hmem : ∀ run, run ∈ runs ↔ run.leader ∈ covered ∧
      pcWalk c isRep base (c.len + 1) run.leader ≠ [] ∧
        run = ⟨run.leader, pcWalk c isRep base (c.len + 1) run.leader⟩ := by
    intro run
    rw [hruns, List.mem_filterMap]
    constructor
    · rintro ⟨leader, hl, hrun⟩
      obtain ⟨hne, rfl⟩ := pcRun_eq_some_iff.mp hrun
      exact ⟨hl, hne, rfl⟩
    · rintro ⟨hl, hne, hrun⟩
      exact ⟨_, hl, pcRun_eq_some_iff.mpr ⟨hne, hrun⟩⟩
  have hsorted : runs.Pairwise fun a b => a.leader ≤ b.leader := by
    refine hasc.filterMap _ ?_
    intro a b hab run hrun run' hrun'
    rw [(pcRun_eq_some_iff.mp hrun).2, (pcRun_eq_some_iff.mp hrun').2]
    exact hab
  have hfind : bsPrecoverFind (bsPrecoverBuild c isRep base covered) fromOff =
      precoverSearch runs fromOff (runs.length + 1) 0 runs.length := by
    rw [bsPrecoverBuild]
    by_cases hoff : c.ptr = 0 ∨ c.len = 0 ∨ covered = []
    · -- nothing decodes, or nothing is covered
      have hnil : runs = [] := by
        rw [List.eq_nil_iff_forall_not_mem]
        intro run hrun
        obtain ⟨hl, hne, -⟩ := (hmem run).mp hrun
        have hd : c.Decodes run.leader := by
          by_contra hd
          exact hne (pcWalk_of_not_decodes hd)
        obtain h | h | h := hoff
        · exact hd.present.1 h
        · have := hd.lt
          omega
        · simp [h] at hl
      rw [if_pos hoff, hnil]
      rfl
    · rw [if_neg hoff]
      dsimp only
      by_cases hnil : runs = []
      · rw [if_pos hnil, hnil]
        rfl
      · rw [if_neg hnil]
        rfl
  rw [hfind]
  obtain ⟨run, hrun, hl, hs⟩ | ⟨hno, hs⟩ := @precoverSearch_spec runs hsorted fromOff
    (runs.length + 1) 0 runs.length le_rfl (by omega) (fun i _ h => by omega)
    (fun i h h' => by omega)
  · obtain ⟨h1, h2, h3⟩ := (hmem run).mp hrun
    rw [hl] at h1 h2 h3
    rw [hs, if_pos ⟨h1, h2⟩, h3]
  · rw [hs, if_neg]
    rintro ⟨h1, h2⟩
    exact hno ⟨fromOff, pcWalk c isRep base (c.len + 1) fromOff⟩ ((hmem _).mpr ⟨h1, h2, rfl⟩) rfl

/-- The offsets of a cached run ascend. -/
lemma pcWalk_sorted (guard walk : ℕ) :
    (pcWalk c isRep base guard walk).Pairwise fun a b => a.off < b.off := by
  induction guard generalizing walk with
  | zero => exact List.Pairwise.nil
  | succ guard ih =>
    by_cases hd : c.Decodes walk
    · rw [pcWalk_succ hd]
      split_ifs
      · exact List.pairwise_singleton _ _
      · refine List.pairwise_cons.mpr ⟨fun e he => ?_, ih _⟩
        have hle := le_of_mem_pcWalk he
        have hlen : (c.disasProbe walk).len ≠ 0 := hd
        show walk < e.off
        omega
    · rw [pcWalk_of_not_decodes hd]
      exact List.Pairwise.nil

/-- A loose run with one candidate, and no `rep` string instruction up to it. -/
def Unsettled (nextPc : ℕ) (run : List PcInsn) : Prop :=
  Loose run ∧ ∃ e, run.filter (PcInsn.candidate nextPc) = [e] ∧
    ∀ x ∈ run, x.off ≤ e.off → x.isRep = false

/-- The fresh reconstruction in terms of the run the table would hold. -/
lemma reconstructFresh_eq (fromOff : ℕ) (out : BlockOut) {r : BsStatus} {term : ℕ}
    (hscan : bsScanTerminator c base nextPc fromOff = (r, some term))
    (hmem : ∃ e ∈ pcWalk c isRep base (c.len + 1) fromOff, e.off = term) :
    reconstructFresh c isRep base nextPc fromOff out =
      reconVerdict r (precoverEmit term (pcWalk c isRep base (c.len + 1) fromOff) out false) := by
  rw [reconstructFresh, hscan]
  dsimp only
  rw [bsRecordRun_eq_emit hmem]

lemma reconVerdict_ok_eq_ambiguous {done : Bool × BlockOut × Bool} (h : done.1 = true) :
    reconVerdict .ok done = reconVerdict .ambiguous done ↔ done.2.2 = true := by
  cases hrep : done.2.2 <;> simp [reconVerdict, h, hrep]

/-- Where the two scans agree, so do the reconstructions. -/
lemma reconstructPrecover_of_scan {fromOff : ℕ} (out : BlockOut)
    (h : bsScanTerminator c base nextPc fromOff =
      precoverScan nextPc (pcWalk c isRep base (c.len + 1) fromOff) 0 0) :
    reconstructPrecover nextPc ⟨fromOff, pcWalk c isRep base (c.len + 1) fromOff⟩ out =
      reconstructFresh c isRep base nextPc fromOff out := by
  rw [reconstructPrecover]
  dsimp only
  rcases hres : precoverScan nextPc (pcWalk c isRep base (c.len + 1) fromOff) 0 0 with ⟨r, _ | term⟩
  · rw [reconstructFresh, h, hres]
  · obtain hmem | ⟨hpos, -⟩ := precoverScan_mem hres
    · exact (reconstructFresh_eq fromOff out (h.trans hres) hmem).symm
    · exact absurd hpos (lt_irrefl 0)

/-- A cached run gives what the bytes give unless it is unsettled. -/
lemma reconstructPrecover_eq_iff {fromOff : ℕ} {out : BlockOut}
    (hroom : out.stream.length + (pcWalk c isRep base (c.len + 1) fromOff).length ≤
      ptraceStreamCap) :
    reconstructPrecover nextPc ⟨fromOff, pcWalk c isRep base (c.len + 1) fromOff⟩ out =
        reconstructFresh c isRep base nextPc fromOff out ↔
      ¬Unsettled nextPc (pcWalk c isRep base (c.len + 1) fromOff) := by
  have hscan : bsScanTerminator c base nextPc fromOff = _ := scanLoop_pcWalk isRep 0 0
  have hsorted : (pcWalk c isRep base (c.len + 1) fromOff).Pairwise _ := pcWalk_sorted _ _
  set run := pcWalk c isRep base (c.len + 1) fromOff with hrun
  by_cases hloose : Loose run
  swap
  · rw [if_neg hloose] at hscan
    exact iff_of_true (reconstructPrecover_of_scan out hscan) fun h => hloose h.1
  rw [if_pos hloose] at hscan
  have hcached : precoverScan nextPc run 0 0 = _ := precoverScan_loose hloose 0 0
  cases hc : run.filter (PcInsn.candidate nextPc) with
  | nil =>
    have ht : tally nextPc run 0 0 = (0, 0) := by simp [tally, hc]
    rw [ht] at hscan hcached
    refine iff_of_true (reconstructPrecover_of_scan out (hscan.trans hcached.symm)) fun h => ?_
    obtain ⟨e, he, -⟩ := h.2
    rw [hc] at he
    cases he
  | cons e es =>
    have ht : tally nextPc run 0 0 = (e.off, es.length + 1) := by simp [tally, hc]
    rw [ht] at hscan hcached
    cases es with
    | cons e' es =>
      have hagree : bsScanTerminator c base nextPc fromOff = precoverScan nextPc run 0 0 := by
        rw [hscan, hcached]
        simp [scanFellOut, scanDecided]
      refine iff_of_true (reconstructPrecover_of_scan out hagree) fun h => ?_
      · obtain ⟨x, hx, -⟩ := h.2
        rw [hc] at hx
        simp at hx
    | nil =>
      have hmem : ∃ x ∈ run, x.off = e.off :=
        ⟨e, List.mem_of_mem_filter (hc ▸ List.mem_singleton_self e), rfl⟩
      have hok : precoverScan nextPc run 0 0 = (.ok, some e.off) := by
        rw [hcached]
        simp [scanDecided]
      have hamb : bsScanTerminator c base nextPc fromOff = (.ambiguous, some e.off) := by
        rw [hscan]
        simp [scanFellOut]
      obtain ⟨hdone, hrep⟩ := @precoverEmit_spec _ _ hsorted hmem out false hroom
      rw [reconstructFresh_eq fromOff out hamb hmem, reconstructPrecover, hok]
      dsimp only
      rw [reconVerdict_ok_eq_ambiguous hdone, ← Bool.not_eq_false, hrep, not_iff_not]
      constructor
      · rintro ⟨-, h⟩
        exact ⟨hloose, e, hc, h⟩
      · rintro ⟨-, x, hx, h⟩
        rw [hc] at hx
        obtain rfl := (List.cons.inj hx).1
        exact ⟨rfl, h⟩

/-- A block reconstructs alike with and without the table, unless its start is covered and its
run leaves the decoded region with exactly one conditional to the next stop: the cached scan
takes that one for proven. -/
theorem precover_agrees_iff (c : Code) (isRep : ℕ → Bool) (base : ℕ) (covered : List ℕ)
    (hasc : covered.Pairwise (· ≤ ·)) (fromOff nextPc : ℕ) (out : BlockOut)
    (hroom : out.stream.length + (pcWalk c isRep base (c.len + 1) fromOff).length ≤
      ptraceStreamCap) :
    blockstepReconstruct c isRep base nextPc (bsPrecoverBuild c isRep base covered) fromOff out =
        blockstepReconstruct c isRep base nextPc none fromOff out ↔
      ¬(fromOff ∈ covered ∧ Unsettled nextPc (pcWalk c isRep base (c.len + 1) fromOff)) := by
  have hnone : blockstepReconstruct c isRep base nextPc none fromOff out =
      reconstructFresh c isRep base nextPc fromOff out := rfl
  rw [hnone, blockstepReconstruct, bsPrecoverFind_build hasc]
  by_cases hcov : fromOff ∈ covered ∧ pcWalk c isRep base (c.len + 1) fromOff ≠ []
  · rw [if_pos hcov]
    dsimp only
    rw [reconstructPrecover_eq_iff hroom, not_iff_not]
    exact ⟨fun h => ⟨hcov.1, h⟩, fun h => h.2⟩
  · rw [if_neg hcov]
    refine iff_of_true rfl ?_
    rintro ⟨hmem, hloose, e, he, -⟩
    have hnil : pcWalk c isRep base (c.len + 1) fromOff = [] := by
      by_contra hne
      exact hcov ⟨hmem, hne⟩
    rw [hnil] at he
    cases he

/-- A conditional to the next stop and then a ret: covered, and proven by both scans. -/
theorem precover_agrees_closed :
    let c := unitCode 100 [.jcc 500, .ret]
    blockstepReconstruct c (fun _ => false) 100 500 (bsPrecoverBuild c (fun _ => false) 100 [0, 1])
      0 ⟨[], 0⟩ = (.ok, ⟨[0], 0⟩) := by
  intro c
  have hruns : ¬Unsettled 500 (pcWalk c (fun _ => false) 100 (c.len + 1) 0) := by
    rintro ⟨hloose, -⟩
    revert hloose
    decide
  rw [(precover_agrees_iff c (fun _ => false) 100 [0, 1] (by decide) 0 500 ⟨[], 0⟩
    (by decide)).mpr fun h => hruns h.2]
  decide

/-- The same conditional at the end of the region: the fresh scan leaves the verdict open. -/
theorem precover_settles_loose :
    let c := unitCode 100 [.jcc 500, .plain]
    let table := bsPrecoverBuild c (fun _ => false) 100 [0]
    blockstepReconstruct c (fun _ => false) 100 500 table 0 ⟨[], 0⟩ = (.ok, ⟨[0], 0⟩) ∧
      blockstepReconstruct c (fun _ => false) 100 500 none 0 ⟨[], 0⟩ = (.ambiguous, ⟨[0], 0⟩) := by
  decide

end AsmTest.Hwtrace
