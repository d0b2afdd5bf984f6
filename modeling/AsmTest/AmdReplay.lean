import Mathlib.Tactic
import Mathlib.Data.List.Basic
import AsmTest.Lib.Walk
import AsmTest.Trace
import AsmTest.Disas

/-!
# Replaying a taken-branch array

The replay walks the code between recorded branches and appends what it passes. A walk
towards a recorded source is a deterministic walk over offsets, so what a whole replay
appends is a list of events that depends on the region and the records only.
-/

namespace AsmTest.Hwtrace

open Code Lib

/-- `ASMTEST_HW_*` -/
inductive HwStatus where
  | ok
  | enosys
  | edecode
deriving DecidableEq, Repr

/-- The fields `from`, `to`, `abort` and `spec` of `struct perf_branch_entry`. -/
structure BranchEntry where
  fromAddr : ℕ
  toAddr : ℕ
  abort : Bool
  spec : ℕ
deriving DecidableEq, Repr

/-- `ASMTEST_PERF_BR_SPEC_WRONG_PATH` -/
def brSpecWrongPath : ℕ := 1

/-- Where the replay stands: the trace so far, the current address, and whether a position
in the region is known yet. -/
structure ReplayState where
  trace : Trace
  ip : ℕ
  entered : Bool
deriving DecidableEq, Repr

section Model

variable (c : Code) (base : ℕ)

/-- The walk of `amd_replay` from `o` to the recorded source, `.error` where it returns with
the trace marked. The first argument is what the guard has left. -/
def replayWalk (fromOff : ℕ) : ℕ → ℕ → Trace → Except Trace Trace
  | 0, _, t => .error t.markTruncated
  | guard + 1, o, t =>
    let p := c.disasProbe o
    if p.len = 0 then .error t.markTruncated
    else
      let t := traceAppendInsn t o
      if o = fromOff then .ok t
      else
        let wasBranch := c.disasIsBranch o
        let direct := (c.disasBranchTarget base o).isSome
        let tgt := (c.disasBranchTarget base o).getD 0
        -- a ret, an indirect transfer or a call can only stand at the recorded source
        if wasBranch ∧ (¬direct ∨ p.isCall) then .error t.markTruncated
        else if wasBranch ∧ c.disasIsUncondJump o then
          -- a direct jmp the reduced filter does not record
          if tgt < base ∨ base + c.len ≤ tgt then .error t.markTruncated
          else if fromOff < tgt - base then .error t.markTruncated
          else replayWalk fromOff guard (tgt - base) (traceAppendBlock t (tgt - base))
        else if fromOff < o + p.len then .error t.markTruncated
        else replayWalk fromOff guard (o + p.len)
          (if wasBranch then traceAppendBlock t (o + p.len) else t)

/-- Pass 1 of `amd_entry_fill`: whole instructions without a branch up to `target`. -/
def entryClean (target : ℕ) : ℕ → ℕ → Bool
  | 0, o => target ≤ o
  | fuel + 1, o =>
    if target ≤ o then true
    else
      let p := c.disasProbe o
      if p.len = 0 ∨ p.isRet then false
      else if c.disasIsBranch o then false
      else if target < o + p.len then false
      else entryClean target fuel (o + p.len)

/-- The commit loops of the two fills: append every instruction up to `stop`. The flag says
that no undecodable byte stopped them. -/
def commitRun (stop : ℕ) : ℕ → ℕ → Trace → Bool × Trace
  | 0, o, t => (stop ≤ o, t)
  | fuel + 1, o, t =>
    if stop ≤ o then (true, t)
    else
      let p := c.disasProbe o
      if p.len = 0 then (false, t)
      else commitRun stop fuel (o + p.len) (traceAppendInsn t o)

def amdEntryFill (targetIp : ℕ) (t : Trace) : Bool × Trace :=
  if targetIp ≤ base ∨ base + c.len < targetIp then (false, t)
  else
    let target := targetIp - base
    if entryClean c target target 0 then commitRun c target target 0 t else (false, t)

/-- The prologue fill, tried once, when the first position in the region is a branch target
past its base. -/
def landFill (s : ReplayState) (toIp : ℕ) : Bool × Trace :=
  if s.entered = false ∧ base < toIp then
    let r := amdEntryFill c base toIp s.trace
    if r.1 then r else (false, r.2.markTruncated)
  else (false, s.trace)

/-- Following a branch to its target. -/
def replayLand (s : ReplayState) (toIp : ℕ) : ReplayState :=
  if c.InRegion base toIp then
    let r := landFill c base s toIp
    { trace := if r.1 then r.2 else traceAppendBlock r.2 (toIp - base)
      ip := toIp
      entered := true }
  else { s with ip := toIp }

/-- The record is an aborted transaction or a wrong-path branch; `haveSpec` is
`ASMTEST_HAVE_PERF_BR_SPEC`. -/
def dropped (haveSpec : Bool) (e : BranchEntry) : Bool :=
  e.abort || (haveSpec && e.spec == brSpecWrongPath)

/-- Both the current address and the source lie in the region, in this order: the replay
decodes the run between them. -/
def Walked (ip : ℕ) (e : BranchEntry) : Prop :=
  c.InRegion base ip ∧ ip ≤ e.fromAddr ∧ e.fromAddr < base + c.len

instance (ip : ℕ) (e : BranchEntry) : Decidable (Walked c base ip e) :=
  inferInstanceAs (Decidable (_ ∧ _ ∧ _))

/-- The records that count, oldest first. -/
def retired (haveSpec : Bool) (br : List BranchEntry) : List BranchEntry :=
  br.reverse.filter fun e => !dropped haveSpec e

/-- One round of the branch loop. -/
def replayStep (haveSpec : Bool) (s : ReplayState) (e : BranchEntry) :
    Except Trace ReplayState :=
  if dropped haveSpec e then .ok s
  else if Walked c base s.ip e then
    match replayWalk c base (e.fromAddr - base) (c.len + 1) (s.ip - base) s.trace with
    | .error t => .error t
    | .ok t => .ok (replayLand c base { s with trace := t, entered := true } e.toAddr)
  else .ok (replayLand c base s e.toAddr)

/-- The branch loop over records in execution order. -/
def replayLoop (haveSpec : Bool) (s : ReplayState) (recs : List BranchEntry) :
    Except Trace ReplayState :=
  recs.foldlM (replayStep c base haveSpec) s

/-- The probing pass of the trailing fill: the offset past the exit instruction, or 0. -/
def tailScan : ℕ → ℕ → ℕ
  | 0, _ => 0
  | guard + 1, o =>
    if c.len ≤ o then 0
    else
      let p := c.disasProbe o
      if p.len = 0 then 0
      else if p.isRet then o + p.len
      else if c.disasIsBranch o then
        let tgt := c.disasBranchTarget base o
        if c.disasIsUncondJump o ∧ tgt.isSome ∧
            (tgt.getD 0 < base ∨ base + c.len ≤ tgt.getD 0) then o + p.len
        else 0
      else tailScan guard (o + p.len)

/-- The trailing fill; the flag is `*out_reached_exit`. -/
def tailFill (s : ReplayState) : Trace × Bool :=
  if s.trace.truncated = false ∧ c.InRegion base s.ip then
    let start := s.ip - base
    let exitEnd := tailScan c base (c.len + 1) start
    if start < exitEnd then
      ((commitRun c exitEnd c.len start (traceAppendBlock s.trace start)).2, true)
    else (s.trace, false)
  else (s.trace, false)

/-- The records come newest first; the replay reads them oldest first. -/
def amdReplay (haveSpec : Bool) (br : List BranchEntry) (t : Trace) : Trace × Bool :=
  match replayLoop c base haveSpec ⟨traceAppendBlock t 0, base, false⟩ br.reverse with
  | .error t => (t, false)
  | .ok s => tailFill c base s

end Model

def amdDecodeStitched (c : Code) (haveSpec : Bool) (br : List BranchEntry) (t : Trace)
    (gap : Bool) : HwStatus × Trace :=
  if br.length = 0 ∨ c.ptr = 0 ∨ c.len = 0 then (.edecode, t)
  else if c.disasAvailable = false then (.enosys, t)
  else
    let t := (amdReplay c c.ptr haveSpec br t).1
    (.ok, if gap then t.markTruncated else t)

section Walk

variable {c : Code} {base fromOff : ℕ}

/-- The successor of an offset that is not the recorded source yet. -/
def walkNext (c : Code) (base fromOff o : ℕ) : Option ℕ :=
  let tgt := c.disasBranchTarget base o
  if c.Decodes o ∧ ¬(c.disasIsBranch o ∧ (¬tgt.isSome ∨ (c.disasProbe o).isCall)) then
    if c.disasIsBranch o ∧ c.disasIsUncondJump o then
      if c.InRegion base (tgt.getD 0) ∧ tgt.getD 0 - base ≤ fromOff then some (tgt.getD 0 - base)
      else none
    else if o + (c.disasProbe o).len ≤ fromOff then some (o + (c.disasProbe o).len)
    else none
  else none

/-- What a walk along these offsets appends: a branch passed over starts a block. -/
def pathEvents (c : Code) : List ℕ → List Event
  | [] => []
  | [o] => [.insn o]
  | o :: o' :: p =>
    .insn o :: (if c.disasIsBranch o then [.block o'] else []) ++ pathEvents c (o' :: p)

lemma replayWalk_succ (guard o : ℕ) (t : Trace) :
    replayWalk c base fromOff (guard + 1) o t =
      if ¬c.Decodes o then .error t.markTruncated
      else if o = fromOff then .ok (emitAll t [.insn o])
      else match walkNext c base fromOff o with
        | none => .error (emitAll t [.insn o]).markTruncated
        | some o' => replayWalk c base fromOff guard o'
            (emitAll t (.insn o :: if c.disasIsBranch o then [.block o'] else [])) := by
  rw [replayWalk, walkNext]
  by_cases hd : c.Decodes o
  · have hlen : ¬(c.disasProbe o).len = 0 := hd
    rw [if_neg hlen, if_neg (not_not_intro hd)]
    by_cases ho : o = fromOff
    · rw [if_pos ho, if_pos ho, traceAppendInsn_eq_emitAll]
    · rw [if_neg ho, if_neg ho]
      simp only [hd, true_and]
      by_cases hrec : c.disasIsBranch o ∧
          (¬(c.disasBranchTarget base o).isSome ∨ (c.disasProbe o).isCall)
      · rw [if_pos hrec, if_neg (not_not_intro hrec), traceAppendInsn_eq_emitAll]
      · rw [if_neg hrec, if_pos hrec]
        by_cases hj : c.disasIsBranch o ∧ c.disasIsUncondJump o
        · rw [if_pos hj, if_pos hj]
          by_cases hin : c.InRegion base ((c.disasBranchTarget base o).getD 0)
          · obtain ⟨hlo, hhi⟩ := hin
            rw [if_neg (by omega)]
            by_cases hpast : (c.disasBranchTarget base o).getD 0 - base ≤ fromOff
            · rw [if_neg (by omega), if_pos ⟨⟨hlo, hhi⟩, hpast⟩]
              dsimp only
              rw [if_pos hj.1]
              rfl
            · rw [if_pos (by omega), if_neg fun h => hpast h.2, traceAppendInsn_eq_emitAll]
          · rw [if_pos, if_neg fun h => hin h.1, traceAppendInsn_eq_emitAll]
            unfold InRegion at hin
            omega
        · rw [if_neg hj, if_neg hj]
          by_cases hpast : o + (c.disasProbe o).len ≤ fromOff
          · rw [if_neg (by omega), if_pos hpast]
            dsimp only
            split_ifs <;> rfl
          · rw [if_pos (by omega), if_neg hpast, traceAppendInsn_eq_emitAll]
  · have hlen : (c.disasProbe o).len = 0 := not_not.mp hd
    rw [if_pos hlen, if_pos hd]

/-- The code leads from `o` to the recorded source along these offsets, through conditionals
that fall through and direct jumps. -/
def Leads (c : Code) (base fromOff o : ℕ) (p : List ℕ) : Prop :=
  c.Decodes fromOff ∧ Path (walkNext c base fromOff) fromOff o p

lemma decodes_of_walkNext {o o' : ℕ} (h : walkNext c base fromOff o = some o') : c.Decodes o := by
  by_contra hd
  rw [walkNext, if_neg fun hp => hd hp.1] at h
  cases h

lemma Leads.decodes {o : ℕ} {p : List ℕ} (h : Leads c base fromOff o p) :
    ∀ x ∈ p, c.Decodes x := by
  intro x hx
  by_cases hne : x = fromOff
  · exact hne ▸ h.1
  · obtain ⟨y, hy⟩ := h.2.exists_next hx hne
    exact decodes_of_walkNext hy

/-- The guard of `len + 1` rounds never stops a walk that converges. -/
lemma Leads.length_le {o : ℕ} {p : List ℕ} (h : Leads c base fromOff o p) : p.length ≤ c.len := by
  rw [← Finset.card_range c.len]
  apply h.2.length_le
  intro x hx
  exact Finset.mem_range.mpr (h.decodes x hx).lt

lemma pathEvents_cons {o o' : ℕ} {p : List ℕ} (h : p.head? = some o') :
    pathEvents c (o :: p) =
      .insn o :: (if c.disasIsBranch o then [.block o'] else []) ++ pathEvents c p := by
  cases p with
  | nil => cases h
  | cons x p =>
    obtain rfl := Option.some.inj h
    rfl

@[simp] lemma insnsOf_pathEvents (p : List ℕ) : insnsOf (pathEvents c p) = p := by
  induction p with
  | nil => rfl
  | cons o p ih =>
    cases p with
    | nil => rfl
    | cons o' p =>
      rw [pathEvents_cons rfl, insnsOf_append, ih]
      split_ifs <;> rfl

lemma replayWalk_of_leads {o : ℕ} {p : List ℕ} (hd : c.Decodes fromOff)
    (h : Path (walkNext c base fromOff) fromOff o p) {fuel : ℕ} (hf : p.length ≤ fuel) (t : Trace) :
    replayWalk c base fromOff fuel o t = .ok (emitAll t (pathEvents c p)) := by
  induction h generalizing fuel t with
  | here =>
    obtain ⟨fuel, rfl⟩ := Nat.exists_eq_add_one_of_ne_zero (n := fuel) (by simp at hf; omega)
    rw [replayWalk_succ, if_neg (not_not_intro hd), if_pos rfl]
    rfl
  | @step o o' p hne hnext hp ih =>
    obtain ⟨fuel, rfl⟩ := Nat.exists_eq_add_one_of_ne_zero (n := fuel) (by simp at hf; omega)
    rw [replayWalk_succ, if_neg (not_not_intro (decodes_of_walkNext hnext)), if_neg hne, hnext]
    dsimp only
    rw [ih (by simpa using hf), pathEvents_cons hp.head?_eq, ← emitAll_append]

/-- A walk that does not lead to its source returns with the trace marked. -/
lemma replayWalk_of_not_leads {o : ℕ} (h : ¬∃ p, Leads c base fromOff o p) (fuel : ℕ) (t : Trace) :
    ∃ t', replayWalk c base fromOff fuel o t = .error t' ∧ t'.truncated = true := by
  induction fuel generalizing o t with
  | zero => exact ⟨_, rfl, rfl⟩
  | succ fuel ih =>
    rw [replayWalk_succ]
    by_cases hd : c.Decodes o
    · have hne : o ≠ fromOff := by
        rintro rfl
        exact h ⟨_, hd, .here⟩
      rw [if_neg (not_not_intro hd), if_neg hne]
      cases hnext : walkNext c base fromOff o with
      | none => exact ⟨_, rfl, rfl⟩
      | some o' =>
        apply ih
        rintro ⟨p, hgoal, hp⟩
        exact h ⟨_, hgoal, .step hne hnext hp⟩
    · rw [if_pos hd]
      exact ⟨_, rfl, rfl⟩

end Walk

section Fill

variable {c : Code} {base : ℕ}

/-- The offsets a commit loop passes. -/
def runOffsets (c : Code) (stop : ℕ) : ℕ → ℕ → List ℕ
  | 0, _ => []
  | fuel + 1, o =>
    if stop ≤ o ∨ ¬c.Decodes o then [] else o :: runOffsets c stop fuel (o + (c.disasProbe o).len)

lemma commitRun_eq (stop fuel o : ℕ) (t : Trace) :
    (commitRun c stop fuel o t).2 = emitAll t ((runOffsets c stop fuel o).map .insn) := by
  induction fuel generalizing o t with
  | zero => rfl
  | succ fuel ih =>
    rw [commitRun, runOffsets]
    by_cases hstop : stop ≤ o
    · rw [if_pos hstop, if_pos (.inl hstop)]
      rfl
    · rw [if_neg hstop]
      by_cases hd : c.Decodes o
      · have hlen : ¬(c.disasProbe o).len = 0 := hd
        rw [if_neg hlen, ih, if_neg (by simp [hstop, hd])]
        rfl
      · have hlen : (c.disasProbe o).len = 0 := not_not.mp hd
        rw [if_pos hlen, if_pos (.inr hd)]
        rfl

lemma runOffsets_lt {stop fuel o x : ℕ} (hx : x ∈ runOffsets c stop fuel o) : x < c.len := by
  induction fuel generalizing o with
  | zero => cases hx
  | succ fuel ih =>
    rw [runOffsets] at hx
    split_ifs at hx with hc
    · cases hx
    · obtain rfl | hx := List.mem_cons.mp hx
      · exact (not_not.mp fun hd => hc (.inr hd)).lt
      · exact ih hx

@[simp] lemma insnsOf_map_insn (l : List ℕ) : insnsOf (l.map .insn) = l := by
  induction l with
  | nil => rfl
  | cons o l ih => rw [List.map_cons, insnsOf, ih]

/-- The successor inside a prologue: a whole instruction that is no branch. -/
def entryNext (c : Code) (target o : ℕ) : Option ℕ :=
  if c.Decodes o ∧ c.disasIsBranch o = false ∧ o + (c.disasProbe o).len ≤ target then
    some (o + (c.disasProbe o).len)
  else none

/-- `[0, target)` is whole instructions without a branch. -/
def CleanPrologue (c : Code) (target : ℕ) : Prop :=
  ∃ p, Path (entryNext c target) target 0 p

lemma entryNext_eq_some {target o o' : ℕ} (h : entryNext c target o = some o') :
    c.Decodes o ∧ c.disasIsBranch o = false ∧ o' = o + (c.disasProbe o).len ∧ o' ≤ target := by
  unfold entryNext at h
  split_ifs at h with hc
  obtain rfl := Option.some.inj h
  exact ⟨hc.1, hc.2.1, rfl, hc.2.2⟩

lemma entryClean_iff {target fuel o : ℕ} (ho : o ≤ target) (hf : target - o ≤ fuel) :
    entryClean c target fuel o = true ↔ ∃ p, Path (entryNext c target) target o p := by
  induction fuel generalizing o with
  | zero =>
    obtain rfl : o = target := by omega
    simpa [entryClean] using ⟨_, Path.here⟩
  | succ fuel ih =>
    rw [entryClean]
    by_cases hend : target ≤ o
    · obtain rfl : o = target := by omega
      simpa using ⟨_, Path.here⟩
    · rw [if_neg hend]
      have hstep : (∃ p, Path (entryNext c target) target o p) ↔
          ∃ o', entryNext c target o = some o' ∧ ∃ p, Path (entryNext c target) target o' p := by
        constructor
        · rintro ⟨p, hp⟩
          cases hp with
          | here => omega
          | step _ hnext hp => exact ⟨_, hnext, _, hp⟩
        · rintro ⟨o', hnext, p, hp⟩
          exact ⟨_, .step (by omega) hnext hp⟩
      rw [hstep, entryNext]
      by_cases hd : c.Decodes o
      · have hlen : ¬(c.disasProbe o).len = 0 := hd
        cases hb : c.disasIsBranch o with
        | true => simp
        | false =>
          -- a return is a branch too, so the scan's first test adds nothing here
          have hret : ¬(c.disasProbe o).isRet = true := fun h => by
            simp [c.ret_isBranch o h] at hb
          by_cases hover : target < o + (c.disasProbe o).len
          · simp [hlen, hret, hover, Nat.not_le.mpr hover]
          · rw [if_neg (by simp [hlen, hret]), if_neg (by simp), if_neg hover,
              ih (by omega) (by omega)]
            simp [hd, Nat.not_lt.mp hover]
      · have hlen : (c.disasProbe o).len = 0 := not_not.mp hd
        simp [hlen, hd]

/-- On a clean prologue the second pass reaches the target. -/
lemma commitRun_of_path {target o : ℕ} {p : List ℕ} (h : Path (entryNext c target) target o p)
    {fuel : ℕ} (hf : target - o ≤ fuel) (t : Trace) : (commitRun c target fuel o t).1 = true := by
  induction h generalizing fuel t with
  | here => cases fuel <;> simp [commitRun]
  | @step o o' p hne hnext hp ih =>
    obtain ⟨hd, -, rfl, hle⟩ := entryNext_eq_some hnext
    have hlen : ¬(c.disasProbe o).len = 0 := hd
    obtain ⟨fuel, rfl⟩ := Nat.exists_eq_add_one_of_ne_zero (n := fuel) (by omega)
    rw [commitRun, if_neg (by omega), if_neg hlen]
    exact ih (by omega) _

/-- The prologue fill commits all of a clean prologue, and nothing otherwise. -/
lemma amdEntryFill_eq {targetIp : ℕ} (hlo : base < targetIp) (hhi : targetIp ≤ base + c.len)
    (t : Trace) :
    (CleanPrologue c (targetIp - base) → amdEntryFill c base targetIp t = (true, emitAll t
      ((runOffsets c (targetIp - base) (targetIp - base) 0).map .insn))) ∧
    (¬CleanPrologue c (targetIp - base) → amdEntryFill c base targetIp t = (false, t)) := by
  have hiff : entryClean c (targetIp - base) (targetIp - base) 0 = true ↔
      CleanPrologue c (targetIp - base) := entryClean_iff (Nat.zero_le _) (Nat.sub_le _ _)
  rw [amdEntryFill, if_neg (by omega)]
  constructor
  · intro h
    obtain ⟨p, hp⟩ := h
    rw [if_pos (hiff.mpr ⟨p, hp⟩)]
    exact Prod.ext (commitRun_of_path hp (Nat.sub_le _ _) t) (commitRun_eq _ _ _ t)
  · intro h
    rw [if_neg fun hc => h (hiff.mp hc)]

/-- The block a branch target starts. -/
def landEvents (c : Code) (base toIp : ℕ) : List Event :=
  if c.InRegion base toIp then [.block (toIp - base)] else []

lemma replayLand_of_entered {s : ReplayState} (h : s.entered = true) (toIp : ℕ) :
    replayLand c base s toIp =
      { s with trace := emitAll s.trace (landEvents c base toIp), ip := toIp } := by
  have hfill : landFill c base s toIp = (false, s.trace) := if_neg (by simp [h])
  rw [replayLand, landEvents, hfill]
  split_ifs
  · simp [h, traceAppendBlock_eq_emitAll]
  · rfl

/-- The first position in the region is a branch target with an unclean prologue before it. -/
def EntryFails (c : Code) (base toIp : ℕ) (entered : Bool) : Prop :=
  entered = false ∧ c.InRegion base toIp ∧ base < toIp ∧ ¬CleanPrologue c (toIp - base)

lemma replayLand_of_clean {toIp : ℕ} {entered : Bool} (h : ¬EntryFails c base toIp entered) :
    ∃ evs, (∀ o ∈ insnsOf evs, o < c.len) ∧ (entered = true → insnsOf evs = []) ∧ ∀ t ip,
      replayLand c base ⟨t, ip, entered⟩ toIp =
        ⟨emitAll t evs, toIp, entered || decide (c.InRegion base toIp)⟩ := by
  by_cases hent : entered = true
  · refine ⟨landEvents c base toIp, ?_, ?_, fun t ip => ?_⟩
    · rw [landEvents]
      split_ifs <;> simp [insnsOf]
    · rw [landEvents]
      split_ifs <;> simp [insnsOf]
    · rw [replayLand_of_entered hent, hent]
      rfl
  · have hent' : entered = false := by simpa using hent
    by_cases hin : c.InRegion base toIp
    · by_cases hlt : base < toIp
      · -- the first position inside: the prologue is committed before it
        have hclean : CleanPrologue c (toIp - base) := by
          by_contra hc
          exact h ⟨hent', hin, hlt, hc⟩
        refine ⟨(runOffsets c (toIp - base) (toIp - base) 0).map .insn, ?_, fun h => absurd h hent,
          fun t ip => ?_⟩
        · rw [insnsOf_map_insn]
          exact fun o ho => runOffsets_lt ho
        · rw [replayLand, if_pos hin]
          rw [landFill, if_pos ⟨hent', hlt⟩, (amdEntryFill_eq hlt hin.2.le t).1 hclean]
          simp [hin]
      · refine ⟨[.block (toIp - base)], by simp [insnsOf], fun h => absurd h hent, fun t ip => ?_⟩
        rw [replayLand, if_pos hin, landFill, if_neg fun h => hlt h.2]
        simp [hin, traceAppendBlock_eq_emitAll]
    · refine ⟨[], by simp [insnsOf], fun h => absurd h hent, fun t ip => ?_⟩
      rw [replayLand, if_neg hin]
      simp [hin]

lemma replayLand_of_fails {s : ReplayState} {toIp : ℕ} (h : EntryFails c base toIp s.entered) :
    (replayLand c base s toIp).trace.truncated = true := by
  obtain ⟨hent, hin, hlt, hclean⟩ := h
  rw [replayLand, if_pos hin, landFill, if_pos ⟨hent, hlt⟩,
    (amdEntryFill_eq hlt hin.2.le s.trace).2 hclean]
  exact truncated_emit (.block (toIp - base)) rfl

/-- A set flag survives a landing. -/
lemma truncated_replayLand {s : ReplayState} (toIp : ℕ) (h : s.trace.truncated = true) :
    (replayLand c base s toIp).trace.truncated = true := by
  by_cases hfail : EntryFails c base toIp s.entered
  · exact replayLand_of_fails hfail
  · obtain ⟨evs, -, -, heq⟩ := replayLand_of_clean hfail
    rw [heq s.trace s.ip]
    exact truncated_emitAll evs h

/-- What the trailing fill commits from a final address. -/
def tailEvents (c : Code) (base ip : ℕ) : List Event :=
  let start := ip - base
  let exitEnd := tailScan c base (c.len + 1) start
  if c.InRegion base ip ∧ start < exitEnd then
    .block start :: (runOffsets c exitEnd c.len start).map .insn
  else []

lemma tailFill_eq (s : ReplayState) :
    (tailFill c base s).1 =
      if s.trace.truncated then s.trace else emitAll s.trace (tailEvents c base s.ip) := by
  rw [tailFill, tailEvents]
  cases htr : s.trace.truncated with
  | true => rw [if_neg (by simp), if_pos rfl]
  | false =>
    rw [if_neg Bool.false_ne_true]
    by_cases hin : c.InRegion base s.ip
    · rw [if_pos ⟨rfl, hin⟩]
      by_cases hexit : s.ip - base < tailScan c base (c.len + 1) (s.ip - base)
      · rw [if_pos hexit, if_pos ⟨hin, hexit⟩]
        exact commitRun_eq _ _ _ _
      · rw [if_neg hexit, if_neg fun h => hexit h.2]
        rfl
    · rw [if_neg fun h => hin h.2, if_neg fun h => hin h.1]
      rfl

/-- A set flag survives the trailing fill. -/
lemma truncated_tailFill {s : ReplayState} (h : s.trace.truncated = true) :
    (tailFill c base s).1.truncated = true := by
  rwa [tailFill_eq, if_pos h]

end Fill

section Loop

variable {c : Code} {base : ℕ} {haveSpec : Bool}

lemma replayStep_dropped {e : BranchEntry} (h : dropped haveSpec e = true) (s : ReplayState) :
    replayStep c base haveSpec s e = .ok s := by
  rw [replayStep, if_pos h]

/-- A walked record appends the path to its source, then lands. -/
lemma replayStep_of_leads {s : ReplayState} {e : BranchEntry} (hr : dropped haveSpec e = false)
    (hw : Walked c base s.ip e) {p : List ℕ}
    (hp : Leads c base (e.fromAddr - base) (s.ip - base) p) :
    replayStep c base haveSpec s e = .ok ⟨emitAll s.trace (pathEvents c p ++
      landEvents c base e.toAddr), e.toAddr, true⟩ := by
  have hlen := hp.length_le
  rw [replayStep, if_neg (by simp [hr]), if_pos hw,
    replayWalk_of_leads hp.1 hp.2 (by omega)]
  dsimp only
  rw [replayLand_of_entered rfl, emitAll_append]

lemma replayStep_of_not_leads {s : ReplayState} {e : BranchEntry} (hr : dropped haveSpec e = false)
    (hw : Walked c base s.ip e)
    (hp : ¬∃ p, Leads c base (e.fromAddr - base) (s.ip - base) p) :
    ∃ t, replayStep c base haveSpec s e = .error t ∧ t.truncated = true := by
  obtain ⟨t, ht, htr⟩ := replayWalk_of_not_leads hp (c.len + 1) s.trace
  refine ⟨t, ?_, htr⟩
  rw [replayStep, if_neg (by simp [hr]), if_pos hw, ht]

lemma replayStep_of_not_walked {s : ReplayState} {e : BranchEntry} (hr : dropped haveSpec e = false)
    (hw : ¬Walked c base s.ip e) :
    replayStep c base haveSpec s e = .ok (replayLand c base s e.toAddr) := by
  rw [replayStep, if_neg (by simp [hr]), if_neg hw]

/-- The trace of a round, whether the round returned or not. -/
def outcome : Except Trace ReplayState → Trace
  | .error t => t
  | .ok s => s.trace

/-- A set flag survives a round. -/
lemma truncated_replayStep {s : ReplayState} (e : BranchEntry) (h : s.trace.truncated = true) :
    (outcome (replayStep c base haveSpec s e)).truncated = true := by
  cases hr : dropped haveSpec e with
  | true => rwa [replayStep_dropped hr]
  | false =>
    by_cases hw : Walked c base s.ip e
    · by_cases hp : ∃ p, Leads c base (e.fromAddr - base) (s.ip - base) p
      · obtain ⟨p, hp⟩ := hp
        rw [replayStep_of_leads hr hw hp]
        exact truncated_emitAll _ h
      · obtain ⟨t, ht, htr⟩ := replayStep_of_not_leads hr hw hp
        rwa [ht]
    · rw [replayStep_of_not_walked hr hw]
      exact truncated_replayLand _ h

/-- Only the loop's own marks end it early. -/
lemma replayStep_error {s : ReplayState} {e : BranchEntry} {t : Trace}
    (h : replayStep c base haveSpec s e = .error t) : t.truncated = true := by
  cases hr : dropped haveSpec e with
  | true => simp [replayStep_dropped hr] at h
  | false =>
    by_cases hw : Walked c base s.ip e
    · by_cases hp : ∃ p, Leads c base (e.fromAddr - base) (s.ip - base) p
      · obtain ⟨p, hp⟩ := hp
        simp [replayStep_of_leads hr hw hp] at h
      · obtain ⟨t', ht, htr⟩ := replayStep_of_not_leads hr hw hp
        rw [ht] at h
        cases h
        exact htr
    · simp [replayStep_of_not_walked hr hw] at h

lemma replayLoop_cons (s : ReplayState) (e : BranchEntry) (recs : List BranchEntry) :
    replayLoop c base haveSpec s (e :: recs) =
      match replayStep c base haveSpec s e with
      | .error t => .error t
      | .ok s' => replayLoop c base haveSpec s' recs := by
  rw [replayLoop, List.foldlM_cons]
  cases replayStep c base haveSpec s e <;> rfl

lemma replayLoop_append (s : ReplayState) (pre recs : List BranchEntry) :
    replayLoop c base haveSpec s (pre ++ recs) =
      match replayLoop c base haveSpec s pre with
      | .error t => .error t
      | .ok s' => replayLoop c base haveSpec s' recs := by
  rw [replayLoop, List.foldlM_append, ← replayLoop]
  cases replayLoop c base haveSpec s pre <;> rfl

/-- The loop sees only the retired records. -/
lemma replayLoop_filter (s : ReplayState) (recs : List BranchEntry) :
    replayLoop c base haveSpec s recs =
      replayLoop c base haveSpec s (recs.filter fun e => !dropped haveSpec e) := by
  induction recs generalizing s with
  | nil => rfl
  | cons e recs ih =>
    cases hr : dropped haveSpec e with
    | true =>
      rw [replayLoop_cons, replayStep_dropped hr, List.filter_cons_of_neg (by simp [hr])]
      exact ih s
    | false =>
      rw [List.filter_cons_of_pos (by simp [hr]), replayLoop_cons, replayLoop_cons]
      cases replayStep c base haveSpec s e with
      | error t => rfl
      | ok s' => exact ih s'

lemma replayLoop_error {s : ReplayState} {recs : List BranchEntry} {t : Trace}
    (h : replayLoop c base haveSpec s recs = .error t) : t.truncated = true := by
  induction recs generalizing s with
  | nil => cases h
  | cons e recs ih =>
    rw [replayLoop_cons] at h
    cases hs : replayStep c base haveSpec s e with
    | error t' =>
      rw [hs] at h
      cases h
      exact replayStep_error hs
    | ok s' =>
      rw [hs] at h
      exact ih h

lemma amdReplay_eq (br : List BranchEntry) (t : Trace) :
    (amdReplay c base haveSpec br t).1 =
      match replayLoop c base haveSpec ⟨emitAll t [.block 0], base, false⟩ (retired haveSpec br) with
      | .error t => t
      | .ok s => (tailFill c base s).1 := by
  rw [amdReplay, replayLoop_filter, traceAppendBlock_eq_emitAll, ← retired]
  cases replayLoop c base haveSpec ⟨emitAll t [.block 0], base, false⟩ (retired haveSpec br) <;> rfl

lemma truncated_replayLoop {s : ReplayState} (recs : List BranchEntry)
    (h : s.trace.truncated = true) :
    (outcome (replayLoop c base haveSpec s recs)).truncated = true := by
  induction recs generalizing s with
  | nil => exact h
  | cons e recs ih =>
    have hstep : (outcome (replayStep c base haveSpec s e)).truncated = true :=
      truncated_replayStep e h
    rw [replayLoop_cons]
    cases hs : replayStep c base haveSpec s e with
    | error t =>
      rw [hs] at hstep
      exact hstep
    | ok s' =>
      rw [hs] at hstep
      exact ih hstep

end Loop

end AsmTest.Hwtrace
