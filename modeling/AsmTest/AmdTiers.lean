import AsmTest.AmdRing
import AsmTest.ReplayExact
import Mathlib.Data.List.MinMax

/-!
# Complete from one branch window

`asmtest_amd_ring_parse_decode` decodes the sample with the most branches in the region. One that
is not full holds all the branches up to the moment it was taken, and it is reported as the whole
run if one of them leaves the region, or if the code runs straight out of it from where they end. A
call leaves the region too.
-/

namespace AsmTest.AmdRing

open Hwtrace

section Source

/-- `asmtest_amd_decode_reach`; the last component is `*reached_exit`. -/
def amdDecodeReach (c : Code) (haveSpec : Bool) (depth : ℕ) (br : List BranchEntry) (t : Trace) :
    HwStatus × Trace × Bool :=
  if br.length = 0 ∨ c.ptr = 0 ∨ c.len = 0 then (.edecode, t, false)
  else if c.disasAvailable = false then (.enosys, t, false)
  else
    let r := amdReplay c c.ptr haveSpec br t
    (.ok, if depth ≤ br.length then r.1.markTruncated else r.1, r.2)

/-- A branch from the region to outside of it -/
def exitEdge (baseIp endIp : ℕ) (e : BranchEntry) : Bool :=
  (baseIp ≤ e.fromAddr ∧ e.fromAddr < endIp) ∧ (e.toAddr < baseIp ∨ endIp ≤ e.toAddr)

/-- The single-window path -/
def tierA (c : Code) (haveSpec : Bool) (depth endIp : ℕ) (best : List BranchEntry) (t : Trace) :
    Trace :=
  let r := amdDecodeReach c haveSpec depth best t
  if r.2.2 || best.any (exitEdge c.ptr endIp) then r.2.1 else r.2.1.markTruncated

/-- How the trace was decoded -/
inductive Tier where
  | none
  | single
  | stitched
deriving DecidableEq

/-- The decoding part of `asmtest_amd_ring_parse_decode`; `outAlloc` is whether `malloc` gives the
array for the stitched edges. -/
def decodeWindows (c : Code) (haveSpec : Bool) (depth : ℕ) (outAlloc : Bool)
    (windows : List (List BranchEntry)) (best : Option (List BranchEntry)) (bestInregion : ℕ)
    (lost : Bool) (t : Trace) : Tier × Trace :=
  let r : Tier × Trace :=
    match best with
    | none => (.none, t.markTruncated)
    | some best =>
      if best.length = 0 ∨ bestInregion = 0 then (.none, t.markTruncated)
      else
        let st := amdStitch c c.ptr windows (windows.length + depth)
        if depth ≤ best.length ∧ 1 < windows.length ∧ outAlloc ∧ st.1 ≠ [] then
          (.stitched, (amdDecodeStitched c haveSpec st.1 t (st.2 || lost)).2)
        else (.single, tierA c haveSpec depth ((c.ptr + c.len) % 2 ^ 64) best t)
  let t := if lost then r.2.markTruncated else r.2
  (r.1, if t.insnsTotal = 0 then t.markTruncated else t)

/-- `asmtest_amd_ring_parse_decode` into a trace -/
def amdRingParseDecode (c : Code) (haveSpec : Bool) (buf : Option Memory) (span dsz depth : ℕ)
    (alloc outAlloc : Bool) (fuel : ℕ) (t : Trace) : Option (Tier × Trace) :=
  (ringParse buf span dsz c.ptr c.len depth alloc fuel).map fun p =>
    decodeWindows c haveSpec depth outAlloc (buf.elim [] fun mem => p.windows mem)
      (buf.bind fun mem => p.best.map (Sample.entries mem)) p.bestInregion p.lost t

end Source

section Spec

/-- An execution that enters the region at its base and ends outside, and its taken branches as the
processor records them -/
structure Capture (c : Code) (haveSpec : Bool) where
  pc : ℕ
  steps : List Step
  fin : ℕ
  branches : List BranchEntry
  exec : Exec c c.ptr pc steps fin
  entry : (execInsns c c.ptr steps).head? = some 0
  exit : ¬c.InRegion c.ptr fin
  edges : branches.map BranchEntry.edge = takenBranches steps
  retired : ∀ e ∈ branches, dropped haveSpec e = false
  fits : c.ptr + c.len < 2 ^ 64

/-- The window holds the last branches at some moment, at most `depth` of them, newest first. -/
def Capture.Sampled {c : Code} {haveSpec : Bool} (cap : Capture c haveSpec) (depth : ℕ)
    (w : List BranchEntry) : Prop :=
  ∃ p ≤ cap.branches.length, w = (cap.branches.take p).reverse.take depth

/-- The ring says that samples are missing. -/
def Lost (mem : Memory) (span dsz depth : ℕ) : Prop :=
  (∃ off ∈ records mem span, (headerAt mem off).type = recordLost ∨
    (headerAt mem off).type = recordThrottle) ∨ nearFull span dsz depth = true

/-- A ret, or a direct jump out of the region -/
def IsExit (c : Code) (base o : ℕ) : Prop :=
  (c.disasProbe o).isRet = true ∨ c.disasIsBranch o = true ∧ c.disasIsUncondJump o = true ∧
    ∃ tgt ∈ c.disasBranchTarget base o, tgt < base ∨ base + c.len ≤ tgt

/-- From `o` the code runs along these offsets to an exit without another branch. -/
inductive StraightExit (c : Code) (base : ℕ) : ℕ → List ℕ → Prop
  | exit {o : ℕ} : c.Decodes o → IsExit c base o → StraightExit c base o [o]
  | step {o : ℕ} {p : List ℕ} : c.Decodes o → c.disasIsBranch o = false →
      StraightExit c base (o + (c.disasProbe o).len) p → StraightExit c base o (o :: p)

/-- Where the newest branch of the window went -/
def landed (w : List BranchEntry) : ℕ := w.head?.elim 0 BranchEntry.toAddr

/-- From there the code runs straight out of the region. -/
def RunsOut (c : Code) (w : List BranchEntry) (p : List ℕ) : Prop :=
  c.InRegion c.ptr (landed w) ∧ StraightExit c c.ptr (landed w - c.ptr) p

/-- A branch of the window leaves the region, or the code runs straight out of it. -/
def ExitShown (c : Code) (w : List BranchEntry) : Prop :=
  (∃ e ∈ w, c.InRegion c.ptr e.fromAddr ∧ ¬c.InRegion c.ptr e.toAddr) ∨ ∃ p, RunsOut c w p

/-- The steps after the first `n` taken branches -/
def beyond : ℕ → List Step → List Step
  | 0, steps => steps
  | _ + 1, [] => []
  | n + 1, s :: steps => beyond (if s.taken then n else n + 1) steps

/-- After the branches of the window the execution does in the region what the code says without
another branch, and no more. -/
def Finished {c : Code} {haveSpec : Bool} (cap : Capture c haveSpec) (w : List BranchEntry) :
    Prop :=
  RunsOut c w (execInsns c c.ptr (beyond w.length cap.steps)) ∨
    ¬c.InRegion c.ptr (landed w) ∧ execInsns c c.ptr (beyond w.length cap.steps) = []

/-- The window with the most branches in the region, the first of several, is full or shows no exit,
or nothing is left to execute; or samples are known to be lost. -/
def Trusted {c : Code} {haveSpec : Bool} (cap : Capture c haveSpec) (mem : Memory)
    (span dsz depth : ℕ) : Prop :=
  ∀ s ∈ (wellFormed mem span).argmax
      (fun s => (s.entries mem).countP (inregion c.ptr (c.ptr + c.len))),
    Lost mem span dsz depth ∨ depth ≤ s.nr ∨ ¬ExitShown c (s.entries mem) ∨
      Finished cap (s.entries mem)

/-- A trace that is decoded from one window and not marked is all of the execution. -/
def SingleIsWhole {c : Code} {haveSpec : Bool} (cap : Capture c haveSpec) (mem : Memory)
    (span dsz depth : ℕ) (alloc outAlloc : Bool) : Prop :=
  ∀ t fuel out, t.insns = some [] → t.insnsTotal = 0 → span < fuel →
    amdRingParseDecode c haveSpec (some mem) span dsz depth alloc outAlloc fuel t =
      some (.single, out) →
    out.truncated = false → out.insns = some (execInsns c c.ptr cap.steps)

end Spec

section Straight

variable {c : Code} {base o : ℕ} {p : List ℕ}

lemma IsExit.isBranch (h : IsExit c base o) : c.disasIsBranch o = true := by
  rcases h with hret | ⟨hb, -⟩
  · exact c.ret_isBranch o hret
  · exact hb

lemma tailScan_succ (hd : c.Decodes o) (guard : ℕ) :
    (IsExit c base o → tailScan c base (guard + 1) o = o + (c.disasProbe o).len) ∧
      (¬IsExit c base o → tailScan c base (guard + 1) o =
        if c.disasIsBranch o then 0 else tailScan c base guard (o + (c.disasProbe o).len)) := by
  have hlen : ¬(c.disasProbe o).len = 0 := hd
  rw [tailScan, if_neg (Nat.not_le.mpr hd.lt)]
  dsimp only
  rw [if_neg hlen]
  by_cases hret : (c.disasProbe o).isRet = true
  · rw [if_pos hret]
    exact ⟨fun _ => rfl, fun hno => absurd (.inl hret) hno⟩
  · rw [if_neg hret]
    by_cases hb : c.disasIsBranch o = true
    · rw [if_pos hb, if_pos hb]
      have hiff : IsExit c base o ↔ c.disasIsUncondJump o = true ∧
          (c.disasBranchTarget base o).isSome = true ∧
          ((c.disasBranchTarget base o).getD 0 < base ∨
            base + c.len ≤ (c.disasBranchTarget base o).getD 0) := by
        unfold IsExit
        cases c.disasBranchTarget base o with
        | none => simp [hret, hb]
        | some tgt => simp [hret, hb]
      exact ⟨fun hexit => if_pos (hiff.mp hexit), fun hno => if_neg (mt hiff.mpr hno)⟩
    · rw [if_neg hb, if_neg hb]
      exact ⟨fun hexit => absurd hexit.isBranch hb, fun _ => rfl⟩

/-- The scan finds the exit, and the commit loop passes what runs to it. -/
lemma StraightExit.tail (h : StraightExit c base o p) {guard fuel : ℕ} (hg : c.len - o < guard)
    (hf : c.len - o ≤ fuel) :
    o < tailScan c base guard o ∧ runOffsets c (tailScan c base guard o) fuel o = p := by
  have hnext : ∀ {o : ℕ}, c.Decodes o → 0 < (c.disasProbe o).len := fun hd =>
    Nat.pos_of_ne_zero hd
  induction h generalizing guard fuel with
  | @exit o hd hexit =>
    obtain ⟨guard, rfl⟩ := Nat.exists_eq_add_one_of_ne_zero (show guard ≠ 0 by omega)
    have hlt := hd.lt
    obtain ⟨fuel, rfl⟩ := Nat.exists_eq_add_one_of_ne_zero (show fuel ≠ 0 by omega)
    have hpos := hnext hd
    rw [(tailScan_succ hd guard).1 hexit, runOffsets, if_neg (by
      rintro (hle | hno)
      · omega
      · exact hno hd)]
    refine ⟨by omega, ?_⟩
    cases fuel with
    | zero => rfl
    | succ fuel => rw [runOffsets, if_pos (.inl le_rfl)]
  | @step o p hd hb hrest ih =>
    obtain ⟨guard, rfl⟩ := Nat.exists_eq_add_one_of_ne_zero (show guard ≠ 0 by omega)
    have hlt := hd.lt
    obtain ⟨fuel, rfl⟩ := Nat.exists_eq_add_one_of_ne_zero (show fuel ≠ 0 by omega)
    have hpos := hnext hd
    have hno : ¬IsExit c base o := fun hexit => by
      rw [hexit.isBranch] at hb
      cases hb
    obtain ⟨hgt, hrun⟩ := @ih guard fuel (by omega) (by omega)
    rw [(tailScan_succ hd guard).2 hno, if_neg (by rw [hb]; exact Bool.false_ne_true), runOffsets,
      if_neg (by
        rintro (hle | hno)
        · omega
        · exact hno hd), hrun]
    exact ⟨by omega, rfl⟩

lemma straight_of_tailScan {guard : ℕ} (h : tailScan c base guard o ≠ 0) :
    ∃ p, StraightExit c base o p := by
  induction guard generalizing o with
  | zero => exact absurd rfl h
  | succ guard ih =>
    by_cases hd : c.Decodes o
    · by_cases hexit : IsExit c base o
      · exact ⟨[o], .exit hd hexit⟩
      · rw [(tailScan_succ hd guard).2 hexit] at h
        split_ifs at h with hb
        · exact absurd rfl h
        · obtain ⟨p, hp⟩ := ih h
          exact ⟨o :: p, .step hd (Bool.eq_false_iff.mpr hb) hp⟩
    · have hlen : (c.disasProbe o).len = 0 := not_not.mp hd
      rw [tailScan] at h
      dsimp only at h
      rw [if_pos hlen, ite_self] at h
      exact absurd rfl h

lemma StraightExit.ne_nil (h : StraightExit c base o p) : p ≠ [] := by
  cases h <;> exact List.cons_ne_nil _ _

lemma lt_tailScan_iff (ip : ℕ) : ip - base < tailScan c base (c.len + 1) (ip - base) ↔
    ∃ p, StraightExit c base (ip - base) p := by
  constructor
  · exact fun hlt => straight_of_tailScan (Nat.ne_zero_of_lt hlt)
  · rintro ⟨p, hp⟩
    exact (hp.tail (Nat.lt_succ_of_le (Nat.sub_le _ _)) (Nat.sub_le _ _)).1

/-- When the trailing fill says that it reached an exit -/
lemma tailFill_reached (s : ReplayState) : (tailFill c base s).2 = true ↔
    s.trace.truncated = false ∧ c.InRegion base s.ip ∧
      ∃ p, StraightExit c base (s.ip - base) p := by
  rw [tailFill, ← lt_tailScan_iff]
  dsimp only
  split_ifs with hgo hlt
  · exact iff_of_true rfl ⟨hgo.1, hgo.2, hlt⟩
  · exact iff_of_false id fun h => hlt h.2.2
  · exact iff_of_false id fun h => hgo ⟨h.1, h.2.1⟩

/-- What it commits -/
lemma insnsOf_tailEvents {ip : ℕ} (hin : c.InRegion base ip)
    (h : StraightExit c base (ip - base) p) : insnsOf (tailEvents c base ip) = p := by
  obtain ⟨hgt, hrun⟩ := h.tail (Nat.lt_succ_of_le (Nat.sub_le c.len _)) (Nat.sub_le _ _)
  rw [tailEvents, if_pos ⟨hin, hgt⟩, insnsOf, insnsOf_map_insn, hrun]

lemma tailEvents_eq_nil {ip : ℕ}
    (h : ¬(c.InRegion base ip ∧ ∃ p, StraightExit c base (ip - base) p)) :
    tailEvents c base ip = [] := by
  rw [tailEvents]
  exact if_neg fun hgo => h ⟨hgo.1, (lt_tailScan_iff ip).mp hgo.2⟩

end Straight

section Prefix

variable {c : Code} {base : ℕ} {haveSpec : Bool}

/-- An execution up to its `n`-th taken branch -/
lemma exists_prefix {pc fin : ℕ} {steps : List Step} (h : Exec c base pc steps fin) {n : ℕ}
    (hn : n ≤ (takenBranches steps).length) :
    ∃ pre mid, steps = pre ++ beyond n steps ∧ Exec c base pc pre mid ∧
      Exec c base mid (beyond n steps) fin ∧
      takenBranches pre = (takenBranches steps).take n ∧ (n = 0 → pre = []) ∧
      (0 < n → ∃ (q : List Step) (x : Step), pre = q ++ [x] ∧ x.taken = true ∧ x.next = mid) := by
  induction h generalizing n with
  | nil pc =>
    obtain rfl : n = 0 := Nat.le_zero.mp hn
    exact ⟨[], pc, rfl, .nil pc, .nil pc, rfl, fun _ => rfl, fun h => absurd h (lt_irrefl 0)⟩
  | @cons s steps fin hok hrest ih =>
    cases n with
    | zero =>
      exact ⟨[], s.pc, rfl, .nil _, .cons hok hrest, rfl, fun _ => rfl,
        fun h => absurd h (lt_irrefl 0)⟩
    | succ n =>
      cases hs : s.taken with
      | true =>
        have htaken : takenBranches (s :: steps) = (s.pc, s.next) :: takenBranches steps := by
          simp [takenBranches, hs]
        rw [htaken, List.length_cons] at hn
        obtain ⟨pre, mid, hsplit, hpre, hpost, hbr, hzero, hpos⟩ := @ih n (by omega)
        have hbeyond : beyond (n + 1) (s :: steps) = beyond n steps := by
          rw [beyond, hs, if_pos rfl]
        have hbr' : takenBranches (s :: pre) = (s.pc, s.next) :: takenBranches pre := by
          simp [takenBranches, hs]
        rw [hbeyond]
        refine ⟨s :: pre, mid, congrArg _ hsplit, .cons hok hpre, hpost, ?_,
          fun h => absurd h (Nat.succ_ne_zero n), fun _ => ?_⟩
        · rw [hbr', htaken, List.take_succ_cons, hbr]
        · rcases Nat.eq_zero_or_pos n with rfl | hn0
          · obtain rfl := hzero rfl
            exact ⟨[], s, rfl, hs, exec_nil_iff.mp hpre⟩
          · obtain ⟨q, x, rfl, hx, hmid⟩ := hpos hn0
            exact ⟨s :: q, x, rfl, hx, hmid⟩
      | false =>
        have htaken : takenBranches (s :: steps) = takenBranches steps := by
          simp [takenBranches, hs]
        rw [htaken] at hn ⊢
        obtain ⟨pre, mid, hsplit, hpre, hpost, hbr, -, hpos⟩ := ih hn
        have hbeyond : beyond (n + 1) (s :: steps) = beyond (n + 1) steps := by
          rw [beyond, hs, if_neg Bool.false_ne_true]
        have hbr' : takenBranches (s :: pre) = takenBranches pre := by
          simp [takenBranches, hs]
        rw [hbeyond]
        refine ⟨s :: pre, mid, congrArg _ hsplit, .cons hok hpre, hpost, hbr'.trans hbr,
          fun h => absurd h (Nat.succ_ne_zero n), fun hn0 => ?_⟩
        obtain ⟨q, x, rfl, hx, hmid⟩ := hpos hn0
        exact ⟨s :: q, x, rfl, hx, hmid⟩

lemma execInsns_cons_of_outside {s : Step} {steps : List Step} (h : ¬c.InRegion base s.pc) :
    execInsns c base (s :: steps) = execInsns c base steps := by
  simp [execInsns, h]

/-- What a replay has after the records of an execution, with or without its entry -/
structure Stands (c : Code) (base : ℕ) (steps : List Step) (mid : ℕ) (evs : List Hwtrace.Event)
    (ip : ℕ) : Prop where
  insns : insnsOf evs = execInsns c base steps
  inside : c.InRegion base mid → ip = mid
  outside : ¬c.InRegion base mid → ¬c.InRegion base ip

/-- The branch loop over the records of an execution that starts outside and enters at the base -/
lemma replayLoop_enter {pc mid : ℕ} {steps : List Step} (h : Exec c base pc steps mid)
    (hc : Closed c base steps mid) (hpc : ¬c.InRegion base pc)
    (hfirst : ∀ o, (execInsns c base steps).head? = some o → o = 0)
    (hmid : execInsns c base steps = [] → c.InRegion base mid → mid = base) {s : ReplayState}
    (hent : s.entered = false) (hip : takenBranches steps = [] → ¬c.InRegion base s.ip)
    {recs : List BranchEntry} (hrecs : Records haveSpec recs (takenBranches steps)) :
    ∃ evs ip entered, Stands c base steps mid evs ip ∧
      replayLoop c base haveSpec s recs = .ok ⟨emitAll s.trace evs, ip, entered⟩ := by
  induction h generalizing s recs with
  | nil pc =>
    obtain rfl : recs = [] := List.map_eq_nil_iff.mp hrecs.edges
    exact ⟨[], s.ip, s.entered, ⟨rfl, fun hin => absurd hin hpc, fun _ => hip rfl⟩, rfl⟩
  | @cons x steps mid hok hrest ih =>
    have hc' : Closed c base steps mid := Closed.tail (p := [x]) hc
    have hinsns := @execInsns_cons_of_outside c base x steps hpc
    rw [hinsns] at hfirst hmid
    cases hx : x.taken with
    | false =>
      have hbr : takenBranches (x :: steps) = takenBranches steps := by simp [takenBranches, hx]
      rw [hbr] at hip hrecs
      obtain ⟨evs, ip, entered, hst, hloop⟩ :=
        ih hc' (hok.outside hpc hx) hfirst hmid hent hip hrecs
      exact ⟨evs, ip, entered, ⟨hst.insns.trans hinsns.symm, hst.inside, hst.outside⟩, hloop⟩
    | true =>
      have hbr : takenBranches (x :: steps) = (x.pc, x.next) :: takenBranches steps := by
        simp [takenBranches, hx]
      rw [hbr] at hrecs
      obtain ⟨e, recs', rfl, hret, hfrom, hto, hrecs'⟩ := hrecs.cons
      have hskip : ¬Walked c base s.ip e := by
        rintro ⟨hin, hle, hlt⟩
        rw [hfrom] at hle hlt
        exact hpc ⟨hin.1.trans hle, hlt⟩
      rw [replayLoop_cons, replayStep_of_not_walked hret hskip, hto]
      dsimp only
      by_cases hin : c.InRegion base x.next
      · -- the region is entered, and the base needs no prologue
        have hbase : x.next = base := by
          cases steps with
          | nil =>
            have hend := exec_nil_iff.mp hrest
            exact hend.trans (hmid rfl (hend ▸ hin))
          | cons y steps =>
            obtain ⟨hy, -, -⟩ := exec_cons_iff.mp hrest
            have hhead : (execInsns c base (y :: steps)).head? = some (y.pc - base) := by
              simp [execInsns, hy, hin]
            have hzero := hfirst _ hhead
            have hlo := hin.1
            omega
        have hland : replayLand c base s x.next = ⟨emitAll s.trace [.block 0], base, true⟩ := by
          rw [replayLand, if_pos hin, landFill, if_neg fun hgo => by omega, hbase, Nat.sub_self]
          rfl
        rw [hland]
        rw [hbase] at hrest
        obtain ⟨evs, ip, entered, hrep, hloop⟩ := replayLoop_exec hrest hc'
          (s := ⟨emitAll s.trace [.block 0], base, true⟩) (fun _ => rfl)
          (fun hout => absurd (hbase ▸ hin) hout) hrecs'
        refine ⟨.block 0 :: evs, ip, entered,
          ⟨hrep.insns.trans hinsns.symm, hrep.inside, hrep.outside⟩, ?_⟩
        rw [hloop]
        rfl
      · have hland : replayLand c base s x.next = { s with ip := x.next } := if_neg hin
        rw [hland]
        obtain ⟨evs, ip, entered, hst, hloop⟩ :=
          ih (s := { s with ip := x.next }) hc' hin hfirst hmid hent (fun _ => hin) hrecs'
        exact ⟨evs, ip, entered, ⟨hst.insns.trans hinsns.symm, hst.inside, hst.outside⟩, hloop⟩

end Prefix

section Window

variable {c : Code} {haveSpec : Bool} {w : List BranchEntry} {depth : ℕ}

lemma head_execInsns {base mid fin : ℕ} {steps : List Step} (h : Exec c base mid steps fin)
    (hin : c.InRegion base mid) (hout : ¬c.InRegion base fin) :
    (execInsns c base steps).head? = some (mid - base) := by
  cases h with
  | nil => exact absurd hin hout
  | cons hok hrest => simp [execInsns, hin]

/-- A window that is not full has all the branches up to its moment. -/
lemma Capture.Sampled.all {cap : Capture c haveSpec} (h : cap.Sampled depth w)
    (hlt : w.length < depth) :
    w.length ≤ cap.branches.length ∧ w.reverse = cap.branches.take w.length := by
  obtain ⟨p, hp, rfl⟩ := h
  have hlen : (cap.branches.take p).reverse.length = p := by
    rw [List.length_reverse, List.length_take, Nat.min_eq_left hp]
  rw [List.length_take, hlen] at hlt
  have hle : p ≤ depth := by omega
  rw [List.take_of_length_le (hlen.trans_le hle), hlen, List.reverse_reverse]
  exact ⟨hp, rfl⟩

lemma landed_eq {q : List Step} {x : Step} (hx : x.taken = true)
    (h : takenBranches (q ++ [x]) = w.reverse.map BranchEntry.edge) : landed w = x.next := by
  have hlast : takenBranches (q ++ [x]) = takenBranches q ++ [(x.pc, x.next)] := by
    simp [takenBranches, hx]
  rw [hlast, List.map_reverse, ← List.reverse_eq_iff, List.reverse_append] at h
  cases w with
  | nil => cases h
  | cons e w =>
    have hedge : (x.pc, x.next) = e.edge := (List.cons.inj h).1
    exact (congrArg Prod.snd hedge).symm

/-- The replay of a window that is not full: what was executed up to its last branch, and then the
trailing fill -/
lemma Capture.replay (cap : Capture c haveSpec) (hpos : 0 < w.length)
    (hle : w.length ≤ cap.branches.length) (hw : w.reverse = cap.branches.take w.length) :
    ∃ pre, cap.steps = pre ++ beyond w.length cap.steps ∧
      takenBranches pre = w.reverse.map BranchEntry.edge ∧
      (c.InRegion c.ptr (landed w) →
        execInsns c c.ptr (beyond w.length cap.steps) ≠ []) ∧
      ∀ t, ∃ evs ip entered, Stands c c.ptr pre (landed w) evs ip ∧
        amdReplay c c.ptr haveSpec w t = tailFill c c.ptr ⟨emitAll t evs, ip, entered⟩ := by
  have hcount : w.length ≤ (takenBranches cap.steps).length := by
    rw [← cap.edges, List.length_map]
    exact hle
  obtain ⟨pre, mid, hsplit, hpre, hpost, hbr, -, hlast⟩ := exists_prefix cap.exec hcount
  obtain ⟨q, x, hq, hx, hmid⟩ := hlast hpos
  have hedges : takenBranches pre = w.reverse.map BranchEntry.edge := by
    rw [hbr, ← cap.edges, hw, List.map_take]
  have hland : landed w = mid := by
    rw [← hmid]
    apply landed_eq hx
    rw [← hq]
    exact hedges
  have hinsns : execInsns c c.ptr cap.steps =
      execInsns c c.ptr pre ++ execInsns c c.ptr (beyond w.length cap.steps) := by
    rw [← execInsns_append, ← hsplit]
  have hentry := cap.entry
  have hrecs : Records haveSpec w.reverse (takenBranches pre) := by
    refine ⟨fun e he => cap.retired e ?_, hedges.symm⟩
    rw [hw] at he
    exact List.mem_of_mem_take he
  have hclosed : Closed c c.ptr pre mid := by
    intro _ y hy
    rw [hq, List.getLast?_concat] at hy
    rw [← Option.some.inj hy]
    exact hx
  have hbase : c.InRegion c.ptr c.ptr := by
    obtain ⟨o, ho⟩ : ∃ o, o ∈ execInsns c c.ptr cap.steps := ⟨0, List.mem_of_head? hentry⟩
    obtain ⟨y, hy, -⟩ := List.mem_map.mp ho
    have hin : c.InRegion c.ptr y.pc := of_decide_eq_true (List.mem_filter.mp hy).2
    exact hin.start
  rw [hland]
  refine ⟨pre, hsplit, hedges, fun hin hnil => ?_, fun t => ?_⟩
  · have hhead := head_execInsns hpost hin cap.exit
    rw [hnil] at hhead
    cases hhead
  · have hloop : ∃ evs ip entered, Stands c c.ptr pre mid evs ip ∧
        replayLoop c c.ptr haveSpec ⟨emitAll t [.block 0], c.ptr, false⟩ w.reverse =
          .ok ⟨emitAll (emitAll t [.block 0]) evs, ip, entered⟩ := by
      by_cases hpc : c.InRegion c.ptr cap.pc
      · -- recording starts at the base
        have hhead := head_execInsns cap.exec hpc cap.exit
        rw [hentry] at hhead
        have hzero : 0 = cap.pc - c.ptr := Option.some.inj hhead
        have hlo := hpc.1
        have hstart : cap.pc = c.ptr := by omega
        obtain ⟨evs, ip, entered, hrep, hloop⟩ := replayLoop_exec hpre hclosed
          (s := ⟨emitAll t [.block 0], c.ptr, false⟩) (fun _ => hstart.symm)
          (fun hout => absurd hpc hout) hrecs
        exact ⟨evs, ip, entered, ⟨hrep.insns, hrep.inside, hrep.outside⟩, hloop⟩
      · apply replayLoop_enter hpre hclosed hpc
        · intro o ho
          rw [hinsns, List.head?_append, ho] at hentry
          exact Option.some.inj hentry
        · intro hnil hin
          rw [hinsns, hnil, List.nil_append, head_execInsns hpost hin cap.exit] at hentry
          have hzero : mid - c.ptr = 0 := Option.some.inj hentry
          have hlo := hin.1
          omega
        · rfl
        · intro hnone
          rw [hedges] at hnone
          have hnil := List.map_eq_nil_iff.mp hnone
          rw [List.reverse_eq_nil_iff] at hnil
          rw [hnil] at hpos
          exact absurd hpos (lt_irrefl 0)
        · exact hrecs
    obtain ⟨evs, ip, entered, hst, hloop⟩ := hloop
    refine ⟨.block 0 :: evs, ip, entered, ⟨hst.insns, hst.inside, hst.outside⟩, ?_⟩
    rw [amdReplay, traceAppendBlock_eq_emitAll, hloop]
    rfl

end Window

section Parse

variable {mem : Memory} {span baseIp endIp off : ℕ} {held : Bool} {k : Keep} {f : Sample → ℕ}

lemma lost_countAll (l : List ℕ) (n : Count) : (countAll mem l n).lost = true ↔
    n.lost = true ∨ ∃ off ∈ l, (headerAt mem off).type = recordLost ∨
      (headerAt mem off).type = recordThrottle := by
  induction l generalizing n with
  | nil => simp [countAll]
  | cons off l ih =>
    have hone : (countRecord mem off (n.readHeader off)).lost = true ↔ n.lost = true ∨
        (headerAt mem off).type = recordLost ∨ (headerAt mem off).type = recordThrottle := by
      rw [countRecord]
      split_ifs with hs hl
      · have hno : ¬((headerAt mem off).type = recordLost ∨
            (headerAt mem off).type = recordThrottle) := by
          rw [hs]
          decide
        exact (or_iff_left hno).symm
      · exact iff_of_true rfl (.inr hl)
      · exact (or_iff_left hl).symm
    have hrest := ih (countRecord mem off (n.readHeader off))
    rw [hone, or_assoc] at hrest
    rw [List.exists_mem_cons_iff]
    exact hrest

/-- The first of the samples that count most is kept, with its count. -/
def Picked (k : Keep) (f : Sample → ℕ) (l : List Sample) : Prop :=
  k.best = l.argmax f ∧ ∀ s ∈ k.best, k.bestInregion = f s

lemma Picked.weigh {l : List Sample} (h : Picked k f l) (s : Sample) :
    Picked (k.weigh s (f s)) f (l ++ [s]) := by
  obtain ⟨hbest, hcount⟩ := h
  unfold Picked Keep.weigh
  rw [List.argmax_concat, ← hbest]
  cases hk : k.best with
  | none =>
    rw [if_pos (.inl rfl)]
    exact ⟨rfl, fun s' hs => by rw [Option.some.inj hs]⟩
  | some b =>
    have hb : k.bestInregion = f b := hcount b hk
    rw [hb]
    by_cases hlt : f b < f s
    · rw [if_pos (.inr hlt)]
      exact ⟨(if_pos hlt).symm, fun s' hs => by rw [Option.some.inj hs]⟩
    · rw [if_neg (by simp [hlt])]
      exact ⟨hk.trans (if_neg hlt).symm, hcount⟩

lemma Picked.retain {l : List Sample} (h : Picked k f l) {s : Sample} :
    Picked (k.retain held s) f l := by
  cases held
  · exact h
  · exact h

lemma Picked.record {l : List Sample}
    (h : Picked k (fun s => (s.entries mem).countP (inregion baseIp endIp)) l)
    (hfits : off + (headerAt mem off).size ≤ span) :
    Picked (keepRecord mem span baseIp endIp held off k)
      (fun s => (s.entries mem).countP (inregion baseIp endIp)) (l ++ kept mem off) := by
  rw [keepRecord]
  dsimp only
  by_cases hs : (headerAt mem off).type = recordSample
  · rw [if_pos hs]
    by_cases hw : WellFormed mem off
    · have hkept : kept mem off = [sampleAt mem off] := if_pos ⟨hs, hw⟩
      rw [if_pos ((fits_nrAt_iff hfits).mpr hw), hkept, sampleAt_eq hfits hw]
      have hread : ∀ reads, Picked { k with reads }
          (fun s => (s.entries mem).countP (inregion baseIp endIp)) l := fun _ => h
      exact (hread _).retain.weigh (sampleAt mem off)
    · have hkept : kept mem off = [] := if_neg fun hk => hw hk.2
      rw [if_neg (mt (fits_nrAt_iff hfits).mp hw), hkept, List.append_nil]
      exact h
  · have hkept : kept mem off = [] := if_neg fun hk => hs hk.1
    rw [if_neg hs, hkept, List.append_nil]
    exact h

lemma Picked.all {done : List Sample} (l : List ℕ)
    (hl : ∀ off ∈ l, off + (headerAt mem off).size ≤ span)
    (h : Picked k (fun s => (s.entries mem).countP (inregion baseIp endIp)) done) :
    Picked (keepAll mem span baseIp endIp held l k)
      (fun s => (s.entries mem).countP (inregion baseIp endIp)) (done ++ l.flatMap (kept mem)) := by
  induction l generalizing k done with
  | nil =>
    rw [List.flatMap_nil, List.append_nil]
    exact h
  | cons off l ih =>
    rw [List.flatMap_cons, ← List.append_assoc]
    exact ih (fun o ho => hl o (List.mem_cons_of_mem off ho))
      (Picked.record (k := k.readHeader off) h (hl off List.mem_cons_self))

/-- What the decoding starts from -/
lemma exists_parsed (mem : Memory) (span dsz baseIp len depth : ℕ) (alloc : Bool) :
    ∃ p, (∀ fuel, span < fuel →
        ringParse (some mem) span dsz baseIp len depth alloc fuel = some p) ∧
      p.best = (wellFormed mem span).argmax
        (fun s => (s.entries mem).countP (inregion baseIp ((baseIp + len) % 2 ^ 64))) ∧
      (∀ s ∈ p.best, p.bestInregion =
        (s.entries mem).countP (inregion baseIp ((baseIp + len) % 2 ^ 64))) ∧
      (p.lost = true ↔ Lost mem span dsz depth) := by
  obtain ⟨n, hn, hcount⟩ := pass1_eq mem span
  obtain ⟨k, hk, hkeep⟩ := pass2_eq mem span baseIp ((baseIp + len) % 2 ^ 64)
    (decide (0 < n.nSamples) && alloc)
  have hlost : n.lost = true ↔ ∃ off ∈ records mem span, (headerAt mem off).type = recordLost ∨
      (headerAt mem off).type = recordThrottle := by
    have hall := @lost_countAll mem (records mem span) ⟨0, false, []⟩
    rw [or_iff_right Bool.false_ne_true] at hall
    rcases hcount with rfl | ⟨stop, -, rfl⟩
    · exact hall
    · exact hall
  have hpick : Picked k
      (fun s => (s.entries mem).countP (inregion baseIp ((baseIp + len) % 2 ^ 64)))
      (wellFormed mem span) := by
    have hall := @Picked.all mem span baseIp ((baseIp + len) % 2 ^ 64)
      (decide (0 < n.nSamples) && alloc) ⟨[], none, 0, []⟩ [] (records mem span)
      (fun off ho => (framed_of_mem_records ho).2.2) ⟨rfl, fun s hs => by cases hs⟩
    rw [List.nil_append, flatMap_kept] at hall
    rcases hkeep with rfl | ⟨stop, -, rfl⟩
    · exact hall
    · exact hall
  by_cases hspan : 0 < span
  · refine ⟨⟨n.nSamples, k.samples, k.best, k.bestInregion, n.lost || nearFull span dsz depth,
      n.reads ++ k.reads⟩, fun fuel hfuel => ?_, hpick.1, hpick.2, ?_⟩
    · rw [ringParse]
      dsimp only
      rw [if_pos hspan, hn fuel hfuel, Option.bind_some, hk fuel hfuel, Option.map_some]
    · rw [Bool.or_eq_true, hlost]
      rfl
  · have hnone : records mem span = [] := records_of_empty hspan
    refine ⟨⟨0, [], none, 0, nearFull span dsz depth, []⟩, fun fuel hfuel => ?_, ?_, ?_, ?_⟩
    · rw [ringParse]
      dsimp only
      rw [if_neg hspan]
    · rw [wellFormed, samples, hnone, List.filter_nil, List.filter_nil, List.map_nil]
      rfl
    · exact fun s hs => by cases hs
    · rw [Lost, hnone]
      simp

end Parse

section Decide

variable {c : Code} {haveSpec : Bool} {w : List BranchEntry} {depth : ℕ} {t : Trace}

lemma insnsTotal_emitAll (evs : List Hwtrace.Event) (t : Trace) :
    (emitAll t evs).insnsTotal = t.insnsTotal + (insnsOf evs).length := by
  induction evs generalizing t with
  | nil => rfl
  | cons ev evs ih =>
    rw [emitAll_cons, ih]
    cases ev with
    | insn o =>
      rw [insnsOf, List.length_cons, emit]
      have hone : (traceAppendInsn t o).insnsTotal = t.insnsTotal + 1 := rfl
      omega
    | block o =>
      have hnone : (traceAppendBlock t o).insnsTotal = t.insnsTotal := by
        unfold traceAppendBlock
        dsimp only
        split
        · rfl
        · split_ifs <;> rfl
      rw [insnsOf, emit, hnone]

lemma exitEdge_iff (hfits : c.ptr + c.len < 2 ^ 64) (e : BranchEntry) :
    exitEdge c.ptr ((c.ptr + c.len) % 2 ^ 64) e = true ↔
      c.InRegion c.ptr e.fromAddr ∧ ¬c.InRegion c.ptr e.toAddr := by
  rw [Nat.mod_eq_of_lt hfits, exitEdge, decide_eq_true_iff]
  unfold Code.InRegion
  omega

/-- The instructions of the trailing fill -/
def tailRun (c : Code) (w : List BranchEntry) : List ℕ := insnsOf (tailEvents c c.ptr (landed w))

lemma tailRun_of_runsOut {p : List ℕ} (h : RunsOut c w p) : tailRun c w = p :=
  insnsOf_tailEvents h.1 h.2

lemma tailRun_of_not_runsOut (h : ¬∃ p, RunsOut c w p) : tailRun c w = [] :=
  congrArg insnsOf (tailEvents_eq_nil fun ⟨hin, p, hp⟩ => h ⟨p, hin, hp⟩)

lemma finished_iff {cap : Capture c haveSpec} (hrest : c.InRegion c.ptr (landed w) →
    execInsns c c.ptr (beyond w.length cap.steps) ≠ []) :
    Finished cap w ↔ tailRun c w = execInsns c c.ptr (beyond w.length cap.steps) := by
  constructor
  · rintro (hout | ⟨hout, hnil⟩)
    · exact tailRun_of_runsOut hout
    · rw [hnil]
      exact tailRun_of_not_runsOut fun ⟨p, hin, _⟩ => hout hin
  · intro heq
    by_cases hex : ∃ p, RunsOut c w p
    · obtain ⟨p, hp⟩ := hex
      left
      rw [← heq, tailRun_of_runsOut hp]
      exact hp
    · rw [tailRun_of_not_runsOut hex] at heq
      exact .inr ⟨fun hin => hrest hin heq.symm, heq.symm⟩

lemma stepOk_of_mem {base pc fin : ℕ} {steps : List Step} (h : Exec c base pc steps fin) :
    ∀ s ∈ steps, StepOk c base s := by
  induction h with
  | nil => exact fun s hs => absurd hs List.not_mem_nil
  | cons hok _ ih => exact List.forall_mem_cons.mpr ⟨hok, ih⟩

/-- The region is there, and can be decoded. -/
lemma Capture.present (cap : Capture c haveSpec) :
    c.ptr ≠ 0 ∧ c.len ≠ 0 ∧ c.disasAvailable = true := by
  obtain ⟨s, hs, -⟩ := List.mem_map.mp (List.mem_of_head? cap.entry)
  obtain ⟨hmem, hin⟩ := List.mem_filter.mp hs
  have hdec := (stepOk_of_mem cap.exec s hmem).decodes (of_decide_eq_true hin)
  have hlt := hdec.lt
  exact ⟨hdec.present.1, by omega, hdec.present.2⟩

lemma Capture.tierA_eq (cap : Capture c haveSpec) (hpos : 0 < w.length) (t : Trace) :
    tierA c haveSpec depth ((c.ptr + c.len) % 2 ^ 64) w t =
      let r := amdReplay c c.ptr haveSpec w t
      let t' := if depth ≤ w.length then r.1.markTruncated else r.1
      if r.2 = true ∨ ∃ e ∈ w, c.InRegion c.ptr e.fromAddr ∧ ¬c.InRegion c.ptr e.toAddr then t'
      else t'.markTruncated := by
  obtain ⟨hptr, hlen, hav⟩ := cap.present
  have hexit : w.any (exitEdge c.ptr ((c.ptr + c.len) % 2 ^ 64)) = true ↔
      ∃ e ∈ w, c.InRegion c.ptr e.fromAddr ∧ ¬c.InRegion c.ptr e.toAddr := by
    simp only [List.any_eq_true, exitEdge_iff cap.fits]
  have hreach : amdDecodeReach c haveSpec depth w t =
      (.ok, if depth ≤ w.length then (amdReplay c c.ptr haveSpec w t).1.markTruncated
        else (amdReplay c c.ptr haveSpec w t).1, (amdReplay c c.ptr haveSpec w t).2) := by
    rw [amdDecodeReach, if_neg (by omega), if_neg (by simp [hav])]
  rw [tierA, hreach]
  simp only [Bool.or_eq_true, hexit]

/-- The replay of a window that is not full, when nothing is marked -/
lemma Capture.replay_window (cap : Capture c haveSpec) (hpos : 0 < w.length)
    (hle : w.length ≤ cap.branches.length) (hw : w.reverse = cap.branches.take w.length) :
    ∃ pre, execInsns c c.ptr cap.steps =
        execInsns c c.ptr pre ++ execInsns c c.ptr (beyond w.length cap.steps) ∧
      takenBranches pre = w.reverse.map BranchEntry.edge ∧
      (Finished cap w ↔ tailRun c w = execInsns c c.ptr (beyond w.length cap.steps)) ∧
      ∀ t, ∃ evs, insnsOf evs = execInsns c c.ptr pre ++ tailRun c w ∧
        ((amdReplay c c.ptr haveSpec w t).1.truncated = false ↔
          (emitAll t evs).truncated = false) ∧
        ((emitAll t evs).truncated = false → (amdReplay c c.ptr haveSpec w t).1 = emitAll t evs ∧
          ((amdReplay c c.ptr haveSpec w t).2 = true ↔ ∃ p, RunsOut c w p)) := by
  obtain ⟨pre, hsplit, hedges, hrest, hreplay⟩ := cap.replay hpos hle hw
  refine ⟨pre, ?_, hedges, finished_iff hrest, fun t => ?_⟩
  · rw [← execInsns_append, ← hsplit]
  · obtain ⟨evs, ip, entered, hst, heq⟩ := hreplay t
    have htail : tailEvents c c.ptr ip = tailEvents c c.ptr (landed w) := by
      by_cases hin : c.InRegion c.ptr (landed w)
      · rw [hst.inside hin]
      · rw [tailEvents_eq_nil fun h => hin h.1, tailEvents_eq_nil fun h => hst.outside hin h.1]
    have hfirst : (emitAll t (evs ++ tailEvents c c.ptr (landed w))).truncated = false →
        (emitAll t evs).truncated = false := by
      rw [emitAll_append]
      exact fun h => (emitAll_extends _ h).1
    have hone := @tailFill_eq c c.ptr ⟨emitAll t evs, ip, entered⟩
    dsimp only at hone
    rw [htail, ← emitAll_append, ← heq] at hone
    refine ⟨evs ++ tailEvents c c.ptr (landed w), ?_, ?_, fun h => ?_⟩
    · rw [insnsOf_append, hst.insns]
      rfl
    · rw [hone]
      constructor
      · intro h
        split_ifs at h with hmark
        · rw [hmark] at h
          cases h
        · exact h
      · intro h
        rw [if_neg (by rw [hfirst h]; exact Bool.false_ne_true)]
        exact h
    · rw [if_neg (by rw [hfirst h]; exact Bool.false_ne_true)] at hone
      refine ⟨hone, ?_⟩
      rw [heq, tailFill_reached]
      constructor
      · rintro ⟨-, hin, p, hp⟩
        have hland : c.InRegion c.ptr (landed w) := by
          by_contra hout
          exact hst.outside hout hin
        dsimp only at hp
        rw [hst.inside hland] at hp
        exact ⟨p, hland, hp⟩
      · rintro ⟨p, hin, hp⟩
        refine ⟨hfirst h, ?_, p, ?_⟩
        · dsimp only
          rw [hst.inside hin]
          exact hin
        · dsimp only
          rw [hst.inside hin]
          exact hp

lemma decodeWindows_single {outAlloc lost : Bool} {windows : List (List BranchEntry)}
    {best : Option (List BranchEntry)} {n : ℕ} {out : Trace}
    (h : decodeWindows c haveSpec depth outAlloc windows best n lost t = (.single, out))
    (ht : out.truncated = false) : ∃ w, best = some w ∧ 0 < w.length ∧ lost = false ∧
      out = tierA c haveSpec depth ((c.ptr + c.len) % 2 ^ 64) w t := by
  unfold decodeWindows at h
  cases best with
  | none => exact absurd (congrArg Prod.fst h) (by decide : ¬Tier.none = Tier.single)
  | some w =>
    dsimp only at h
    by_cases hempty : w.length = 0 ∨ n = 0
    · rw [if_pos hempty] at h
      exact absurd (congrArg Prod.fst h) (by decide : ¬Tier.none = Tier.single)
    · rw [if_neg hempty] at h
      by_cases hst : depth ≤ w.length ∧ 1 < windows.length ∧ outAlloc ∧
          (amdStitch c c.ptr windows (windows.length + depth)).1 ≠ []
      · rw [if_pos hst] at h
        exact absurd (congrArg Prod.fst h) (by decide : ¬Tier.stitched = Tier.single)
      · rw [if_neg hst] at h
        -- a loss and an empty trace are marked
        split_ifs at h with hlost hzero hzero
        · cases h
          cases ht
        · cases h
          cases ht
        · cases h
          cases ht
        · cases h
          exact ⟨w, rfl, by omega, Bool.eq_false_iff.mpr hlost, rfl⟩

lemma decodeWindows_of_small {outAlloc : Bool} {windows : List (List BranchEntry)} {n : ℕ}
    (hpos : 0 < w.length) (hn : n ≠ 0) (hlt : w.length < depth)
    (htotal : (tierA c haveSpec depth ((c.ptr + c.len) % 2 ^ 64) w t).insnsTotal ≠ 0) :
    decodeWindows c haveSpec depth outAlloc windows (some w) n false t =
      (.single, tierA c haveSpec depth ((c.ptr + c.len) % 2 ^ 64) w t) := by
  unfold decodeWindows
  dsimp only
  rw [if_neg (by omega), if_neg (by omega), if_neg Bool.false_ne_true, if_neg htotal]

lemma length_entries (mem : Memory) (s : Sample) : (s.entries mem).length = s.nr := by
  rw [Sample.entries, List.length_map, List.length_range]

lemma pos_of_mem_wellFormed {mem : Memory} {span : ℕ} {s : Sample}
    (h : s ∈ wellFormed mem span) : 0 < s.nr := by
  obtain ⟨off, hoff, rfl⟩ := List.mem_map.mp h
  have hw : WellFormed mem off := of_decide_eq_true (List.mem_filter.mp hoff).2
  exact hw.1

/-- A window that shows an exit has a branch in the region. -/
lemma ExitShown.counted (h : ExitShown c w) (hpos : 0 < w.length) :
    w.countP (inregion c.ptr (c.ptr + c.len)) ≠ 0 := by
  rw [← Nat.pos_iff_ne_zero, List.countP_pos_iff]
  rcases h with ⟨e, he, hin, -⟩ | ⟨p, hin, -⟩
  · exact ⟨e, he, decide_eq_true (.inl hin)⟩
  · cases w with
    | nil => exact absurd hpos (lt_irrefl 0)
    | cons e w => exact ⟨e, List.mem_cons_self, decide_eq_true (.inr hin)⟩

/-- Something was executed before it. -/
lemma ExitShown.ne_nil (h : ExitShown c w) {pre : List Step}
    (hedges : takenBranches pre = w.reverse.map BranchEntry.edge) :
    execInsns c c.ptr pre ++ tailRun c w ≠ [] := by
  rw [ne_eq, List.append_eq_nil_iff, not_and_or]
  rcases h with ⟨e, he, hin, -⟩ | ⟨p, hp⟩
  · left
    have hedge : e.edge ∈ takenBranches pre := by
      rw [hedges]
      exact List.mem_map_of_mem (List.mem_reverse.mpr he)
    obtain ⟨x, hx, heq⟩ := List.mem_map.mp hedge
    have hpc : x.pc = e.fromAddr := congrArg Prod.fst heq
    have hmem : x.pc - c.ptr ∈ execInsns c c.ptr pre :=
      List.mem_map.mpr ⟨x, List.mem_filter.mpr ⟨(List.mem_filter.mp hx).1, decide_eq_true (by
        rw [hpc]
        exact hin)⟩, rfl⟩
    exact List.ne_nil_of_mem hmem
  · right
    rw [tailRun_of_runsOut hp]
    exact hp.2.ne_nil

lemma insns_emitAll_of_empty {evs : List Hwtrace.Event} (ht : t.insns = some [])
    (h : (emitAll t evs).truncated = false) : (emitAll t evs).insns = some (insnsOf evs) := by
  rw [(emitAll_extends evs h).2.insns, ht, Option.map_some, List.nil_append]

/-- A full window is marked. -/
lemma Capture.tierA_full (cap : Capture c haveSpec) (hpos : 0 < w.length)
    (hfull : depth ≤ w.length) (t : Trace) :
    (tierA c haveSpec depth ((c.ptr + c.len) % 2 ^ 64) w t).truncated = true := by
  rw [cap.tierA_eq hpos]
  dsimp only
  rw [if_pos hfull]
  split_ifs
  · rfl
  · rfl

/-- An unmarked window shows an exit, and its decode is all of the execution if nothing is left to
execute. -/
lemma Capture.tierA_unmarked (cap : Capture c haveSpec) (hpos : 0 < w.length)
    (hle : w.length ≤ cap.branches.length) (hw : w.reverse = cap.branches.take w.length)
    (hsmall : w.length < depth) (hempty : t.insns = some [])
    (ht : (tierA c haveSpec depth ((c.ptr + c.len) % 2 ^ 64) w t).truncated = false) :
    ExitShown c w ∧ ((tierA c haveSpec depth ((c.ptr + c.len) % 2 ^ 64) w t).insns =
      some (execInsns c c.ptr cap.steps) ↔ Finished cap w) := by
  obtain ⟨pre, hall, -, hfinish, hreplay⟩ := cap.replay_window hpos hle hw
  obtain ⟨evs, hevs, hiff, hrun⟩ := hreplay t
  have heq := @Capture.tierA_eq c haveSpec w depth cap hpos t
  dsimp only at heq
  rw [if_neg (Nat.not_le.mpr hsmall)] at heq
  rw [heq] at ht ⊢
  split_ifs at ht ⊢ with hshown
  · obtain ⟨htrace, hreached⟩ := hrun (hiff.mp ht)
    refine ⟨hshown.symm.imp id hreached.mp, ?_⟩
    rw [htrace, insns_emitAll_of_empty hempty (hiff.mp ht), hevs, hall, Option.some.injEq,
      List.append_cancel_left_eq, hfinish]
  · cases ht

/-- A window that shows an exit is unmarked in a trace with enough room. -/
lemma Capture.exists_unmarked (cap : Capture c haveSpec) (hpos : 0 < w.length)
    (hle : w.length ≤ cap.branches.length) (hw : w.reverse = cap.branches.take w.length)
    (hsmall : w.length < depth) (hshown : ExitShown c w) :
    ∃ t, t.insns = some [] ∧ t.insnsTotal = 0 ∧
      (tierA c haveSpec depth ((c.ptr + c.len) % 2 ^ 64) w t).truncated = false ∧
      (tierA c haveSpec depth ((c.ptr + c.len) % 2 ^ 64) w t).insnsTotal ≠ 0 := by
  obtain ⟨pre, -, hedges, -, hreplay⟩ := cap.replay_window hpos hle hw
  let t : Trace :=
    ⟨some [], (execInsns c c.ptr pre ++ tailRun c w).length, 0, none, 0, 0, false⟩
  obtain ⟨evs, hevs, -, hrun⟩ := hreplay t
  have hroom : Room t evs := by
    refine ⟨fun l hl => ?_, fun l hl => by cases hl⟩
    obtain rfl : [] = l := Option.some.inj hl
    rw [hevs, List.length_nil, Nat.zero_add]
  have htr := truncated_emitAll_of_room hroom
  obtain ⟨htrace, hreached⟩ := hrun htr
  have heq := @Capture.tierA_eq c haveSpec w depth cap hpos t
  dsimp only at heq
  rw [if_neg (Nat.not_le.mpr hsmall), if_pos (hshown.symm.imp hreached.mpr id), htrace] at heq
  have htotal := insnsTotal_emitAll evs t
  rw [hevs] at htotal
  have hne := List.length_pos_iff.mpr (hshown.ne_nil hedges)
  refine ⟨t, rfl, rfl, ?_, ?_⟩
  · rw [heq]
    exact htr
  · rw [heq, htotal]
    omega

/-- A single-window decode that is not marked is the whole run exactly when the chosen window is
trusted rightly. -/
theorem ring_single_window_iff (cap : Capture c haveSpec) (mem : Memory) (span dsz depth : ℕ)
    (alloc outAlloc : Bool)
    (hsampled : ∀ s ∈ wellFormed mem span, cap.Sampled depth (s.entries mem)) :
    SingleIsWhole cap mem span dsz depth alloc outAlloc ↔ Trusted cap mem span dsz depth := by
  obtain ⟨p, hp, hbest, hcount, hlost⟩ := exists_parsed mem span dsz c.ptr c.len depth alloc
  rw [Nat.mod_eq_of_lt cap.fits] at hbest hcount
  constructor
  · intro hwhole s hs
    have hmem := List.argmax_mem hs
    have hlen := length_entries mem s
    have hpos : 0 < (s.entries mem).length := hlen ▸ pos_of_mem_wellFormed hmem
    by_contra hno
    simp only [not_or, not_not, Nat.not_le] at hno
    obtain ⟨hkept, hsmall, hshown, hmore⟩ := hno
    rw [← hlen] at hsmall
    obtain ⟨hle, hw⟩ := (hsampled s hmem).all hsmall
    obtain ⟨t, hempty, hzero, ht, htotal⟩ := cap.exists_unmarked hpos hle hw hsmall hshown
    have hbest' : p.best = some s := hbest.trans (Option.mem_def.mp hs)
    have hn : p.bestInregion ≠ 0 := by
      rw [hcount s (Option.mem_def.mpr hbest')]
      exact hshown.counted hpos
    have hdec : amdRingParseDecode c haveSpec (some mem) span dsz depth alloc outAlloc (span + 1) t
        = some (.single, tierA c haveSpec depth ((c.ptr + c.len) % 2 ^ 64) (s.entries mem) t) := by
      rw [amdRingParseDecode, hp _ (Nat.lt_succ_self span), Option.map_some, hbest',
        Bool.eq_false_iff.mpr (mt hlost.mp hkept)]
      exact congrArg some (decodeWindows_of_small hpos hn hsmall htotal)
    have hout := hwhole t (span + 1) _ hempty hzero (Nat.lt_succ_self span) hdec ht
    exact hmore ((cap.tierA_unmarked hpos hle hw hsmall hempty ht).2.mp hout)
  · intro htrusted t fuel out hempty hzero hfuel hdec ht
    rw [amdRingParseDecode, hp fuel hfuel, Option.map_some] at hdec
    obtain ⟨w, hw, hpos, hkept, rfl⟩ := decodeWindows_single (Option.some.inj hdec) ht
    obtain ⟨s, hs, rfl⟩ := Option.map_eq_some_iff.mp hw
    rw [hs] at hbest
    have hmem := List.argmax_mem (Option.mem_def.mpr hbest.symm)
    have hsmall : (s.entries mem).length < depth := by
      by_contra hfull
      rw [cap.tierA_full hpos (Nat.not_lt.mp hfull)] at ht
      cases ht
    obtain ⟨hle, hrev⟩ := (hsampled s hmem).all hsmall
    obtain ⟨hshown, hwhole⟩ := cap.tierA_unmarked hpos hle hrev hsmall hempty ht
    rcases htrusted s (Option.mem_def.mpr hbest.symm) with hloss | hfull | hno | hdone
    · rw [hlost.mpr hloss] at hkept
      cases hkept
    · rw [← length_entries mem s] at hfull
      omega
    · exact absurd hshown hno
    · exact hwhole.mpr hdone

end Decide

section Concrete

/-- A call out of the region and its ret -/
def calloutCode : Code := unitCode 100 [.plain, .call 500, .ret]

def calloutRun : Capture calloutCode true where
  pc := 5
  steps := [⟨5, 100, true⟩, ⟨100, 101, false⟩, ⟨101, 500, true⟩, ⟨500, 102, true⟩,
    ⟨102, 6, true⟩]
  fin := 6
  branches := [⟨5, 100, false, 0⟩, ⟨101, 500, false, 0⟩, ⟨500, 102, false, 0⟩, ⟨102, 6, false, 0⟩]
  exec := by decide
  entry := by decide
  exit := by decide
  edges := by decide
  retired := by decide
  fits := by decide

/-- One sample, taken in the callee -/
def calloutRing : Memory := fun i =>
  ([9, 0, 0, 0, 0, 0, 64, 0, 2, 0, 0, 0, 0, 0, 0, 0,
    101, 0, 0, 0, 0, 0, 0, 0, 244, 1, 0, 0, 0, 0, 0, 0, 0, 0, 0, 0, 0, 0, 0, 0,
    5, 0, 0, 0, 0, 0, 0, 0, 100] : List UInt8).getD i 0

lemma calloutRing_sampled :
    ∀ s ∈ wellFormed calloutRing 64, calloutRun.Sampled 16 (s.entries calloutRing) := by
  have hrecords : records calloutRing 64 = [0] := by
    rw [records, Framing.frames, dif_pos (by decide +kernel), Framing.frames,
      dif_neg (by decide +kernel)]
  have hsamples : wellFormed calloutRing 64 = [⟨16, 2⟩] := by
    rw [wellFormed, samples, hrecords]
    decide +kernel
  rw [hsamples]
  intro s hs
  rw [List.mem_singleton.mp hs]
  exact ⟨2, by decide, by decide +kernel⟩

theorem ring_single_window_callout :
    SingleIsWhole calloutRun calloutRing 64 0 16 true true ↔
      Trusted calloutRun calloutRing 64 0 16 :=
  ring_single_window_iff calloutRun calloutRing 64 0 16 true true calloutRing_sampled

/-- The call shows an exit, and the ret that follows it is missing without a mark. -/
theorem ring_single_window_in_callee :
    (∀ s ∈ wellFormed calloutRing 64, calloutRun.Sampled 16 (s.entries calloutRing)) ∧
      ¬SingleIsWhole calloutRun calloutRing 64 0 16 true true := by
  refine ⟨calloutRing_sampled, fun hwhole => ?_⟩
  have hinsns := hwhole ⟨some [], 8, 0, some [], 8, 0, false⟩ 65
    ⟨some [0, 1], 8, 2, some [0], 8, 2, false⟩ rfl rfl (by decide) (by decide +kernel) rfl
  exact absurd hinsns (by decide)

end Concrete

end AsmTest.AmdRing
