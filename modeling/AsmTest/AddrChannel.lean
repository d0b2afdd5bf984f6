import Mathlib.Tactic
import Mathlib.Data.List.Basic

/-!
# The address channel

A ring with one producer and one consumer. The producer never waits: it writes a slot and then
moves the head. The consumer loads the head, skips what the producer has overwritten, copies slot
by slot and then moves the tail. Memory is sequentially consistent, and each of these is one step.
-/

namespace AsmTest.AddrChannel

/-- `asmtest_addr_rec_t` -/
structure AddrRec where
  base : ℕ
  len : ℕ
  version : ℕ
deriving DecidableEq, Repr

/-- `ASMTEST_ADDR_CHAN_CAP` -/
def addrChanCap : ℕ := 256

/-- `asmtest_addr_channel_t`; the counters are of 32 bits and run freely. -/
structure Channel where
  head : ℕ
  tail : ℕ
  overrun : Bool
  recs : ℕ → AddrRec

/-- A freshly mapped channel; the slots hold what they held. -/
def addrChannelInit (recs : ℕ → AddrRec) : Channel :=
  ⟨0, 0, false, recs⟩

/-- `a - b` of 32 bits -/
def sub32 (a b : ℕ) : ℕ := (a + 2 ^ 32 - b) % 2 ^ 32

section Calls

/-- `asmtest_addr_channel_publish` -/
def addrChannelPublish (c : Channel) (r : AddrRec) : Channel :=
  { c with
    recs := Function.update c.recs (c.head % addrChanCap) r
    head := (c.head + 1) % 2 ^ 32 }

/-- The copy loop of a drain with room for so many more records: what it copies, and `t` -/
def drainLoop (c : Channel) (h : ℕ) : ℕ → ℕ → List AddrRec × ℕ
  | 0, t => ([], t)
  | room + 1, t =>
    if t = h then ([], t)
    else
      let r := drainLoop c h room ((t + 1) % 2 ^ 32)
      (c.recs (t % addrChanCap) :: r.1, r.2)

/-- `asmtest_addr_channel_drain` when nothing is published meanwhile -/
def addrChannelDrain (c : Channel) (max : ℕ) : Channel × List AddrRec :=
  if max = 0 then (c, [])
  else
    let lapped : Bool := addrChanCap < sub32 c.head c.tail
    let t := if lapped then sub32 c.head addrChanCap else c.tail
    let r := drainLoop c c.head max t
    ({ c with tail := r.2, overrun := c.overrun || lapped }, r.1)

end Calls

/-- The locals of a drain between its steps -/
structure Drain where
  h : ℕ
  t : ℕ
  n : ℕ
  max : ℕ
deriving DecidableEq, Repr

/-- The test of the copy loop -/
def Drain.more (d : Drain) : Bool :=
  d.t ≠ d.h ∧ d.n < d.max

/-- How many slots the loop will still copy -/
def Drain.left (d : Drain) : ℕ := min (sub32 d.h d.t) (d.max - d.n)

section Steps

inductive Act
  /-- The producer writes the slot of its head. -/
  | write (r : AddrRec)
  /-- The producer moves the head. -/
  | bump
  /-- The consumer enters a drain. -/
  | load (max : ℕ)
  | copy
  /-- The consumer moves the tail and leaves the drain. -/
  | finish
deriving DecidableEq, Repr

/-- The channel, where each side stands, and what has happened: the records written, oldest
first, the number of the record the consumer reads next, and the records it has been handed, each
with the number it was read under. -/
structure World where
  chan : Channel
  /-- The producer stands between its two steps. -/
  wrote : Bool
  drain : Option Drain
  log : List AddrRec
  pos : ℕ
  delivered : List (ℕ × AddrRec)

/-- The records whose head update is done -/
def World.published (w : World) : ℕ :=
  if w.wrote then w.log.length - 1 else w.log.length

def World.init (recs : ℕ → AddrRec) : World :=
  ⟨addrChannelInit recs, false, none, [], 0, []⟩

/-- The records not yet read, as 32 bits count them, are more than fit. -/
def World.lapped (w : World) : Bool :=
  addrChanCap < sub32 w.chan.head w.chan.tail

/-- The producer's slot write -/
def World.write (w : World) (r : AddrRec) : World :=
  { w with
    chan := { w.chan with recs := Function.update w.chan.recs (w.chan.head % addrChanCap) r }
    wrote := true
    log := w.log ++ [r] }

/-- The producer's head update -/
def World.bump (w : World) : World :=
  { w with
    chan := { w.chan with head := (w.chan.head + 1) % 2 ^ 32 }
    wrote := false }

/-- The consumer's head load; if it was lapped it jumps to the oldest record that is still there. -/
def World.load (w : World) (max : ℕ) : World :=
  { w with
    chan := { w.chan with overrun := w.chan.overrun || w.lapped }
    drain := some {
      h := w.chan.head
      t := if w.lapped then sub32 w.chan.head addrChanCap else w.chan.tail
      n := 0
      max := max }
    pos := if w.lapped then w.published - addrChanCap else w.pos }

/-- `out[n++] = c->recs[t % CAP]; t++;` -/
def World.copy (w : World) (d : Drain) : World :=
  { w with
    drain := some { d with t := (d.t + 1) % 2 ^ 32, n := d.n + 1 }
    pos := w.pos + 1
    delivered := w.delivered ++ [(w.pos, w.chan.recs (d.t % addrChanCap))] }

/-- The consumer's tail update -/
def World.finish (w : World) (d : Drain) : World :=
  { w with chan := { w.chan with tail := d.t }, drain := none }

/-- One step of either side, where it can take it -/
def step (w : World) : Act → Option World
  | .write r => if w.wrote then none else some (w.write r)
  | .bump => if w.wrote then some w.bump else none
  | .load max =>
    if w.drain.isSome then none
    else if max = 0 then some w
    else some (w.load max)
  | .copy => w.drain.bind fun d => if d.more then some (w.copy d) else none
  | .finish => w.drain.bind fun d => if d.more then none else some (w.finish d)

end Steps

section Spec

/-- What the consumer was handed is what was published: each record under its own number, in
order, none twice; and a record that was passed over is disclosed. -/
structure Honest (w : World) : Prop where
  ordered : (w.delivered.map Prod.fst).Pairwise (· < ·)
  genuine : ∀ p ∈ w.delivered, p.1 < w.published ∧ w.log[p.1]? = some p.2
  subsequence : (w.delivered.map Prod.snd).Sublist (w.log.take w.published)
  disclosed : ∀ i < w.pos, i ∉ w.delivered.map Prod.fst → w.chan.overrun = true

/-- The condition on a step. A slot is not written while a drain still has to copy the record in
it. A drain starts with nothing to copy, or with no more records than fit, the one being written
included, or with more than fit and no record being written. -/
def ActOk (w : World) : Act → Prop
  | .write _ => ∀ d, w.drain = some d → ∀ j < d.left, w.log.length ≠ w.pos + j + addrChanCap
  | .load _ => (w.published - w.pos) % 2 ^ 32 = 0 ∨ w.log.length - w.pos ≤ addrChanCap ∨
      addrChanCap < (w.published - w.pos) % 2 ^ 32 ∧ w.wrote = false
  | _ => True

/-- The states of the interleavings whose steps all meet the condition -/
inductive Reach : World → Prop
  | init (recs : ℕ → AddrRec) : Reach (World.init recs)
  | step {w w' : World} (a : Act) : Reach w → ActOk w a → step w a = some w' → Reach w'

end Spec

section Invariant

structure Inv (w : World) : Prop where
  head : w.chan.head = w.published % 2 ^ 32
  wrote : w.wrote = true → w.log ≠ []
  pos_le : w.pos ≤ w.published
  /-- The last records stand in their slots. -/
  slots : ∀ i r, w.log[i]? = some r → w.log.length ≤ i + addrChanCap →
    w.chan.recs (i % addrChanCap) = r
  idle : w.drain = none → w.chan.tail = w.pos % 2 ^ 32
  busy : ∀ d, w.drain = some d → d.h < 2 ^ 32 ∧ d.t = w.pos % 2 ^ 32 ∧
    ∀ j < d.left, w.pos + j < w.published ∧ w.log.length ≤ w.pos + j + addrChanCap
  ordered : (w.delivered.map Prod.fst).Pairwise (· < ·)
  below : ∀ p ∈ w.delivered, p.1 < w.pos ∧ w.log[p.1]? = some p.2
  subsequence : (w.delivered.map Prod.snd).Sublist (w.log.take w.pos)
  disclosed : ∀ i < w.pos, i ∉ w.delivered.map Prod.fst → w.chan.overrun = true

variable {w w' : World}

theorem World.published_le (w : World) : w.published ≤ w.log.length := by
  rw [World.published]
  split_ifs
  · exact Nat.sub_le _ _
  · exact le_rfl

theorem Inv.honest (h : Inv w) : Honest w := by
  refine ⟨h.ordered, ?_, ?_, h.disclosed⟩
  · intro p hp
    obtain ⟨hlt, hlog⟩ := h.below p hp
    exact ⟨hlt.trans_le h.pos_le, hlog⟩
  · exact h.subsequence.trans (List.take_sublist_take_left h.pos_le)

theorem inv_init (recs : ℕ → AddrRec) : Inv (World.init recs) where
  head := rfl
  wrote hw := by cases hw
  pos_le := le_rfl
  slots i r hi := by cases hi
  idle _ := rfl
  busy d hd := by cases hd
  ordered := List.Pairwise.nil
  below p hp := by cases hp
  subsequence := List.Sublist.refl _
  disclosed i hi := absurd hi (Nat.not_lt_zero i)

/-- Two records that fit in the ring together have different slots. -/
theorem slot_ne {i j : ℕ} (hlt : i < j) (hle : j < i + addrChanCap) :
    i % addrChanCap ≠ j % addrChanCap := by
  rw [addrChanCap] at *
  omega

theorem mod_slot (i : ℕ) : i % 2 ^ 32 % addrChanCap = i % addrChanCap :=
  Nat.mod_mod_of_dvd i (by decide)

/-- Counters of 32 bits give the true distance, as far as 32 bits hold it. -/
theorem sub32_mod {a b : ℕ} (h : b ≤ a) : sub32 (a % 2 ^ 32) (b % 2 ^ 32) = (a - b) % 2 ^ 32 := by
  rw [sub32]
  omega

/-- A copy leaves one slot fewer to copy. -/
theorem Drain.left_succ {d : Drain} (hh : d.h < 2 ^ 32) (ht : d.t < 2 ^ 32) (hmore : d.more = true) :
    d.left = Drain.left { d with t := (d.t + 1) % 2 ^ 32, n := d.n + 1 } + 1 := by
  obtain ⟨h, t, n, max⟩ := d
  rw [Drain.more, decide_eq_true_iff] at hmore
  dsimp only at hh ht hmore
  simp only [Drain.left, sub32]
  omega

/-- The producer's slot write. The record it overwrites is one the drain is done with. -/
theorem Inv.write (h : Inv w) {r : AddrRec} (hw : w.wrote = false) (hok : ActOk w (.write r)) :
    Inv (w.write r) := by
  have hpub : w.published = w.log.length := by
    rw [World.published, hw]
    rfl
  have hpub' : (w.write r).published = w.published := by
    simp [World.write, World.published, hw]
  have hslot : w.chan.head % addrChanCap = w.log.length % addrChanCap := by
    rw [h.head, hpub, mod_slot]
  rw [World.write] at hpub' ⊢
  refine ⟨?_, by simp, ?_, ?_, h.idle, ?_, h.ordered, ?_, ?_, h.disclosed⟩
  · rw [hpub']
    exact h.head
  · rw [hpub']
    exact h.pos_le
  · intro i r' hi hlive
    dsimp only at hi hlive ⊢
    rw [List.length_append, List.length_singleton] at hlive
    rw [hslot]
    rcases Nat.lt_trichotomy i w.log.length with hlt | rfl | hgt
    · rw [List.getElem?_append_left hlt] at hi
      rw [Function.update_of_ne (slot_ne hlt (by omega))]
      exact h.slots i r' hi (by omega)
    · rw [List.getElem?_concat_length, Option.some.injEq] at hi
      rw [Function.update_self]
      exact hi
    · rw [List.getElem?_eq_none (by simp; omega)] at hi
      cases hi
  · intro d hd
    obtain ⟨hh, ht, hleft⟩ := h.busy d hd
    refine ⟨hh, ht, fun j hj => ?_⟩
    obtain ⟨hlt, hlive⟩ := hleft j hj
    have hne := hok d hd j hj
    rw [hpub']
    refine ⟨hlt, ?_⟩
    dsimp only
    rw [List.length_append, List.length_singleton]
    omega
  · intro p hp
    obtain ⟨hlt, hlog⟩ := h.below p hp
    refine ⟨hlt, ?_⟩
    dsimp only
    rw [List.getElem?_append_left (by have := h.pos_le; omega)]
    exact hlog
  · dsimp only
    rw [List.take_append_of_le_length (hpub ▸ h.pos_le)]
    exact h.subsequence

theorem Inv.bump (h : Inv w) (hw : w.wrote = true) :
    Inv w.bump := by
  have hpos : 0 < w.log.length := List.length_pos_of_ne_nil (h.wrote hw)
  have hpub : w.published + 1 = w.log.length := by
    rw [World.published, if_pos hw]
    omega
  rw [World.bump]
  refine ⟨?_, by simp, ?_, h.slots, h.idle, ?_, h.ordered, h.below, h.subsequence, h.disclosed⟩
  · change (w.chan.head + 1) % 2 ^ 32 = w.log.length % 2 ^ 32
    rw [h.head, ← hpub, Nat.mod_add_mod]
  · exact h.pos_le.trans w.published_le
  · intro d hd
    obtain ⟨hh, ht, hleft⟩ := h.busy d hd
    refine ⟨hh, ht, fun j hj => ?_⟩
    exact ⟨(hleft j hj).1.trans_le w.published_le, (hleft j hj).2⟩

/-- The consumer enters a drain: what it passes over it discloses, and what it will copy is in
its slot. -/
theorem Inv.load (h : Inv w) {max : ℕ} (hidle : w.drain = none) (hok : ActOk w (.load max)) :
    Inv (w.load max) := by
  have htail := h.idle hidle
  have hdist : sub32 w.chan.head w.chan.tail = (w.published - w.pos) % 2 ^ 32 := by
    rw [h.head, htail, sub32_mod h.pos_le]
  have hlap : w.lapped = true ↔ addrChanCap < (w.published - w.pos) % 2 ^ 32 := by
    rw [World.lapped, decide_eq_true_iff, hdist]
  have hmono : ∀ {pos : ℕ}, w.pos ≤ pos → (∀ p ∈ w.delivered, p.1 < pos ∧ w.log[p.1]? = some p.2) ∧
      (w.delivered.map Prod.snd).Sublist (w.log.take pos) := by
    intro pos hle
    refine ⟨fun p hp => ?_, h.subsequence.trans (List.take_sublist_take_left hle)⟩
    exact ⟨(h.below p hp).1.trans_le hle, (h.below p hp).2⟩
  by_cases hl : w.lapped = true
  · -- the drain jumps to the oldest record that is still there
    have hfar := hlap.1 hl
    have hle : w.pos + addrChanCap ≤ w.published := by
      have := Nat.mod_le (w.published - w.pos) (2 ^ 32)
      omega
    have hw : w.wrote = false ∧ w.log.length = w.published := by
      have hpl := w.published_le
      rcases hok with h0 | hfit | ⟨-, hw⟩
      · omega
      · have := Nat.mod_le (w.published - w.pos) (2 ^ 32)
        omega
      · refine ⟨hw, ?_⟩
        rw [World.published, hw]
        rfl
    rw [World.load]
    simp only [hl, if_true, Bool.or_true]
    obtain ⟨hbelow, hsub⟩ := hmono (show w.pos ≤ w.published - addrChanCap by omega)
    refine ⟨h.head, h.wrote, Nat.sub_le _ _, h.slots, by simp, ?_, h.ordered, hbelow, hsub, ?_⟩
    · intro d hd
      cases hd
      refine ⟨by rw [h.head]; exact Nat.mod_lt _ (by decide), ?_, fun j hj => ?_⟩
      · dsimp only
        rw [h.head]
        rw [addrChanCap] at hle ⊢
        rw [sub32]
        omega
      · have hj' : j < addrChanCap := by
          refine hj.trans_le ((min_le_left _ _).trans ?_)
          dsimp only
          rw [h.head]
          rw [addrChanCap, sub32, sub32]
          omega
        change w.published - addrChanCap + j < w.published ∧
          w.log.length ≤ w.published - addrChanCap + j + addrChanCap
        omega
    · intro i _ _
      rfl
  · have hnear := mt hlap.2 hl
    rw [World.load]
    simp only [hl, Bool.or_false, if_false, Bool.false_eq_true]
    refine ⟨h.head, h.wrote, h.pos_le, h.slots, by simp, ?_, h.ordered, h.below, h.subsequence,
      h.disclosed⟩
    intro d hd
    cases hd
    refine ⟨by rw [h.head]; exact Nat.mod_lt _ (by decide), htail, fun j hj => ?_⟩
    have hj' : j < (w.published - w.pos) % 2 ^ 32 := by
      rw [← hdist]
      exact hj.trans_le (min_le_left _ _)
    change w.pos + j < w.published ∧ w.log.length ≤ w.pos + j + addrChanCap
    have hpl := w.published_le
    have := Nat.mod_le (w.published - w.pos) (2 ^ 32)
    rcases hok with h0 | hfit | ⟨hfar, -⟩
    · omega
    · omega
    · exact absurd hfar hnear

theorem Inv.copy (h : Inv w) {d : Drain} (hd : w.drain = some d) (hmore : d.more = true) :
    Inv (w.copy d) := by
  obtain ⟨hh, ht, hleft⟩ := h.busy d hd
  have hsucc := Drain.left_succ hh (ht ▸ Nat.mod_lt _ (by decide)) hmore
  obtain ⟨hlt, hlive⟩ := hleft 0 (by omega)
  rw [Nat.add_zero] at hlt hlive
  have hlen : w.pos < w.log.length := hlt.trans_le w.published_le
  have hlog : w.log[w.pos]? = some (w.chan.recs (d.t % addrChanCap)) := by
    rw [ht, mod_slot, List.getElem?_eq_getElem hlen]
    rw [h.slots w.pos w.log[w.pos] (List.getElem?_eq_getElem hlen) hlive]
  rw [World.copy]
  refine ⟨h.head, h.wrote, hlt, h.slots, by simp, ?_, ?_, ?_, ?_, ?_⟩
  · intro d' hd'
    cases hd'
    refine ⟨hh, ?_, fun j hj => ?_⟩
    · dsimp only
      rw [ht, Nat.mod_add_mod]
    · obtain ⟨h1, h2⟩ := hleft (j + 1) (by omega)
      change w.pos + 1 + j < w.published ∧ w.log.length ≤ w.pos + 1 + j + addrChanCap
      omega
  · rw [List.map_append, List.pairwise_append]
    refine ⟨h.ordered, List.pairwise_singleton _ _, ?_⟩
    intro i hi j hj
    obtain ⟨p, hp, rfl⟩ := List.mem_map.1 hi
    rw [List.mem_singleton.1 hj]
    exact (h.below p hp).1
  · intro p hp
    rcases List.mem_append.1 hp with hp | hp
    · exact ⟨(h.below p hp).1.trans (Nat.lt_succ_self _), (h.below p hp).2⟩
    · rw [List.mem_singleton.1 hp]
      exact ⟨Nat.lt_succ_self _, hlog⟩
  · rw [List.map_append]
    dsimp only [List.map_cons, List.map_nil]
    rw [List.take_add_one, hlog]
    exact h.subsequence.append (List.Sublist.refl _)
  · intro i hi hnot
    rw [List.map_append, List.mem_append, not_or] at hnot
    rcases Nat.lt_succ_iff_lt_or_eq.1 hi with hlt | rfl
    · exact h.disclosed i hlt hnot.1
    · exact absurd (List.mem_singleton.2 rfl) hnot.2

theorem Inv.finish (h : Inv w) {d : Drain} (hd : w.drain = some d) :
    Inv (w.finish d) := by
  rw [World.finish]
  exact ⟨h.head, h.wrote, h.pos_le, h.slots, fun _ => (h.busy d hd).2.1, by simp, h.ordered,
    h.below, h.subsequence, h.disclosed⟩

theorem Inv.step (h : Inv w) {a : Act} (hok : ActOk w a) (hs : step w a = some w') : Inv w' := by
  cases a with
  | write r =>
    rw [AddrChannel.step] at hs
    by_cases hw : w.wrote = true
    · rw [if_pos hw] at hs
      cases hs
    · rw [if_neg hw] at hs
      cases hs
      exact h.write (Bool.not_eq_true _ ▸ hw) hok
  | bump =>
    rw [AddrChannel.step] at hs
    by_cases hw : w.wrote = true
    · rw [if_pos hw] at hs
      cases hs
      exact h.bump hw
    · rw [if_neg hw] at hs
      cases hs
  | load max =>
    rw [AddrChannel.step] at hs
    by_cases hbusy : w.drain.isSome = true
    · rw [if_pos hbusy] at hs
      cases hs
    rw [if_neg hbusy] at hs
    by_cases hmax : max = 0
    · rw [if_pos hmax] at hs
      cases hs
      exact h
    · rw [if_neg hmax] at hs
      cases hs
      exact h.load (Option.not_isSome_iff_eq_none.1 hbusy) hok
  | copy =>
    obtain ⟨d, hd, hs⟩ := Option.bind_eq_some_iff.1 hs
    by_cases hmore : d.more = true
    · rw [if_pos hmore] at hs
      cases hs
      exact h.copy hd hmore
    · rw [if_neg hmore] at hs
      cases hs
  | finish =>
    obtain ⟨d, hd, hs⟩ := Option.bind_eq_some_iff.1 hs
    by_cases hmore : d.more = true
    · rw [if_pos hmore] at hs
      cases hs
    · rw [if_neg hmore] at hs
      cases hs
      exact h.finish hd

theorem Reach.inv (hr : Reach w) : Inv w := by
  induction hr with
  | init recs => exact inv_init recs
  | step a _ hok hs ih => exact ih.step hok hs

/-- Every interleaving whose steps meet the condition hands over an honest subsequence. -/
theorem addr_channel_honest (hr : Reach w) : Honest w :=
  hr.inv.honest

end Invariant

/-- A run of steps, if each can be taken -/
def runActs (w : World) (acts : List Act) : Option World :=
  acts.foldlM step w

theorem runActs_nil (w : World) : runActs w [] = some w := rfl

theorem runActs_cons {w w' : World} {a : Act} (h : step w a = some w') (acts : List Act) :
    runActs w (a :: acts) = runActs w' acts := by
  rw [runActs, List.foldlM_cons, h]
  rfl

theorem runActs_append {w w' : World} {acts : List Act} (h : runActs w acts = some w')
    (acts' : List Act) : runActs w (acts ++ acts') = runActs w' acts' := by
  rw [runActs] at h ⊢
  rw [List.foldlM_append, h]
  rfl

/-- A record is published, and a second one while the first is drained. -/
theorem addr_channel_honest_overlapping :
    let w₃ := ((World.init fun _ => ⟨0, 0, 0⟩).write ⟨0x1000, 64, 1⟩).bump.load 8
    let w₆ := ((w₃.write ⟨0x2000, 32, 1⟩).copy ⟨1, 0, 0, 8⟩).bump
    let w := w₆.finish ⟨1, 1, 1, 8⟩
    w.delivered = [(0, ⟨0x1000, 64, 1⟩)] ∧ Reach w ∧ Honest w := by
  intro w₃ w₆ w
  have hr₃ : Reach w₃ := by
    refine .step (.load 8) (.step .bump (.step (.write ⟨0x1000, 64, 1⟩) (.init _) ?_ rfl)
      trivial rfl) (.inr (.inl (by decide))) rfl
    intro d hd
    cases hd
  have hr₄ : Reach (w₃.write ⟨0x2000, 32, 1⟩) := by
    refine .step (.write ⟨0x2000, 32, 1⟩) hr₃ ?_ rfl
    intro d _ j _
    have hlen : w₃.log.length < addrChanCap := by decide
    omega
  have hcopy : step (w₃.write ⟨0x2000, 32, 1⟩) .copy =
      some ((w₃.write ⟨0x2000, 32, 1⟩).copy ⟨1, 0, 0, 8⟩) := by
    have hdrain : (w₃.write ⟨0x2000, 32, 1⟩).drain = some ⟨1, 0, 0, 8⟩ := by decide +kernel
    rw [step, hdrain]
    rfl
  have hr₆ : Reach w₆ := .step .bump (.step .copy hr₄ trivial hcopy) trivial rfl
  have hfinish : step w₆ .finish = some w := by
    have hdrain : w₆.drain = some ⟨1, 1, 1, 8⟩ := by decide +kernel
    rw [step, hdrain]
    rfl
  have hr : Reach w := .step .finish hr₆ trivial hfinish
  exact ⟨by decide +kernel, hr, addr_channel_honest hr⟩

/-- The producer publishes `n` records on its own. -/
def publishActs (n : ℕ) : List Act :=
  (List.range n).flatMap fun i => [.write ⟨i, 1, 0⟩, .bump]

theorem runActs_publish {n : ℕ} (hn : n < 2 ^ 32) :
    ∃ w, runActs (World.init fun _ => ⟨0, 0, 0⟩) (publishActs n) = some w ∧ w.wrote = false ∧
      w.drain = none ∧ w.chan.head = n ∧ w.chan.tail = 0 ∧ w.pos = 0 ∧ w.delivered = [] ∧
      w.log = (List.range n).map fun i => ⟨i, 1, 0⟩ := by
  induction n with
  | zero => exact ⟨_, rfl, rfl, rfl, rfl, rfl, rfl, rfl, rfl⟩
  | succ n ih =>
    obtain ⟨w, hw, h1, h2, h3, h4, h5, h6, h7⟩ := ih (Nat.lt_of_succ_lt hn)
    refine ⟨(w.write ⟨n, 1, 0⟩).bump, ?_, rfl, h2, ?_, h4, h5, h6, ?_⟩
    · have hwrite : step w (.write ⟨n, 1, 0⟩) = some (w.write ⟨n, 1, 0⟩) := by
        rw [step, h1]
        rfl
      rw [publishActs, List.range_succ, List.flatMap_append, List.flatMap_singleton]
      rw [publishActs] at hw
      rw [runActs_append hw, runActs_cons hwrite]
      rfl
    · change (w.chan.head + 1) % 2 ^ 32 = n + 1
      rw [h3, Nat.mod_eq_of_lt hn]
    · rw [List.range_succ, List.map_append, ← h7]
      rfl

/-- The ring is full, a drain has loaded the head, and the producer publishes one more: the drain
reads the newest record under the number of the oldest. -/
theorem full_ring_read_under_old_number :
    ∃ w, runActs (World.init fun _ => ⟨0, 0, 0⟩) (publishActs addrChanCap ++
        [.load addrChanCap, .write ⟨addrChanCap, 1, 0⟩, .copy]) = some w ∧ ¬Honest w := by
  obtain ⟨w, hw, h1, h2, h3, h4, h5, h6, h7⟩ := @runActs_publish addrChanCap (by decide)
  have hlap : w.lapped = false := by
    rw [World.lapped, h3, h4]
    decide +kernel
  have hload : step w (.load addrChanCap) = some (w.load addrChanCap) := by
    rw [step, h2, if_neg (by simp), if_neg (by decide)]
  have hwrite : step (w.load addrChanCap) (.write ⟨addrChanCap, 1, 0⟩) =
      some ((w.load addrChanCap).write ⟨addrChanCap, 1, 0⟩) := by
    rw [step]
    exact if_neg (by rw [World.load, h1]; simp)
  have hdrain : ((w.load addrChanCap).write ⟨addrChanCap, 1, 0⟩).drain =
      some ⟨addrChanCap, 0, 0, addrChanCap⟩ := by
    simp only [World.write, World.load, hlap, h3, h4]
    rfl
  have hcopy : step ((w.load addrChanCap).write ⟨addrChanCap, 1, 0⟩) .copy =
      some (((w.load addrChanCap).write ⟨addrChanCap, 1, 0⟩).copy
        ⟨addrChanCap, 0, 0, addrChanCap⟩) := by
    rw [step, hdrain, Option.bind_some]
    exact if_pos (by decide)
  have hrun : runActs (World.init fun _ => ⟨0, 0, 0⟩) (publishActs addrChanCap ++
      [.load addrChanCap, .write ⟨addrChanCap, 1, 0⟩, .copy]) =
        some (((w.load addrChanCap).write ⟨addrChanCap, 1, 0⟩).copy
          ⟨addrChanCap, 0, 0, addrChanCap⟩) := by
    rw [runActs_append hw, runActs_cons hload, runActs_cons hwrite, runActs_cons hcopy,
      runActs_nil]
  refine ⟨_, hrun, fun h => ?_⟩
  have hmem : (0, (⟨addrChanCap, 1, 0⟩ : AddrRec)) ∈
      (((w.load addrChanCap).write ⟨addrChanCap, 1, 0⟩).copy
        ⟨addrChanCap, 0, 0, addrChanCap⟩).delivered := by
    simp [World.copy, World.write, World.load, hlap, h3, h5, h6]
  have hgot := (h.genuine _ hmem).2
  have hlen : 0 < w.log.length := by
    rw [h7, List.length_map, List.length_range]
    decide
  simp only [World.copy, World.write, World.load] at hgot
  rw [List.getElem?_append_left hlen, h7, List.getElem?_map, List.getElem?_range (by decide)]
    at hgot
  exact absurd hgot (by decide)

end AsmTest.AddrChannel
