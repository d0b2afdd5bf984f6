import AsmTest.Lib.Circular
import Mathlib.Data.BitVec
import Mathlib.Logic.Relation

/-!
# Draining the AUX ring

The trace unit writes into a ring while `pt_attach_drain` copies what is new in it to an
accumulation buffer. Both positions count every byte since the start; the ring is indexed by them
modulo its size.
-/

namespace AsmTest.PtAttach

open Circular Relation

section Source

/-- `SIZE_MAX` -/
def sizeMax : ℕ := 2 ^ 64 - 1

/-- The loop of `asmtest_grow_pow2` -/
def growLoop (maxcap minSlots ncap : ℕ) (hpos : 0 < ncap) : Option ℕ :=
  if maxcap / 2 < ncap then none
  else if minSlots ≤ ncap * 2 then some (ncap * 2)
  else growLoop maxcap minSlots (ncap * 2) (by omega)
termination_by minSlots - ncap

def growPow2 (cap minSlots elem : ℕ) : Option ℕ :=
  growLoop (sizeMax / elem) minSlots (if cap = 0 then 1 else cap) (by split <;> omega)

/-- `asmtest_pt_aux_dewrap`; the length of the ring is `aux_sz`. -/
def dewrap (ring : List UInt8) (tail head : BitVec 64) : List UInt8 :=
  if ring.length = 0 ∨ head ≤ tail then []
  else
    let n := (head - tail).toNat
    let start := tail.toNat % ring.length
    let first := if n < ring.length - start then n else ring.length - start
    (ring.drop start).take first ++ if first < n then ring.take (n - first) else []

/-- The ring `pt_aux_open` maps: at least a page, and as long as a `size_t` can say -/
structure AuxRing where
  bytes : List UInt8
  pos : 0 < bytes.length
  lt : bytes.length < 2 ^ 64

/-- `acc[0 .. acc_len)` and the other fields of `asmtest_pt_attach_t` that a drain uses -/
structure Attach where
  acc : List UInt8
  accCap : ℕ
  auxTail : BitVec 64
  truncated : Bool
deriving DecidableEq

/-- `if (c) a->truncated = 1` -/
abbrev Attach.flag (a : Attach) (c : Prop) [Decidable c] : Attach :=
  { a with truncated := a.truncated || decide c }

/-- The growth of the accumulation buffer: `none` if the size cannot be represented, or if `realloc`
fails. -/
def reserve (alloc : Bool) (a : Attach) (need : ℕ) : Option Attach :=
  if a.accCap < need then
    match growPow2 (if a.accCap = 0 then 2048 else a.accCap) need 1 with
    | none => none
    | some ncap => if alloc then some { a with accCap := ncap } else none
  else some a

/-- `pt_attach_drain`, with the answers of `aux_data_ring_truncated` and of `realloc` -/
def ptAttachDrain (ring : List UInt8) (head : BitVec 64) (ringTruncated alloc : Bool)
    (a : Attach) : Attach :=
  let a := a.flag ringTruncated
  let tail := a.auxTail
  if head ≤ tail then a
  else
    let auxSz := BitVec.ofNat 64 ring.length
    let avail := head - tail
    -- fell behind: the newest `aux_sz` bytes are kept
    let a := a.flag (auxSz < avail)
    let tail := if auxSz < avail then head - auxSz else tail
    let avail := if auxSz < avail then auxSz else avail
    match reserve alloc a ((a.acc.length + avail.toNat) % 2 ^ 64) with
    -- the tail stays, and the next drain tries again
    | none => a.flag True
    | some a => { a with acc := a.acc ++ dewrap ring tail head, auxTail := head }

end Source

section System

/-- The ring with its producer, and the consumer. `produced` is every byte written so far. -/
structure State where
  ring : AuxRing
  produced : List UInt8
  auxHead : BitVec 64
  attach : Attach

def AuxRing.put (r : AuxRing) (pos : ℕ) (b : UInt8) : AuxRing where
  bytes := Circular.put r.bytes pos b
  pos := by rw [length_put]; exact r.pos
  lt := by rw [length_put]; exact r.lt

/-- After `asmtest_hwtrace_pt_attach_begin` -/
def attached (ring : AuxRing) : State := ⟨ring, [], 0, ⟨[], 0, 0, false⟩⟩

def State.append (s : State) (b : UInt8) : State where
  ring := s.ring.put s.auxHead.toNat b
  produced := s.produced ++ [b]
  auxHead := s.auxHead + 1
  attach := s.attach

def State.drain (s : State) (ringTruncated alloc : Bool) : State :=
  { s with attach := ptAttachDrain s.ring.bytes s.auxHead ringTruncated alloc s.attach }

/-- `aux_head` is a monotonic counter: it does not come round. -/
inductive Step : State → State → Prop
  | append (s : State) (b : UInt8) (mono : s.auxHead < s.auxHead + 1) : Step s (s.append b)
  | drain (s : State) (ringTruncated alloc : Bool) : Step s (s.drain ringTruncated alloc)

/-- The producer is more than a ring ahead of the drained tail. -/
def State.Lapped (s : State) : Prop :=
  s.attach.auxTail.toNat + s.ring.bytes.length < s.produced.length

end System

section Grow

variable {maxcap minSlots ncap n : ℕ}

lemma le_of_growLoop (hpos : 0 < ncap) (h : growLoop maxcap minSlots ncap hpos = some n) :
    minSlots ≤ n := by
  fun_induction growLoop maxcap minSlots ncap hpos with
  | case1 => cases h
  | case2 ncap hpos hmax hmin => exact hmin.trans (Option.some.inj h).le
  | case3 ncap hpos hmax hmin ih => exact ih h

/-- A request for at most half of what fits is met: the loop stops at the first double that covers
it, which does not pass `maxcap`. -/
lemma growLoop_ne_none (hpos : 0 < ncap) (hmin : minSlots ≤ maxcap / 2 + 1)
    (hcap : ncap ≤ maxcap / 2) : growLoop maxcap minSlots ncap hpos ≠ none := by
  fun_induction growLoop maxcap minSlots ncap hpos with
  | case1 ncap hpos hmax => exact absurd hcap (not_le.mpr hmax)
  | case2 => exact Option.some_ne_none _
  | case3 ncap hpos hmax hmore ih => exact ih (by omega)

variable {a a' : Attach} {alloc : Bool} {need : ℕ}

/-- A growth that succeeds makes room and changes the capacity only. -/
lemma reserve_some (h : reserve alloc a need = some a') :
    a' = { a with accCap := a'.accCap } ∧ need ≤ a'.accCap := by
  rw [reserve] at h
  split at h
  · split at h
    · cases h
    · next ncap hgrow =>
      split at h
      · cases h
        exact ⟨rfl, le_of_growLoop _ hgrow⟩
      · cases h
  · cases h
    exact ⟨rfl, by omega⟩

lemma reserve_ne_none (hneed : need ≤ 2 ^ 63) : reserve true a need ≠ none := by
  have hhalf : sizeMax / 1 / 2 = 2 ^ 63 - 1 := rfl
  rw [reserve]
  split
  · next hcap =>
    split
    · next hgrow =>
      refine absurd hgrow (growLoop_ne_none _ (by omega) ?_)
      split_ifs <;> omega
    · exact Option.some_ne_none _
  · exact Option.some_ne_none _

end Grow

section Drain

variable {s s' : State} {ringTruncated alloc : Bool}

/-- What holds between the steps -/
structure Ok (s : State) : Prop where
  shows : Shows s.ring.bytes s.produced
  head : s.auxHead.toNat = s.produced.length
  tail : s.attach.auxTail.toNat ≤ s.produced.length
  len : s.attach.acc.length ≤ s.attach.auxTail.toNat
  cap : s.attach.acc.length ≤ s.attach.accCap

/-- The first position a drain copies: the tail, or the oldest byte the ring still has -/
def State.oldest (s : State) : ℕ :=
  max s.attach.auxTail.toNat (s.produced.length - s.ring.bytes.length)

lemma dewrap_of_lt {ring : List UInt8} {tail head : BitVec 64} (hpos : 0 < ring.length)
    (hlt : tail < head) : dewrap ring tail head = unwrap ring tail.toNat (head - tail).toNat := by
  have hcopies : ¬(ring.length = 0 ∨ head ≤ tail) :=
    not_or.mpr ⟨hpos.ne', BitVec.not_le.mpr hlt⟩
  rw [dewrap, if_neg hcopies, unwrap]
  dsimp only
  rw [← min_def_lt]
  split
  · rfl
  · next hdone => rw [Nat.sub_eq_zero_of_le (not_lt.mp hdone), List.take_zero]

lemma dewrap_eq (h : Ok s) {tail : BitVec 64} (htail : tail.toNat < s.produced.length)
    (hroom : s.produced.length ≤ tail.toNat + s.ring.bytes.length) :
    dewrap s.ring.bytes tail s.auxHead = s.produced.drop tail.toNat := by
  have hlt : tail < s.auxHead := by rw [BitVec.lt_def, h.head]; exact htail
  have hsub : (s.auxHead - tail).toNat = s.produced.length - tail.toNat := by
    rw [BitVec.toNat_sub_of_le (BitVec.le_of_lt hlt), h.head]
  rw [dewrap_of_lt s.ring.pos hlt, hsub, h.shows.unwrap_eq htail.le hroom]

/-- The bytes of a drain that finds any: `avail` of them, from the oldest that the ring still has -/
lemma clamp_eq (h : Ok s) (hlt : s.attach.auxTail < s.auxHead) :
    (BitVec.ofNat 64 s.ring.bytes.length < s.auxHead - s.attach.auxTail ↔ s.Lapped) ∧
      (if BitVec.ofNat 64 s.ring.bytes.length < s.auxHead - s.attach.auxTail then
        s.auxHead - BitVec.ofNat 64 s.ring.bytes.length else s.attach.auxTail).toNat = s.oldest ∧
      (if BitVec.ofNat 64 s.ring.bytes.length < s.auxHead - s.attach.auxTail then
        BitVec.ofNat 64 s.ring.bytes.length else s.auxHead - s.attach.auxTail).toNat =
          s.produced.length - s.oldest := by
  have hsz : (BitVec.ofNat 64 s.ring.bytes.length).toNat = s.ring.bytes.length := by
    rw [BitVec.toNat_ofNat, Nat.mod_eq_of_lt s.ring.lt]
  have hsub : (s.auxHead - s.attach.auxTail).toNat =
      s.produced.length - s.attach.auxTail.toNat := by
    rw [BitVec.toNat_sub_of_le (BitVec.le_of_lt hlt), h.head]
  have htail := h.tail
  have hiff : BitVec.ofNat 64 s.ring.bytes.length < s.auxHead - s.attach.auxTail ↔ s.Lapped := by
    rw [BitVec.lt_def, hsz, hsub, State.Lapped]
    omega
  refine ⟨hiff, ?_⟩
  by_cases hlapped : BitVec.ofNat 64 s.ring.bytes.length < s.auxHead - s.attach.auxTail
  · rw [if_pos hlapped, if_pos hlapped]
    rw [hiff, State.Lapped] at hlapped
    have hle : BitVec.ofNat 64 s.ring.bytes.length ≤ s.auxHead := by
      rw [BitVec.le_def, hsz, h.head]
      omega
    rw [BitVec.toNat_sub_of_le hle, hsz, h.head, State.oldest]
    omega
  · rw [if_neg hlapped, if_neg hlapped, hsub, State.oldest]
    rw [hiff, State.Lapped] at hlapped
    omega

/-- A drain leaves the bytes and the tail as they are, or copies everything from the oldest byte
on; the flag is set when the ring has been lapped, and never cleared. -/
lemma drain_cases (h : Ok s) (ringTruncated alloc : Bool) :
    ∃ t, (s.attach.truncated = true → t = true) ∧ (s.Lapped → t = true) ∧
      ((s.drain ringTruncated alloc).attach = { s.attach with truncated := t } ∨
        ∃ cap, s.attach.acc.length + (s.produced.length - s.oldest) ≤ cap ∧
          (s.drain ringTruncated alloc).attach =
            ⟨s.attach.acc ++ s.produced.drop s.oldest, cap, s.auxHead, t⟩) := by
  have htail := h.tail
  generalize hdrain : (s.drain ringTruncated alloc).attach = a
  rw [State.drain] at hdrain
  dsimp only at hdrain
  rw [ptAttachDrain] at hdrain
  dsimp only [Attach.flag] at hdrain
  split at hdrain
  · next hle =>
    have hnot : ¬s.Lapped := by
      rw [BitVec.le_def, h.head] at hle
      rw [State.Lapped]
      omega
    exact ⟨_, fun ht => by rw [ht, Bool.true_or], fun hl => absurd hl hnot, .inl hdrain.symm⟩
  · next hle =>
    have hlt : s.attach.auxTail < s.auxHead := BitVec.not_le.mp hle
    obtain ⟨hlapped, hfrom, havail⟩ := clamp_eq h hlt
    split at hdrain
    · exact ⟨_, fun _ => Bool.or_true _, fun _ => Bool.or_true _, .inl hdrain.symm⟩
    · next a' hreserve =>
      obtain ⟨ha', hroom⟩ := reserve_some hreserve
      have hpos := s.ring.pos
      have hlen := h.len
      have hhead := s.auxHead.isLt
      have hold : s.oldest < s.produced.length := by
        rw [BitVec.lt_def, h.head] at hlt
        rw [State.oldest]
        omega
      have hsum : s.attach.acc.length + (s.produced.length - s.oldest) < 2 ^ 64 := by
        rw [h.head] at hhead
        rw [State.oldest]
        omega
      rw [havail, Nat.mod_eq_of_lt hsum] at hroom
      rw [dewrap_eq h (hfrom ▸ hold) (by rw [hfrom, State.oldest]; omega), hfrom, ha'] at hdrain
      refine ⟨_, fun ht => by rw [ht, Bool.true_or, Bool.true_or], fun hl => ?_,
        .inr ⟨a'.accCap, hroom, hdrain.symm⟩⟩
      rw [decide_eq_true (hlapped.mpr hl), Bool.or_true]

/-- A drain that keeps up with the producer and gets its memory catches up with it, and marks
nothing by itself. -/
lemma drain_of_room (h : Ok s) (hin : ¬s.Lapped) (hlen : s.produced.length ≤ 2 ^ 63)
    (ringTruncated : Bool) :
    (s.drain ringTruncated true).attach.auxTail = s.auxHead ∧
      (s.drain ringTruncated true).attach.truncated = (s.attach.truncated || ringTruncated) := by
  have htail := h.tail
  generalize hdrain : (s.drain ringTruncated true).attach = a
  rw [State.drain] at hdrain
  dsimp only at hdrain
  rw [ptAttachDrain] at hdrain
  dsimp only [Attach.flag] at hdrain
  split at hdrain
  · next hle =>
    rw [← hdrain]
    refine ⟨BitVec.eq_of_toNat_eq ?_, by rw [Bool.decide_eq_true]⟩
    rw [BitVec.le_def, h.head] at hle
    rw [h.head]
    exact htail.antisymm hle
  · next hle =>
    have hlt : s.attach.auxTail < s.auxHead := BitVec.not_le.mp hle
    obtain ⟨hlapped, -, havail⟩ := clamp_eq h hlt
    have haccLen := h.len
    have hneed : s.attach.acc.length + (s.produced.length - s.oldest) ≤ 2 ^ 63 := by
      rw [State.oldest]
      omega
    split at hdrain
    · next hreserve =>
      rw [havail, Nat.mod_eq_of_lt (by omega)] at hreserve
      exact absurd hreserve (reserve_ne_none hneed)
    · next a' hreserve =>
      rw [← hdrain, (reserve_some hreserve).1]
      refine ⟨rfl, ?_⟩
      dsimp only
      rw [decide_eq_false (mt hlapped.mp hin), Bool.or_false, Bool.decide_eq_true]

end Drain

section Runs

variable {s s' : State}

lemma Ok.attached (ring : AuxRing) : Ok (attached ring) where
  shows := Shows.nil
  head := rfl
  tail := le_rfl
  len := le_rfl
  cap := le_rfl

lemma Ok.append (h : Ok s) (b : UInt8) (mono : s.auxHead < s.auxHead + 1) : Ok (s.append b) where
  shows := by
    rw [State.append, AuxRing.put, h.head]
    exact h.shows.put s.ring.pos b
  head := by
    have hone : (1 : BitVec 64).toNat = 1 := rfl
    have hlt := s.auxHead.isLt
    rw [BitVec.lt_def, BitVec.toNat_add, hone] at mono
    rw [State.append, BitVec.toNat_add, hone, List.length_append, List.length_singleton, ← h.head]
    omega
  tail := by
    rw [State.append, List.length_append]
    exact h.tail.trans (Nat.le_add_right _ _)
  len := h.len
  cap := h.cap

lemma Ok.drain (h : Ok s) (ringTruncated alloc : Bool) : Ok (s.drain ringTruncated alloc) := by
  have htail := h.tail
  have hlen := h.len
  obtain ⟨t, -, -, hkeep | ⟨cap, hcap, hcopy⟩⟩ := drain_cases h ringTruncated alloc
  · exact ⟨h.shows, h.head, by rw [hkeep]; exact htail, by rw [hkeep]; exact hlen,
      by rw [hkeep]; exact h.cap⟩
  · refine ⟨h.shows, h.head, by rw [hcopy]; exact h.head.le, ?_, ?_⟩
    · rw [hcopy, List.length_append, List.length_drop, h.head, State.oldest]
      omega
    · rw [hcopy, List.length_append, List.length_drop]
      exact hcap

lemma Ok.step (h : Ok s) (hstep : Step s s') : Ok s' := by
  cases hstep with
  | append b mono => exact h.append b mono
  | drain ringTruncated alloc => exact h.drain ringTruncated alloc

lemma Ok.run (h : Ok s) (hrun : ReflTransGen Step s s') : Ok s' := by
  induction hrun with
  | refl => exact h
  | tail _ hstep ih => exact ih.step hstep

/-- The accumulated bytes are those produced up to the tail. -/
def Exact (s : State) : Prop := s.attach.acc = s.produced.take s.attach.auxTail.toNat

lemma Exact.step (hex : Exact s) (h : Ok s) (hin : ¬s.Lapped) (hstep : Step s s') : Exact s' := by
  cases hstep with
  | append b =>
    rw [Exact, State.append, List.take_append_of_le_length h.tail]
    exact hex
  | drain ringTruncated alloc =>
    obtain ⟨t, -, -, hkeep | ⟨cap, -, hcopy⟩⟩ := drain_cases h ringTruncated alloc
    · rw [Exact, hkeep]
      exact hex
    · have hold : s.oldest = s.attach.auxTail.toNat := by
        rw [State.Lapped] at hin
        rw [State.oldest]
        omega
      rw [Exact, hcopy, hex, hold, List.take_append_drop]
      exact (List.take_of_length_le h.head.ge).symm

/-- Lapped, and not yet found out, or marked -/
def Caught (s : State) : Prop := s.Lapped ∨ s.attach.truncated = true

lemma truncated_drain (h : Ok s) (hc : Caught s) (ringTruncated alloc : Bool) :
    (s.drain ringTruncated alloc).attach.truncated = true := by
  obtain ⟨t, hsticky, hlapped, hdrain⟩ := drain_cases h ringTruncated alloc
  have ht : t = true := hc.elim hlapped hsticky
  obtain hkeep | ⟨cap, -, hcopy⟩ := hdrain
  · rw [hkeep]
    exact ht
  · rw [hcopy]
    exact ht

lemma Caught.step (hc : Caught s) (h : Ok s) (hstep : Step s s') : Caught s' := by
  cases hstep with
  | append b =>
    refine hc.imp (fun hl => ?_) id
    rw [State.Lapped] at hl ⊢
    rw [State.append, AuxRing.put, length_put, List.length_append]
    exact hl.trans_le (Nat.le_add_right _ _)
  | drain ringTruncated alloc => exact .inr (truncated_drain h hc ringTruncated alloc)

lemma Caught.run (hc : Caught s) (h : Ok s) (hrun : ReflTransGen Step s s') : Caught s' := by
  induction hrun with
  | refl => exact hc
  | tail hrun hstep ih => exact ih.step (h.run hrun) hstep

lemma truncated_run (h : Ok s) (ht : s.attach.truncated = true) (hrun : ReflTransGen Step s s') :
    s'.attach.truncated = true := by
  induction hrun with
  | refl => exact ht
  | tail hrun hstep ih =>
    cases hstep with
    | append b => exact ih
    | drain ringTruncated alloc => exact truncated_drain (h.run hrun) (.inr ih) ringTruncated alloc

/-- The steps of a producer that is never more than a ring ahead -/
def KeptUp (s s' : State) : Prop := Step s s' ∧ ¬s'.Lapped

lemma exact_run (ring : AuxRing) (hrun : ReflTransGen KeptUp (attached ring) s) :
    Ok s ∧ ¬s.Lapped ∧ Exact s := by
  induction hrun with
  | refl => exact ⟨Ok.attached ring, Nat.not_lt_zero _, rfl⟩
  | tail _ hstep ih =>
    obtain ⟨h, hin, hex⟩ := ih
    exact ⟨h.step hstep.1, hstep.2, hex.step h hin hstep.1⟩

lemma Exact.drain_of_room (hex : Exact s) (h : Ok s) (hin : ¬s.Lapped)
    (hlen : s.produced.length ≤ 2 ^ 63) (ringTruncated : Bool) :
    (s.drain ringTruncated true).attach.acc = s.produced := by
  have hnext : Exact (s.drain ringTruncated true) := hex.step h hin (.drain s ringTruncated true)
  rw [Exact, (PtAttach.drain_of_room h hin hlen ringTruncated).1, h.head] at hnext
  exact hnext.trans (List.take_length)

/-- While the producer stays within a ring of the tail, the accumulator holds the produced bytes up
to the tail, and a drain whose `realloc` succeeds brings it to all of them. Once it has not, every
drain, the last one of `asmtest_hwtrace_pt_attach_end` included, leaves the capture marked
truncated. -/
theorem pt_attach_drain_exact (ring : AuxRing) :
    (∀ s, ReflTransGen KeptUp (attached ring) s →
      (s.attach.auxTail.toNat ≤ s.produced.length ∧
        s.attach.acc = s.produced.take s.attach.auxTail.toNat) ∧
      (s.produced.length ≤ 2 ^ 63 → ∀ ringTruncated,
        let after := (s.drain ringTruncated true).attach
        after.acc = s.produced ∧ after.auxTail.toNat = s.produced.length ∧
          after.truncated = (s.attach.truncated || ringTruncated))) ∧
      ∀ s, ReflTransGen Step (attached ring) s → s.Lapped →
        ∀ s', ReflTransGen Step s s' → ∀ ringTruncated alloc t,
          ReflTransGen Step (s'.drain ringTruncated alloc) t → t.attach.truncated = true := by
  refine ⟨fun s hrun => ?_, fun s hrun hlapped s' hrun' ringTruncated alloc t hafter => ?_⟩
  · obtain ⟨h, hin, hex⟩ := exact_run ring hrun
    refine ⟨⟨h.tail, hex⟩, fun hlen ringTruncated => ?_⟩
    obtain ⟨htail, htrunc⟩ := drain_of_room h hin hlen ringTruncated
    exact ⟨hex.drain_of_room h hin hlen ringTruncated, by rw [htail, h.head], htrunc⟩
  · have h : Ok s' := ((Ok.attached ring).run hrun).run hrun'
    have hc : Caught s' := Caught.run (.inl hlapped) ((Ok.attached ring).run hrun) hrun'
    exact truncated_run (h.drain ringTruncated alloc) (truncated_drain h hc ringTruncated alloc)
      hafter

/-- Bytes written while the ring has room for them -/
lemma run_appends (bs : List UInt8) (h : Ok s) (hlen : s.produced.length + bs.length < 2 ^ 64)
    (hroom : s.produced.length + bs.length ≤
      s.attach.auxTail.toNat + s.ring.bytes.length) :
    ReflTransGen KeptUp s (bs.foldl State.append s) := by
  induction bs generalizing s with
  | nil => exact .refl
  | cons b bs ih =>
    rw [List.length_cons] at hlen hroom
    have hproduced : (s.append b).produced.length = s.produced.length + 1 := List.length_append
    have hring : (s.append b).ring.bytes.length = s.ring.bytes.length := length_put ..
    have htail : (s.append b).attach.auxTail = s.attach.auxTail := rfl
    have mono : s.auxHead < s.auxHead + 1 := by
      have hone : (1 : BitVec 64).toNat = 1 := rfl
      rw [BitVec.lt_def, BitVec.toNat_add, hone, h.head]
      omega
    have hkept : KeptUp s (s.append b) := by
      refine ⟨.append s b mono, ?_⟩
      rw [State.Lapped, hproduced, hring, htail]
      omega
    refine .head hkept (ih (h.append b mono) ?_ ?_)
    · rw [hproduced]
      omega
    · rw [hproduced, hring, htail]
      omega

/-- In a ring of four bytes three are drained, then three more, the last two of which have come
round. A producer that writes five at once has overwritten one, and the drain marks it. -/
theorem pt_attach_drain_exact_wraps :
    let ring : AuxRing := ⟨[0, 0, 0, 0], by decide, by decide⟩
    let drained := ([1, 2, 3].foldl State.append (attached ring)).drain false true
    let again := (([4, 5, 6].foldl State.append drained).drain false true).attach
    (again.acc = [1, 2, 3, 4, 5, 6] ∧ again.auxTail.toNat = 6 ∧ again.truncated = false) ∧
      (([1, 2, 3, 4, 5].foldl State.append (attached ring)).drain false
        true).attach.truncated = true := by
  intro ring drained again
  have hfirst : ReflTransGen KeptUp (attached ring)
      ([1, 2, 3].foldl State.append (attached ring)) :=
    run_appends [1, 2, 3] (Ok.attached ring) (by decide) (by decide)
  obtain ⟨hacc, htail, htrunc⟩ := ((pt_attach_drain_exact ring).1 _ hfirst).2 (by decide) false
  have hdrained : ReflTransGen KeptUp (attached ring) drained := by
    refine hfirst.tail ⟨.drain _ false true, ?_⟩
    rw [State.Lapped, not_lt]
    exact htail.ge.trans (Nat.le_add_right _ _)
  have hroom : drained.produced.length + 3 ≤ drained.attach.auxTail.toNat + 4 :=
    Nat.add_le_add htail.ge (by decide)
  have hsecond := run_appends [4, 5, 6] (exact_run ring hdrained).1 (by decide) hroom
  obtain ⟨hacc', htail', htrunc'⟩ :=
    ((pt_attach_drain_exact ring).1 _ (hdrained.trans hsecond)).2 (by decide) false
  refine ⟨⟨hacc', htail', htrunc'.trans ?_⟩, ?_⟩
  · exact (Bool.or_false _).trans htrunc
  · have hfive : ReflTransGen Step (attached ring)
        ([1, 2, 3, 4, 5].foldl State.append (attached ring)) :=
      .head (.append _ 1 (by decide)) <| .head (.append _ 2 (by decide)) <|
        .head (.append _ 3 (by decide)) <| .head (.append _ 4 (by decide)) <|
          .head (.append _ 5 (by decide)) .refl
    exact (pt_attach_drain_exact ring).2 _ hfive (by rw [State.Lapped]; decide) _ .refl false true
      _ .refl

end Runs

end AsmTest.PtAttach
