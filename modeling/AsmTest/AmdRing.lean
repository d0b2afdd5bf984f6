import AsmTest.AmdStitch
import AsmTest.Lib.Endian
import AsmTest.Lib.Framing

/-!
# The branch samples of a perf ring

`asmtest_amd_ring_parse_decode` goes over the linearized data ring twice. The first pass counts the
samples, to allocate for them, and the second keeps the branch stacks for the stitcher and picks the
one with the most branches in the region. A buffer is far smaller than `SIZE_MAX`, so no sum of
positions wraps.
-/

namespace AsmTest.AmdRing

open Endian Framing Hwtrace Scan

section Source

/-- The bytes from `buf` on; those from `span` on are not the buffer's. -/
abbrev Memory := ℕ → UInt8

def word (mem : Memory) (pos n : ℕ) : ℕ := ofLe ((List.range n).map fun i => mem (pos + i))

/-- `n` bytes read at `pos` -/
structure Access where
  pos : ℕ
  n : ℕ
deriving DecidableEq

/-- `struct perf_event_header` -/
structure EventHeader where
  type : ℕ
  misc : ℕ
  size : ℕ
deriving DecidableEq

def sizeofHeader : ℕ := 8

def sizeofEntry : ℕ := 24

def headerAt (mem : Memory) (off : ℕ) : EventHeader :=
  ⟨word mem off 4, word mem (off + 4) 2, word mem (off + 6) 2⟩

def recordLost : ℕ := 2

def recordThrottle : ℕ := 5

def recordSample : ℕ := 9

/-- `struct perf_branch_entry`: two addresses, and a word of bit fields -/
def entryAt (mem : Memory) (pos : ℕ) : BranchEntry where
  fromAddr := word mem pos 8
  toAddr := word mem (pos + 8) 8
  abort := (word mem (pos + 16) 8).testBit 3
  spec := word mem (pos + 16) 8 / 2 ^ 24 % 4

/-- A pointer to the entries of a sample, and their number -/
structure Sample where
  pos : ℕ
  nr : ℕ
deriving DecidableEq

def Sample.entries (mem : Memory) (s : Sample) : List BranchEntry :=
  (List.range s.nr).map fun i => entryAt mem (s.pos + sizeofEntry * i)

/-- What the first pass has found -/
structure Count where
  nSamples : ℕ
  lost : Bool
  reads : List Access
deriving DecidableEq

def Count.readHeader (off : ℕ) (c : Count) : Count :=
  { c with reads := c.reads ++ [⟨off, sizeofHeader⟩] }

/-- A record of the first pass -/
def countRecord (mem : Memory) (off : ℕ) (c : Count) : Count :=
  let h := headerAt mem off
  if h.type = recordSample then { c with nSamples := c.nSamples + 1 }
  else if h.type = recordLost ∨ h.type = recordThrottle then { c with lost := true }
  else c

def pass1 (mem : Memory) (span fuel : ℕ) : Option Count :=
  (scan (step sizeofHeader span (fun off => (headerAt mem off).size) Count.readHeader
    (countRecord mem)) fuel (0, ⟨0, false, []⟩)).map Prod.snd

/-- What the second pass has kept; `si` is the length of `samples`. -/
structure Keep where
  samples : List Sample
  best : Option Sample
  bestInregion : ℕ
  reads : List Access
deriving DecidableEq

def Keep.readHeader (off : ℕ) (k : Keep) : Keep :=
  { k with reads := k.reads ++ [⟨off, sizeofHeader⟩] }

/-- `nr` of the sample at `off`, zero if the buffer ends before it -/
def nrAt (mem : Memory) (span off : ℕ) : ℕ :=
  if off + sizeofHeader + 8 ≤ span then word mem (off + sizeofHeader) 8 else 0

def nrRead (span off : ℕ) : List Access :=
  if off + sizeofHeader + 8 ≤ span then [⟨off + sizeofHeader, 8⟩] else []

/-- The bounds of the second pass on a sample with `nr` branches -/
def Fits (h : EventHeader) (nr : ℕ) : Prop :=
  0 < nr ∧ nr ≤ 64 ∧ sizeofHeader + 8 + nr * sizeofEntry ≤ h.size

instance (h : EventHeader) (nr : ℕ) : Decidable (Fits h nr) :=
  inferInstanceAs (Decidable (_ ∧ _ ∧ _))

def inregion (baseIp endIp : ℕ) (e : BranchEntry) : Bool :=
  (baseIp ≤ e.fromAddr ∧ e.fromAddr < endIp) ∨ (baseIp ≤ e.toAddr ∧ e.toAddr < endIp)

/-- `samples[si] = e`, and `si` moves on; `held` if both arrays could be allocated. -/
def Keep.retain (held : Bool) (e : Sample) (k : Keep) : Keep :=
  if held then { k with samples := k.samples ++ [e] } else k

/-- The richest window, the earliest of several -/
def Keep.weigh (e : Sample) (n : ℕ) (k : Keep) : Keep :=
  if k.best = none ∨ k.bestInregion < n then { k with best := some e, bestInregion := n } else k

/-- A record of the second pass -/
def keepRecord (mem : Memory) (span baseIp endIp : ℕ) (held : Bool) (off : ℕ) (k : Keep) : Keep :=
  let h := headerAt mem off
  if h.type = recordSample then
    let nr := nrAt mem span off
    let k := { k with reads := k.reads ++ nrRead span off }
    if Fits h nr then
      let e : Sample := ⟨off + sizeofHeader + 8, nr⟩
      let k : Keep := { k with reads := k.reads ++ [⟨e.pos, nr * sizeofEntry⟩] }
      (k.retain held e).weigh e ((e.entries mem).countP (inregion baseIp endIp))
    else k
  else k

def pass2 (mem : Memory) (span baseIp endIp : ℕ) (held : Bool) (fuel : ℕ) : Option Keep :=
  (scan (step sizeofHeader span (fun off => (headerAt mem off).size) Keep.readHeader
    (keepRecord mem span baseIp endIp held)) fuel (0, ⟨[], none, 0, []⟩)).map Prod.snd

/-- What the decoding that follows starts from -/
structure Parsed where
  counted : ℕ
  samples : List Sample
  best : Option Sample
  bestInregion : ℕ
  lost : Bool
  reads : List Access
deriving DecidableEq

/-- Less than one maximum-size sample of headroom is left. -/
def nearFull (span dsz depth : ℕ) : Bool :=
  0 < dsz ∧ dsz < span + (sizeofHeader + 8 + depth * sizeofEntry)

/-- The framing part of `asmtest_amd_ring_parse_decode`; `none` when a pass is out of fuel. `alloc`
is whether `malloc` gives both arrays, `depth` is `asmtest_amd_lbr_depth()`. -/
def ringParse (buf : Option Memory) (span dsz baseIp len depth : ℕ) (alloc : Bool) (fuel : ℕ) :
    Option Parsed :=
  match buf with
  | none => some ⟨0, [], none, 0, nearFull span dsz depth, []⟩
  | some mem =>
    if 0 < span then
      (pass1 mem span fuel).bind fun c =>
        let held := decide (0 < c.nSamples) && alloc
        (pass2 mem span baseIp ((baseIp + len) % 2 ^ 64) held fuel).map fun k =>
          ⟨c.nSamples, k.samples, k.best, k.bestInregion, c.lost || nearFull span dsz depth,
            c.reads ++ k.reads⟩
    else some ⟨0, [], none, 0, nearFull span dsz depth, []⟩

/-- The windows that `asmtest_amd_stitch` is given -/
def Parsed.windows (mem : Memory) (p : Parsed) : List (List BranchEntry) :=
  p.samples.map (Sample.entries mem)

end Source

section Spec

variable (mem : Memory)

/-- Where the records of the ring start -/
def records (span : ℕ) : List ℕ :=
  frames sizeofHeader span (fun off => (headerAt mem off).size) 0

def IsSample (off : ℕ) : Prop := (headerAt mem off).type = recordSample

instance : DecidablePred (IsSample mem) := fun _ => inferInstanceAs (Decidable (_ = _))

/-- The sample at `off`, as its first word says -/
def sampleAt (off : ℕ) : Sample := ⟨off + sizeofHeader + 8, word mem (off + sizeofHeader) 8⟩

/-- Between 1 and 64 branches, all inside the record -/
def WellFormed (off : ℕ) : Prop := Fits (headerAt mem off) (sampleAt mem off).nr

instance : DecidablePred (WellFormed mem) := fun _ => inferInstanceAs (Decidable (Fits _ _))

/-- The samples of the ring -/
def samples (span : ℕ) : List ℕ := (records mem span).filter (IsSample mem ·)

/-- Those that can be used -/
def wellFormed (span : ℕ) : List Sample :=
  ((samples mem span).filter (WellFormed mem ·)).map (sampleAt mem)

end Spec

section Passes

/-- The first pass over the records at the offsets of a list -/
def countAll (mem : Memory) (l : List ℕ) (c : Count) : Count :=
  l.foldl (fun c off => countRecord mem off (c.readHeader off)) c

/-- The second pass over them -/
def keepAll (mem : Memory) (span baseIp endIp : ℕ) (held : Bool) (l : List ℕ) (k : Keep) : Keep :=
  l.foldl (fun k off => keepRecord mem span baseIp endIp held off (k.readHeader off)) k

variable {mem : Memory} {span baseIp endIp off : ℕ} {held : Bool}

def InBuffer (span : ℕ) (reads : List Access) : Prop := ∀ r ∈ reads, r.pos + r.n ≤ span

lemma InBuffer.append {a b : List Access} (ha : InBuffer span a) (hb : InBuffer span b) :
    InBuffer span (a ++ b) := fun r hr => (List.mem_append.mp hr).elim (ha r) (hb r)

lemma inBuffer_header (h : off + sizeofHeader ≤ span) : InBuffer span [⟨off, sizeofHeader⟩] :=
  fun r hr => by
    rw [List.mem_singleton.mp hr]
    exact h

lemma inBuffer_nrRead : InBuffer span (nrRead span off) := by
  intro r hr
  rw [nrRead] at hr
  split at hr
  · next h =>
    rw [List.mem_singleton.mp hr]
    exact h
  · cases hr

lemma countRecord_reads (c : Count) : (countRecord mem off c).reads = c.reads := by
  rw [countRecord]
  split_ifs <;> rfl

/-- The guard before `nr` is read makes no difference to what fits. -/
lemma fits_nrAt_iff (h : off + (headerAt mem off).size ≤ span) :
    Fits (headerAt mem off) (nrAt mem span off) ↔ WellFormed mem off := by
  rw [WellFormed, sampleAt, nrAt]
  split
  · rfl
  · refine iff_of_false (fun hz => absurd hz.1 (lt_irrefl 0)) fun hw => ?_
    have := hw.2.2
    omega

lemma count_fold (l : List ℕ) (hl : ∀ off ∈ l, off + sizeofHeader ≤ span) (c : Count)
    (hc : InBuffer span c.reads) :
    (countAll mem l c).nSamples = c.nSamples + (l.filter (IsSample mem ·)).length ∧
      InBuffer span (countAll mem l c).reads := by
  induction l generalizing c with
  | nil => exact ⟨rfl, hc⟩
  | cons off l ih =>
    have hreads : InBuffer span (countRecord mem off (c.readHeader off)).reads := by
      rw [countRecord_reads]
      exact hc.append (inBuffer_header (hl off List.mem_cons_self))
    obtain ⟨hn, hin⟩ := ih (fun p hp => hl p (List.mem_cons_of_mem off hp)) _ hreads
    refine ⟨hn.trans ?_, hin⟩
    rw [countRecord]
    by_cases hs : (headerAt mem off).type = recordSample
    · have hfilter : (off :: l).filter (IsSample mem ·) = off :: l.filter (IsSample mem ·) :=
        List.filter_cons_of_pos (decide_eq_true hs)
      rw [if_pos hs, hfilter, List.length_cons]
      dsimp only [Count.readHeader]
      omega
    · have hfilter : (off :: l).filter (IsSample mem ·) = l.filter (IsSample mem ·) :=
        List.filter_cons_of_neg (by exact fun h => hs (of_decide_eq_true h))
      rw [if_neg hs, hfilter]
      split_ifs <;> rfl

/-- The sample that the second pass keeps of a record, if any -/
def kept (mem : Memory) (off : ℕ) : List Sample :=
  if IsSample mem off ∧ WellFormed mem off then [sampleAt mem off] else []

lemma sampleAt_eq (h : off + (headerAt mem off).size ≤ span) (hw : WellFormed mem off) :
    (⟨off + sizeofHeader + 8, nrAt mem span off⟩ : Sample) = sampleAt mem off := by
  have := hw.2.2
  rw [sampleAt, nrAt, if_pos (by omega)]

@[simp] lemma retain_samples (e : Sample) (k : Keep) :
    (k.retain held e).samples = k.samples ++ if held then [e] else [] := by
  cases held
  · exact (List.append_nil _).symm
  · rfl

@[simp] lemma retain_reads (e : Sample) (k : Keep) : (k.retain held e).reads = k.reads := by
  cases held <;> rfl

@[simp] lemma weigh_samples (e : Sample) (n : ℕ) (k : Keep) :
    (k.weigh e n).samples = k.samples := by
  rw [Keep.weigh]
  split_ifs <;> rfl

@[simp] lemma weigh_reads (e : Sample) (n : ℕ) (k : Keep) : (k.weigh e n).reads = k.reads := by
  rw [Keep.weigh]
  split_ifs <;> rfl

lemma keepRecord_samples (h : off + (headerAt mem off).size ≤ span) (k : Keep) :
    (keepRecord mem span baseIp endIp held off k).samples =
      k.samples ++ if held then kept mem off else [] := by
  rw [keepRecord]
  dsimp only
  by_cases hs : (headerAt mem off).type = recordSample
  · rw [if_pos hs]
    by_cases hw : WellFormed mem off
    · have hkept : kept mem off = [sampleAt mem off] := if_pos ⟨hs, hw⟩
      rw [if_pos ((fits_nrAt_iff h).mpr hw), weigh_samples, retain_samples, hkept,
        sampleAt_eq h hw]
    · have hkept : kept mem off = [] := if_neg fun hk => hw hk.2
      rw [if_neg (mt (fits_nrAt_iff h).mp hw), hkept, ite_self, List.append_nil]
  · have hkept : kept mem off = [] := if_neg fun hk => hs hk.1
    rw [if_neg hs, hkept, ite_self, List.append_nil]

lemma keepRecord_reads (h : off + (headerAt mem off).size ≤ span) (k : Keep)
    (hk : InBuffer span k.reads) :
    InBuffer span (keepRecord mem span baseIp endIp held off k).reads := by
  have hnr : InBuffer span (k.reads ++ nrRead span off) := hk.append inBuffer_nrRead
  rw [keepRecord]
  dsimp only
  split_ifs with hs hfits
  · rw [weigh_reads, retain_reads]
    refine hnr.append fun r hr => ?_
    have := hfits.2.2
    rw [List.mem_singleton.mp hr]
    dsimp only
    omega
  · exact hnr
  · exact hk

/-- The samples that are kept of a list of records -/
lemma flatMap_kept (l : List ℕ) :
    l.flatMap (kept mem) =
      ((l.filter (IsSample mem ·)).filter (WellFormed mem ·)).map (sampleAt mem) := by
  induction l with
  | nil => rfl
  | cons off l ih =>
    rw [List.flatMap_cons, ih, kept]
    by_cases hs : IsSample mem off
    · by_cases hw : WellFormed mem off
      · simp [hs, hw]
      · simp [hs, hw]
    · simp [hs]

lemma keep_fold (l : List ℕ)
    (hl : ∀ off ∈ l, Framed sizeofHeader span (fun off => (headerAt mem off).size) off) (k : Keep)
    (hk : InBuffer span k.reads) :
    (keepAll mem span baseIp endIp held l k).samples =
        k.samples ++ (if held then l.flatMap (kept mem) else []) ∧
      InBuffer span (keepAll mem span baseIp endIp held l k).reads := by
  induction l generalizing k with
  | nil =>
    rw [List.flatMap_nil, ite_self, List.append_nil]
    exact ⟨rfl, hk⟩
  | cons off l ih =>
    obtain ⟨hheader, -, hfits⟩ := hl off List.mem_cons_self
    obtain ⟨hrest, hin⟩ := ih (fun p hp => hl p (List.mem_cons_of_mem off hp)) _
      (keepRecord_reads hfits (k.readHeader off) (hk.append (inBuffer_header hheader)))
    refine ⟨hrest.trans ?_, hin⟩
    rw [keepRecord_samples hfits, List.append_assoc, List.flatMap_cons]
    cases held
    · rfl
    · rfl

lemma framed_of_mem_records (h : off ∈ records mem span) :
    Framed sizeofHeader span (fun off => (headerAt mem off).size) off := framed_of_mem h

/-- The first pass goes over the records, and may read one more header. -/
lemma pass1_eq (mem : Memory) (span : ℕ) :
    ∃ c, (∀ fuel, span < fuel → pass1 mem span fuel = some c) ∧
      (c = countAll mem (records mem span) ⟨0, false, []⟩ ∨
        ∃ stop, stop + sizeofHeader ≤ span ∧
          c = (countAll mem (records mem span) ⟨0, false, []⟩).readHeader stop) := by
  obtain ⟨stop, c, hrun, t, ht, hend⟩ := @exists_run Count sizeofHeader span
    (fun off => (headerAt mem off).size) Count.readHeader (countRecord mem) 0 ⟨0, false, []⟩
  replace ht : countAll mem (records mem span) ⟨0, false, []⟩ = t := ht
  rw [← ht] at hend
  exact ⟨c, fun fuel hfuel => by rw [pass1, hrun fuel hfuel]; rfl,
    hend.imp_right fun h => ⟨stop, h⟩⟩

/-- So does the second. -/
lemma pass2_eq (mem : Memory) (span baseIp endIp : ℕ) (held : Bool) :
    ∃ k, (∀ fuel, span < fuel → pass2 mem span baseIp endIp held fuel = some k) ∧
      (k = keepAll mem span baseIp endIp held (records mem span) ⟨[], none, 0, []⟩ ∨
        ∃ stop, stop + sizeofHeader ≤ span ∧
          k = (keepAll mem span baseIp endIp held (records mem span)
            ⟨[], none, 0, []⟩).readHeader stop) := by
  obtain ⟨stop, k, hrun, t, ht, hend⟩ := @exists_run Keep sizeofHeader span
    (fun off => (headerAt mem off).size) Keep.readHeader (keepRecord mem span baseIp endIp held) 0
    ⟨[], none, 0, []⟩
  replace ht : keepAll mem span baseIp endIp held (records mem span) ⟨[], none, 0, []⟩ = t := ht
  rw [← ht] at hend
  exact ⟨k, fun fuel hfuel => by rw [pass2, hrun fuel hfuel]; rfl,
    hend.imp_right fun h => ⟨stop, h⟩⟩

lemma exists_pass1 (mem : Memory) (span : ℕ) :
    ∃ c, (∀ fuel, span < fuel → pass1 mem span fuel = some c) ∧ InBuffer span c.reads ∧
      c.nSamples = (samples mem span).length := by
  obtain ⟨hn, hin⟩ := @count_fold mem span (records mem span)
    (fun off h => (framed_of_mem_records h).1) ⟨0, false, []⟩ nofun
  rw [Nat.zero_add] at hn
  obtain ⟨c, hc, rfl | ⟨stop, hstop, rfl⟩⟩ := pass1_eq mem span
  · exact ⟨_, hc, hin, hn⟩
  · exact ⟨_, hc, hin.append (inBuffer_header hstop), hn⟩

lemma exists_pass2 (mem : Memory) (span baseIp endIp : ℕ) (held : Bool) :
    ∃ k, (∀ fuel, span < fuel → pass2 mem span baseIp endIp held fuel = some k) ∧
      InBuffer span k.reads ∧ k.samples = if held then wellFormed mem span else [] := by
  obtain ⟨hs, hin⟩ := @keep_fold mem span baseIp endIp held (records mem span)
    (fun off h => framed_of_mem_records h) ⟨[], none, 0, []⟩ nofun
  rw [flatMap_kept, List.nil_append] at hs
  obtain ⟨k, hk, rfl | ⟨stop, hstop, rfl⟩⟩ := pass2_eq mem span baseIp endIp held
  · exact ⟨_, hk, hin, hs⟩
  · exact ⟨_, hk, hin.append (inBuffer_header hstop), hs⟩

lemma records_of_empty (h : ¬0 < span) : records mem span = [] := by
  have hframed : ¬Framed sizeofHeader span (fun off => (headerAt mem off).size) 0 := by
    rintro ⟨hheader, -⟩
    rw [sizeofHeader] at hheader
    omega
  rw [records, frames, dif_neg hframed]

/-- Both passes end and stay inside the buffer. The second keeps those of the samples that the first
has counted which are well formed, in order, or none if there is no memory for them. -/
theorem ring_parse_framing (mem : Memory) (span dsz baseIp len depth : ℕ) (alloc : Bool) :
    ∃ p, (∀ fuel, span < fuel →
        ringParse (some mem) span dsz baseIp len depth alloc fuel = some p) ∧
      (∀ r ∈ p.reads, r.pos + r.n ≤ span) ∧
      p.counted = (samples mem span).length ∧
      p.samples = (if alloc then wellFormed mem span else []) ∧ p.samples.length ≤ p.counted := by
  obtain ⟨c, hc, hcin, hn⟩ := exists_pass1 mem span
  obtain ⟨k, hk, hkin, hs⟩ := exists_pass2 mem span baseIp ((baseIp + len) % 2 ^ 64)
    (decide (0 < c.nSamples) && alloc)
  have hkept : k.samples = if alloc then wellFormed mem span else [] := by
    rw [hs]
    by_cases hpos : 0 < c.nSamples
    · rw [decide_eq_true hpos, Bool.true_and]
    · have hnone : samples mem span = [] := List.eq_nil_of_length_eq_zero (by omega)
      rw [wellFormed, hnone, List.filter_nil, List.map_nil, ite_self, ite_self]
  have hle : k.samples.length ≤ c.nSamples := by
    rw [hkept, hn]
    split
    · rw [wellFormed, List.length_map]
      exact List.length_filter_le _ _
    · exact Nat.zero_le _
  by_cases hspan : 0 < span
  · refine ⟨⟨c.nSamples, k.samples, k.best, k.bestInregion, c.lost || nearFull span dsz depth,
      c.reads ++ k.reads⟩, fun fuel hfuel => ?_, hcin.append hkin, hn, hkept, hle⟩
    rw [ringParse]
    dsimp only
    rw [if_pos hspan, hc fuel hfuel, Option.bind_some, hk fuel hfuel, Option.map_some]
  · have hnone : samples mem span = [] := by
      rw [samples, records_of_empty hspan, List.filter_nil]
    refine ⟨⟨0, [], none, 0, nearFull span dsz depth, []⟩, fun fuel hfuel => ?_, nofun, ?_, ?_,
      le_rfl⟩
    · rw [ringParse]
      dsimp only
      rw [if_neg hspan]
    · rw [hnone, List.length_nil]
    · rw [wellFormed, hnone, List.filter_nil, List.map_nil, ite_self]

/-- A ring of one sample without branches -/
def emptySample : Memory := fun i => [9, 0, 0, 0, 0, 0, 16, 0].getD i 0

/-- It is counted, and not kept. -/
theorem ring_parse_counts_malformed :
    ∃ p, ringParse (some emptySample) 16 0 0 0 16 true 17 = some p ∧ p.counted = 1 ∧
      p.samples = [] :=
  ⟨⟨1, [], none, 0, false, [⟨0, 8⟩, ⟨0, 8⟩, ⟨8, 8⟩]⟩, by decide⟩

end Passes

end AsmTest.AmdRing
