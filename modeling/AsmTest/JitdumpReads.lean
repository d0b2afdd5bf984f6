import AsmTest.Jitdump

/-!
# What the jitdump readers read

For any bytes: both scans end, the debug reader stays in the record it is in, and the code
reader does unless it meets a `LOAD` too short for its body.
-/

namespace AsmTest.Jitdump

open Endian Scan

variable {f : Bytes} {swap : Bool} {name : CStr} {cap : ℕ}

/-! ## Fields of a record -/

def idAt (f : Bytes) (swap : Bool) (p : ℕ) : ℕ := rd 4 swap (f.drop p)
def totalAt (f : Bytes) (swap : Bool) (p : ℕ) : ℕ := rd 4 swap (f.drop (p + 4))
def tsAt (f : Bytes) (swap : Bool) (p : ℕ) : ℕ := rd 8 swap (f.drop (p + 8))
def codeSizeAt (f : Bytes) (swap : Bool) (p : ℕ) : ℕ := rd 8 swap (f.drop (p + 40))

def nameLenAt (f : Bytes) (swap : Bool) (p : ℕ) : ℕ :=
  totalAt f swap p - 56 - codeSizeAt f swap p

theorem length_fread (p n : ℕ) : (fread f p n).length = min n (f.length - p) := by
  simp [fread]

theorem length_fread_ne {p n : ℕ} (h : 0 < n) :
    (fread f p n).length ≠ n ↔ f.length < p + n := by
  rw [length_fread]
  omega

/-- A word inside a block that was read is that word of the file. -/
theorem rd_drop_fread {p m k n : ℕ} (h : k + n ≤ m) :
    rd n swap ((fread f p m).drop k) = rd n swap (f.drop (p + k)) := by
  have htake : ((fread f p m).drop k).take n = (f.drop (p + k)).take n := by
    rw [fread, List.drop_take, List.drop_drop, List.take_take, min_eq_left (by omega)]
  unfold rd
  rw [htake]

theorem rd_fread {p m n : ℕ} (h : n ≤ m) :
    rd n swap (fread f p m) = rd n swap (f.drop p) := by
  simpa using @rd_drop_fread f swap p _ 0 _ (by omega)

theorem rd_id (p : ℕ) : rd 4 swap (fread f p 16) = idAt f swap p := rd_fread (by omega)

theorem rd_total (p : ℕ) : rd 4 swap ((fread f p 16).drop 4) = totalAt f swap p :=
  rd_drop_fread (by omega)

theorem rd_codeSize (p : ℕ) : rd 8 swap ((fread f (p + 16) 40).drop 24) = codeSizeAt f swap p :=
  rd_drop_fread (by omega)

/-! ## The code reader -/

/-- The record at `p` is a `LOAD` that declares less than a prefix and a body, with more
bytes behind it. -/
def ShortLoad (f : Bytes) (swap : Bool) (p : ℕ) : Prop :=
  p + 16 ≤ f.length ∧ idAt f swap p = jitCodeLoad ∧ 16 ≤ totalAt f swap p ∧
    totalAt f swap p < 56 ∧ p + totalAt f swap p < f.length

/-- The sizes a `LOAD` declares leave room for a name. -/
def LoadFits (f : Bytes) (swap : Bool) (p : ℕ) : Prop :=
  idAt f swap p = jitCodeLoad → 56 + codeSizeAt f swap p < totalAt f swap p

/-- The state after a round, also the last. -/
def after {σ : Type} (r : σ ⊕ σ) : σ := Sum.elim id id r

theorem access_inRecord_iff {p total lo n : ℕ} (h : p ≤ lo) :
    (access f p total lo n).InRecord ↔ min (lo + n) f.length ≤ p + max 16 total := by
  simp [access, Access.InRecord, h]

theorem copyCode_reads {p total pos : ℕ} {e : Entry} (s : FindState)
    (h : pos + e.codeSize ≤ p + total) (hp : p ≤ pos) :
    ∃ extra, (after (copyCode f cap p total pos e s)).reads = s.reads ++ extra ∧
      ∀ a ∈ extra, a.InRecord := by
  unfold copyCode
  dsimp only
  split_ifs with hc hlt hgot hgot
  · refine ⟨[access f p total pos e.codeSize], rfl, ?_⟩
    simp only [List.mem_singleton, forall_eq, access_inRecord_iff hp]
    omega
  · refine ⟨[access f p total pos e.codeSize], rfl, ?_⟩
    simp only [List.mem_singleton, forall_eq, access_inRecord_iff hp]
    omega
  · refine ⟨[access f p total pos cap], rfl, ?_⟩
    simp only [List.mem_singleton, forall_eq, access_inRecord_iff hp]
    omega
  · refine ⟨[access f p total pos cap], rfl, ?_⟩
    simp only [List.mem_singleton, forall_eq, access_inRecord_iff hp]
    omega
  · exact ⟨[], by simp [after], by simp⟩

/-- The body of a `LOAD` is read within the record unless the record is too short for it and
there are bytes behind it. -/
theorem findLoad_reads {p total ts : ℕ} (s : FindState) (h16 : 16 ≤ total) :
    ∃ extra, (after (findLoad f swap name cap p total ts s)).reads = s.reads ++ extra ∧
      ((∀ a ∈ extra, a.InRecord) ↔ ¬ (total < 56 ∧ p + total < f.length)) := by
  have hbody : (access f p total (p + 16) 40).InRecord ↔
      ¬ (total < 56 ∧ p + total < f.length) := by
    rw [access_inRecord_iff (by omega)]
    omega
  unfold findLoad
  dsimp only
  generalize hcs : rd 8 swap ((fread f (p + 16) 40).drop 24) = codeSize
  split_ifs with hfx hlt hzero hnm hname
  · exact ⟨[access f p total (p + 16) 40], rfl, by simpa using hbody⟩
  · exact ⟨[access f p total (p + 16) 40], rfl, by simpa using hbody⟩
  · exact ⟨[access f p total (p + 16) 40], rfl, by simpa using hbody⟩
  all_goals
    have hnameIn : (access f p total (p + 56) (total - 56 - codeSize)).InRecord := by
      rw [access_inRecord_iff (by omega)]
      omega
  · refine ⟨[access f p total (p + 16) 40, access f p total (p + 56) (total - 56 - codeSize)],
      by simp [after, FindState.log], ?_⟩
    simpa [hnameIn] using hbody
  · obtain ⟨extra, hreads, hin⟩ := @copyCode_reads f cap p total
      (p + 56 + (total - 56 - codeSize))
      ⟨rd 8 swap ((fread f (p + 16) 40).drop 16), codeSize, ts,
        rd 8 swap ((fread f (p + 16) 40).drop 32)⟩
      ((s.log (access f p total (p + 16) 40)).log
        (access f p total (p + 56) (total - 56 - codeSize)))
      (by dsimp only; omega) (by omega)
    refine ⟨[access f p total (p + 16) 40, access f p total (p + 56) (total - 56 - codeSize)] ++
      extra, ?_, ?_⟩
    · rw [hreads]
      simp [FindState.log]
    · rw [List.forall_mem_append, ← hbody]
      simpa [hnameIn] using fun _ => hin
  · refine ⟨[access f p total (p + 16) 40, access f p total (p + 56) (total - 56 - codeSize)],
      by simp [after, FindState.log], ?_⟩
    simpa [hnameIn] using hbody

theorem findStep_reads (s : FindState) :
    ∃ extra, (after (findStep f swap name cap s)).reads = s.reads ++ extra ∧
      ((∀ a ∈ extra, a.InRecord) ↔ ¬ ShortLoad f swap s.pos) := by
  have hpre : ∀ total, (access f s.pos total s.pos 16).InRecord := by
    intro total
    rw [access_inRecord_iff le_rfl]
    omega
  have hlen := length_fread_ne (f := f) (p := s.pos) (show 0 < 16 by omega)
  unfold findStep
  dsimp only
  rw [rd_id, rd_total]
  split_ifs with hl ht hid
  · refine ⟨[access f s.pos 0 s.pos 16], rfl, ?_⟩
    have hno : ¬ ShortLoad f swap s.pos := fun h => by have := h.1; have := hlen.mp hl; omega
    simp [hpre, hno]
  · refine ⟨[access f s.pos (totalAt f swap s.pos) s.pos 16], rfl, ?_⟩
    have hno : ¬ ShortLoad f swap s.pos := fun h => by
      have := h.2.2.1
      omega
    simp [hpre, hno]
  · refine ⟨[access f s.pos (totalAt f swap s.pos) s.pos 16], rfl, ?_⟩
    have hno : ¬ ShortLoad f swap s.pos := fun h => hid h.2.1
    simp [hpre, hno]
  · obtain ⟨extra, hreads, hin⟩ := @findLoad_reads f swap name cap s.pos
      (totalAt f swap s.pos) (rd 8 swap ((fread f s.pos 16).drop 8))
      (s.log (access f s.pos (totalAt f swap s.pos) s.pos 16)) (by omega)
    refine ⟨[access f s.pos (totalAt f swap s.pos) s.pos 16] ++ extra, ?_, ?_⟩
    · rw [hreads]
      simp [FindState.log]
    · rw [List.forall_mem_append, hin]
      have hfull : s.pos + 16 ≤ f.length := by
        by_contra hc
        exact hl (hlen.mpr (by omega))
      have hload : idAt f swap s.pos = jitCodeLoad := not_not.mp hid
      have h16 : 16 ≤ totalAt f swap s.pos := by omega
      simp [ShortLoad, hpre, hfull, hload, h16]

/-! ### Where a round goes on -/

theorem copyCode_next {p total pos : ℕ} {e : Entry} {s s' : FindState}
    (h : copyCode f cap p total pos e s = .inl s') : s'.pos = pos + e.codeSize := by
  unfold copyCode at h
  dsimp only at h
  split_ifs at h <;> cases h <;> rfl

theorem copyCode_go {p total pos : ℕ} {e : Entry} (s : FindState)
    (h : pos + e.codeSize ≤ f.length) : ∃ s', copyCode f cap p total pos e s = .inl s' := by
  unfold copyCode
  dsimp only
  split_ifs with hc hlt hgot hgot
  · rw [length_fread] at hgot
    omega
  · exact ⟨_, rfl⟩
  · rw [length_fread] at hgot
    omega
  · exact ⟨_, rfl⟩
  · exact ⟨_, rfl⟩

theorem findLoad_next {p total ts : ℕ} {s s' : FindState}
    (h : findLoad f swap name cap p total ts s = .inl s') :
    56 + codeSizeAt f swap p < total ∧ s'.pos = p + total := by
  unfold findLoad at h
  dsimp only at h
  rw [rd_codeSize] at h
  split_ifs at h with hfx hlt hzero hnm hname
  · have := copyCode_next h
    dsimp only at this
    omega
  · cases h
    dsimp only
    omega

theorem findLoad_go {p total ts : ℕ} (s : FindState) (h : p + total ≤ f.length)
    (hfit : 56 + codeSizeAt f swap p < total) :
    ∃ s', findLoad f swap name cap p total ts s = .inl s' := by
  unfold findLoad
  dsimp only
  rw [rd_codeSize]
  split_ifs with hfx hlt hzero hnm hname
  · rw [length_fread] at hfx
    omega
  · omega
  · omega
  · rw [length_fread] at hnm
    omega
  · exact copyCode_go _ (by dsimp only; omega)
  · exact ⟨_, rfl⟩

theorem findStep_next {s s' : FindState} (h : findStep f swap name cap s = .inl s') :
    s.pos + 16 ≤ f.length ∧ 16 ≤ totalAt f swap s.pos ∧ LoadFits f swap s.pos ∧
      s'.pos = s.pos + totalAt f swap s.pos := by
  have hlen := length_fread_ne (f := f) (p := s.pos) (show 0 < 16 by omega)
  unfold findStep at h
  dsimp only at h
  rw [rd_id, rd_total] at h
  split_ifs at h with hl ht hid
  · have hfull : ¬ f.length < s.pos + 16 := fun hc => hl (hlen.mpr hc)
    cases h
    exact ⟨by omega, by omega, fun hc => absurd hc hid, by dsimp only; omega⟩
  · have hfull : ¬ f.length < s.pos + 16 := fun hc => hl (hlen.mpr hc)
    obtain ⟨hfit, hpos⟩ := findLoad_next h
    exact ⟨by omega, by omega, fun _ => hfit, hpos⟩

theorem findStep_go (s : FindState) (h : s.pos + totalAt f swap s.pos ≤ f.length)
    (h16 : 16 ≤ totalAt f swap s.pos) (hfit : LoadFits f swap s.pos) :
    ∃ s', findStep f swap name cap s = .inl s' := by
  have hlen := length_fread_ne (f := f) (p := s.pos) (show 0 < 16 by omega)
  unfold findStep
  dsimp only
  rw [rd_id, rd_total]
  split_ifs with hl ht hid
  · have := hlen.mp hl
    omega
  · omega
  · exact ⟨_, rfl⟩
  · exact findLoad_go _ h (hfit (not_not.mp hid))

/-! ### Whole scans -/

/-- The records the scan gets to: each one before is complete, and a `LOAD` among them has
room for its name. -/
inductive Reached (f : Bytes) (swap : Bool) (headerSize : ℕ) : ℕ → Prop
  | first : Reached f swap headerSize headerSize
  | next {p : ℕ} : Reached f swap headerSize p → p + totalAt f swap p ≤ f.length →
      16 ≤ totalAt f swap p → LoadFits f swap p →
      Reached f swap headerSize (p + totalAt f swap p)

theorem find_rounds {headerSize p : ℕ} (h : Reached f swap headerSize p) :
    ∃ s, Rounds (findStep f swap name cap) { pos := headerSize } s ∧ s.pos = p := by
  induction h with
  | first => exact ⟨_, Relation.ReflTransGen.refl, rfl⟩
  | next _ hin h16 hfit ih =>
    obtain ⟨s, hr, rfl⟩ := ih
    obtain ⟨s', hs'⟩ := @findStep_go _ _ name cap s hin h16 hfit
    exact ⟨s', hr.tail hs', (findStep_next hs').2.2.2⟩

/-- Reads only accumulate. -/
theorem find_reads_grow {n : ℕ} {s r : FindState}
    (h : scan (findStep f swap name cap) n s = some r) : ∀ a ∈ s.reads, a ∈ r.reads := by
  intro a ha
  refine scan_inv (P := fun s => a ∈ s.reads) (Q := fun s => a ∈ s.reads) ?_ ?_ ha h
  · intro s s' hs hb
    obtain ⟨extra, he, -⟩ := @findStep_reads f swap name cap s
    rw [hb] at he
    simp only [after, Sum.elim_inl, id] at he
    simp [he, hs]
  · intro s s' hs hb
    obtain ⟨extra, he, -⟩ := @findStep_reads f swap name cap s
    rw [hb] at he
    simp only [after, Sum.elim_inr, id] at he
    simp [he, hs]

theorem find_ends (headerSize : ℕ) :
    ∃ r, scan (findStep f swap name cap) (f.length + 1) { pos := headerSize } = some r := by
  refine exists_scan (fun s => f.length - s.pos) ?_ (by dsimp only; omega)
  intro s s' h
  have := findStep_next h
  omega

/-- Every read of the code reader is in its record exactly when no reached `LOAD` is short. -/
theorem find_inRecord_iff {n headerSize : ℕ} {r : FindState}
    (h : scan (findStep f swap name cap) n { pos := headerSize } = some r) :
    (∀ a ∈ r.reads, a.InRecord) ↔ ∀ p, Reached f swap headerSize p → ¬ ShortLoad f swap p := by
  constructor
  · intro hin p hp hshort
    obtain ⟨s, hr, rfl⟩ := @find_rounds _ _ name cap _ _ hp
    obtain ⟨m, -, hm⟩ := scan_of_rounds hr h
    obtain ⟨extra, he, hiff⟩ :=
      @findStep_reads f swap name cap s
    apply hiff.mp _ hshort
    intro a ha
    have hafter : a ∈ (after (findStep f swap name cap s)).reads := by simp [he, ha]
    apply hin
    cases m with
    | zero => cases hm
    | succ m =>
      cases hb : findStep f swap name cap s with
      | inl s' =>
        rw [scan_go hb] at hm
        rw [hb] at hafter
        exact find_reads_grow hm a hafter
      | inr r' =>
        rw [scan_stop hb] at hm
        rw [hb] at hafter
        obtain rfl : r' = r := Option.some.inj hm
        exact hafter
  · intro hno
    -- a round that goes on reaches the next record, or leaves the file
    let P : FindState → Prop := fun s =>
      (Reached f swap headerSize s.pos ∨ f.length < s.pos) ∧ ∀ a ∈ s.reads, a.InRecord
    have hshort : ∀ s, P s → ¬ ShortLoad f swap s.pos := by
      rintro s ⟨hr | hlt, -⟩ hs
      · exact hno s.pos hr hs
      · have := hs.1
        omega
    refine scan_inv (P := P) (Q := fun r => ∀ a ∈ r.reads, a.InRecord) ?_ ?_
      ⟨.inl .first, by simp⟩ h
    · intro s s' hs hb
      obtain ⟨extra, he, hiff⟩ :=
        @findStep_reads f swap name cap s
      obtain ⟨hfull, h16, hfit, hpos⟩ := findStep_next hb
      rw [hb] at he
      simp only [after, Sum.elim_inl, id] at he
      refine ⟨?_, ?_⟩
      · rw [hpos]
        by_cases hin : s.pos + totalAt f swap s.pos ≤ f.length
        · rcases hs.1 with hr | hlt
          · exact .inl (.next hr hin h16 hfit)
          · omega
        · exact .inr (by omega)
      · rw [he, List.forall_mem_append]
        exact ⟨hs.2, hiff.mpr (hshort s hs)⟩
    · intro s r hs hb
      obtain ⟨extra, he, hiff⟩ :=
        @findStep_reads f swap name cap s
      rw [hb] at he
      simp only [after, Sum.elim_inr, id] at he
      rw [he, List.forall_mem_append]
      exact ⟨hs.2, hiff.mpr (hshort s hs)⟩

/-! ## The debug reader -/

/-- The entry loop stays in the body, whatever count of entries the record declares. -/
theorem readEntries_seen {body : Bytes} (k pos : ℕ) (raw : List DbgRaw) (seen : List (ℕ × ℕ))
    (h : ∀ p ∈ seen, p.2 ≤ body.length) :
    ∀ p ∈ (readEntries body swap k pos raw seen).2, p.2 ≤ body.length := by
  induction k generalizing pos raw seen with
  | zero => exact h
  | succ k ih =>
    unfold readEntries
    dsimp only
    split_ifs with h1 h2
    · exact h
    · simp only [List.forall_mem_append, List.forall_mem_singleton]
      exact ⟨⟨h, by omega⟩, le_rfl⟩
    · apply ih
      simp only [List.forall_mem_append, List.forall_mem_singleton]
      exact ⟨⟨h, by omega⟩, by omega⟩

theorem log_inRecord {s : DbgState} {b : Access} (h : ∀ a ∈ s.reads, a.InRecord)
    (hb : b.InRecord) : ∀ a ∈ (s.log b).reads, a.InRecord := by
  intro a ha
  rcases List.mem_append.mp ha with ha | ha
  · exact h a ha
  · rw [List.mem_singleton.mp ha]
    exact hb

theorem debugInfo_reads {p total : ℕ} (s : DbgState) (h16 : 16 ≤ total)
    (h : ∀ a ∈ s.reads, a.InRecord) :
    ∀ a ∈ (after (debugInfo f swap p total s)).reads, a.InRecord := by
  have hbody : (access f p total (p + 16) (total - 16)).InRecord := by
    rw [access_inRecord_iff (by omega)]
    omega
  have hin : ∀ q : ℕ × ℕ, q.2 ≤ total - 16 → (bodyAccess p total q).InRecord := by
    intro q hq
    simp only [bodyAccess, Access.InRecord]
    omega
  unfold debugInfo
  dsimp only
  split_ifs with hl h2
  · exact log_inRecord h hbody
  · exact log_inRecord h hbody
  · generalize hr : readEntries (fread f (p + 16) (total - 16)) swap
      (rd 8 swap ((fread f (p + 16) (total - 16)).drop 8)) 16 [] [(0, 16)] = r
    have hseen : ∀ q ∈ r.2, q.2 ≤ total - 16 := by
      intro q hq
      have := @readEntries_seen swap (fread f (p + 16) (total - 16))
        (rd 8 swap ((fread f (p + 16) (total - 16)).drop 8)) 16 [] [(0, 16)]
        (by simp only [List.forall_mem_singleton]; omega) q (hr ▸ hq)
      omega
    have hall : ∀ a ∈ (s.log (access f p total (p + 16) (total - 16))).reads ++
        r.2.map (bodyAccess p total), a.InRecord := by
      intro a ha
      rcases List.mem_append.mp ha with ha | ha
      · exact log_inRecord h hbody a ha
      · obtain ⟨q, hq, rfl⟩ := List.mem_map.mp ha
        exact hin q (hseen q hq)
    cases r.1 with
    | none => exact hall
    | some raw => exact hall

theorem debugLoad_reads {p total ts : ℕ} (s : DbgState) (h : ∀ a ∈ s.reads, a.InRecord) :
    ∀ a ∈ (after (debugLoad f swap name p total ts s)).reads, a.InRecord := by
  unfold debugLoad
  dsimp only
  rw [rd_codeSize]
  split_ifs with h40 hfx hlt hzero hnm hname
  · exact h
  all_goals
    have hbody : (access f p total (p + 16) 40).InRecord := by
      rw [access_inRecord_iff (by omega)]
      omega
  · exact log_inRecord h hbody
  · exact log_inRecord h hbody
  · exact log_inRecord h hbody
  all_goals
    have hnameIn :
        (access f p total (p + 56) (total - 16 - 40 - codeSizeAt f swap p)).InRecord := by
      rw [access_inRecord_iff (by omega)]
      omega
  · exact log_inRecord (log_inRecord h hbody) hnameIn
  · exact log_inRecord (log_inRecord h hbody) hnameIn
  · exact log_inRecord (log_inRecord h hbody) hnameIn

theorem debugStep_reads (s : DbgState) (h : ∀ a ∈ s.reads, a.InRecord) :
    ∀ a ∈ (after (debugStep f swap name s)).reads, a.InRecord := by
  have hlog : ∀ total, ∀ a ∈ (s.log (access f s.pos total s.pos 16)).reads, a.InRecord := by
    intro total
    have : (access f s.pos total s.pos 16).InRecord := by
      rw [access_inRecord_iff le_rfl]
      omega
    exact log_inRecord h this
  unfold debugStep
  dsimp only
  rw [rd_id, rd_total]
  split_ifs with hl ht hdbg hload
  · exact hlog 0
  · exact hlog _
  · exact debugInfo_reads _ (by omega) (hlog _)
  · exact hlog _
  · exact debugLoad_reads _ (hlog _)

theorem debugStep_next {s s' : DbgState} (h : debugStep f swap name s = .inl s') :
    s.pos + 16 ≤ f.length ∧ s.pos + 16 ≤ s'.pos := by
  have hlen := length_fread_ne (f := f) (p := s.pos) (show 0 < 16 by omega)
  unfold debugStep at h
  dsimp only at h
  rw [rd_id, rd_total] at h
  split_ifs at h with hl ht hdbg hload
  all_goals have hfull : ¬ f.length < s.pos + 16 := fun hc => hl (hlen.mpr hc)
  · unfold debugInfo at h
    dsimp only at h
    split_ifs at h
    split at h
    · cases h
    · cases h
      dsimp only
      omega
  · cases h
    dsimp only
    omega
  · unfold debugLoad at h
    dsimp only at h
    split_ifs at h <;> cases h <;> dsimp only [adopt] <;> omega

theorem debug_ends (headerSize : ℕ) :
    ∃ r, scan (debugStep f swap name) (f.length + 1) { pos := headerSize } = some r := by
  refine exists_scan (fun s => f.length - s.pos) ?_ (by dsimp only; omega)
  intro s s' h
  have := debugStep_next h
  omega

theorem debug_inRecord {n headerSize : ℕ} {r : DbgState}
    (h : scan (debugStep f swap name) n { pos := headerSize } = some r) :
    ∀ a ∈ r.reads, a.InRecord := by
  refine scan_inv (P := fun s => ∀ a ∈ s.reads, a.InRecord)
    (Q := fun s => ∀ a ∈ s.reads, a.InRecord) ?_ ?_ (by simp) h
  · intro s s' hs hb
    have := @debugStep_reads f swap name s hs
    rwa [hb] at this
  · intro s r hs hb
    have := @debugStep_reads f swap name s hs
    rwa [hb] at this

end AsmTest.Jitdump
