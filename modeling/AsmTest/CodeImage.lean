import Mathlib.Data.List.TakeWhile
import Mathlib.Tactic
import Mathlib.Data.List.Basic
import Mathlib.Data.List.GetD

/-!
# The code-image timeline

The target is a memory with one soft-dirty bit per page. Its memory stays mapped, but every step
of a call that needs an allocation or a file of `/proc` may fail. Addresses are user addresses, far
below the end of the address space.
-/

namespace AsmTest.CodeImage

/-- The traced process: a page's bit is set when the page was written since the last clear. -/
structure Target where
  mem : ℕ → UInt8
  dirty : ℕ → Bool

/-- `ci_version_t` -/
structure Version where
  seq : ℕ
  bytes : List UInt8
  deriving DecidableEq, Repr

/-- `ci_region_t` -/
structure Region where
  base : ℕ
  len : ℕ
  firstPage : ℕ
  npages : ℕ
  vers : List Version
  deriving DecidableEq, Repr

/-- `struct asmtest_codeimage` -/
structure Image where
  pageSize : ℕ
  page_pos : 0 < pageSize
  seq : ℕ
  regions : List Region

/-- `asmtest_codeimage_new`, given what `sysconf` says about the page size. -/
def codeimageNew (sysconf : ℤ) : Image :=
  if h : sysconf ≤ 0 then ⟨4096, by decide, 0, []⟩ else ⟨sysconf.toNat, by omega, 0, []⟩

inductive Status
  | einval
  | eunavail
  | enoent
  deriving DecidableEq, Repr

/-- Which of the fallible steps of a call succeed: the probe, growing the region array, and by
region the dirty buffer, the page map's entry of each of its pages, the snapshot's buffer and the
version array; last the write to `clear_refs`. -/
structure Faults where
  avail : Bool
  growRegions : Bool
  dirtyBuf : ℕ → Bool
  pagemap : ℕ → ℕ → Bool
  readBuf : ℕ → Bool
  growVers : ℕ → Bool
  arm : Bool

/-- The soft-dirty bit of the region's page `k` -/
def Region.pageDirty (pageSize : ℕ) (tgt : Target) (r : Region) (k : ℕ) : Bool :=
  tgt.dirty ((r.firstPage + k * pageSize) / pageSize)

/-- `ci_region_dirty`: a page whose entry cannot be read counts as clean. -/
def regionDirty (f : Faults) (pageSize : ℕ) (tgt : Target) (i : ℕ) (r : Region) : Bool :=
  (List.range r.npages).any fun k => f.pagemap i k && r.pageDirty pageSize tgt k

/-- The bytes at `[base, base + len)` -/
def Target.read (tgt : Target) (base len : ℕ) : List UInt8 :=
  (List.range len).map fun i => tgt.mem (base + i)

/-- `ci_read_region` for the region with index `i` -/
def readRegion (f : Faults) (tgt : Target) (i base len : ℕ) : Option (List UInt8) :=
  if f.readBuf i then some (tgt.read base len) else none

/-- `ci_region_add_version` once there is room. -/
def addVersion (r : Region) (seq : ℕ) (bytes : List UInt8) : Region :=
  { r with vers := r.vers ++ [⟨seq, bytes⟩] }

/-- `ci_scan_range` over the regions from index `i` on: the regions, the sequence and the
number of new versions, or a failure with what was done before it. -/
def scanRange (f : Faults) (pageSize : ℕ) (tgt : Target) :
    ℕ → List Region → ℕ → List Region × ℕ × Except Status ℕ
  | _, [], seq => ([], seq, .ok 0)
  | i, r :: rs, seq =>
    if 64 < r.npages ∧ f.dirtyBuf i = false then (r :: rs, seq, .error .eunavail)
    else if regionDirty f pageSize tgt i r = false then
      let res := scanRange f pageSize tgt (i + 1) rs seq
      (r :: res.1, res.2)
    else
      match readRegion f tgt i r.base r.len with
      | none =>
        -- taken for a region that has vanished: its versions stay as they are
        let res := scanRange f pageSize tgt (i + 1) rs seq
        (r :: res.1, res.2)
      | some bytes =>
        if f.growVers i = false then (r :: rs, seq, .error .eunavail)
        else
          let res := scanRange f pageSize tgt (i + 1) rs (seq + 1)
          (addVersion r (seq + 1) bytes :: res.1, res.2.1, res.2.2.map (· + 1))

/-- The recorder and its target. -/
structure System where
  img : Image
  tgt : Target

/-- `ci_arm` at the end of a call that would return `n`. -/
def arm (f : Faults) (n : ℕ) (s : System) : Except Status ℕ × System :=
  if f.arm then (.ok n, { s with tgt := { s.tgt with dirty := fun _ => false } })
  else (.error .eunavail, s)

/-- The region `ci_track_locked` sets up, with its first version. -/
def newRegion (img : Image) (base len : ℕ) (bytes : List UInt8) : Region :=
  let first := base / img.pageSize * img.pageSize
  let last := (base + len - 1) / img.pageSize * img.pageSize
  ⟨base, len, first, (last - first) / img.pageSize + 1, [⟨img.seq + 1, bytes⟩]⟩

/-- The end of `ci_track_locked` and `ci_refresh_locked`: a scan of all regions, then `ci_arm`. The
regions of `new` are not scanned. -/
def scanThenArm (f : Faults) (seq : ℕ) (new : List Region) (result : ℕ → ℕ) (s : System) :
    Except Status ℕ × System :=
  let scan := scanRange f s.img.pageSize s.tgt 0 s.img.regions seq
  let s' : System := ⟨{ s.img with seq := scan.2.1, regions := scan.1 ++ new }, s.tgt⟩
  match scan.2.2 with
  | .error e => (.error e, s')
  | .ok n => arm f (result n) s'

/-- `ci_track_locked`; the new region's index is the number of regions so far. -/
def trackLocked (f : Faults) (base len : ℕ) (s : System) : Except Status ℕ × System :=
  if f.growRegions = false then (.error .eunavail, s)
  else
    match readRegion f s.tgt s.img.regions.length base len with
    | none => (.error .eunavail, s)
    | some bytes =>
      if f.growVers s.img.regions.length = false then (.error .eunavail, s)
      else scanThenArm f (s.img.seq + 1) [newRegion s.img base len bytes] (fun _ => 0) s

def codeimageTrack (f : Faults) (base len : ℕ) (s : System) : Except Status ℕ × System :=
  if base = 0 ∨ len = 0 then (.error .einval, s)
  else if f.avail = false then (.error .eunavail, s)
  else trackLocked f base len s

/-- `ci_refresh_locked` -/
def codeimageRefresh (f : Faults) (s : System) : Except Status ℕ × System :=
  if s.img.regions = [] then (.ok 0, s) else scanThenArm f s.img.seq [] id s

def codeimageNow (img : Image) : ℕ := img.seq

/-- The latest version not after `upTo`; 0 asks for the newest. -/
def pickVersion (vers : List Version) (upTo : ℕ) : Option Version :=
  (vers.takeWhile fun v => upTo = 0 ∨ v.seq ≤ upTo).getLast?

def Region.holds (addr : ℕ) (r : Region) : Bool := ¬ (addr < r.base ∨ r.base + r.len ≤ addr)

/-- The bytes from `addr` to the end of the first region that holds it. -/
def codeimageBytesAt (img : Image) (addr upTo : ℕ) : Except Status (List UInt8) :=
  if addr = 0 then .error .einval
  else
    match img.regions.find? (Region.holds addr) with
    | none => .error .enoent
    | some r =>
      match pickVersion r.vers upTo with
      | none => .error .enoent
      | some v => .ok (v.bytes.drop (addr - r.base))

/-- A write of the target marks the pages it touches. -/
def targetWrite (pageSize addr : ℕ) (bytes : List UInt8) (tgt : Target) : Target where
  mem a := if addr ≤ a then bytes.getD (a - addr) (tgt.mem a) else tgt.mem a
  dirty p := tgt.dirty p || (List.range bytes.length).any fun i => (addr + i) / pageSize = p

/-- One step of a run. -/
inductive Op
  | write (addr : ℕ) (bytes : List UInt8)
  | track (f : Faults) (base len : ℕ)
  | refresh (f : Faults)

/-- The next state, with the result of a library call. -/
def step (s : System) : Op → Option (Except Status ℕ) × System
  | .write addr bytes => (none, { s with tgt := targetWrite s.img.pageSize addr bytes s.tgt })
  | .track f base len => ((codeimageTrack f base len s).map some id)
  | .refresh f => ((codeimageRefresh f s).map some id)

def run (s : System) (ops : List Op) : System := ops.foldl (fun s op => (step s op).2) s

/-! ## What a region knows -/

/-- The newest version is the memory as it is now. -/
def Fresh (tgt : Target) (r : Region) : Prop :=
  ∃ v, r.vers.getLast? = some v ∧ v.bytes = tgt.read r.base r.len

/-- The pages are those of the range, the versions have been issued, and the newest one
differs from the memory only on dirty pages. -/
structure RegionOk (pageSize seq : ℕ) (tgt : Target) (r : Region) : Prop where
  base_pos : 0 < r.base
  len_pos : 0 < r.len
  firstPage : r.firstPage = r.base / pageSize * pageSize
  npages : r.npages =
    ((r.base + r.len - 1) / pageSize * pageSize - r.base / pageSize * pageSize) / pageSize + 1
  issued : ∀ v ∈ r.vers, 0 < v.seq ∧ v.seq ≤ seq
  latest : ∃ v, r.vers.getLast? = some v ∧ v.bytes.length = r.len ∧ ∀ i < r.len,
    tgt.dirty ((r.base + i) / pageSize) = false → v.bytes[i]? = some (tgt.mem (r.base + i))

variable {f : Faults} {pageSize seq : ℕ} {tgt : Target} {r : Region}

lemma RegionOk.mono (h : RegionOk pageSize seq tgt r) {seq' : ℕ} (hle : seq ≤ seq') :
    RegionOk pageSize seq' tgt r :=
  { h with issued := fun v hv => ⟨(h.issued v hv).1, (h.issued v hv).2.trans hle⟩ }

@[simp] lemma length_read (base len : ℕ) : (tgt.read base len).length = len := by
  rw [Target.read, List.length_map, List.length_range]

lemma getElem?_read {base len i : ℕ} (hi : i < len) :
    (tgt.read base len)[i]? = some (tgt.mem (base + i)) := by
  rw [Target.read, List.getElem?_map, List.getElem?_range hi]
  rfl

lemma readRegion_some {i base len : ℕ} {bytes : List UInt8}
    (h : readRegion f tgt i base len = some bytes) : bytes = tgt.read base len := by
  rw [readRegion] at h
  split_ifs at h
  exact (Option.some.inj h).symm

/-- The pages of a region are those of its bytes. -/
lemma dirty_eq_false_of_clean (hp : 0 < pageSize) (h : RegionOk pageSize seq tgt r)
    (hc : ∀ k < r.npages, r.pageDirty pageSize tgt k = false) {i : ℕ} (hi : i < r.len) :
    tgt.dirty ((r.base + i) / pageSize) = false := by
  have hlo : r.base / pageSize ≤ (r.base + i) / pageSize := Nat.div_le_div_right (by omega)
  have hhi : (r.base + i) / pageSize ≤ (r.base + r.len - 1) / pageSize :=
    Nat.div_le_div_right (by omega)
  have hn : r.npages = (r.base + r.len - 1) / pageSize - r.base / pageSize + 1 := by
    rw [h.npages, ← Nat.sub_mul, Nat.mul_div_cancel _ hp]
  have hpage := hc ((r.base + i) / pageSize - r.base / pageSize) (by omega)
  rwa [Region.pageDirty, h.firstPage, ← Nat.add_mul, Nat.mul_div_cancel _ hp,
    Nat.add_sub_cancel' hlo] at hpage

lemma fresh_of_clean (hp : 0 < pageSize) (h : RegionOk pageSize seq tgt r)
    (hc : ∀ k < r.npages, r.pageDirty pageSize tgt k = false) : Fresh tgt r := by
  obtain ⟨v, hlast, hlen, hbytes⟩ := h.latest
  refine ⟨v, hlast, List.ext_getElem? fun i => ?_⟩
  by_cases hi : i < r.len
  · rw [hbytes i hi (dirty_eq_false_of_clean hp h hc hi), getElem?_read hi]
  · rw [List.getElem?_eq_none (by omega), List.getElem?_eq_none (by rw [length_read]; omega)]

/-- A region whose newest version is fresh is in order whatever the bits say. -/
lemma RegionOk.of_fresh (h : RegionOk pageSize seq tgt r) (hf : Fresh tgt r) (dirty : ℕ → Bool) :
    RegionOk pageSize seq { tgt with dirty := dirty } r := by
  obtain ⟨v, hlast, hbytes⟩ := hf
  refine { h with latest := ⟨v, hlast, by rw [hbytes, length_read], fun i hi _ => ?_⟩ }
  rw [hbytes, getElem?_read hi]

/-! ## A scan -/

/-- The scan of the region does not fail the call. -/
def Faults.Passes (f : Faults) (pageSize : ℕ) (tgt : Target) (i : ℕ) (r : Region) : Prop :=
  (64 < r.npages → f.dirtyBuf i = true) ∧
    (regionDirty f pageSize tgt i r = true → f.readBuf i = true → f.growVers i = true)

/-- If a page of the region is dirty, the scan reads the entry of one that is, and gets the
region's bytes. -/
def Faults.Catches (f : Faults) (pageSize : ℕ) (tgt : Target) (i : ℕ) (r : Region) : Prop :=
  (∃ k < r.npages, r.pageDirty pageSize tgt k = true) →
    regionDirty f pageSize tgt i r = true ∧ f.readBuf i = true

instance (i : ℕ) : Decidable (f.Catches pageSize tgt i r) :=
  inferInstanceAs (Decidable (_ → _))

lemma error_ne_ok (e : Status) : ¬∃ n, (Except.error e : Except Status ℕ) = .ok n := by
  rintro ⟨n, h⟩
  cases h

/-- A scan succeeds when it gets past every region. -/
lemma scanRange_ok_iff (f : Faults) (i : ℕ) (rs : List Region) (seq : ℕ) :
    (∃ n, (scanRange f pageSize tgt i rs seq).2.2 = .ok n) ↔
      ∀ x ∈ rs.zipIdx i, f.Passes pageSize tgt x.2 x.1 := by
  fun_induction scanRange f pageSize tgt i rs seq with
  | case1 => simp
  | case2 i r rs seq hbuf =>
    refine iff_of_false (error_ne_ok _) fun h => ?_
    have hpass := (List.forall_mem_cons.mp h).1.1 hbuf.1
    rw [hbuf.2] at hpass
    cases hpass
  | case3 i r rs seq hbuf hclean res ih =>
    have hpass : f.Passes pageSize tgt i r :=
      ⟨fun h => Bool.eq_true_of_not_eq_false fun hd => hbuf ⟨h, hd⟩,
        fun hd => absurd (hclean.symm.trans hd) Bool.false_ne_true⟩
    rw [List.zipIdx_cons, List.forall_mem_cons, and_iff_right hpass]
    exact ih
  | case4 i r rs seq hbuf hdirty hread res ih =>
    have hpass : f.Passes pageSize tgt i r := by
      refine ⟨fun h => Bool.eq_true_of_not_eq_false fun hd => hbuf ⟨h, hd⟩, fun _ hr => ?_⟩
      rw [readRegion, if_pos hr] at hread
      cases hread
    rw [List.zipIdx_cons, List.forall_mem_cons, and_iff_right hpass]
    exact ih
  | case5 i r rs seq hbuf hdirty bytes hread hgrow =>
    refine iff_of_false (error_ne_ok _) fun h => ?_
    have hpass := (List.forall_mem_cons.mp h).1.2 (Bool.eq_true_of_not_eq_false hdirty)
    rw [readRegion] at hread
    split_ifs at hread with hr
    exact absurd (hgrow.symm.trans (hpass hr)) Bool.false_ne_true
  | case6 i r rs seq hbuf hdirty bytes hread hgrow res ih =>
    have hpass : f.Passes pageSize tgt i r :=
      ⟨fun h => Bool.eq_true_of_not_eq_false fun hd => hbuf ⟨h, hd⟩,
        fun _ _ => Bool.eq_true_of_not_eq_false hgrow⟩
    rw [List.zipIdx_cons, List.forall_mem_cons, and_iff_right hpass]
    refine Iff.trans ?_ ih
    cases res.2.2 with
    | ok n => exact iff_of_true ⟨n + 1, rfl⟩ ⟨n, rfl⟩
    | error e => exact iff_of_false (error_ne_ok e) (error_ne_ok e)

/-- `r'` is `r` with versions added after `seq`. -/
structure Grown (seq : ℕ) (r r' : Region) : Prop where
  base : r'.base = r.base
  len : r'.len = r.len
  vers : ∃ extra, r'.vers = r.vers ++ extra ∧ ∀ v ∈ extra, seq < v.seq

lemma Grown.refl (seq : ℕ) (r : Region) : Grown seq r r := ⟨rfl, rfl, [], by simp, by simp⟩

lemma Grown.of_le {r' : Region} {seq' : ℕ} (h : Grown seq' r r') (hle : seq ≤ seq') :
    Grown seq r r' := by
  obtain ⟨extra, happend, hnew⟩ := h.vers
  exact ⟨h.base, h.len, extra, happend, fun v hv => hle.trans_lt (hnew v hv)⟩

lemma grown_addVersion (seq : ℕ) (r : Region) (bytes : List UInt8) :
    Grown seq r (addVersion r (seq + 1) bytes) :=
  ⟨rfl, rfl, [⟨seq + 1, bytes⟩], rfl, by simp⟩

lemma forall₂_grown_refl (seq : ℕ) (rs : List Region) : List.Forall₂ (Grown seq) rs rs :=
  List.forall₂_same.mpr fun r _ => Grown.refl seq r

/-- A scan only adds versions with new numbers. -/
lemma scanRange_grown (f : Faults) (i : ℕ) (rs : List Region) (seq : ℕ) :
    seq ≤ (scanRange f pageSize tgt i rs seq).2.1 ∧
      List.Forall₂ (Grown seq) rs (scanRange f pageSize tgt i rs seq).1 := by
  fun_induction scanRange f pageSize tgt i rs seq with
  | case1 => exact ⟨le_rfl, .nil⟩
  | case2 => exact ⟨le_rfl, forall₂_grown_refl _ _⟩
  | case3 i r rs seq hbuf hclean res ih => exact ⟨ih.1, .cons (Grown.refl seq r) ih.2⟩
  | case4 i r rs seq hbuf hdirty hread res ih => exact ⟨ih.1, .cons (Grown.refl seq r) ih.2⟩
  | case5 => exact ⟨le_rfl, forall₂_grown_refl _ _⟩
  | case6 i r rs seq hbuf hdirty bytes hread hgrow res ih =>
    exact ⟨(Nat.le_succ seq).trans ih.1,
      .cons (grown_addVersion seq r bytes)
        (ih.2.imp fun _ _ hgrown => hgrown.of_le (Nat.le_succ seq))⟩

lemma addVersion_ok (h : RegionOk pageSize seq tgt r) :
    RegionOk pageSize (seq + 1) tgt (addVersion r (seq + 1) (tgt.read r.base r.len)) ∧
      Fresh tgt (addVersion r (seq + 1) (tgt.read r.base r.len)) := by
  have hlast : (addVersion r (seq + 1) (tgt.read r.base r.len)).vers.getLast? =
      some ⟨seq + 1, tgt.read r.base r.len⟩ := by simp [addVersion]
  refine ⟨⟨h.base_pos, h.len_pos, h.firstPage, h.npages, fun v hv => ?_, ⟨_, hlast, ?_, ?_⟩⟩,
    ⟨_, hlast, rfl⟩⟩
  · obtain hv | hv := List.mem_append.mp hv
    · exact ⟨(h.issued v hv).1, (h.issued v hv).2.trans (Nat.le_succ seq)⟩
    · rw [List.mem_singleton.mp hv]
      exact ⟨Nat.succ_pos seq, le_rfl⟩
  · exact length_read ..
  · exact fun i hi _ => getElem?_read hi

lemma scanRange_ok (f : Faults) (i : ℕ) (rs : List Region) (seq : ℕ)
    (h : ∀ r ∈ rs, RegionOk pageSize seq tgt r) :
    ∀ r ∈ (scanRange f pageSize tgt i rs seq).1,
      RegionOk pageSize (scanRange f pageSize tgt i rs seq).2.1 tgt r := by
  fun_induction scanRange f pageSize tgt i rs seq with
  | case1 => exact h
  | case2 => exact h
  | case3 i r rs seq hbuf hclean res ih =>
    obtain ⟨hr, hrs⟩ := List.forall_mem_cons.mp h
    exact List.forall_mem_cons.mpr ⟨hr.mono (scanRange_grown f (i + 1) rs seq).1, ih hrs⟩
  | case4 i r rs seq hbuf hdirty hread res ih =>
    obtain ⟨hr, hrs⟩ := List.forall_mem_cons.mp h
    exact List.forall_mem_cons.mpr ⟨hr.mono (scanRange_grown f (i + 1) rs seq).1, ih hrs⟩
  | case5 => exact h
  | case6 i r rs seq hbuf hdirty bytes hread hgrow res ih =>
    obtain ⟨hr, hrs⟩ := List.forall_mem_cons.mp h
    rw [readRegion_some hread]
    exact List.forall_mem_cons.mpr ⟨(addVersion_ok hr).1.mono
      (scanRange_grown f (i + 1) rs (seq + 1)).1, ih fun r hr => (hrs r hr).mono (Nat.le_succ seq)⟩

/-- A region the scan passes over is fresh if no page of it is dirty. -/
lemma fresh_of_passed {i : ℕ} (hp : 0 < pageSize) (h : RegionOk pageSize seq tgt r)
    (hcatch : f.Catches pageSize tgt i r)
    (hpassed : ¬(regionDirty f pageSize tgt i r = true ∧ f.readBuf i = true)) : Fresh tgt r := by
  refine fresh_of_clean hp h fun k hk => Bool.eq_false_of_not_eq_true fun hdirty => ?_
  exact hpassed (hcatch ⟨k, hk, hdirty⟩)

/-- After a scan that succeeds and misses no region, every region is fresh. -/
lemma scanRange_fresh (f : Faults) (hp : 0 < pageSize) (i : ℕ) (rs : List Region) (seq : ℕ)
    (h : ∀ r ∈ rs, RegionOk pageSize seq tgt r)
    (hcatch : ∀ x ∈ rs.zipIdx i, f.Catches pageSize tgt x.2 x.1)
    (hok : ∃ n, (scanRange f pageSize tgt i rs seq).2.2 = .ok n) :
    ∀ r ∈ (scanRange f pageSize tgt i rs seq).1, Fresh tgt r := by
  -- a region is passed over, and then clean, or read, and then its newest version is the memory
  fun_induction scanRange f pageSize tgt i rs seq with
  | case1 => exact List.forall_mem_nil _
  | case2 => exact absurd hok (error_ne_ok _)
  | case3 i r rs seq hbuf hclean res ih =>
    obtain ⟨hr, hrs⟩ := List.forall_mem_cons.mp h
    obtain ⟨hc, hcs⟩ := List.forall_mem_cons.mp hcatch
    have hpassed : ¬(regionDirty f pageSize tgt i r = true ∧ f.readBuf i = true) :=
      fun hd => absurd (hclean.symm.trans hd.1) Bool.false_ne_true
    exact List.forall_mem_cons.mpr ⟨fresh_of_passed hp hr hc hpassed, ih hrs hcs hok⟩
  | case4 i r rs seq hbuf hdirty hread res ih =>
    obtain ⟨hr, hrs⟩ := List.forall_mem_cons.mp h
    obtain ⟨hc, hcs⟩ := List.forall_mem_cons.mp hcatch
    have hpassed : ¬(regionDirty f pageSize tgt i r = true ∧ f.readBuf i = true) := by
      intro hd
      rw [readRegion, if_pos hd.2] at hread
      cases hread
    exact List.forall_mem_cons.mpr ⟨fresh_of_passed hp hr hc hpassed, ih hrs hcs hok⟩
  | case5 => exact absurd hok (error_ne_ok _)
  | case6 i r rs seq hbuf hdirty bytes hread hgrow res ih =>
    obtain ⟨hr, hrs⟩ := List.forall_mem_cons.mp h
    rw [readRegion_some hread]
    refine List.forall_mem_cons.mpr ⟨(addVersion_ok hr).2, ih
      (fun r hr => (hrs r hr).mono (Nat.le_succ seq)) (List.forall_mem_cons.mp hcatch).2 ?_⟩
    -- a failure further on is passed through
    cases hres : res.2.2 with
    | ok m => exact ⟨m, rfl⟩
    | error e =>
      rw [hres] at hok
      exact absurd hok (error_ne_ok e)

/-! ## Runs -/

/-- No fallible step of the call fails for it. -/
def Op.Succeeds (s : System) : Op → Prop
  | .write _ _ => False
  | .track f base len => (base ≠ 0 ∧ len ≠ 0) ∧
      (f.avail = true ∧ f.growRegions = true ∧ f.readBuf s.img.regions.length = true ∧
        f.growVers s.img.regions.length = true) ∧
      f.arm = true ∧ ∀ x ∈ s.img.regions.zipIdx, f.Passes s.img.pageSize s.tgt x.2 x.1
  | .refresh f => s.img.regions = [] ∨
      f.arm = true ∧ ∀ x ∈ s.img.regions.zipIdx, f.Passes s.img.pageSize s.tgt x.2 x.1

/-- The call misses no region that has been written. -/
def Op.Catches (s : System) : Op → Prop
  | .write _ _ => True
  | .track f _ _ => ∀ x ∈ s.img.regions.zipIdx, f.Catches s.img.pageSize s.tgt x.2 x.1
  | .refresh f => ∀ x ∈ s.img.regions.zipIdx, f.Catches s.img.pageSize s.tgt x.2 x.1

instance (s : System) : (op : Op) → Decidable (op.Catches s)
  | .write _ _ => inferInstanceAs (Decidable True)
  | .track f _ _ => inferInstanceAs (Decidable
      (∀ x ∈ s.img.regions.zipIdx, f.Catches s.img.pageSize s.tgt x.2 x.1))
  | .refresh f => inferInstanceAs (Decidable
      (∀ x ∈ s.img.regions.zipIdx, f.Catches s.img.pageSize s.tgt x.2 x.1))

/-- No call of the run clears the bits of a region that has been written and that it misses. -/
def Caught : System → List Op → Prop
  | _, [] => True
  | s, op :: ops => (op.Succeeds s → op.Catches s) ∧ Caught (step s op).2 ops

/-- The invariant of a run: no clean page of a region has been lost. -/
def Inv (s : System) : Prop := ∀ r ∈ s.img.regions, RegionOk s.img.pageSize s.img.seq s.tgt r

/-- The timeline of `img'` extends that of `img` with numbers `img` has not issued. -/
structure Extends (img img' : Image) : Prop where
  seq_le : img.seq ≤ img'.seq
  regions : ∃ old new, img'.regions = old ++ new ∧ List.Forall₂ (Grown img.seq) img.regions old ∧
    ∀ r ∈ new, ∀ v ∈ r.vers, img.seq < v.seq

lemma Extends.refl (img : Image) : Extends img img :=
  ⟨le_rfl, img.regions, [], by simp, forall₂_grown_refl _ _, by simp⟩

lemma newRegion_ok (img : Image) (tgt : Target) {base len : ℕ} (hb : 0 < base) (hl : 0 < len) :
    RegionOk img.pageSize (img.seq + 1) tgt (newRegion img base len (tgt.read base len)) ∧
      Fresh tgt (newRegion img base len (tgt.read base len)) := by
  have hlast : (newRegion img base len (tgt.read base len)).vers.getLast? =
      some ⟨img.seq + 1, tgt.read base len⟩ := rfl
  refine ⟨⟨hb, hl, rfl, rfl, by simp [newRegion], ⟨_, hlast, length_read .., ?_⟩⟩,
    ⟨_, hlast, rfl⟩⟩
  exact fun i hi _ => getElem?_read hi

/-- What a library call does: the timeline grows, the memory stays, it succeeds when none of its
steps fails, and if it then misses no region nothing is lost and every region is fresh. -/
structure CallOk (s : System) (op : Op) (res : Except Status ℕ × System) : Prop where
  grows : Extends s.img res.2.img
  mem : res.2.tgt.mem = s.tgt.mem
  ok : (∃ n, res.1 = .ok n) ↔ op.Succeeds s
  inv : Inv s → (op.Succeeds s → op.Catches s) → Inv res.2
  fresh : Inv s → op.Succeeds s → op.Catches s → ∀ r ∈ res.2.img.regions, Fresh res.2.tgt r

section Calls

variable {s : System} {op : Op} {img' : Image}

lemma callOk_error (hno : ¬op.Succeeds s) (hext : Extends s.img img')
    (hinv : Inv s → Inv ⟨img', s.tgt⟩) (e : Status) : CallOk s op (.error e, ⟨img', s.tgt⟩) where
  grows := hext
  mem := rfl
  ok := iff_of_false (error_ne_ok e) hno
  inv h _ := hinv h
  fresh _ hs := absurd hs hno

/-- Clearing the bits loses nothing once every region is fresh. -/
lemma callOk_arm {n : ℕ} (hok : op.Succeeds s ↔ f.arm = true) (hext : Extends s.img img')
    (hinv : Inv s → Inv ⟨img', s.tgt⟩)
    (hfresh : Inv s → op.Catches s → ∀ r ∈ img'.regions, Fresh s.tgt r) :
    CallOk s op (arm f n ⟨img', s.tgt⟩) := by
  rw [arm]
  split_ifs with harm
  · refine ⟨hext, rfl, iff_of_true ⟨n, rfl⟩ (hok.mpr harm), fun h hc r hr => ?_,
      fun h _ hc => hfresh h hc⟩
    exact (hinv h r hr).of_fresh (hfresh h (hc (hok.mpr harm)) r hr) _
  · exact callOk_error (mt hok.mp harm) hext hinv _

/-- The scan and the clearing of the bits, with regions added that are in order -/
lemma callOk_scan {new : List Region} {seq : ℕ} {result : ℕ → ℕ} (hle : s.img.seq ≤ seq)
    (hnew : ∀ r ∈ new, RegionOk s.img.pageSize seq s.tgt r ∧ Fresh s.tgt r)
    (hvers : ∀ r ∈ new, ∀ v ∈ r.vers, s.img.seq < v.seq)
    (hok : op.Succeeds s ↔
      f.arm = true ∧ ∀ x ∈ s.img.regions.zipIdx, f.Passes s.img.pageSize s.tgt x.2 x.1)
    (hcatch : op.Catches s →
      ∀ x ∈ s.img.regions.zipIdx, f.Catches s.img.pageSize s.tgt x.2 x.1) :
    CallOk s op (scanThenArm f seq new result s) := by
  have hiff := @scanRange_ok_iff s.img.pageSize s.tgt f 0 s.img.regions seq
  obtain ⟨hseq, hgrown⟩ := @scanRange_grown s.img.pageSize s.tgt f 0 s.img.regions seq
  have hscan : Inv s → _ := fun h => @scanRange_ok s.img.pageSize s.tgt f 0 s.img.regions seq
    fun r hr => (h r hr).mono hle
  have hfresh : Inv s → _ := fun h => @scanRange_fresh s.img.pageSize s.tgt f s.img.page_pos 0
    s.img.regions seq fun r hr => (h r hr).mono hle
  rw [scanThenArm]
  generalize scanRange f s.img.pageSize s.tgt 0 s.img.regions seq = scan at *
  have hext : Extends s.img { s.img with seq := scan.2.1, regions := scan.1 ++ new } :=
    ⟨hle.trans hseq, _, _, rfl, hgrown.imp fun _ _ hg => hg.of_le hle, hvers⟩
  have hinv : Inv s → Inv ⟨{ s.img with seq := scan.2.1, regions := scan.1 ++ new }, s.tgt⟩ :=
    fun h r hr => (List.mem_append.mp hr).elim (hscan h r) fun hr => (hnew r hr).1.mono hseq
  cases hres : scan.2.2 with
  | error e =>
    refine callOk_error (fun hs => ?_) hext hinv e
    have hpassed := hiff.mpr (hok.mp hs).2
    rw [hres] at hpassed
    exact error_ne_ok e hpassed
  | ok n =>
    have hpassed := hiff.mp ⟨n, hres⟩
    refine callOk_arm (hok.trans (and_iff_left hpassed)) hext hinv fun h hc r hr => ?_
    exact (List.mem_append.mp hr).elim (hfresh h (hcatch hc) ⟨n, hres⟩ r) fun hr => (hnew r hr).2

lemma codeimageTrack_spec (f : Faults) (base len : ℕ) (s : System) :
    CallOk s (.track f base len) (codeimageTrack f base len s) := by
  have hiff : (Op.track f base len).Succeeds s ↔ (base ≠ 0 ∧ len ≠ 0) ∧
      (f.avail = true ∧ f.growRegions = true ∧ f.readBuf s.img.regions.length = true ∧
        f.growVers s.img.regions.length = true) ∧
      f.arm = true ∧ ∀ x ∈ s.img.regions.zipIdx, f.Passes s.img.pageSize s.tgt x.2 x.1 := Iff.rfl
  have hstop : ∀ e, ¬(Op.track f base len).Succeeds s →
      CallOk s (.track f base len) (.error e, s) :=
    fun e hno => callOk_error hno (Extends.refl s.img) id e
  rw [codeimageTrack]
  by_cases harg : base = 0 ∨ len = 0
  · rw [if_pos harg]
    exact hstop _ fun h => harg.elim (hiff.mp h).1.1 (hiff.mp h).1.2
  rw [if_neg harg]
  rw [not_or] at harg
  cases havail : f.avail with
  | false =>
    rw [if_pos rfl]
    exact hstop _ fun h => Bool.false_ne_true (havail.symm.trans (hiff.mp h).2.1.1)
  | true =>
  rw [if_neg Bool.false_ne_true.symm, trackLocked]
  cases hregs : f.growRegions with
  | false =>
    rw [if_pos rfl]
    exact hstop _ fun h => Bool.false_ne_true (hregs.symm.trans (hiff.mp h).2.1.2.1)
  | true =>
  rw [if_neg Bool.false_ne_true.symm, readRegion]
  cases hread : f.readBuf s.img.regions.length with
  | false =>
    exact hstop _ fun h => Bool.false_ne_true (hread.symm.trans (hiff.mp h).2.1.2.2.1)
  | true =>
  rw [if_pos rfl]
  dsimp only
  cases hgrow : f.growVers s.img.regions.length with
  | false =>
    rw [if_pos rfl]
    exact hstop _ fun h => Bool.false_ne_true (hgrow.symm.trans (hiff.mp h).2.1.2.2.2)
  | true =>
  rw [if_neg Bool.false_ne_true.symm]
  have hnew := newRegion_ok s.img s.tgt (Nat.pos_of_ne_zero harg.1) (Nat.pos_of_ne_zero harg.2)
  rw [havail, hregs, hread, hgrow] at hiff
  refine callOk_scan (Nat.le_succ _) (fun r hr => ?_) (fun r hr v hv => ?_)
    (hiff.trans (by simp [harg])) id
  · rw [List.mem_singleton.mp hr]
    exact hnew
  · rw [List.mem_singleton.mp hr] at hv
    rw [List.mem_singleton.mp hv]
    exact Nat.lt_succ_self _

lemma codeimageRefresh_spec (f : Faults) (s : System) :
    CallOk s (.refresh f) (codeimageRefresh f s) := by
  have hiff : (Op.refresh f).Succeeds s ↔ s.img.regions = [] ∨ f.arm = true ∧
      ∀ x ∈ s.img.regions.zipIdx, f.Passes s.img.pageSize s.tgt x.2 x.1 := Iff.rfl
  rw [codeimageRefresh]
  split_ifs with hnil
  · refine ⟨Extends.refl _, rfl, iff_of_true ⟨0, rfl⟩ (hiff.mpr (.inl hnil)), fun h _ => h,
      fun _ _ _ r hr => ?_⟩
    rw [hnil] at hr
    cases hr
  · exact callOk_scan le_rfl (List.forall_mem_nil _) (List.forall_mem_nil _)
      (hiff.trans (or_iff_right hnil)) id

end Calls

section Runs

variable {s : System}

/-- A write changes the memory only on pages it marks. -/
lemma inv_write (addr : ℕ) (bytes : List UInt8) {s : System} (h : Inv s) :
    Inv { s with tgt := targetWrite s.img.pageSize addr bytes s.tgt } := by
  intro r hr
  obtain ⟨v, h1, h2, h3⟩ := (h r hr).latest
  refine { h r hr with latest := ⟨v, h1, h2, ?_⟩ }
  intro i hi hclean
  simp only [targetWrite, Bool.or_eq_false_iff, List.any_eq_false, List.mem_range,
    decide_eq_true_eq] at hclean
  have hsame : (targetWrite s.img.pageSize addr bytes s.tgt).mem (r.base + i) =
      s.tgt.mem (r.base + i) := by
    show (if addr ≤ r.base + i then bytes.getD (r.base + i - addr) (s.tgt.mem (r.base + i))
      else s.tgt.mem (r.base + i)) = s.tgt.mem (r.base + i)
    split_ifs with hle
    · apply List.getD_eq_default
      by_contra hlt
      apply hclean.2 (r.base + i - addr) (not_le.mp hlt)
      rw [Nat.add_sub_cancel' hle]
    · rfl
  dsimp only at hsame ⊢
  rw [hsame]
  exact h3 i hi hclean.1

lemma step_extends (s : System) (op : Op) : Extends s.img (step s op).2.img := by
  cases op with
  | write addr bytes => exact Extends.refl _
  | track f base len => exact (codeimageTrack_spec f base len s).grows
  | refresh f => exact (codeimageRefresh_spec f s).grows

/-- A write is no library call: it has no status to succeed with. -/
lemma step_ok_iff (s : System) (op : Op) :
    (∃ n, (step s op).1 = some (.ok n)) ↔ op.Succeeds s := by
  have hsome : ∀ res : Except Status ℕ, (∃ n, some res = some (.ok n)) ↔ ∃ n, res = .ok n :=
    fun res => exists_congr fun n => Option.some_inj
  cases op with
  | write addr bytes =>
    refine iff_of_false ?_ id
    rintro ⟨n, h⟩
    cases h
  | track f base len => exact (hsome _).trans (codeimageTrack_spec f base len s).ok
  | refresh f => exact (hsome _).trans (codeimageRefresh_spec f s).ok

lemma step_inv {op : Op} (h : Inv s) (hc : op.Succeeds s → op.Catches s) :
    Inv (step s op).2 := by
  cases op with
  | write addr bytes => exact inv_write addr bytes h
  | track f base len => exact (codeimageTrack_spec f base len s).inv h hc
  | refresh f => exact (codeimageRefresh_spec f s).inv h hc

lemma step_fresh {op : Op} (h : Inv s) (hs : op.Succeeds s) (hc : op.Catches s) :
    (∀ r ∈ (step s op).2.img.regions, Fresh (step s op).2.tgt r) ∧
      (step s op).2.tgt.mem = s.tgt.mem := by
  cases op with
  | write addr bytes => exact hs.elim
  | track f base len =>
    exact ⟨(codeimageTrack_spec f base len s).fresh h hs hc, (codeimageTrack_spec f base len s).mem⟩
  | refresh f =>
    exact ⟨(codeimageRefresh_spec f s).fresh h hs hc, (codeimageRefresh_spec f s).mem⟩

lemma inv_run (ops : List Op) (h : Inv s) (hc : Caught s ops) : Inv (run s ops) := by
  -- what one step keeps, as `step_inv` has it
  induction ops generalizing s with
  | nil => exact h
  | cons op ops ih => exact ih (step_inv h hc.1) hc.2

lemma caught_append (ops : List Op) (op : Op) :
    Caught s (ops ++ [op]) ↔
      Caught s ops ∧ (op.Succeeds (run s ops) → op.Catches (run s ops)) := by
  induction ops generalizing s with
  | nil => exact and_comm
  | cons head ops ih => exact (and_congr_right' ih).trans and_assoc.symm

lemma scanThenArm_regions (f : Faults) (seq : ℕ) (new : List Region) (result : ℕ → ℕ)
    (s : System) :
    (scanThenArm f seq new result s).2.img.regions =
      (scanRange f s.img.pageSize s.tgt 0 s.img.regions seq).1 ++ new := by
  rw [scanThenArm]
  dsimp only
  split
  · rfl
  · rw [arm]
    split <;> rfl

/-- A successful `asmtest_codeimage_track` tracks its range. -/
lemma exists_holds_of_track {f : Faults} {base len addr : ℕ}
    (hs : (Op.track f base len).Succeeds s) (hlo : base ≤ addr) (hhi : addr < base + len) :
    ∃ r ∈ (step s (.track f base len)).2.img.regions, r.holds addr := by
  obtain ⟨harg, ⟨havail, hregs, hread, hgrow⟩, -⟩ := hs
  have hregions := scanThenArm_regions f (s.img.seq + 1)
    [newRegion s.img base len (s.tgt.read base len)] (fun _ => 0) s
  have htrack : codeimageTrack f base len s = scanThenArm f (s.img.seq + 1)
      [newRegion s.img base len (s.tgt.read base len)] (fun _ => 0) s := by
    rw [codeimageTrack, if_neg (not_or.mpr harg), havail, if_neg Bool.false_ne_true.symm,
      trackLocked, hregs, if_neg Bool.false_ne_true.symm, readRegion, hread, if_pos rfl, hgrow]
    rfl
  rw [← htrack] at hregions
  refine ⟨newRegion s.img base len (s.tgt.read base len), ?_, ?_⟩
  · exact hregions ▸ List.mem_append_right _ (List.mem_singleton_self _)
  · exact decide_eq_true (not_or.mpr ⟨not_lt.mpr hlo, not_le.mpr hhi⟩)

end Runs

/-! ## Answers -/

lemma pickVersion_append {vers extra : List Version} {w : ℕ} (hw : 0 < w)
    (h : ∀ v ∈ extra, w < v.seq) : pickVersion (vers ++ extra) w = pickVersion vers w := by
  have hextra : extra.takeWhile (fun v => w = 0 ∨ v.seq ≤ w) = [] := by
    cases extra with
    | nil => rfl
    | cons v extra =>
      have := h v (by simp)
      rw [List.takeWhile_cons_of_neg (by simp; omega)]
  rw [pickVersion, pickVersion, List.takeWhile_append, hextra]
  split_ifs with hall
  · rw [List.append_nil, List.Sublist.eq_of_length (List.takeWhile_sublist _) hall]
  · rfl

/-- The first region that holds an address stays the first. -/
lemma find?_grown {seq : ℕ} {rs old : List Region} (h : List.Forall₂ (Grown seq) rs old)
    (addr : ℕ) :
    (rs.find? (Region.holds addr) = none ∧ old.find? (Region.holds addr) = none) ∨
      ∃ r r', rs.find? (Region.holds addr) = some r ∧ old.find? (Region.holds addr) = some r' ∧
        Grown seq r r' := by
  induction h with
  | nil => exact Or.inl ⟨rfl, rfl⟩
  | @cons r r' rs old hg _ ih =>
    have hholds : r'.holds addr = r.holds addr := by
      rw [Region.holds, Region.holds, hg.base, hg.len]
    cases hin : r.holds addr with
    | false =>
      rw [List.find?_cons_of_neg (by simp [hin]), List.find?_cons_of_neg (by simp [hholds, hin])]
      exact ih
    | true =>
      rw [List.find?_cons_of_pos hin, List.find?_cons_of_pos (hholds.trans hin)]
      exact Or.inr ⟨r, r', rfl, rfl, hg⟩

/-- An issued version keeps its answer, for every address. -/
lemma bytesAt_extends {img img' : Image} (h : Extends img img') {w : ℕ} (hw : 0 < w)
    (hle : w ≤ img.seq) (addr : ℕ) :
    codeimageBytesAt img' addr w = codeimageBytesAt img addr w := by
  obtain ⟨old, new, hr, hold, hnew⟩ := h.regions
  unfold codeimageBytesAt
  split_ifs with h0
  · rfl
  rw [hr, List.find?_append]
  rcases find?_grown hold addr with ⟨h1, h2⟩ | ⟨r, r', h1, h2, hg⟩
  · rw [h1, h2, Option.none_or]
    cases hn : new.find? (Region.holds addr) with
    | none => rfl
    | some r =>
      -- a region tracked later has no version as old as `w`
      have hpick : pickVersion ([] ++ r.vers) w = pickVersion [] w :=
        pickVersion_append hw fun v hv => hle.trans_lt (hnew r (List.mem_of_find?_eq_some hn) v hv)
      rw [List.nil_append] at hpick
      dsimp only
      rw [hpick]
      rfl
  · rw [h1, h2, Option.some_or]
    obtain ⟨extra, e1, e2⟩ := hg.vers
    dsimp only
    rw [e1, pickVersion_append hw fun v hv => hle.trans_lt (e2 v hv), hg.base]

lemma bytesAt_run (ops : List Op) (s : System) {w : ℕ} (hw : 0 < w) (hle : w ≤ s.img.seq)
    (addr : ℕ) : codeimageBytesAt (run s ops).img addr w = codeimageBytesAt s.img addr w := by
  -- no step changes an answer, so the run does not
  induction ops generalizing s with
  | nil => rfl
  | cons op ops ih =>
    have hext := step_extends s op
    exact (ih _ (hle.trans hext.seq_le)).trans (bytesAt_extends hext hw hle addr)

/-- The number of bytes from `addr` to the end of the first region that holds it. -/
def tailLen (img : Image) (addr : ℕ) : ℕ :=
  (img.regions.find? (Region.holds addr)).elim 0 fun r => r.base + r.len - addr

/-- Right after a success the newest answer is the memory. -/
lemma bytesAt_fresh {s : System} (h : Inv s) (hf : ∀ r ∈ s.img.regions, Fresh s.tgt r) {addr : ℕ}
    {r : Region} (hr : r ∈ s.img.regions) (ha : r.holds addr) :
    0 < s.img.seq ∧ codeimageBytesAt s.img addr s.img.seq =
      .ok (s.tgt.read addr (tailLen s.img addr)) := by
  obtain ⟨r₀, hr₀⟩ : ∃ r₀, s.img.regions.find? (Region.holds addr) = some r₀ := by
    cases hfind : s.img.regions.find? (Region.holds addr) with
    | none => exact absurd ha (List.find?_eq_none.mp hfind r hr)
    | some r₀ => exact ⟨r₀, rfl⟩
  have hmem := List.mem_of_find?_eq_some hr₀
  have hok := h r₀ hmem
  obtain ⟨v, hv1, hv2⟩ := hf r₀ hmem
  have hin : r₀.holds addr := List.find?_some hr₀
  rw [Region.holds, decide_eq_true_eq, not_or, not_lt, not_le] at hin
  have hiss := hok.issued v (List.mem_of_getLast? hv1)
  -- every version was issued by now, so the newest one is picked
  have hall : r₀.vers.takeWhile (fun v => s.img.seq = 0 ∨ v.seq ≤ s.img.seq) = r₀.vers := by
    rw [List.takeWhile_eq_self_iff]
    intro v hv
    simpa using Or.inr (hok.issued v hv).2
  have hbase := hok.base_pos
  refine ⟨by omega, ?_⟩
  rw [codeimageBytesAt, if_neg (by omega), hr₀]
  dsimp only
  rw [pickVersion, hall, hv1]
  dsimp only
  rw [hv2, tailLen, hr₀, Target.read, Target.read]
  simp only [Option.elim_some, Except.ok.injEq]
  apply List.ext_getElem
  · simp
    omega
  · intro i h1 h2
    simp only [List.getElem_drop, List.getElem_map, List.getElem_range]
    congr 1
    omega

/-- The recorder on a target, before any call -/
def started (sysconf : ℤ) (tgt : Target) : System := ⟨codeimageNew sysconf, tgt⟩

lemma inv_started (sysconf : ℤ) (tgt : Target) : Inv (started sysconf tgt) := by
  intro r hr
  rw [started, codeimageNew] at hr
  split_ifs at hr <;> cases hr

/-- Time travel. A call succeeds exactly when no step it needs fails, and a track that does tracks
its range. Unless the run has cleared the bits of a written region that a scan missed, the version
number of a successful call gives back the memory as it was then, for every address tracked then;
and no number issued so far ever changes its answer. -/
theorem codeimage_time_travel (sysconf : ℤ) (tgt : Target) (before later : List Op) (call : Op) :
    let s := run (started sysconf tgt) before
    let s' := (step s call).2
    let now := codeimageNow s'.img
    ((∃ n, (step s call).1 = some (.ok n)) ↔ call.Succeeds s) ∧
    (∀ f base len, call = .track f base len → call.Succeeds s →
      ∀ addr, base ≤ addr → addr < base + len → ∃ r ∈ s'.img.regions, r.holds addr) ∧
    (Caught (started sysconf tgt) (before ++ [call]) → call.Succeeds s →
      ∀ addr, (∃ r ∈ s'.img.regions, r.holds addr) →
        codeimageBytesAt (run s' later).img addr now =
          .ok (s.tgt.read addr (tailLen s'.img addr))) ∧
    ∀ w, 1 ≤ w → w ≤ now → ∀ addr,
      codeimageBytesAt (run s' later).img addr w = codeimageBytesAt s'.img addr w := by
  intro s s' now
  refine ⟨step_ok_iff s call, ?_, fun hcaught hs addr htracked => ?_,
    fun w hw hle addr => bytesAt_run later s' hw hle addr⟩
  · rintro f base len rfl hs addr hlo hhi
    exact exists_holds_of_track hs hlo hhi
  · obtain ⟨r, hr, ha⟩ := htracked
    obtain ⟨hbefore, hcall⟩ := (caught_append before call).mp hcaught
    have hinv : Inv s := inv_run before (inv_started sysconf tgt) hbefore
    obtain ⟨hfresh, hmem⟩ := step_fresh hinv hs (hcall hs)
    obtain ⟨hpos, hnow⟩ := bytesAt_fresh (step_inv hinv hcall) hfresh hr ha
    have hread : s'.tgt.read addr (tailLen s'.img addr) =
        s.tgt.read addr (tailLen s'.img addr) := by
      rw [Target.read, Target.read, hmem]
    rw [← hread, ← hnow]
    exact bytesAt_run later s' hpos le_rfl addr

section Samples

/-- No step fails. -/
def calm : Faults where
  avail := true
  growRegions := true
  dirtyBuf _ := true
  pagemap _ _ := true
  readBuf _ := true
  growVers _ := true
  arm := true

def blank : Target := ⟨fun _ => 0, fun _ => false⟩

/-- A track of three bytes at 4096 and a patch of the second -/
def patch : List Op := [.track calm 4096 3, .write 4097 [7]]

/-- The refresh after the patch gives it the version 2; a further patch does not change the answer
for it, nor that for version 1. -/
theorem codeimage_time_travel_patch :
    let s' := (step (run (started 4096 blank) patch) (.refresh calm)).2
    let later : List Op := [.write 4097 [9], .refresh calm]
    codeimageBytesAt (run s' later).img 4097 2 = .ok [7, 0] ∧
      codeimageBytesAt (run s' later).img 4097 1 = .ok [0, 0] := by
  have hcaught : Caught (started 4096 blank) (patch ++ [.refresh calm]) := by
    refine ⟨fun _ => ?_, fun _ => trivial, fun _ => ?_, trivial⟩ <;> decide
  have htracked : ∃ r ∈ (step (run (started 4096 blank) patch) (.refresh calm)).2.img.regions,
      r.holds 4097 := by decide
  have hlen : tailLen (step (run (started 4096 blank) patch) (.refresh calm)).2.img 4097 = 2 := rfl
  obtain ⟨hok, -, hnow, hissued⟩ := codeimage_time_travel 4096 blank patch
    [.write 4097 [9], .refresh calm] (.refresh calm)
  refine ⟨(hnow hcaught (hok.mp ⟨1, rfl⟩) 4097 htracked).trans ?_,
    (hissued 1 le_rfl (by decide) 4097).trans rfl⟩
  rw [hlen]
  rfl

/-- The refresh finds the patch but has no memory for a copy: it succeeds and clears the bits, so
its version, and every later one, still has the old byte. -/
theorem codeimage_patch_lost :
    let s := run (started 4096 blank) [.track calm 4096 1, .write 4096 [7]]
    let lost := step s (.refresh { calm with readBuf := fun _ => false })
    let later := run lost.2 [.refresh calm]
    lost.1 = some (.ok 0) ∧ (∃ r ∈ lost.2.img.regions, r.holds 4096) ∧
      s.tgt.read 4096 1 = [7] ∧
      codeimageBytesAt lost.2.img 4096 (codeimageNow lost.2.img) = .ok [0] ∧
      later.tgt.read 4096 1 = [7] ∧
      codeimageBytesAt later.img 4096 (codeimageNow later.img) = .ok [0] :=
  ⟨rfl, by decide, rfl, rfl, rfl, rfl⟩

end Samples

end AsmTest.CodeImage
