import AsmTest.JitdumpReads

/-!
# Lookups in a jitdump file

The format that the two readers parse, written out in either byte order, and what they
return for a file that holds a header and a list of records.
-/

namespace AsmTest.Jitdump

open Endian Scan

/-! ## The format -/

/-- The header of 40 bytes, and bytes of later versions behind it. -/
structure Header where
  version : BitVec 32
  elfMach : BitVec 32
  pad1 : BitVec 32
  pid : BitVec 32
  timestamp : BitVec 64
  flags : BitVec 64
  extra : Bytes
  deriving DecidableEq

/-- `JIT_CODE_LOAD` -/
structure LoadRec where
  ts : BitVec 64
  pid : BitVec 32
  tid : BitVec 32
  vma : BitVec 64
  codeAddr : BitVec 64
  codeIndex : BitVec 64
  name : CStr
  code : Bytes
  deriving DecidableEq

structure DebugEntry where
  addr : BitVec 64
  line : BitVec 32
  discrim : BitVec 32
  file : CStr
  deriving DecidableEq

/-- `JIT_CODE_DEBUG_INFO` -/
structure DebugRec where
  ts : BitVec 64
  codeAddr : BitVec 64
  entries : List DebugEntry
  pad : Bytes
  deriving DecidableEq

inductive Record
  | load (l : LoadRec)
  | debug (d : DebugRec)
  | other (id : BitVec 32) (ts : BitVec 64) (payload : Bytes) (unknown : id ≠ 0 ∧ id ≠ 2)
  deriving DecidableEq

def Header.size (h : Header) : ℕ := 40 + h.extra.length

def Header.bytes (swap : Bool) (h : Header) : Bytes :=
  put 4 swap jitdumpMagic ++ (put 4 swap h.version.toNat ++ (put 4 swap h.size ++
    (put 4 swap h.elfMach.toNat ++ (put 4 swap h.pad1.toNat ++ (put 4 swap h.pid.toNat ++
      (put 8 swap h.timestamp.toNat ++ (put 8 swap h.flags.toNat ++ h.extra)))))))

def LoadRec.body (swap : Bool) (l : LoadRec) : Bytes :=
  put 4 swap l.pid.toNat ++ (put 4 swap l.tid.toNat ++ (put 8 swap l.vma.toNat ++
    (put 8 swap l.codeAddr.toNat ++ (put 8 swap l.code.length ++
      (put 8 swap l.codeIndex.toNat ++ ((l.name.bytes ++ [0]) ++ l.code))))))

def DebugEntry.bytes (swap : Bool) (e : DebugEntry) : Bytes :=
  put 8 swap e.addr.toNat ++ (put 4 swap e.line.toNat ++ (put 4 swap e.discrim.toNat ++
    (e.file.bytes ++ [0])))

def DebugRec.body (swap : Bool) (d : DebugRec) : Bytes :=
  put 8 swap d.codeAddr.toNat ++ (put 8 swap d.entries.length ++
    (d.entries.flatMap (DebugEntry.bytes swap) ++ d.pad))

def Record.body (swap : Bool) : Record → Bytes
  | .load l => l.body swap
  | .debug d => d.body swap
  | .other _ _ payload _ => payload

def Record.id : Record → ℕ
  | .load _ => jitCodeLoad
  | .debug _ => jitCodeDebugInfo
  | .other id _ _ _ => id.toNat

def Record.ts : Record → ℕ
  | .load l => l.ts.toNat
  | .debug d => d.ts.toNat
  | .other _ ts _ _ => ts.toNat

def Record.total (r : Record) : ℕ := 16 + (r.body false).length

def Record.bytes (swap : Bool) (r : Record) : Bytes :=
  put 4 swap r.id ++ (put 4 swap r.total ++ (put 8 swap r.ts ++ r.body swap))

/-- A file whose sizes fit their fields. -/
structure Dump where
  swap : Bool
  header : Header
  records : List Record
  headerFits : header.size < 2 ^ 32
  fits : ∀ r ∈ records, r.total < 2 ^ 32

def Dump.bytes (d : Dump) : Bytes :=
  d.header.bytes d.swap ++ d.records.flatMap (Record.bytes d.swap)

/-! ## What a lookup is to return -/

def LoadRec.entry (l : LoadRec) : Entry :=
  ⟨l.codeAddr.toNat, l.code.length, l.ts.toNat, l.codeIndex.toNat⟩

/-- `l` is the last `LOAD` of the name, with `pre` before it. -/
structure Latest (records : List Record) (name : CStr) (pre : List Record) (l : LoadRec) :
    Prop where
  named : l.name = name
  last : ∃ post, records = pre ++ .load l :: post ∧ ∀ l', .load l' ∈ post → l'.name ≠ name

/-- The entries of the last `DEBUG_INFO` for an address. -/
def debugFor (addr : BitVec 64) : Record → Option (List DebugEntry)
  | .debug d => if d.codeAddr = addr then some d.entries else none
  | _ => none

def lastDebug (addr : BitVec 64) (records : List Record) : Option (List DebugEntry) :=
  records.reverse.findSome? (debugFor addr)

def DebugEntry.raw (e : DebugEntry) : DbgRaw :=
  ⟨e.addr.toNat, e.line.toNat, e.discrim.toNat, e.file.bytes.take fileCap⟩

variable {f rest : Bytes} {swap : Bool} {name : CStr} {cap p : ℕ}

theorem toNat32_lt (x : BitVec 32) : x.toNat < 256 ^ 4 := x.isLt.trans_eq (by norm_num)

theorem toNat64_lt (x : BitVec 64) : x.toNat < 256 ^ 8 := x.isLt.trans_eq (by norm_num)

/-! ## Reading what was written -/

theorem drop_add_length {X Y : Bytes} (h : f.drop p = X ++ Y) : f.drop (p + X.length) = Y := by
  rw [← List.drop_drop, h, List.drop_left]

theorem drop_put {n v : ℕ} {Y : Bytes} (h : f.drop p = put n swap v ++ Y) :
    f.drop (p + n) = Y := by
  simpa using drop_add_length h

theorem rd_drop_put {n v : ℕ} {Y : Bytes} (h : f.drop p = put n swap v ++ Y)
    (hv : v < 256 ^ n) : rd n swap (f.drop p) = v := by
  rw [h]
  exact rd_put swap hv Y

theorem fread_block {X Y : Bytes} (h : f.drop p = X ++ Y) : fread f p X.length = X := by
  rw [fread, h, List.take_left']
  rfl

theorem block_le {X Y : Bytes} (h : f.drop p = X ++ Y) (hX : 0 < X.length) :
    p + X.length ≤ f.length := by
  have := congrArg List.length h
  rw [List.length_drop, List.length_append] at this
  omega

theorem takeWhile_nul (s : CStr) (Y : Bytes) :
    (s.bytes ++ 0 :: Y).takeWhile (· ≠ 0) = s.bytes := by
  rw [List.takeWhile_append_of_pos]
  · simp
  · intro b hb
    have : b ≠ 0 := fun h0 => s.noNul (h0 ▸ hb)
    simpa using this

theorem nameIs_iff (a b : CStr) : nameIs (a.bytes ++ [0]) b = true ↔ a = b := by
  have := takeWhile_nul a []
  simp only [nameIs, List.dropLast_concat, this, decide_eq_true_eq, CStr.ext_iff]

@[simp] theorem length_body (r : Record) : (r.body swap).length + 16 = r.total := by
  have hent : ∀ es : List DebugEntry, (es.flatMap (DebugEntry.bytes swap)).length =
      (es.flatMap (DebugEntry.bytes false)).length := by
    intro es
    simp [List.length_flatMap, DebugEntry.bytes]
  cases r with
  | load l => simp [Record.total, Record.body, LoadRec.body]; omega
  | debug d => simp [Record.total, Record.body, DebugRec.body, hent]; omega
  | other id ts payload hid => simp [Record.total, Record.body]; omega

theorem length_bytes (r : Record) : (r.bytes swap).length = r.total := by
  have := @length_body swap r
  simp [Record.bytes]
  omega

theorem Record.sixteen_le_total (r : Record) : 16 ≤ r.total := by
  simp [Record.total]

/-- The record at `p`, with the file going on behind it. -/
structure RecordAt (f : Bytes) (swap : Bool) (p : ℕ) (r : Record) (rest : Bytes) : Prop where
  bytes : f.drop p = r.bytes swap ++ rest
  fits : r.total < 2 ^ 32

namespace RecordAt

variable {r : Record}

theorem full (h : RecordAt f swap p r rest) : p + r.total ≤ f.length := by
  rw [← @length_bytes swap r]
  apply block_le h.bytes
  rw [length_bytes]
  simp [Record.total]

theorem next (h : RecordAt f swap p r rest) : f.drop (p + r.total) = rest := by
  rw [← @length_bytes swap r]
  exact drop_add_length h.bytes

theorem layout (h : RecordAt f swap p r rest) :
    f.drop p = put 4 swap r.id ++ (put 4 swap r.total ++ (put 8 swap r.ts ++
      (r.body swap ++ rest))) := by
  rw [h.bytes]
  simp only [Record.bytes, List.append_assoc]

theorem idAt_eq (h : RecordAt f swap p r rest) : idAt f swap p = r.id := by
  apply rd_drop_put h.layout
  cases r with
  | load l => norm_num [Record.id, jitCodeLoad]
  | debug d => norm_num [Record.id, jitCodeDebugInfo]
  | other id ts payload hid => exact toNat32_lt id

theorem totalAt_eq (h : RecordAt f swap p r rest) : totalAt f swap p = r.total :=
  rd_drop_put (drop_put h.layout) (h.fits.trans_eq (by norm_num))

theorem tsAt_eq (h : RecordAt f swap p r rest) : tsAt f swap p = r.ts := by
  apply rd_drop_put (drop_put (drop_put h.layout))
  cases r with
  | load l => exact toNat64_lt l.ts
  | debug d => exact toNat64_lt d.ts
  | other id ts payload hid => exact toNat64_lt ts

theorem body_at (h : RecordAt f swap p r rest) : f.drop (p + 16) = r.body swap ++ rest := by
  have h3 : f.drop (p + 4 + 4 + 8) = r.body swap ++ rest := drop_put (drop_put (drop_put h.layout))
  exact h3

/-- The prefix of a record is there to be read. -/
theorem length_prefix (h : RecordAt f swap p r rest) : (fread f p 16).length = 16 := by
  have hfull := h.full
  have h16 := r.sixteen_le_total
  rw [length_fread]
  omega

theorem ts_prefix (h : RecordAt f swap p r rest) :
    rd 8 swap ((fread f p 16).drop 8) = r.ts := by
  rw [rd_drop_fread (by omega)]
  exact h.tsAt_eq

end RecordAt

/-! ### A `LOAD` -/

section Load

variable {l : LoadRec}

theorem loadTotal (l : LoadRec) :
    (Record.load l).total = 57 + l.name.bytes.length + l.code.length := by
  simp [Record.total, Record.body, LoadRec.body]
  omega

theorem load_layout (h : RecordAt f swap p (.load l) rest) :
    f.drop (p + 32) = put 8 swap l.codeAddr.toNat ++ (put 8 swap l.code.length ++
      (put 8 swap l.codeIndex.toNat ++ ((l.name.bytes ++ [0]) ++ (l.code ++ rest)))) := by
  have hb : f.drop (p + 16) = put 4 swap l.pid.toNat ++ (put 4 swap l.tid.toNat ++
      (put 8 swap l.vma.toNat ++ (put 8 swap l.codeAddr.toNat ++ (put 8 swap l.code.length ++
        (put 8 swap l.codeIndex.toNat ++ ((l.name.bytes ++ [0]) ++ (l.code ++ rest))))))) := by
    rw [h.body_at]
    simp only [Record.body, LoadRec.body, List.append_assoc]
  have h32 := drop_put (drop_put (drop_put hb))
  exact h32

theorem code_lt (h : RecordAt f swap p (.load l) rest) : l.code.length < 256 ^ 8 := by
  have := h.fits
  rw [loadTotal] at this
  omega

theorem codeAddr_eq (h : RecordAt f swap p (.load l) rest) :
    rd 8 swap (f.drop (p + 32)) = l.codeAddr.toNat :=
  rd_drop_put (load_layout h) (toNat64_lt _)

theorem codeSizeAt_eq (h : RecordAt f swap p (.load l) rest) :
    codeSizeAt f swap p = l.code.length :=
  rd_drop_put (p := p + 32 + 8) (drop_put (load_layout h)) (code_lt h)

theorem codeIndex_eq (h : RecordAt f swap p (.load l) rest) :
    rd 8 swap (f.drop (p + 48)) = l.codeIndex.toNat :=
  rd_drop_put (p := p + 32 + 8 + 8) (drop_put (drop_put (load_layout h))) (toNat64_lt _)

theorem name_layout (h : RecordAt f swap p (.load l) rest) :
    f.drop (p + 56) = (l.name.bytes ++ [0]) ++ (l.code ++ rest) := by
  have h56 := drop_put (drop_put (drop_put (load_layout h)))
  exact h56

theorem nameLenAt_eq (h : RecordAt f swap p (.load l) rest) :
    nameLenAt f swap p = (l.name.bytes ++ [0]).length := by
  rw [nameLenAt, h.totalAt_eq, codeSizeAt_eq h, loadTotal, List.length_append,
    List.length_singleton]
  omega

theorem fread_name (h : RecordAt f swap p (.load l) rest) :
    fread f (p + 56) (nameLenAt f swap p) = l.name.bytes ++ [0] := by
  rw [nameLenAt_eq h]
  exact fread_block (name_layout h)

theorem code_layout (h : RecordAt f swap p (.load l) rest) :
    f.drop (p + 56 + nameLenAt f swap p) = l.code ++ rest := by
  rw [nameLenAt_eq h]
  exact drop_add_length (name_layout h)

theorem length_fixed (h : RecordAt f swap p (.load l) rest) :
    (fread f (p + 16) 40).length = 40 := by
  have hfull := h.full
  rw [loadTotal] at hfull
  rw [length_fread]
  omega

theorem length_name (h : RecordAt f swap p (.load l) rest) :
    (fread f (p + 56) (nameLenAt f swap p)).length = nameLenAt f swap p := by
  rw [fread_name h, nameLenAt_eq h]

theorem codeAddr_fixed (h : RecordAt f swap p (.load l) rest) :
    rd 8 swap ((fread f (p + 16) 40).drop 16) = l.codeAddr.toNat := by
  rw [rd_drop_fread (by omega)]
  exact codeAddr_eq h

theorem codeIndex_fixed (h : RecordAt f swap p (.load l) rest) :
    rd 8 swap ((fread f (p + 16) 40).drop 32) = l.codeIndex.toNat := by
  rw [rd_drop_fread (by omega)]
  exact codeIndex_eq h

/-- The fixed fields, the name and the code fill a `LOAD`. -/
theorem load_total_split (h : RecordAt f swap p (.load l) rest) :
    56 + nameLenAt f swap p + l.code.length = (Record.load l).total ∧
      0 < nameLenAt f swap p := by
  have htot := loadTotal l
  rw [nameLenAt_eq h, List.length_append, List.length_singleton]
  omega

/-- The code reader's `LOAD` branch on a complete record. -/
theorem findLoad_record {s : FindState} (h : RecordAt f swap p (.load l) rest) :
    ∃ reads, findLoad f swap name cap p (Record.load l).total l.ts.toNat s =
      if l.name = name then
        copyCode f cap p (Record.load l).total (p + 56 + nameLenAt f swap p) l.entry
          { s with reads := reads }
      else .inl { s with reads := reads, pos := p + (Record.load l).total } := by
  obtain ⟨htot, hpos⟩ := load_total_split h
  have hnl : (Record.load l).total - 56 - l.code.length = nameLenAt f swap p := by omega
  refine ⟨((s.log (access f p (Record.load l).total (p + 16) 40)).log
    (access f p (Record.load l).total (p + 56) (nameLenAt f swap p))).reads, ?_⟩
  unfold findLoad
  dsimp only
  rw [rd_codeSize, codeSizeAt_eq h, codeAddr_fixed h, codeIndex_fixed h, hnl,
    if_neg (not_not.mpr (length_fixed h)), if_neg (by omega), if_neg (by omega),
    if_neg (not_not.mpr (length_name h)), fread_name h]
  have hend : p + 56 + nameLenAt f swap p + l.code.length = p + (Record.load l).total := by omega
  rw [hend]
  by_cases hname : l.name = name
  · rw [if_pos ((nameIs_iff _ _).mpr hname), if_pos hname]
    rfl
  · rw [if_neg (fun hc => hname ((nameIs_iff _ _).mp hc)), if_neg hname]
    rfl

/-- The copy of the code of a complete record. -/
theorem copyCode_record {s : FindState} (h : RecordAt f swap p (.load l) rest) :
    ∃ s', copyCode f cap p (Record.load l).total (p + 56 + nameLenAt f swap p) l.entry s =
        .inl s' ∧ s'.pos = p + (Record.load l).total ∧ s'.rc = .ok ∧ s'.out = some l.entry ∧
      (if 0 < cap then s'.bytesLen = min l.code.length cap ∧
        s'.bytes.take s'.bytesLen = l.code.take cap else s'.bytesLen = s.bytesLen) := by
  have hend : p + 56 + nameLenAt f swap p + l.code.length = p + (Record.load l).total := by
    have := (load_total_split h).1
    omega
  have hcpy : (if l.entry.codeSize < cap then l.entry.codeSize else cap) =
      min l.code.length cap := by
    by_cases hlt : l.entry.codeSize < cap
    · rw [if_pos hlt]
      exact (min_eq_left hlt.le).symm
    · rw [if_neg hlt]
      exact (min_eq_right (not_lt.mp hlt)).symm
  have hgot : fread f (p + 56 + nameLenAt f swap p) (min l.code.length cap) = l.code.take cap := by
    rw [fread, code_layout h, List.take_append_of_le_length (by omega), List.take_eq_take_iff]
    omega
  have hlen : (l.code.take cap).length = min l.code.length cap := by
    rw [List.length_take, min_comm]
  unfold copyCode
  dsimp only
  rw [hcpy, hgot, if_neg (not_not.mpr hlen)]
  by_cases hcap : 0 < cap
  · rw [if_pos hcap]
    refine ⟨_, rfl, hend, rfl, rfl, ?_⟩
    rw [if_pos hcap]
    refine ⟨rfl, ?_⟩
    dsimp only
    rw [← hlen, List.take_left']
    rfl
  · rw [if_neg hcap]
    refine ⟨_, rfl, hend, rfl, rfl, ?_⟩
    rw [if_neg hcap]

end Load

/-! ## The code reader over a list of records -/

/-- What the reader holds after the records `done`. -/
def Found (name : CStr) (cap : ℕ) (done : List Record) (s : FindState) : Prop :=
  (s.rc = .enoent ∧ s.bytesLen = 0 ∧ ∀ l, .load l ∈ done → l.name ≠ name) ∨
  (s.rc = .ok ∧ ∃ pre l, Latest done name pre l ∧ s.out = some l.entry ∧
    s.bytesLen = min l.code.length cap ∧ s.bytes.take s.bytesLen = l.code.take cap)

theorem noMatch_extend {done : List Record} {r : Record}
    (h : ∀ l, .load l ∈ done → l.name ≠ name) (hr : ∀ l, r = .load l → l.name ≠ name) :
    ∀ l, .load l ∈ done ++ [r] → l.name ≠ name := by
  intro l hl
  rcases List.mem_append.mp hl with hl | hl
  · exact h l hl
  · exact hr l (List.mem_singleton.mp hl).symm

theorem Latest.extend {done pre : List Record} {l : LoadRec} {r : Record}
    (h : Latest done name pre l) (hr : ∀ l', r = .load l' → l'.name ≠ name) :
    Latest (done ++ [r]) name pre l := by
  obtain ⟨hname, post, rfl, hpost⟩ := h
  exact ⟨hname, post ++ [r], by simp, noMatch_extend hpost hr⟩

theorem latest_self (done : List Record) {l : LoadRec} (h : l.name = name) :
    Latest (done ++ [.load l]) name done l :=
  ⟨h, [], rfl, by simp⟩

theorem Found.skip {done : List Record} {r : Record} {s s' : FindState}
    (h : Found name cap done s) (hr : ∀ l', r = .load l' → l'.name ≠ name)
    (hrc : s'.rc = s.rc) (hout : s'.out = s.out) (hbytes : s'.bytes = s.bytes)
    (hlen : s'.bytesLen = s.bytesLen) : Found name cap (done ++ [r]) s' := by
  rcases h with ⟨h1, h2, h3⟩ | ⟨h1, pre, l, hl, h2⟩
  · exact .inl ⟨hrc.trans h1, hlen.trans h2, noMatch_extend h3 hr⟩
  · refine .inr ⟨hrc.trans h1, pre, l, hl.extend hr, ?_⟩
    rw [hout, hbytes, hlen]
    exact h2

/-- The records still in the file at `pos`. -/
def RecordsAt (f : Bytes) (swap : Bool) (pos : ℕ) (todo : List Record) : Prop :=
  f.drop pos = todo.flatMap (Record.bytes swap) ∧ ∀ r ∈ todo, r.total < 2 ^ 32

theorem RecordsAt.head {r : Record} {todo : List Record} (h : RecordsAt f swap p (r :: todo)) :
    RecordAt f swap p r (todo.flatMap (Record.bytes swap)) :=
  ⟨by simpa using h.1, h.2 r List.mem_cons_self⟩

theorem RecordsAt.tail {r : Record} {todo : List Record} (h : RecordsAt f swap p (r :: todo)) :
    RecordsAt f swap (p + r.total) todo :=
  ⟨h.head.next, fun r' hr' => h.2 r' (List.mem_cons_of_mem r hr')⟩

/-- One round of the code reader takes one record. -/
theorem findStep_record {done : List Record} {r : Record} {s : FindState}
    (h : RecordAt f swap s.pos r rest) (hf : Found name cap done s) :
    ∃ s', findStep f swap name cap s = .inl s' ∧ s'.pos = s.pos + r.total ∧
      Found name cap (done ++ [r]) s' := by
  have h16 := r.sixteen_le_total
  unfold findStep
  dsimp only
  rw [if_neg (not_not.mpr h.length_prefix), rd_id, rd_total, h.ts_prefix, h.idAt_eq,
    h.totalAt_eq, if_neg (by omega)]
  have hpos : s.pos + 16 + (r.total - 16) = s.pos + r.total := by omega
  cases r with
  | load l =>
    have hid : (Record.load l).id = jitCodeLoad := rfl
    rw [if_neg (not_not.mpr hid)]
    obtain ⟨reads, hstep⟩ := @findLoad_record _ _ _ name cap _ _
      (s.log (access f s.pos (Record.load l).total s.pos 16)) h
    rw [show (Record.load l).ts = l.ts.toNat from rfl, hstep]
    by_cases hname : l.name = name
    · rw [if_pos hname]
      obtain ⟨s', hs', hp, hrc, hout, hcopy⟩ := @copyCode_record _ _ _ cap _ _
        { s.log (access f s.pos (Record.load l).total s.pos 16) with reads := reads } h
      refine ⟨s', hs', hp, .inr ⟨hrc, done, l, latest_self done hname, hout, ?_⟩⟩
      by_cases hcap : 0 < cap
      · rw [if_pos hcap] at hcopy
        exact hcopy
      · have h0 : s.bytesLen = 0 := by
          rcases hf with ⟨-, h0, -⟩ | ⟨-, _, _, -, -, h0, -⟩
          · exact h0
          · omega
        rw [if_neg hcap] at hcopy
        have hlen : s'.bytesLen = 0 := hcopy.trans h0
        have hc0 : cap = 0 := by omega
        simp [hlen, hc0]
    · rw [if_neg hname]
      refine ⟨_, rfl, rfl, hf.skip ?_ rfl rfl rfl rfl⟩
      rintro l' hl'
      cases hl'
      exact hname
  | debug d =>
    rw [if_pos (by simp [Record.id, jitCodeLoad, jitCodeDebugInfo])]
    exact ⟨_, rfl, hpos, hf.skip (fun l' hl' => by cases hl') rfl rfl rfl rfl⟩
  | other id ts payload hid =>
    have hne : (Record.other id ts payload hid).id ≠ jitCodeLoad := by
      intro hc
      exact hid.1 (BitVec.eq_of_toNat_eq hc)
    rw [if_pos hne]
    exact ⟨_, rfl, hpos, hf.skip (fun l' hl' => by cases hl') rfl rfl rfl rfl⟩

theorem find_records (todo : List Record) (hfit : ∀ r ∈ todo, r.total < 2 ^ 32)
    {done : List Record} {s : FindState} (h : f.drop s.pos = todo.flatMap (Record.bytes swap))
    (hf : Found name cap done s) :
    ∃ s', Rounds (findStep f swap name cap) s s' ∧ f.drop s'.pos = [] ∧
      Found name cap (done ++ todo) s' := by
  have htake : ∀ r todo done (s : FindState), RecordsAt f swap s.pos (r :: todo) →
      Found name cap done s → ∃ s', findStep f swap name cap s = .inl s' ∧
        RecordsAt f swap s'.pos todo ∧ Found name cap (done ++ [r]) s' := by
    intro r todo done s hat hf
    obtain ⟨s', hs', hpos, hf'⟩ := findStep_record hat.head hf
    exact ⟨s', hs', hpos ▸ hat.tail, hf'⟩
  obtain ⟨s', hr, hat, hf'⟩ := rounds_of_items (fun todo s => RecordsAt f swap s.pos todo)
    (Found name cap) htake todo ⟨h, hfit⟩ hf
  exact ⟨s', hr, hat.1, hf'⟩

theorem findStep_end {s : FindState} (h : f.drop s.pos = []) :
    ∃ reads, findStep f swap name cap s = .inr { s with reads := reads } := by
  have hlen : (fread f s.pos 16).length ≠ 16 := by simp [fread, h]
  refine ⟨(s.log (access f s.pos 0 s.pos 16)).reads, ?_⟩
  unfold findStep
  dsimp only
  rw [if_pos hlen]
  rfl

/-! ## The debug reader over a list of records -/

section Debug

variable {l : LoadRec} {d : DebugRec}

theorem readEntries_record {body pad : Bytes} (es : List DebugEntry) {pos : ℕ}
    (raw : List DbgRaw) (seen : List (ℕ × ℕ))
    (h : body.drop pos = es.flatMap (DebugEntry.bytes swap) ++ pad) :
    (readEntries body swap es.length pos raw seen).1 = some (raw ++ es.map DebugEntry.raw) := by
  induction es generalizing pos raw seen with
  | nil => simp [readEntries]
  | cons e es ih =>
    have hlay : body.drop pos = put 8 swap e.addr.toNat ++ (put 4 swap e.line.toNat ++
        (put 4 swap e.discrim.toNat ++ (e.file.bytes ++
          (0 :: (es.flatMap (DebugEntry.bytes swap) ++ pad))))) := by
      rw [h]
      simp [DebugEntry.bytes]
    have haddr := rd_drop_put hlay (toNat64_lt _)
    have h8 : body.drop (pos + 8) = _ := drop_put hlay
    have hline := rd_drop_put h8 (toNat32_lt _)
    have h12 : body.drop (pos + 12) = _ := drop_put (p := pos + 8) h8
    have hdisc := rd_drop_put h12 (toNat32_lt _)
    have h16 : body.drop (pos + 16) = _ := drop_put (p := pos + 12) h12
    have hflen : ((body.drop (pos + 16)).takeWhile (· ≠ 0)) = e.file.bytes := by
      rw [h16]
      exact takeWhile_nul _ _
    have hlen : pos + 16 + e.file.bytes.length + 1 ≤ body.length := by
      have hb := congrArg List.length h16
      simp only [List.length_drop, List.length_append, List.length_cons] at hb
      omega
    have hfile : fread body (pos + 16) e.file.bytes.length = e.file.bytes := fread_block h16
    have hnext : body.drop (pos + 16 + e.file.bytes.length + 1) =
        es.flatMap (DebugEntry.bytes swap) ++ pad := by
      rw [← List.drop_drop, drop_add_length h16]
      rfl
    simp only [List.length_cons]
    unfold readEntries
    dsimp only
    rw [if_neg (by omega), hflen, if_neg (by omega), haddr, hline, hdisc, hfile, ih _ _ hnext]
    simp [DebugEntry.raw]

theorem entries_lt (h : RecordAt f swap p (.debug d) rest) : d.entries.length < 256 ^ 8 := by
  have hle : d.entries.length ≤ (Record.debug d).total := by
    have : d.entries.length ≤ (d.entries.flatMap (DebugEntry.bytes false)).length := by
      rw [List.length_flatMap]
      calc d.entries.length = (d.entries.map fun _ => 1).sum := by simp
        _ ≤ _ := by
          apply List.sum_le_sum
          intro e _
          simp [DebugEntry.bytes]
          omega
    simp only [Record.total, Record.body, DebugRec.body, List.length_append, length_put]
    omega
  have := h.fits
  omega

theorem pendGet_pendPut (a b : ℕ) (raw : List DbgRaw) (t : PendTable) :
    pendGet b (pendPut a raw t) = if a = b then some raw else pendGet b t := by
  induction t with
  | nil => rfl
  | cons q t ih =>
    by_cases hq : q.1 = a
    · by_cases hab : a = b
      · simp [pendPut, pendGet, hq, hab]
      · simp [pendPut, pendGet, hq, hab]
    · by_cases hqb : q.1 = b
      · have hab : a ≠ b := fun hc => hq (hqb.trans hc.symm)
        simp only [pendPut, if_neg hq, pendGet, if_pos hqb, if_neg hab]
      · simp only [pendPut, if_neg hq, pendGet, if_neg hqb, ih]

/-- The table of the last `DEBUG_INFO` record for each address. -/
def Pending (done : List Record) (t : PendTable) : Prop :=
  ∀ a : BitVec 64, pendGet a.toNat t = (lastDebug a done).map (List.map DebugEntry.raw)

theorem lastDebug_concat (a : BitVec 64) (done : List Record) (r : Record) :
    lastDebug a (done ++ [r]) = (debugFor a r).or (lastDebug a done) := by
  simp only [lastDebug, List.reverse_append, List.reverse_singleton, List.singleton_append,
    List.findSome?_cons]
  cases debugFor a r <;> rfl

theorem Pending.skip {done : List Record} {t : PendTable} {r : Record} (h : Pending done t)
    (hr : ∀ a, debugFor a r = none) : Pending (done ++ [r]) t := by
  intro a
  rw [lastDebug_concat, hr a]
  exact h a

theorem Pending.store {done : List Record} {t : PendTable} (h : Pending done t) :
    Pending (done ++ [.debug d])
      (pendPut d.codeAddr.toNat (d.entries.map DebugEntry.raw) t) := by
  intro a
  rw [pendGet_pendPut, lastDebug_concat]
  by_cases ha : d.codeAddr = a
  · simp [debugFor, ha]
  · have hne : d.codeAddr.toNat ≠ a.toNat := fun hc => ha (BitVec.eq_of_toNat_eq hc)
    simp [debugFor, ha, hne, h a]

/-- What the debug reader holds after the records `done`. -/
structure DebugFound (name : CStr) (done : List Record) (s : DbgState) : Prop where
  wellFormed : s.malformed = false
  pending : Pending done s.pend
  found : (s.rc = .enoent ∧ ∀ l, .load l ∈ done → l.name ≠ name) ∨
    (s.rc = .ok ∧ ∃ pre l, Latest done name pre l ∧ s.out = some l.entry ∧
      s.capCodeAddr = l.codeAddr.toNat ∧
      s.capEntries = ((lastDebug l.codeAddr pre).map (List.map DebugEntry.raw)).getD [])

theorem DebugFound.skip {done : List Record} {r : Record} {s s' : DbgState}
    (h : DebugFound name done s) (hr : ∀ l', r = .load l' → l'.name ≠ name)
    (hmal : s'.malformed = s.malformed) (hpend : Pending (done ++ [r]) s'.pend)
    (hrc : s'.rc = s.rc) (hout : s'.out = s.out) (haddr : s'.capCodeAddr = s.capCodeAddr)
    (hcap : s'.capEntries = s.capEntries) : DebugFound name (done ++ [r]) s' := by
  refine ⟨hmal.trans h.wellFormed, hpend, ?_⟩
  rcases h.found with ⟨h1, h2⟩ | ⟨h1, pre, l, hl, h2⟩
  · exact .inl ⟨hrc.trans h1, noMatch_extend h2 hr⟩
  · refine .inr ⟨hrc.trans h1, pre, l, hl.extend hr, ?_⟩
    rw [hout, haddr, hcap]
    exact h2

theorem debugInfo_record {s : DbgState} (h : RecordAt f swap p (.debug d) rest) :
    ∃ reads, debugInfo f swap p (Record.debug d).total s = .inl { s with
      reads := reads
      pend := pendPut d.codeAddr.toNat (d.entries.map DebugEntry.raw) s.pend
      pos := p + (Record.debug d).total } := by
  have hlen := @length_body swap (.debug d)
  have hbody : fread f (p + 16) ((Record.debug d).total - 16) = (Record.debug d).body swap := by
    rw [← hlen, Nat.add_sub_cancel]
    exact fread_block h.body_at
  have hlay : ((Record.debug d).body swap).drop 0 = put 8 swap d.codeAddr.toNat ++
      (put 8 swap d.entries.length ++
        (d.entries.flatMap (DebugEntry.bytes swap) ++ d.pad)) := rfl
  have haddr : rd 8 swap ((Record.debug d).body swap) = d.codeAddr.toNat := by
    have := rd_drop_put hlay (toNat64_lt _)
    simpa using this
  have h8 : ((Record.debug d).body swap).drop 8 = _ := drop_put hlay
  have hnr := rd_drop_put h8 (entries_lt h)
  have h16 : ((Record.debug d).body swap).drop 16 = _ := drop_put h8
  have h32 : 16 ≤ ((Record.debug d).body swap).length := by
    simp [Record.body, DebugRec.body]
    omega
  have hents := @readEntries_record swap _ _ d.entries _ [] [(0, 16)] h16
  generalize hr : readEntries ((Record.debug d).body swap) swap d.entries.length 16 [] [(0, 16)] = r
    at hents
  have hend : p + 16 + ((Record.debug d).total - 16) = p + (Record.debug d).total := by omega
  refine ⟨(s.log (access f p (Record.debug d).total (p + 16)
    ((Record.debug d).total - 16))).reads ++ r.2.map (bodyAccess p (Record.debug d).total), ?_⟩
  unfold debugInfo
  dsimp only
  rw [hbody, if_neg (by omega), if_neg (by omega), haddr, hnr, hr, hents, hend]
  rfl

/-- The debug reader's `LOAD` branch on a complete record. -/
theorem debugLoad_record {s : DbgState} (h : RecordAt f swap p (.load l) rest) :
    ∃ reads, debugLoad f swap name p (Record.load l).total l.ts.toNat s =
      if l.name = name then
        .inl (adopt { s with reads := reads, pos := p + (Record.load l).total } l.entry)
      else .inl { s with reads := reads, pos := p + (Record.load l).total } := by
  obtain ⟨htot, hpos⟩ := load_total_split h
  have hnl : (Record.load l).total - 16 - 40 - l.code.length = nameLenAt f swap p := by omega
  refine ⟨((s.log (access f p (Record.load l).total (p + 16) 40)).log
    (access f p (Record.load l).total (p + 56) (nameLenAt f swap p))).reads, ?_⟩
  have hend : p + 56 + nameLenAt f swap p + l.code.length = p + (Record.load l).total := by omega
  unfold debugLoad
  dsimp only
  rw [if_neg (by omega), rd_codeSize, codeSizeAt_eq h, codeAddr_fixed h, codeIndex_fixed h, hnl,
    if_neg (not_not.mpr (length_fixed h)), if_neg (by omega), if_neg (by omega),
    if_neg (not_not.mpr (length_name h)), fread_name h, hend]
  by_cases hname : l.name = name
  · rw [if_pos ((nameIs_iff _ _).mpr hname), if_pos hname]
    rfl
  · rw [if_neg (fun hc => hname ((nameIs_iff _ _).mp hc)), if_neg hname]
    rfl

/-- One round of the debug reader takes one record. -/
theorem debugStep_record {done : List Record} {r : Record} {s : DbgState}
    (h : RecordAt f swap s.pos r rest) (hf : DebugFound name done s) :
    ∃ s', debugStep f swap name s = .inl s' ∧ s'.pos = s.pos + r.total ∧
      DebugFound name (done ++ [r]) s' := by
  have h16 := r.sixteen_le_total
  unfold debugStep
  dsimp only
  rw [if_neg (not_not.mpr h.length_prefix), rd_id, rd_total, h.ts_prefix, h.idAt_eq,
    h.totalAt_eq, if_neg (by omega)]
  have hpos : s.pos + 16 + (r.total - 16) = s.pos + r.total := by omega
  cases r with
  | load l =>
    have hid : (Record.load l).id = jitCodeLoad := rfl
    have hid' : (Record.load l).id ≠ jitCodeDebugInfo := by
      simp [Record.id, jitCodeLoad, jitCodeDebugInfo]
    have hpend : Pending (done ++ [.load l]) s.pend := hf.pending.skip fun _ => rfl
    rw [if_neg hid', if_neg (not_not.mpr hid)]
    obtain ⟨reads, hstep⟩ := @debugLoad_record _ _ _ name _ _
      (s.log (access f s.pos (Record.load l).total s.pos 16)) h
    rw [show (Record.load l).ts = l.ts.toNat from rfl, hstep]
    by_cases hname : l.name = name
    · rw [if_pos hname]
      refine ⟨_, rfl, rfl, hf.wellFormed, hpend, .inr ⟨rfl, done, l, latest_self done hname, rfl,
        rfl, ?_⟩⟩
      exact congrArg (fun o => Option.getD o []) (hf.pending l.codeAddr)
    · rw [if_neg hname]
      refine ⟨_, rfl, rfl, hf.skip ?_ rfl hpend rfl rfl rfl rfl⟩
      rintro l' hl'
      cases hl'
      exact hname
  | debug d =>
    have hid : (Record.debug d).id = jitCodeDebugInfo := rfl
    rw [if_pos hid]
    obtain ⟨reads, hstep⟩ := debugInfo_record
      (s := s.log (access f s.pos (Record.debug d).total s.pos 16)) h
    rw [hstep]
    exact ⟨_, rfl, rfl, hf.skip (fun l' hl' => by cases hl') rfl hf.pending.store rfl rfl rfl rfl⟩
  | other id ts payload hid =>
    have hne : (Record.other id ts payload hid).id ≠ jitCodeLoad := by
      intro hc
      exact hid.1 (BitVec.eq_of_toNat_eq hc)
    have hne' : (Record.other id ts payload hid).id ≠ jitCodeDebugInfo := by
      intro hc
      exact hid.2 (BitVec.eq_of_toNat_eq hc)
    rw [if_neg hne', if_pos hne]
    exact ⟨_, rfl, hpos, hf.skip (fun l' hl' => by cases hl') rfl
      (hf.pending.skip fun _ => rfl) rfl rfl rfl rfl⟩

theorem debug_records (todo : List Record) (hfit : ∀ r ∈ todo, r.total < 2 ^ 32)
    {done : List Record} {s : DbgState} (h : f.drop s.pos = todo.flatMap (Record.bytes swap))
    (hf : DebugFound name done s) :
    ∃ s', Rounds (debugStep f swap name) s s' ∧ f.drop s'.pos = [] ∧
      DebugFound name (done ++ todo) s' := by
  have htake : ∀ r todo done (s : DbgState), RecordsAt f swap s.pos (r :: todo) →
      DebugFound name done s → ∃ s', debugStep f swap name s = .inl s' ∧
        RecordsAt f swap s'.pos todo ∧ DebugFound name (done ++ [r]) s' := by
    intro r todo done s hat hf
    obtain ⟨s', hs', hpos, hf'⟩ := debugStep_record hat.head hf
    exact ⟨s', hs', hpos ▸ hat.tail, hf'⟩
  obtain ⟨s', hr, hat, hf'⟩ := rounds_of_items (fun todo s => RecordsAt f swap s.pos todo)
    (DebugFound name) htake todo ⟨h, hfit⟩ hf
  exact ⟨s', hr, hat.1, hf'⟩

theorem debugStep_end {s : DbgState} (h : f.drop s.pos = []) :
    ∃ reads, debugStep f swap name s = .inr { s with reads := reads } := by
  have hlen : (fread f s.pos 16).length ≠ 16 := by simp [fread, h]
  refine ⟨(s.log (access f s.pos 0 s.pos 16)).reads, ?_⟩
  unfold debugStep
  dsimp only
  rw [if_pos hlen]
  rfl

end Debug

end AsmTest.Jitdump
