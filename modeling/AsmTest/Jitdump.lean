import AsmTest.Lib.CStr
import AsmTest.Lib.Endian
import AsmTest.Lib.Scan

/-!
# The two readers of a jitdump file

`asmtest_jitdump_find` and `asmtest_jitdump_debug_find`, over the bytes of the file. Each
read is logged with the record it belongs to. Allocations succeed; a seek past the end of
the file succeeds, as it does for a regular file.
-/

namespace AsmTest.Jitdump

open Endian Scan

abbrev Bytes := List UInt8

inductive Rc
  | ok
  | enoent
  | einval
  | etrace
  deriving DecidableEq, Repr

/-- `asmtest_jitdump_entry_t` -/
structure Entry where
  codeAddr : ℕ
  codeSize : ℕ
  timestamp : ℕ
  codeIndex : ℕ
  deriving DecidableEq, Repr

/-- Bytes `lo` to `hi` of the file, read for the record at `start` that declares `total`
bytes. -/
structure Access where
  start : ℕ
  total : ℕ
  lo : ℕ
  hi : ℕ
  deriving DecidableEq, Repr

/-- A record has its prefix of 16 bytes and what its size declares. -/
def Access.InRecord (a : Access) : Prop :=
  a.start ≤ a.lo ∧ a.hi ≤ a.start + max 16 a.total

instance (a : Access) : Decidable a.InRecord := inferInstanceAs (Decidable (_ ∧ _))

def fread (f : Bytes) (pos n : ℕ) : Bytes := (f.drop pos).take n

/-- What `fread` of `n` bytes at `pos` reads, for the record at `start`. -/
def access (f : Bytes) (start total pos n : ℕ) : Access :=
  ⟨start, total, pos, min (pos + n) f.length⟩

/-- `strcmp` with the buffer whose last byte is set to zero. -/
def nameIs (nm : Bytes) (name : CStr) : Bool :=
  (nm.dropLast ++ [0]).takeWhile (· ≠ 0) = name.bytes

def jitdumpMagic : ℕ := 0x4A695444
def jitdumpMagicSw : ℕ := 0x4454694A
def jitCodeLoad : ℕ := 0
def jitCodeDebugInfo : ℕ := 2

/-- The byte order and `header_size`, where the scan begins. -/
def readHeader (f : Bytes) : Option (Bool × ℕ) :=
  let hdr := fread f 0 40
  if hdr.length ≠ 40 then none
  else if rd 4 false hdr = jitdumpMagic then some (false, rd 4 false (hdr.drop 8))
  else if rd 4 false hdr = jitdumpMagicSw then some (true, rd 4 true (hdr.drop 8))
  else none

/-! ## The code reader -/

/-- `bytes` is what `bytes_out` holds from its start. -/
structure FindState where
  pos : ℕ
  rc : Rc := .enoent
  out : Option Entry := none
  bytes : Bytes := []
  bytesLen : ℕ := 0
  reads : List Access := []
  deriving DecidableEq, Repr

def FindState.log (s : FindState) (a : Access) : FindState :=
  { s with reads := s.reads ++ [a] }

/-- The copy of a matching record's code, its bytes at `pos`. `cap` is `bytes_cap`, and zero
when `bytes_out` is null. -/
def copyCode (f : Bytes) (cap start total pos : ℕ) (e : Entry) (s : FindState) :
    FindState ⊕ FindState :=
  let s := { s with rc := .ok, out := some e }
  if 0 < cap then
    let cpy := if e.codeSize < cap then e.codeSize else cap
    let got := fread f pos cpy
    let s := { s.log (access f start total pos cpy) with
      bytes := got ++ s.bytes.drop got.length }
    if got.length ≠ cpy then .inr { s with rc := .etrace }
    else .inl { s with bytesLen := cpy, pos := pos + e.codeSize }
  else .inl { s with pos := pos + e.codeSize }

/-- The branch of a `JIT_CODE_LOAD` record. -/
def findLoad (f : Bytes) (swap : Bool) (name : CStr) (cap start total ts : ℕ)
    (s : FindState) : FindState ⊕ FindState :=
  -- the body is read before `total` is known to hold it
  let fx := fread f (start + 16) 40
  let s := s.log (access f start total (start + 16) 40)
  if fx.length ≠ 40 then .inr s
  else
    let codeAddr := rd 8 swap (fx.drop 16)
    let codeSize := rd 8 swap (fx.drop 24)
    let codeIndex := rd 8 swap (fx.drop 32)
    if total < 56 ∨ total - 56 < codeSize then .inr s
    else if total - 56 - codeSize = 0 then .inr s
    else
      let nameLen := total - 56 - codeSize
      let nm := fread f (start + 56) nameLen
      let s := s.log (access f start total (start + 56) nameLen)
      if nm.length ≠ nameLen then .inr s
      else if nameIs nm name then
        copyCode f cap start total (start + 56 + nameLen) ⟨codeAddr, codeSize, ts, codeIndex⟩ s
      else .inl { s with pos := start + 56 + nameLen + codeSize }

/-- One round of the loop of `asmtest_jitdump_find`. -/
def findStep (f : Bytes) (swap : Bool) (name : CStr) (cap : ℕ) (s : FindState) :
    FindState ⊕ FindState :=
  let start := s.pos
  let pre := fread f start 16
  if pre.length ≠ 16 then .inr (s.log (access f start 0 start 16))
  else
    let id := rd 4 swap pre
    let total := rd 4 swap (pre.drop 4)
    let ts := rd 8 swap (pre.drop 8)
    let s := s.log (access f start total start 16)
    if total < 16 then .inr s
    else if id ≠ jitCodeLoad then .inl { s with pos := start + 16 + (total - 16) }
    else findLoad f swap name cap start total ts s

/-- `asmtest_jitdump_find` on the bytes of the file, if it can be opened. -/
def jitdumpFind (fuel : ℕ) (file : Option Bytes) (name : Option CStr) (cap : ℕ) :
    Option FindState :=
  match name, file with
  | none, _ => some { pos := 0, rc := .einval }
  | some _, none => some { pos := 0, rc := .enoent }
  | some name, some f =>
    match readHeader f with
    | none => some { pos := 0, rc := .einval }
    | some (swap, headerSize) => scan (findStep f swap name cap) fuel { pos := headerSize }

/-! ## The debug reader -/

/-- `jd_dbg_raw_t`, the file name up to 127 bytes -/
structure DbgRaw where
  addr : ℕ
  line : ℕ
  discrim : ℕ
  file : Bytes
  deriving DecidableEq, Repr

/-- `asmtest_jitdump_debug_t` -/
structure DbgRow where
  off : ℕ
  line : ℕ
  discrim : ℕ
  file : Bytes
  deriving DecidableEq, Repr

def fileCap : ℕ := 127

/-- The loop over `nr_entry` entries of a body: the entries, or `none` when it is malformed,
and the bytes of the body it looked at. -/
def readEntries (body : Bytes) (swap : Bool) :
    ℕ → ℕ → List DbgRaw → List (ℕ × ℕ) → Option (List DbgRaw) × List (ℕ × ℕ)
  | 0, _, raw, seen => (some raw, seen)
  | k + 1, pos, raw, seen =>
    if body.length < pos + 16 then (none, seen)
    else
      let eaddr := rd 8 swap (body.drop pos)
      let lineno := rd 4 swap (body.drop (pos + 8))
      let discr := rd 4 swap (body.drop (pos + 12))
      let seen := seen ++ [(pos, pos + 16)]
      let fstart := pos + 16
      let flen := ((body.drop fstart).takeWhile (· ≠ 0)).length
      if body.length ≤ fstart + flen then (none, seen ++ [(fstart, body.length)])
      else
        readEntries body swap k (fstart + flen + 1)
          (raw ++ [⟨eaddr, lineno, discr, (fread body fstart flen).take fileCap⟩])
          (seen ++ [(fstart, fstart + flen + 1)])

abbrev PendTable := List (ℕ × List DbgRaw)

/-- Store into pending, replacing any prior record for the address. -/
def pendPut (addr : ℕ) (raw : List DbgRaw) : PendTable → PendTable
  | [] => [(addr, raw)]
  | p :: ps => if p.1 = addr then (addr, raw) :: ps else p :: pendPut addr raw ps

def pendGet (addr : ℕ) : PendTable → Option (List DbgRaw)
  | [] => none
  | p :: ps => if p.1 = addr then some p.2 else pendGet addr ps

structure DbgState where
  pos : ℕ
  pend : PendTable := []
  capEntries : List DbgRaw := []
  capCodeAddr : ℕ := 0
  rc : Rc := .enoent
  malformed : Bool := false
  out : Option Entry := none
  reads : List Access := []
  deriving DecidableEq, Repr

def DbgState.log (s : DbgState) (a : Access) : DbgState :=
  { s with reads := s.reads ++ [a] }

/-- Bytes `p.1` to `p.2` of the body of the record at `start`. -/
def bodyAccess (start total : ℕ) (p : ℕ × ℕ) : Access :=
  ⟨start, total, start + 16 + p.1, start + 16 + p.2⟩

/-- The branch of a `JIT_CODE_DEBUG_INFO` record. -/
def debugInfo (f : Bytes) (swap : Bool) (start total : ℕ) (s : DbgState) :
    DbgState ⊕ DbgState :=
  let bodySize := total - 16
  let body := fread f (start + 16) bodySize
  let s := s.log (access f start total (start + 16) bodySize)
  if body.length ≠ bodySize then .inr s
  else if bodySize < 16 then .inr { s with malformed := true }
  else
    let codeAddr := rd 8 swap body
    let nrEntry := rd 8 swap (body.drop 8)
    let r := readEntries body swap nrEntry 16 [] [(0, 16)]
    let s := { s with
      reads := s.reads ++ r.2.map (bodyAccess start total) }
    match r.1 with
    | none => .inr { s with malformed := true }
    | some raw =>
      .inl { s with pend := pendPut codeAddr raw s.pend, pos := start + 16 + bodySize }

/-- A matching `LOAD`: adopt the entries pending for its address. -/
def adopt (s : DbgState) (e : Entry) : DbgState :=
  { s with
    rc := .ok
    out := some e
    capCodeAddr := e.codeAddr
    capEntries := (pendGet e.codeAddr s.pend).getD [] }

/-- The branch of a `JIT_CODE_LOAD` record. -/
def debugLoad (f : Bytes) (swap : Bool) (name : CStr) (start total ts : ℕ) (s : DbgState) :
    DbgState ⊕ DbgState :=
  let bodySize := total - 16
  if bodySize < 40 then .inr s
  else
    let fx := fread f (start + 16) 40
    let s := s.log (access f start total (start + 16) 40)
    if fx.length ≠ 40 then .inr s
    else
      let codeAddr := rd 8 swap (fx.drop 16)
      let codeSize := rd 8 swap (fx.drop 24)
      let codeIndex := rd 8 swap (fx.drop 32)
      if bodySize - 40 < codeSize then .inr s
      else if bodySize - 40 - codeSize = 0 then .inr s
      else
        let nameLen := bodySize - 40 - codeSize
        let nm := fread f (start + 56) nameLen
        let s := s.log (access f start total (start + 56) nameLen)
        if nm.length ≠ nameLen then .inr s
        else
          let s := { s with pos := start + 56 + nameLen + codeSize }
          if nameIs nm name then .inl (adopt s ⟨codeAddr, codeSize, ts, codeIndex⟩)
          else .inl s

/-- One round of the loop of `asmtest_jitdump_debug_find`. -/
def debugStep (f : Bytes) (swap : Bool) (name : CStr) (s : DbgState) : DbgState ⊕ DbgState :=
  let start := s.pos
  let pre := fread f start 16
  if pre.length ≠ 16 then .inr (s.log (access f start 0 start 16))
  else
    let id := rd 4 swap pre
    let total := rd 4 swap (pre.drop 4)
    let s := s.log (access f start total start 16)
    if total < 16 then .inr s
    else if id = jitCodeDebugInfo then debugInfo f swap start total s
    else if id ≠ jitCodeLoad then .inl { s with pos := start + 16 + (total - 16) }
    else debugLoad f swap name start total (rd 8 swap (pre.drop 8)) s

/-- The rows of the entries at or above the code address; `strlen` cannot exceed the room of
a row's file name, which has the size of the entry's. -/
def rowsOf (codeAddr : ℕ) (raw : List DbgRaw) : List DbgRow :=
  (raw.filter fun r => codeAddr ≤ r.addr).map fun r =>
    ⟨r.addr - codeAddr, r.line, r.discrim, r.file⟩

structure DbgResult where
  rc : Rc
  out : Option Entry := none
  rows : List DbgRow := []
  reads : List Access := []
  deriving DecidableEq, Repr

/-- After the loop. `cap` is `dbg_cap`, and zero when `dbg` is null. -/
def debugResult (cap : ℕ) (s : DbgState) : DbgResult :=
  if s.malformed then ⟨.einval, s.out, [], s.reads⟩
  else if s.rc = .ok then ⟨.ok, s.out, (rowsOf s.capCodeAddr s.capEntries).take cap, s.reads⟩
  else ⟨s.rc, s.out, [], s.reads⟩

/-- `asmtest_jitdump_debug_find` -/
def jitdumpDebugFind (fuel : ℕ) (file : Option Bytes) (name : Option CStr) (cap : ℕ) :
    Option DbgResult :=
  match name, file with
  | none, _ => some { rc := .einval }
  | some _, none => some { rc := .enoent }
  | some name, some f =>
    match readHeader f with
    | none => some { rc := .einval }
    | some (swap, headerSize) =>
      (scan (debugStep f swap name) fuel { pos := headerSize }).map (debugResult cap)

end AsmTest.Jitdump
