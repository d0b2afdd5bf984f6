import AsmTest.JitdumpFormat

/-!
# The two jitdump lookups

Both readers select the last `LOAD` of the name. The code reader leaves the record it is in
only at a `LOAD` too short for its body, and the debug reader returns rows of an earlier
method only when the address was reused without a `DEBUG_INFO` of its own.
-/

namespace AsmTest.Jitdump

open Endian Scan

variable {name : CStr} {cap dbgCap : ℕ}

/-! ## The header -/

theorem readHeader_dump (d : Dump) : readHeader d.bytes = some (d.swap, d.header.size) := by
  have hlay : d.bytes.drop 0 = put 4 d.swap jitdumpMagic ++ (put 4 d.swap d.header.version.toNat ++
      (put 4 d.swap d.header.size ++ (put 4 d.swap d.header.elfMach.toNat ++
        (put 4 d.swap d.header.pad1.toNat ++ (put 4 d.swap d.header.pid.toNat ++
          (put 8 d.swap d.header.timestamp.toNat ++ (put 8 d.swap d.header.flags.toNat ++
            (d.header.extra ++ d.records.flatMap (Record.bytes d.swap))))))))) := by
    simp only [Dump.bytes, Header.bytes, List.append_assoc, List.drop_zero]
  have h8 := drop_put (p := 4) (drop_put hlay)
  have hsize := rd_drop_put h8 (d.headerFits.trans_eq (by norm_num))
  have hlen : (fread d.bytes 0 40).length = 40 := by
    rw [length_fread]
    simp [Dump.bytes, Header.bytes]
    omega
  have hmagic : rd 4 false (fread d.bytes 0 40) =
      rd 4 false (put 4 d.swap jitdumpMagic ++ []) := by
    have htake : ∀ X : Bytes, (put 4 d.swap jitdumpMagic ++ X).take 4 =
        put 4 d.swap jitdumpMagic := by
      intro X
      rw [List.take_append_of_le_length (by simp), List.take_of_length_le (by simp)]
    rw [rd_fread (by omega), hlay]
    simp only [rd, htake]
  have hdrop : ∀ swap, rd 4 swap ((fread d.bytes 0 40).drop 8) = rd 4 swap (d.bytes.drop 8) := by
    intro swap
    exact rd_drop_fread (p := 0) (by omega)
  unfold readHeader
  dsimp only
  rw [if_neg (not_not.mpr hlen), hmagic, hdrop, hdrop]
  cases hs : d.swap with
  | false =>
    rw [hs] at hsize
    rw [if_pos (by decide)]
    exact congrArg (fun n => some (false, n)) hsize
  | true =>
    rw [hs] at hsize
    rw [if_neg (by decide), if_pos (by decide)]
    exact congrArg (fun n => some (true, n)) hsize

theorem drop_header (d : Dump) :
    d.bytes.drop d.header.size = d.records.flatMap (Record.bytes d.swap) := by
  have hlen : (d.header.bytes d.swap).length = d.header.size := by
    simp [Header.bytes, Header.size]
    omega
  rw [Dump.bytes, ← hlen, List.drop_left]

/-! ## Results for a dump -/

/-- With fuel for the file, the code reader ends with what the records say. -/
theorem find_dump (d : Dump) (name : CStr) (cap : ℕ) : ∃ r,
    (∀ fuel, d.bytes.length < fuel →
      jitdumpFind fuel (some d.bytes) (some name) cap = some r) ∧
    Found name cap d.records r := by
  obtain ⟨s, hr, hend, hf⟩ := @find_records _ _ name cap d.records d.fits []
    { pos := d.header.size } (drop_header d) (.inl ⟨rfl, rfl, by simp⟩)
  obtain ⟨reads, hstop⟩ := @findStep_end _ d.swap name cap _ hend
  obtain ⟨r, hscan⟩ := @find_ends d.bytes d.swap name cap d.header.size
  obtain rfl := eq_of_rounds_stop hr hstop hscan
  refine ⟨{ s with reads := reads }, fun fuel hfuel => ?_, hf⟩
  simp only [jitdumpFind, readHeader_dump]
  exact scan_mono hscan hfuel

theorem debug_dump (d : Dump) (name : CStr) : ∃ s,
    (∀ fuel, d.bytes.length < fuel → ∀ cap,
      jitdumpDebugFind fuel (some d.bytes) (some name) cap = some (debugResult cap s)) ∧
    DebugFound name d.records s := by
  obtain ⟨s, hr, hend, hf⟩ := @debug_records _ _ name d.records d.fits []
    { pos := d.header.size } (drop_header d)
    ⟨rfl, fun a => rfl, .inl ⟨rfl, by simp⟩⟩
  obtain ⟨reads, hstop⟩ := @debugStep_end _ d.swap name _ hend
  obtain ⟨r, hscan⟩ := @debug_ends d.bytes d.swap name d.header.size
  obtain rfl := eq_of_rounds_stop hr hstop hscan
  refine ⟨{ s with reads := reads }, fun fuel hfuel cap => ?_, hf.wellFormed, hf.pending,
    hf.found⟩
  simp only [jitdumpDebugFind, readHeader_dump]
  rw [scan_mono hscan hfuel]
  rfl

theorem Latest.mem {records pre : List Record} {l : LoadRec} (h : Latest records name pre l) :
    .load l ∈ records := by
  obtain ⟨-, post, rfl, -⟩ := h
  simp

theorem Latest.unique {records pre pre' : List Record} {l l' : LoadRec}
    (h : Latest records name pre l) (h' : Latest records name pre' l') : pre = pre' ∧ l = l' := by
  obtain ⟨hn, post, rfl, hpost⟩ := h
  obtain ⟨hn', post', heq, hpost'⟩ := h'
  rcases List.append_eq_append_iff.mp heq with ⟨as, rfl, has⟩ | ⟨as, rfl, has⟩
  · cases as with
    | nil =>
      simp only [List.nil_append, List.cons.injEq, Record.load.injEq] at has
      exact ⟨by simp, has.1⟩
    | cons a as =>
      have hmem : Record.load l' ∈ post := by
        have := congrArg List.tail has
        simp only [List.tail_cons, List.cons_append] at this
        rw [this]
        simp
      exact absurd hn' (hpost l' hmem)
  · cases as with
    | nil =>
      simp only [List.nil_append, List.cons.injEq, Record.load.injEq] at has
      exact ⟨by simp, has.1.symm⟩
    | cons a as =>
      have hmem : Record.load l ∈ post' := by
        have := congrArg List.tail has
        simp only [List.tail_cons, List.cons_append] at this
        rw [this]
        simp
      exact absurd hn (hpost' l hmem)

/-! ## The lookups and their reads -/

/-- What the two lookups return for a dump: the last `LOAD` of the name, for both. -/
structure Lookups (d : Dump) (name : CStr) (cap : ℕ) (r : FindState) (q : DbgResult) : Prop where
  ok_iff : r.rc = .ok ↔ ∃ l, .load l ∈ d.records ∧ l.name = name
  debug_ok_iff : q.rc = .ok ↔ r.rc = .ok
  latest : ∀ pre l, Latest d.records name pre l → r.out = some l.entry ∧ q.out = some l.entry ∧
    r.bytesLen = min l.code.length cap ∧ r.bytes.take r.bytesLen = l.code.take cap

/-- Both lookups come to an end over the bytes `f`, with these results. -/
def Ends (f : Bytes) (name : CStr) (cap dbgCap : ℕ) (r : FindState) (q : DbgResult) : Prop :=
  ∀ fuel, f.length < fuel → jitdumpFind fuel (some f) (some name) cap = some r ∧
    jitdumpDebugFind fuel (some f) (some name) dbgCap = some q

structure JitdumpOk (f : Bytes) : Prop where
  lookup : ∀ d : Dump, d.bytes = f → ∀ name cap dbgCap, ∃ r q,
    Ends f name cap dbgCap r q ∧ Lookups d name cap r q
  safe : ∀ name cap dbgCap, ∃ r q, Ends f name cap dbgCap r q ∧
    (∀ a ∈ r.reads, a.InRecord) ∧ ∀ a ∈ q.reads, a.InRecord

theorem lookups_dump (d : Dump) (name : CStr) (cap dbgCap : ℕ) : ∃ r q,
    Ends d.bytes name cap dbgCap r q ∧ Lookups d name cap r q := by
  obtain ⟨r, hr, hf⟩ := find_dump d name cap
  obtain ⟨s, hs, hd⟩ := debug_dump d name
  have hrc : (debugResult dbgCap s).rc = s.rc := by
    unfold debugResult
    rw [hd.wellFormed]
    rcases hd.found with ⟨h, -⟩ | ⟨h, -⟩ <;> simp [h]
  have hout : (debugResult dbgCap s).out = s.out := by
    unfold debugResult
    split_ifs <;> rfl
  refine ⟨r, debugResult dbgCap s, fun fuel hfuel => ⟨hr fuel hfuel, hs fuel hfuel dbgCap⟩,
    ?_, ?_, ?_⟩
  · constructor
    · intro hok
      rcases hf with ⟨h, -⟩ | ⟨-, pre, l, hl, -⟩
      · rw [h] at hok
        cases hok
      · exact ⟨l, hl.mem, hl.named⟩
    · rintro ⟨l, hl, hname⟩
      rcases hf with ⟨-, -, hno⟩ | ⟨h, -⟩
      · exact absurd hname (hno l hl)
      · exact h
  · rw [hrc]
    rcases hf with ⟨h, -, hno⟩ | ⟨h, pre, l, hl, -⟩ <;>
      rcases hd.found with ⟨h', hno'⟩ | ⟨h', pre', l', hl', -⟩
    · simp [h, h']
    · exact absurd hl'.named (hno l' hl'.mem)
    · exact absurd hl.named (hno' l hl.mem)
    · simp [h, h']
  · intro pre l hl
    rcases hf with ⟨-, -, hno⟩ | ⟨-, pre', l', hl', h1, h2⟩
    · exact absurd hl.named (hno l hl.mem)
    · obtain ⟨rfl, rfl⟩ := hl.unique hl'
      rcases hd.found with ⟨-, hno⟩ | ⟨-, pre', l', hl', h3, -⟩
      · exact absurd hl.named (hno l hl.mem)
      · obtain ⟨rfl, rfl⟩ := hl.unique hl'
        exact ⟨h1, hout.trans h3, h2⟩

/-- The lookups do what they should, and read only the record they are in, exactly when no
`LOAD` that the scan gets to is too short for its body with more bytes behind it. -/
theorem jitdump_lookup_iff (f : Bytes) : JitdumpOk f ↔
    ∀ swap headerSize, readHeader f = some (swap, headerSize) →
      ∀ p, Reached f swap headerSize p → ¬ ShortLoad f swap p := by
  constructor
  · intro hok swap headerSize hh
    obtain ⟨r, q, hends, hin, -⟩ := hok.safe ⟨[], by simp⟩ 0 0
    have hr := (hends (f.length + 1) (Nat.lt_succ_self _)).1
    simp only [jitdumpFind, hh] at hr
    exact (find_inRecord_iff hr).mp hin
  · intro hno
    refine ⟨?_, fun name cap dbgCap => ?_⟩
    · rintro d rfl name cap dbgCap
      exact lookups_dump d name cap dbgCap
    · cases hh : readHeader f with
      | none =>
        refine ⟨{ pos := 0, rc := .einval }, { rc := .einval }, fun fuel _ => ?_, by simp, by simp⟩
        simp [jitdumpFind, jitdumpDebugFind, hh]
      | some h =>
        obtain ⟨swap, headerSize⟩ := h
        obtain ⟨r, hr⟩ := @find_ends f swap name cap headerSize
        obtain ⟨q, hq⟩ := @debug_ends f swap name headerSize
        have hreads : (debugResult dbgCap q).reads = q.reads := by
          unfold debugResult
          split_ifs <;> rfl
        refine ⟨r, debugResult dbgCap q, fun fuel hfuel => ?_,
          (find_inRecord_iff hr).mpr (hno swap headerSize hh), ?_⟩
        · simp only [jitdumpFind, jitdumpDebugFind, hh]
          rw [scan_mono hr hfuel, scan_mono hq hfuel]
          exact ⟨rfl, rfl⟩
        · rw [hreads]
          exact debug_inRecord hq

/-- A `LOAD` of 16 bytes with a record of 16 bytes behind it: its body is read from there. -/
def shortFile : Bytes :=
  (⟨1, 62, 0, 0, 0, 0, []⟩ : Header).bytes false ++
    (put 4 false 0 ++ put 4 false 16 ++ put 8 false 0) ++
    (put 4 false 3 ++ put 4 false 16 ++ put 8 false 0)

theorem jitdump_lookup_short : ¬ JitdumpOk shortFile := by
  intro hok
  obtain ⟨r, q, hends, hin, -⟩ := hok.safe ⟨[], by simp⟩ 0 0
  have hr := (hends 73 (by decide)).1
  have hbad : ((jitdumpFind 73 (some shortFile) (some ⟨[], by simp⟩) 0).map fun r =>
      r.reads.all fun a => decide a.InRecord) = some false := by decide
  rw [hr] at hbad
  simp only [Option.map_some, Option.some.injEq, List.all_eq_false] at hbad
  obtain ⟨a, ha, hno⟩ := hbad
  exact hno (decide_eq_true (hin a ha))

/-! ## Where the rows come from -/

def isLoadAt (addr : BitVec 64) : Record → Bool
  | .load l => l.codeAddr = addr
  | _ => false

/-- The records after the last `LOAD` at an address. -/
def since (addr : BitVec 64) (pre : List Record) : List Record :=
  (pre.reverse.takeWhile fun r => !isLoadAt addr r).reverse

/-- The rows come from one `DEBUG_INFO` for the address after the previous `LOAD` there. -/
def Fresh (addr : BitVec 64) (pre : List Record) (rows : List DbgRow) : Prop :=
  rows = [] ∨ ∃ d, .debug d ∈ since addr pre ∧ d.codeAddr = addr ∧
    ∀ row ∈ rows, row ∈ rowsOf addr.toNat (d.entries.map DebugEntry.raw)

/-- The rows returned for the `LOAD` that the lookup selects are fresh. -/
def NeverStale (d : Dump) (name : CStr) (cap : ℕ) : Prop :=
  ∀ pre l, Latest d.records name pre l → ∃ q,
    (∀ fuel, d.bytes.length < fuel →
      jitdumpDebugFind fuel (some d.bytes) (some name) cap = some q) ∧
    Fresh l.codeAddr pre q.rows

/-- The last `DEBUG_INFO` for the address before the selected `LOAD` comes after the previous
`LOAD` there, or it would give no row. -/
def NotReused (d : Dump) (name : CStr) (cap : ℕ) : Prop :=
  ∀ pre l, Latest d.records name pre l → ∀ es, lastDebug l.codeAddr pre = some es →
    (lastDebug l.codeAddr (since l.codeAddr pre)).isSome ∨ cap = 0 ∨
      ∀ e ∈ es, e.addr.toNat < l.codeAddr.toNat

theorem mem_of_lastDebug {addr : BitVec 64} {records : List Record} {es : List DebugEntry}
    (h : lastDebug addr records = some es) :
    ∃ d, .debug d ∈ records ∧ d.codeAddr = addr ∧ d.entries = es := by
  obtain ⟨r, hr, hd⟩ := List.exists_of_findSome?_eq_some h
  cases r with
  | load l => cases hd
  | other id ts payload hid => cases hd
  | debug d =>
    simp only [debugFor] at hd
    split_ifs at hd with ha
    exact ⟨d, List.mem_reverse.mp hr, ha, Option.some.inj hd⟩

theorem lastDebug_of_mem {addr : BitVec 64} {records : List Record} {d : DebugRec}
    (h : .debug d ∈ records) (ha : d.codeAddr = addr) : (lastDebug addr records).isSome := by
  rw [lastDebug, List.findSome?_isSome_iff]
  exact ⟨.debug d, List.mem_reverse.mpr h, by simp [debugFor, ha]⟩

/-- A record since the last `LOAD` is later than every one before it. -/
theorem lastDebug_since {addr : BitVec 64} {pre : List Record} {es : List DebugEntry}
    (h : lastDebug addr (since addr pre) = some es) : lastDebug addr pre = some es := by
  have hsplit := List.takeWhile_append_dropWhile (p := fun r => !isLoadAt addr r) (l := pre.reverse)
  rw [lastDebug, since, List.reverse_reverse] at h
  rw [lastDebug, ← hsplit, List.findSome?_append, h]
  rfl

theorem debug_rows_dump (d : Dump) (name : CStr) (cap : ℕ) {pre : List Record} {l : LoadRec}
    (hl : Latest d.records name pre l) : ∃ q,
    (∀ fuel, d.bytes.length < fuel →
      jitdumpDebugFind fuel (some d.bytes) (some name) cap = some q) ∧
    q.rows = (rowsOf l.codeAddr.toNat
      (((lastDebug l.codeAddr pre).map (List.map DebugEntry.raw)).getD [])).take cap := by
  obtain ⟨s, hs, hd⟩ := debug_dump d name
  refine ⟨debugResult cap s, fun fuel hfuel => hs fuel hfuel cap, ?_⟩
  rcases hd.found with ⟨-, hno⟩ | ⟨hrc, pre', l', hl', -, haddr, hcap⟩
  · exact absurd hl.named (hno l hl.mem)
  · obtain ⟨rfl, rfl⟩ := hl.unique hl'
    simp only [debugResult, hd.wellFormed, hrc, haddr, hcap, Bool.false_eq_true, if_false, if_true]

theorem rowsOf_take_eq_nil {addr : BitVec 64} {es : List DebugEntry} :
    (rowsOf addr.toNat (es.map DebugEntry.raw)).take cap = [] ↔
      cap = 0 ∨ ∀ e ∈ es, e.addr.toNat < addr.toNat := by
  simp [rowsOf, List.take_eq_nil_iff, List.filter_eq_nil_iff, DebugEntry.raw]

/-- The rows are never stale exactly when no address of a selected `LOAD` was reused without
a `DEBUG_INFO` of its own while rows were pending for it. -/
theorem debug_rows_fresh_iff (d : Dump) (name : CStr) (cap : ℕ) :
    NeverStale d name cap ↔ NotReused d name cap := by
  constructor
  · intro h pre l hl es hes
    obtain ⟨q, hq, hfresh⟩ := h pre l hl
    obtain ⟨q', hq', hrows⟩ := debug_rows_dump d name cap hl
    have hqq : q = q' := Option.some.inj
      ((hq (d.bytes.length + 1) (by omega)).symm.trans (hq' (d.bytes.length + 1) (by omega)))
    subst hqq
    rcases hfresh with hnil | ⟨dr, hmem, ha, -⟩
    · rw [hrows, hes] at hnil
      exact .inr (rowsOf_take_eq_nil.mp hnil)
    · exact .inl (lastDebug_of_mem hmem ha)
  · intro h pre l hl
    obtain ⟨q, hq, hrows⟩ := debug_rows_dump d name cap hl
    refine ⟨q, hq, ?_⟩
    cases hes : lastDebug l.codeAddr pre with
    | none =>
      left
      simp [hrows, hes, rowsOf]
    | some es =>
      rcases h pre l hl es hes with hsome | hempty
      · obtain ⟨es', hes'⟩ := Option.isSome_iff_exists.mp hsome
        obtain rfl : es' = es := Option.some.inj ((lastDebug_since hes').symm.trans hes)
        obtain ⟨dr, hmem, ha, hents⟩ := mem_of_lastDebug hes'
        refine .inr ⟨dr, hmem, ha, fun row hrow => ?_⟩
        rw [hrows, hes] at hrow
        rw [hents]
        exact List.mem_of_mem_take hrow
      · left
        rw [hrows, hes]
        exact rowsOf_take_eq_nil.mpr hempty

/-- `f` is loaded at an address with a row, and `g` is loaded there without one. -/
def staleDump : Dump where
  swap := false
  header := ⟨1, 62, 0, 0, 0, 0, []⟩
  records := [
    .debug ⟨1, 4096, [⟨4096, 10, 0, ⟨[97], by simp⟩⟩], []⟩,
    .load ⟨1, 0, 0, 4096, 4096, 1, ⟨[102], by simp⟩, [195]⟩,
    .load ⟨2, 0, 0, 4096, 4096, 2, ⟨[103], by simp⟩, [195]⟩]
  headerFits := by decide
  fits := by decide

/-- Looked up by its name, `g` gets the row of `f`. -/
theorem debug_rows_stale : ¬ NeverStale staleDump ⟨[103], by simp⟩ 1 := by
  intro h
  have hl : Latest staleDump.records ⟨[103], by simp⟩ (staleDump.records.take 2)
      ⟨2, 0, 0, 4096, 4096, 2, ⟨[103], by simp⟩, [195]⟩ := ⟨rfl, [], rfl, by simp⟩
  obtain ⟨q, hq, hfresh⟩ := h _ _ hl
  obtain ⟨q', hq', hrows⟩ := debug_rows_dump staleDump _ 1 hl
  obtain rfl : q = q' := Option.some.inj
    ((hq (staleDump.bytes.length + 1) (by omega)).symm.trans
      (hq' (staleDump.bytes.length + 1) (by omega)))
  rcases hfresh with hnil | ⟨d, hd, -⟩
  · rw [hrows] at hnil
    exact absurd hnil (by decide)
  · exact absurd hd (by simp [since, staleDump, isLoadAt])

end AsmTest.Jitdump
