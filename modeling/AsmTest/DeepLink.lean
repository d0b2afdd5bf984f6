import AsmTest.Lib.Numeral

/-!
# Deep links (desktop/src/nav.cpp)

A position in a recording as a text that can be pasted, and the parser that reads it back.
Both work on bytes, as the strings of the source do.
-/

namespace AsmTest.Nav

open AsmTest.Lib AsmTest.Lib.Numeral

inductive DtView where
  | canvas | timeline | slice | diff | syscalls | watch | topo | hotedges | tree | region | disasm
  | blame
  deriving DecidableEq

structure DtLink where
  recId : Bytes := []
  recB : Bytes := []
  view : DtView := .canvas
  step : Option UInt32 := none
  off : Option UInt64 := none
  pid : Option ℤ := none
  invocation : Option UInt32 := none

def kScheme : Bytes := ascii "asmtrace-link:"

def plainByte (c : UInt8) : Bool :=
  (97 ≤ c && c ≤ 122) || (65 ≤ c && c ≤ 90) || (48 ≤ c && c ≤ 57) ||
    c == 45 || c == 95 || c == 46 || c == 126 || c == 47

/-- A digit of `"0123456789ABCDEF"` -/
def upperHex (n : ℕ) : UInt8 := if n < 10 then UInt8.ofNat (48 + n) else UInt8.ofNat (55 + n)

def encByte (c : UInt8) : Bytes :=
  if plainByte c then [c] else [37, upperHex (c.toNat / 16), upperHex (c.toNat % 16)]

/-- Percent-encodes everything outside the unreserved set. -/
def enc (s : Bytes) : Bytes := s.flatMap encByte

/-- `none` on a malformed escape -/
def dec : Bytes → Option Bytes
  | [] => some []
  | c :: s =>
    if c = 37 then
      match s with
      | h :: l :: s =>
        match hexVal h, hexVal l with
        | some h, some l => (dec s).map fun t => UInt8.ofNat (h * 16 + l) :: t
        | _, _ => none
      | _ => none
    else (dec s).map fun t => c :: t

/-- Is the text one of base sixteen? -/
def hexText : Bytes → Bool
  | 48 :: x :: _ :: _ => x == 120 || x == 88
  | _ => false

/-- Decimal or 0x-hex, up to the first NUL as in a C string -/
def parseU64 (s : Bytes) : Option UInt64 :=
  if s = [] then none
  else
    let p := if hexText s then s.drop 2 else s
    match strtoull (if hexText s then 16 else 10) (p.takeWhile (· ≠ 0)) with
    | some (v, []) => some v
    | _ => none

def kViewNames : List (DtView × Bytes) :=
  [(.canvas, ascii "canvas"), (.timeline, ascii "timeline"), (.slice, ascii "slice"),
    (.diff, ascii "diff"), (.syscalls, ascii "syscalls"), (.watch, ascii "watch"),
    (.topo, ascii "topo"), (.hotedges, ascii "hotedges"), (.tree, ascii "tree"),
    (.region, ascii "region"), (.disasm, ascii "disasm"), (.blame, ascii "blame")]

def dtViewName (v : DtView) : Bytes :=
  match kViewNames.find? fun n => n.1 = v with
  | some n => n.2
  | none => ascii "canvas"

def dtViewParse (s : Bytes) : Option DtView :=
  (kViewNames.find? fun n => n.2 = s).map Prod.fst

/-- What the fields read so far say. -/
structure Parsed where
  link : DtLink := {}
  haveView : Bool := false
  haveRec : Bool := false

def unknownView (value : Bytes) : Bytes :=
  ascii "unknown view \"" ++ value ++ ascii "\" (expected one of: " ++
    (ascii ", ").intercalate (kViewNames.map Prod.snd) ++ ascii ")"

/-- A field by its key. An unknown key is ignored. -/
def setField (st : Parsed) (key value : Bytes) : Except Bytes Parsed :=
  if key = ascii "v" then
    match dtViewParse value with
    | none => .error (unknownView value)
    | some v => .ok { st with link := { st.link with view := v }, haveView := true }
  else if key = ascii "rec" then
    .ok { st with link := { st.link with recId := value }, haveRec := !value.isEmpty }
  else if key = ascii "rec_b" then
    .ok { st with link := { st.link with recB := value } }
  else if key = ascii "step" then
    match parseU64 value with
    | some v =>
      if v ≤ 0xFFFFFFFF then .ok { st with link := { st.link with step := some v.toUInt32 } }
      else .error (ascii "step \"" ++ value ++ ascii "\" is not a 32-bit step index")
    | none => .error (ascii "step \"" ++ value ++ ascii "\" is not a 32-bit step index")
  else if key = ascii "off" then
    match parseU64 value with
    | some v => .ok { st with link := { st.link with off := some v } }
    | none => .error (ascii "off \"" ++ value ++ ascii "\" is not an offset")
  else if key = ascii "pid" then
    match parseU64 value with
    | some v =>
      if v = 0 ∨ 0x7FFFFFFF < v then
        .error (ascii "pid \"" ++ value ++ ascii "\" is not a process id")
      else .ok { st with link := { st.link with pid := some v.toNat } }
    | none => .error (ascii "pid \"" ++ value ++ ascii "\" is not a process id")
  else if key = ascii "invocation" then
    match parseU64 value with
    | some v =>
      if v ≤ 0xFFFFFFFF then
        .ok { st with link := { st.link with invocation := some v.toUInt32 } }
      else .error (ascii "invocation \"" ++ value ++ ascii "\" is not a 32-bit index")
    | none => .error (ascii "invocation \"" ++ value ++ ascii "\" is not a 32-bit index")
  else .ok st

def parseField (st : Parsed) (pair : Bytes) : Except Bytes Parsed :=
  if pair = [] then .ok st
  else if pair.contains 61 = false then
    .error (ascii "link field \"" ++ pair ++ ascii "\" has no value")
  else
    let key := pair.takeWhile (· ≠ 61)
    match dec ((pair.dropWhile (· ≠ 61)).drop 1) with
    | none => .error (ascii "link field \"" ++ key ++ ascii "\" has a malformed % escape")
    | some value => setField st key value

/-- The end of the parse: the two fields that make a link mean anything. -/
def finishParse (st : Parsed) : Except Bytes DtLink :=
  if st.haveView = false then .error (ascii "link has no view (v=canvas|timeline|slice|diff)")
  else if st.haveRec = false then .error (ascii "link names no recording (rec=<id>)")
  else .ok st.link

def dtNavParse (s : Bytes) : Except Bytes DtLink :=
  if s.take kScheme.length ≠ kScheme then
    .error (ascii "not an asmtrace link: it must start with \"" ++ kScheme ++ ascii "\"")
  else
    ((s.drop kScheme.length).splitOn 38).foldlM parseField {} >>= finishParse

/-- The fields after the view, in their fixed order. -/
def linkFields (link : DtLink) : List Bytes :=
  [ascii "rec=" ++ enc link.recId] ++
    (if link.recB ≠ [] then [ascii "rec_b=" ++ enc link.recB] else []) ++
    (link.step.map fun n => ascii "step=" ++ numeral 10 n.toNat).toList ++
    (link.off.map fun n => ascii "off=0x" ++ numeral 16 n.toNat).toList ++
    (link.pid.map fun n => ascii "pid=" ++ decimalInt n).toList ++
    (link.invocation.map fun n => ascii "invocation=" ++ numeral 10 n.toNat).toList

def dtNavFormat (link : DtLink) : Bytes :=
  kScheme ++ ascii "v=" ++ dtViewName link.view ++
    (linkFields link).flatMap fun f => ascii "&" ++ f

/-- What makes a link one that can be followed. -/
def DtLink.Navigable (link : DtLink) : Prop :=
  link.recId ≠ [] ∧ ∀ n ∈ link.pid, 1 ≤ n ∧ n ≤ 0x7FFFFFFF

section Escapes

theorem hexVal_upperHex : ∀ n < 16, hexVal (upperHex n) = some n := by
  decide

theorem plain_ne_percent (c : UInt8) (h : plainByte c = true) : c ≠ 37 := by
  rintro rfl
  exact absurd h (by decide)

theorem upperHex_ne_amp : ∀ n < 16, upperHex n ≠ 38 := by
  decide

theorem amp_notMem_encByte (c : UInt8) : 38 ∉ encByte c := by
  have hc := c.toNat_lt
  unfold encByte
  split
  · rename_i h
    rw [List.mem_singleton]
    rintro rfl
    exact absurd h (by decide)
  · have hhi := upperHex_ne_amp (c.toNat / 16) (by omega)
    have hlo := upperHex_ne_amp (c.toNat % 16) (by omega)
    simp [hhi.symm, hlo.symm]

theorem amp_notMem_enc (s : Bytes) : 38 ∉ enc s := by
  intro h
  obtain ⟨c, -, hc⟩ := List.mem_flatMap.1 h
  exact amp_notMem_encByte c hc

theorem dec_cons {c : UInt8} (h : c ≠ 37) (s : Bytes) : dec (c :: s) = (dec s).map (c :: ·) := by
  rw [dec.eq_def]
  exact if_neg h

theorem dec_encByte (c : UInt8) (s : Bytes) : dec (encByte c ++ s) = (dec s).map (c :: ·) := by
  unfold encByte
  split
  · rename_i h
    exact dec_cons (plain_ne_percent c h) s
  · have hc := c.toNat_lt
    have hb : UInt8.ofNat (c.toNat / 16 * 16 + c.toNat % 16) = c := by
      rw [Nat.div_add_mod' c.toNat 16, UInt8.ofNat_toNat]
    simp only [List.cons_append, List.nil_append, dec, if_true, hb,
      hexVal_upperHex (c.toNat / 16) (by omega), hexVal_upperHex (c.toNat % 16) (by omega)]

theorem dec_enc (s : Bytes) : dec (enc s) = some s := by
  induction s with
  | nil => rfl
  | cons c s ih => rw [enc, List.flatMap_cons, ← enc, dec_encByte, ih, Option.map_some]

theorem dec_plain {s : Bytes} (h : 37 ∉ s) : dec s = some s := by
  induction s with
  | nil => rfl
  | cons c s ih =>
    rw [List.mem_cons, not_or] at h
    rw [dec_cons (Ne.symm h.1), ih h.2, Option.map_some]

end Escapes

section Numbers

variable {b n : ℕ}

theorem notMem_numeral (hb : 1 < b) (hb' : b ≤ 16) :
    0 ∉ numeral b n ∧ 38 ∉ numeral b n ∧ 37 ∉ numeral b n := by
  have hd : ∀ c ∈ numeral b n, _ := fun c hc =>
    digit_plain c (digit_sixteen hb' (isSome_of_mem_numeral hb hb' hc))
  refine ⟨fun h => ?_, fun h => ?_, fun h => ?_⟩
  · exact (hd _ h).2.2.2.2.2.1 rfl
  · exact (hd _ h).2.2.2.2.2.2.1 rfl
  · exact (hd _ h).2.2.2.2.2.2.2.2 rfl

theorem takeWhile_numeral (hb : 1 < b) (hb' : b ≤ 16) :
    (numeral b n).takeWhile (· ≠ 0) = numeral b n := by
  apply List.takeWhile_eq_self_iff.2
  intro c hc
  have h0 := (notMem_numeral (n := n) hb hb').1
  simpa using fun h : c = 0 => h0 (h ▸ hc)

theorem hexText_numeral : hexText (numeral 10 n) = false := by
  unfold hexText
  split
  · rename_i x d s hs
    have hx : x ∈ numeral 10 n := by rw [hs]; simp
    have h16 := digit_sixteen (by omega) (isSome_of_mem_numeral (by omega) (by omega) hx)
    have hd := digit_plain x h16
    simp [hd.2.2.2.1, hd.2.2.2.2.1]
  · rfl

theorem parseU64_decimal (v : UInt64) : parseU64 (numeral 10 v.toNat) = some v := by
  have hne := numeral_ne_nil (b := 10) (n := v.toNat) (by omega) (by omega)
  have hr := strtoull_numeral (b := 10) (by omega) (by omega) v.toNat_lt
  simp only [parseU64, if_neg hne, hexText_numeral, Bool.false_eq_true, if_false, ne_eq,
    takeWhile_numeral (b := 10) (n := v.toNat) (by omega) (by omega), hr, UInt64.ofNat_toNat]

theorem parseU64_hex (v : UInt64) : parseU64 (48 :: 120 :: numeral 16 v.toNat) = some v := by
  have hne := numeral_ne_nil (b := 16) (n := v.toNat) (by omega) (by omega)
  have hr := strtoull_numeral (b := 16) (by omega) (by omega) v.toNat_lt
  have hx : hexText (48 :: 120 :: numeral 16 v.toNat) = true := by
    cases hs : numeral 16 v.toNat with
    | nil => exact absurd hs hne
    | cons d s => rfl
  have htake := takeWhile_numeral (b := 16) (n := v.toNat) (by omega) (by omega)
  rw [parseU64, if_neg (List.cons_ne_nil _ _)]
  simp only [hx, if_true, List.drop_succ_cons, List.drop_zero, htake, hr, UInt64.ofNat_toNat]

end Numbers

section Fields

theorem parseField_pair (st : Parsed) (key : Bytes) {text value : Bytes} (hk : 61 ∉ key)
    (hv : dec text = some value) : parseField st (key ++ 61 :: text) = setField st key value := by
  have hne : ∀ c ∈ key, decide (c ≠ 61) = true := fun c hc =>
    decide_eq_true fun h => hk (h ▸ hc)
  have htake : (key ++ 61 :: text).takeWhile (· ≠ 61) = key := by
    rw [List.takeWhile_append_of_pos hne]
    simp
  have hdrop : ((key ++ 61 :: text).dropWhile (· ≠ 61)).drop 1 = text := by
    rw [List.dropWhile_append_of_pos hne]
    simp
  rw [parseField, if_neg (by simp), if_neg (by simp), htake, hdrop, hv]

theorem dtViewParse_name (v : DtView) : dtViewParse (dtViewName v) = some v := by
  cases v <;> decide

theorem plain_dtViewName (v : DtView) : 37 ∉ dtViewName v ∧ 38 ∉ dtViewName v := by
  cases v <;> decide

theorem parseField_view (st : Parsed) (v : DtView) :
    parseField st (ascii "v=" ++ dtViewName v) =
      .ok { st with link := { st.link with view := v }, haveView := true } := by
  have hp := parseField_pair st (ascii "v") (by decide) (dec_plain (plain_dtViewName v).1)
  refine hp.trans ?_
  rw [setField, if_pos rfl, dtViewParse_name]

theorem parseField_rec (st : Parsed) (s : Bytes) :
    parseField st (ascii "rec=" ++ enc s) =
      .ok { st with link := { st.link with recId := s }, haveRec := !s.isEmpty } := by
  have hp := parseField_pair st (ascii "rec") (by decide) (dec_enc s)
  exact hp

theorem parseField_recB (st : Parsed) (s : Bytes) :
    parseField st (ascii "rec_b=" ++ enc s) =
      .ok { st with link := { st.link with recB := s } } := by
  have hp := parseField_pair st (ascii "rec_b") (by decide) (dec_enc s)
  exact hp

theorem dec_numeral {b n : ℕ} (hb : 1 < b) (hb' : b ≤ 16) :
    dec (numeral b n) = some (numeral b n) := dec_plain (notMem_numeral hb hb').2.2

theorem toUInt32_toUInt64 (n : UInt32) : n.toUInt64 ≤ 0xFFFFFFFF ∧ n.toUInt64.toUInt32 = n := by
  have h := n.toNat_lt
  refine ⟨?_, by simp⟩
  apply UInt64.le_iff_toNat_le.2
  rw [UInt32.toNat_toUInt64]
  change n.toNat ≤ 4294967295
  omega

theorem parseU64_index (n : UInt32) : parseU64 (numeral 10 n.toNat) = some n.toUInt64 := by
  rw [← UInt32.toNat_toUInt64, parseU64_decimal]

theorem parseField_step (st : Parsed) (n : UInt32) :
    parseField st (ascii "step=" ++ numeral 10 n.toNat) =
      .ok { st with link := { st.link with step := some n } } := by
  have hd : dec (numeral 10 n.toNat) = _ := dec_numeral (by omega) (by omega)
  have hp := parseField_pair st (ascii "step") (by decide) hd
  apply hp.trans
  simp only [setField, parseU64_index, if_pos (toUInt32_toUInt64 n).1, (toUInt32_toUInt64 n).2]
  rfl

theorem parseField_off (st : Parsed) (n : UInt64) :
    parseField st (ascii "off=0x" ++ numeral 16 n.toNat) =
      .ok { st with link := { st.link with off := some n } } := by
  have hd : dec (48 :: 120 :: numeral 16 n.toNat) = some (48 :: 120 :: numeral 16 n.toNat) := by
    rw [dec_cons (by decide), dec_cons (by decide), dec_numeral (by omega) (by omega)]
    rfl
  have hp := parseField_pair st (ascii "off") (by decide) hd
  apply hp.trans
  simp only [setField, parseU64_hex]
  rfl

theorem parseField_invocation (st : Parsed) (n : UInt32) :
    parseField st (ascii "invocation=" ++ numeral 10 n.toNat) =
      .ok { st with link := { st.link with invocation := some n } } := by
  have hd : dec (numeral 10 n.toNat) = _ := dec_numeral (by omega) (by omega)
  have hp := parseField_pair st (ascii "invocation") (by decide) hd
  apply hp.trans
  simp only [setField, parseU64_index, if_pos (toUInt32_toUInt64 n).1, (toUInt32_toUInt64 n).2]
  rfl

theorem parseField_pid (st : Parsed) {n : ℤ} (h : 1 ≤ n ∧ n ≤ 0x7FFFFFFF) :
    parseField st (ascii "pid=" ++ decimalInt n) =
      .ok { st with link := { st.link with pid := some n } } := by
  obtain ⟨k, rfl⟩ := Int.eq_ofNat_of_zero_le (show 0 ≤ n by omega)
  have hk : (UInt64.ofNat k).toNat = k := UInt64.toNat_ofNat_of_lt' (show k < 2 ^ 64 by omega)
  have hd : dec (numeral 10 k) = some (numeral 10 k) := dec_numeral (by omega) (by omega)
  have hp := parseField_pair st (ascii "pid") (by decide) hd
  apply hp.trans
  have hr := parseU64_decimal (UInt64.ofNat k)
  rw [hk] at hr
  have hrange : ¬(UInt64.ofNat k = 0 ∨ 0x7FFFFFFF < UInt64.ofNat k) := by
    rw [← UInt64.toNat_inj, UInt64.lt_iff_toNat_lt, hk]
    change ¬(k = 0 ∨ 2147483647 < k)
    omega
  simp only [setField, hr, if_neg hrange, hk]
  rfl

theorem foldlM_one {st st' : Parsed} {f : Bytes} (h : parseField st f = .ok st') :
    [f].foldlM parseField st = .ok st' := by
  rw [List.foldlM_cons, h]
  rfl

/-- An optional field, at its place in the list. -/
theorem foldlM_option {α : Type} (o : Option α) (text : α → Bytes) (set : Parsed → α → Parsed)
    (h : ∀ st, ∀ a ∈ o, parseField st (text a) = .ok (set st a)) (st : Parsed) :
    (o.map text).toList.foldlM parseField st = .ok (o.elim st (set st)) := by
  cases o with
  | none => rfl
  | some a => exact foldlM_one (h st a rfl)

theorem amp_notMem_field {key text : Bytes} (hk : 38 ∉ key) (ht : 38 ∉ text) :
    38 ∉ key ++ text := by
  intro h
  exact (List.mem_append.1 h).elim hk ht

theorem amp_notMem_decimalInt (n : ℤ) : 38 ∉ decimalInt n := by
  cases n with
  | ofNat n => exact (notMem_numeral (b := 10) (by omega) (by omega)).2.1
  | negSucc n =>
    apply List.not_mem_cons_of_ne_of_not_mem (by decide)
    exact (notMem_numeral (b := 10) (by omega) (by omega)).2.1

/-- No field of a link holds the separator, so that the fields are told apart. -/
theorem amp_notMem_linkFields (link : DtLink) : ∀ f ∈ linkFields link, 38 ∉ f := by
  have hopt : ∀ {α : Type} (o : Option α) (key : Bytes) (text : α → Bytes), 38 ∉ key →
      (∀ a, 38 ∉ text a) → ∀ f ∈ (o.map fun a => key ++ text a).toList, 38 ∉ f := by
    intro α o key text hk ht f hf
    cases o with
    | none => cases hf
    | some a =>
      rw [Option.map_some, Option.toList_some, List.mem_singleton] at hf
      rw [hf]
      exact amp_notMem_field hk (ht a)
  have hnum : ∀ b, 1 < b → b ≤ 16 → ∀ n, 38 ∉ numeral b n := fun b hb hb' n =>
    (notMem_numeral hb hb').2.1
  intro f hf
  simp only [linkFields, List.mem_append] at hf
  rcases hf with ((((hf | hf) | hf) | hf) | hf) | hf
  · rw [List.mem_singleton.1 hf]
    exact amp_notMem_field (by decide) (amp_notMem_enc _)
  · split at hf
    · rw [List.mem_singleton.1 hf]
      exact amp_notMem_field (by decide) (amp_notMem_enc _)
    · cases hf
  · exact hopt link.step (ascii "step=") _ (by decide)
      (fun n => hnum 10 (by omega) (by omega) _) f hf
  · exact hopt link.off (ascii "off=0x") _ (by decide)
      (fun n => hnum 16 (by omega) (by omega) _) f hf
  · exact hopt link.pid (ascii "pid=") _ (by decide) (fun n => amp_notMem_decimalInt n) f hf
  · exact hopt link.invocation (ascii "invocation=") _ (by decide)
      (fun n => hnum 10 (by omega) (by omega) _) f hf

theorem foldlM_append_ok {st st' : Parsed} {fs : List Bytes}
    (h : fs.foldlM parseField st = .ok st') (gs : List Bytes) :
    (fs ++ gs).foldlM parseField st = gs.foldlM parseField st' := by
  rw [List.foldlM_append, h]
  rfl

theorem foldlM_recB (st : Parsed) (hst : st.link.recB = []) (s : Bytes) :
    (if s ≠ [] then [ascii "rec_b=" ++ enc s] else []).foldlM parseField st =
      .ok { st with link := { st.link with recB := s } } := by
  by_cases hs : s = []
  · rw [if_neg (not_not.2 hs), hs, ← hst]
    rfl
  · rw [if_pos hs]
    exact foldlM_one (parseField_recB st s)

/-- The fields after the view set what the link has in them, and nothing else. -/
theorem foldlM_linkFields {link : DtLink} (h : link.Navigable) :
    (linkFields link).foldlM parseField { link := { view := link.view }, haveView := true } =
      .ok { link := link, haveView := true, haveRec := true } := by
  obtain ⟨recId, recB, view, step, off, pid, invocation⟩ := link
  obtain ⟨hrec, hpid⟩ := h
  have hne : (!recId.isEmpty) = true := by simpa using hrec
  have hstep := foldlM_option step _ _ fun st n _ => parseField_step st n
  have hoff := foldlM_option off _ _ fun st n _ => parseField_off st n
  have hpid' := foldlM_option pid _ _ fun st n hn => parseField_pid st (hpid n hn)
  have hinv := foldlM_option invocation _ _ fun st n _ => parseField_invocation st n
  simp only [linkFields, List.append_assoc]
  rw [foldlM_append_ok (foldlM_one (parseField_rec _ _)), foldlM_append_ok (foldlM_recB _ rfl _),
    foldlM_append_ok (hstep _), foldlM_append_ok (hoff _), foldlM_append_ok (hpid' _), hinv, hne]
  cases step <;> cases off <;> cases pid <;> cases invocation <;> rfl

end Fields

section RoundTrip

theorem flatMap_amp (f : Bytes) (fs : List Bytes) :
    f ++ fs.flatMap (fun f => ascii "&" ++ f) = [38].intercalate (f :: fs) := by
  induction fs generalizing f with
  | nil => simp [List.intercalate]
  | cons g fs ih =>
    rw [List.flatMap_cons, List.append_assoc, ih, List.intercalate_cons_cons]
    simp [ascii]

theorem dtNavParse_format {link : DtLink} (h : link.Navigable) :
    dtNavParse (dtNavFormat link) = .ok link := by
  have hview : 38 ∉ ascii "v=" ++ dtViewName link.view :=
    amp_notMem_field (by decide) (plain_dtViewName link.view).2
  have hform : dtNavFormat link =
      kScheme ++ [38].intercalate ((ascii "v=" ++ dtViewName link.view) :: linkFields link) := by
    rw [dtNavFormat, List.append_assoc kScheme, List.append_assoc kScheme, flatMap_amp]
  have hsplit := @List.splitOn_intercalate _
    ((ascii "v=" ++ dtViewName link.view) :: linkFields link) _ _ 38
    (List.forall_mem_cons.2 ⟨hview, amp_notMem_linkFields link⟩) (List.cons_ne_nil _ _)
  rw [hform, dtNavParse, List.take_left, if_neg (by simp), List.drop_left, hsplit,
    List.foldlM_cons, parseField_view]
  exact congrArg (· >>= finishParse) (foldlM_linkFields h)

/-- What the fields read so far keep, whatever they are. -/
structure Parsed.Sound (st : Parsed) : Prop where
  haveRec : st.haveRec = true ↔ st.link.recId ≠ []
  pid : ∀ n ∈ st.link.pid, 1 ≤ n ∧ n ≤ 0x7FFFFFFF

theorem setField_sound {st st' : Parsed} (hst : st.Sound) {key value : Bytes}
    (h : setField st key value = .ok st') : st'.Sound := by
  have hkeep : ∀ {link : DtLink} {b : Bool}, link.recId = st.link.recId → link.pid = st.link.pid →
      Parsed.Sound { link := link, haveView := b, haveRec := st.haveRec } := by
    intro link b hrec hpid
    refine ⟨?_, ?_⟩
    · rw [hrec]
      exact hst.haveRec
    · rw [hpid]
      exact hst.pid
  unfold setField at h
  by_cases hv : key = ascii "v"
  · rw [if_pos hv] at h
    split at h <;> cases h
    exact hkeep rfl rfl
  rw [if_neg hv] at h
  by_cases hrec : key = ascii "rec"
  · rw [if_pos hrec] at h
    cases h
    exact ⟨by simp, hst.pid⟩
  rw [if_neg hrec] at h
  by_cases hrecB : key = ascii "rec_b"
  · rw [if_pos hrecB] at h
    cases h
    exact hkeep rfl rfl
  rw [if_neg hrecB] at h
  by_cases hstep : key = ascii "step"
  · rw [if_pos hstep] at h
    split at h
    · split at h <;> cases h
      exact hkeep rfl rfl
    · cases h
  rw [if_neg hstep] at h
  by_cases hoff : key = ascii "off"
  · rw [if_pos hoff] at h
    split at h <;> cases h
    exact hkeep rfl rfl
  rw [if_neg hoff] at h
  by_cases hpid : key = ascii "pid"
  · rw [if_pos hpid] at h
    split at h
    · rename_i v _
      split at h <;> cases h
      rename_i hrange
      -- only here does a process id come in, and its range has just been checked
      refine ⟨hst.haveRec, fun n hn => ?_⟩
      cases hn
      rw [not_or, ← UInt64.toNat_inj, UInt64.lt_iff_toNat_lt] at hrange
      change ¬v.toNat = 0 ∧ ¬2147483647 < v.toNat at hrange
      omega
    · cases h
  rw [if_neg hpid] at h
  by_cases hinvocation : key = ascii "invocation"
  · rw [if_pos hinvocation] at h
    split at h
    · split at h <;> cases h
      exact hkeep rfl rfl
    · cases h
  · rw [if_neg hinvocation] at h
    cases h
    exact hst

theorem parseField_sound {st st' : Parsed} (hst : st.Sound) {pair : Bytes}
    (h : parseField st pair = .ok st') : st'.Sound := by
  unfold parseField at h
  split_ifs at h
  · cases h
    exact hst
  · dsimp only at h
    split at h
    · cases h
    · exact setField_sound hst h

theorem foldlM_sound {st st' : Parsed} (hst : st.Sound) {fs : List Bytes}
    (h : fs.foldlM parseField st = .ok st') : st'.Sound := by
  induction fs generalizing st with
  | nil =>
    cases h
    exact hst
  | cons f fs ih =>
    rw [List.foldlM_cons] at h
    cases hf : parseField st f with
    | error e =>
      rw [hf] at h
      cases h
    | ok st₁ =>
      rw [hf] at h
      exact ih (parseField_sound hst hf) h

/-- Only links that can be followed are read. -/
theorem navigable_of_parse {s : Bytes} {link : DtLink} (h : dtNavParse s = .ok link) :
    link.Navigable := by
  unfold dtNavParse at h
  split_ifs at h
  cases hf : ((s.drop kScheme.length).splitOn 38).foldlM parseField {} with
  | error e =>
    rw [hf] at h
    cases h
  | ok st =>
    rw [hf] at h
    have hst : st.Sound := foldlM_sound ⟨by simp, by simp⟩ hf
    change finishParse st = .ok link at h
    unfold finishParse at h
    split_ifs at h with hv hr
    cases h
    exact ⟨hst.haveRec.1 (by simpa using hr), hst.pid⟩

/-- A link is read back from its text exactly when it can be followed, and the text written from
any text that is read, whatever the order of its fields and whatever else it says, is read as
the same link. -/
theorem link_round_trip :
    (∀ link, dtNavParse (dtNavFormat link) = .ok link ↔ link.Navigable) ∧
      ∀ s, (dtNavParse s).bind (fun link => dtNavParse (dtNavFormat link)) = dtNavParse s := by
  refine ⟨fun link => ⟨navigable_of_parse, dtNavParse_format⟩, fun s => ?_⟩
  cases h : dtNavParse s with
  | error e => rfl
  | ok link => exact dtNavParse_format (navigable_of_parse h)

example : ((dtNavParse (ascii "asmtrace-link:v=slice&rec=add_signed.asmtrace&step=4")).toOption.map
    fun link => (link.recId, link.view, link.step)) =
      some (ascii "add_signed.asmtrace", .slice, some 4) := by
  decide +kernel

end RoundTrip

end AsmTest.Nav
