import AsmTest.StateDiff

/-!
# The first state difference is the first divergence

A delta says where a register file differs from the one before. Two runs that start from equal
files are told apart by their deltas at the first step whose files differ, and not before.
-/

namespace AsmTest.Doc

open Lib

variable {F : Type}

section Text

def entryMember (cur : RegFile) (r : RegField) : Bytes × JText :=
  (ascii r.name, .int (cur r).toNat)

def changedText (cur : RegFile) (rs : List RegField) : JText :=
  .obj (rs.map (entryMember cur))

def statediffText (step : ℕ) (prev : Option RegFile) (cur : RegFile) : JText :=
  .obj [(ascii "k", .str (ascii "statediff")), (ascii "step", .int step),
    (ascii "changed", changedText cur (listedFields prev cur)),
    (ascii "computed", .bool prev.isSome)]

lemma entryPiece_eq (cur : RegFile) (r : RegField) :
    entryPiece "" cur r = JText.memberText (entryMember cur r) ∧
      entryPiece "," cur r = comma (entryMember cur r) := by
  have hname : escape (ascii r.name) = ascii r.name := by cases r <;> decide
  have htext : JText.memberText (entryMember cur r) =
      ascii "\"" ++ (ascii r.name ++ (ascii "\":" ++ decimal (cur r).toNat)) := by
    rw [JText.memberText, entryMember, hname]
    rfl
  rw [comma, htext]
  simp only [entryPiece, List.append_assoc]
  exact ⟨rfl, rfl⟩

lemma flatten_entryPieces (cur : RegFile) (rs : List RegField) :
    ascii "\x7b" ++ (entryPieces cur rs).flatten ++ ascii "\x7d" = (changedText cur rs).render := by
  cases rs with
  | nil => rfl
  | cons r rs =>
    have hrest : rs.map (entryPiece "," cur) = (rs.map (entryMember cur)).map comma := by
      rw [List.map_map]
      exact List.map_congr_left fun r _ => (entryPiece_eq cur r).2
    rw [changedText, List.map_cons, render_obj_comma, entryPieces, (entryPiece_eq cur r).1, hrest,
      List.flatten_cons]
    rfl

lemma flatten_statediffPieces (step : ℕ) (prev : Option RegFile) (cur : RegFile) :
    asmtraceEmit "statediff" (statediffPieces step prev cur).flatten =
      (statediffText step prev cur).render := by
  have hhead : ascii "\x7b\"k\":\"" ++ ascii "statediff" ++ ascii "\"," ++
      (ascii "\"step\":" ++ decimal step ++ ascii ",\"changed\":\x7b") =
      123 :: JText.memberText (ascii "k", .str (ascii "statediff")) ++
        comma (ascii "step", .int step) ++ ascii ",\"changed\":" ++ ascii "\x7b" := by
    simp only [List.append_assoc]
    rfl
  have htail : ascii "\x7d,\"computed\":" ++ boolText prev.isSome =
      ascii "\x7d" ++ comma (ascii "computed", .bool prev.isSome) := by
    cases prev.isSome <;> rfl
  have hchanged : comma (ascii "changed", changedText cur (listedFields prev cur)) =
      ascii ",\"changed\":" ++ (ascii "\x7b" ++ (entryPieces cur (listedFields prev cur)).flatten ++
        ascii "\x7d") := by
    rw [flatten_entryPieces]
    rfl
  rw [statediffText, render_obj_comma, asmtraceEmit, statediffPieces, htail]
  simp only [List.flatten_append, List.flatten_singleton]
  rw [List.append_assoc (ascii "\"step\":" ++ decimal step ++ ascii ",\"changed\":\x7b"),
    ← List.append_assoc _ (ascii "\"step\":" ++ decimal step ++ ascii ",\"changed\":\x7b"), hhead]
  simp only [List.flatMap_cons, List.flatMap_nil, List.append_nil, hchanged, List.append_assoc]
  rfl

lemma ok_statediffText {step : ℕ} (hstep : step < 2 ^ 32) (prev : Option RegFile) (cur : RegFile) :
    (statediffText step prev cur).Ok := by
  rw [statediffText, JText.Ok, JText.okMembers_iff]
  simp only [List.forall_mem_cons, List.not_mem_nil, false_implies, implies_true, and_true]
  refine ⟨⟨by decide, by rw [JText.Ok]; decide⟩, ⟨by decide, JText.ok_int_of_lt (by omega)⟩,
    ⟨by decide, ?_⟩, by decide, by rw [JText.Ok]; trivial⟩
  rw [changedText, JText.Ok, JText.okMembers_iff]
  intro m hm
  obtain ⟨r, -, rfl⟩ := List.mem_map.1 hm
  have hname : utf8Ok (ascii r.name) = true := by cases r <;> decide
  exact ⟨hname, JText.ok_int_of_lt (cur r).isLt⟩

end Text

section Delta

lemma name_injective {r r' : RegField} (h : ascii r.name = ascii r'.name) : r = r' := by
  revert r r'
  have hall : ∀ r ∈ kRegfileFields, ∀ r' ∈ kRegfileFields,
      ascii r.name = ascii r'.name → r = r' := by
    decide
  have hmem : ∀ r : RegField, r ∈ kRegfileFields := by
    intro r
    cases r <;> decide
  intro r r' h
  exact hall r (hmem r) r' (hmem r') h

lemma nodup_listedFields (prev : Option RegFile) (cur : RegFile) :
    (listedFields prev cur).Nodup := by
  cases prev with
  | none => exact List.nodup_nil
  | some prev =>
    have hall : kRegfileFields.Nodup := by decide
    exact List.Nodup.filter (fun r => prev r ≠ cur r) hall

lemma memberValues_eq_foldl (ms : List (Bytes × JText)) (acc : List (Bytes × Json F)) :
    JText.memberValues ms acc = ms.foldl (fun a m => mapInsert m.1 m.2.value a) acc := by
  induction ms generalizing acc with
  | nil => simp [JText.memberValues]
  | cons m ms ih =>
    obtain ⟨k, t⟩ := m
    rw [JText.memberValues, ih, List.foldl_cons]

lemma mapFind_changedEntry {m : Members F} (hm : KeysSorted m) (k : Bytes) :
    mapFind k (m.filterMap changedEntry) =
      (mapFind k m).bind fun j => j.asInt.map fun n => (n % 2 ^ 64).toNat := by
  induction m with
  | nil => rfl
  | cons e m ih =>
    obtain ⟨k', j⟩ := e
    obtain ⟨hhead, htail⟩ := List.pairwise_cons.1 hm
    rw [List.filterMap_cons, changedEntry, mapFind]
    by_cases hk : k = k'
    · have hnone : mapFind k m = none :=
        mapFind_eq_none_iff.2 fun e he => hk ▸ (hhead e he).ne'
      cases hj : j.asInt with
      | none =>
        subst hk
        simp [hj, ih htail, hnone]
      | some n => simp [hk, hj, mapFind]
    · cases hj : j.asInt with
      | none => simp [hk, ih htail]
      | some n => simp [hk, mapFind, ih htail]

lemma keysSorted_filterMap_changedEntry {m : Members F} (hm : KeysSorted m) :
    KeysSorted (m.filterMap changedEntry) := by
  refine List.Pairwise.filterMap changedEntry (fun a b hab a' ha' b' hb' => ?_) hm
  obtain ⟨n, -, rfl⟩ := Option.map_eq_some_iff.1 ha'
  obtain ⟨n', -, rfl⟩ := Option.map_eq_some_iff.1 hb'
  exact hab

lemma mapFind_decodeChanged {m : Members F} (hm : KeysSorted m) (k : Bytes) :
    mapFind k (decodeChanged m) =
      (mapFind k m).bind fun j => j.asInt.map fun n => (n % 2 ^ 64).toNat := by
  rw [decodeChanged, mapFind_foldl_mapInsert Prod.fst Prod.snd
    (nodup_of_keysSorted (keysSorted_filterMap_changedEntry hm)), ← mapFind_changedEntry hm]
  simp [mapFind]

lemma mapFind_names (cur : RegFile) (rs : List RegField) (r : RegField) :
    mapFind (ascii r.name) (rs.map fun r => (ascii r.name, (cur r).toNat)) =
      if r ∈ rs then some (cur r).toNat else none := by
  induction rs with
  | nil => rfl
  | cons r' rs ih =>
    rw [List.map_cons, mapFind, ih]
    by_cases hr : r = r'
    · simp [hr]
    · have hname : ascii r.name ≠ ascii r'.name := fun h => hr (name_injective h)
      simp [hr, hname]

/-- The values are 64-bit numbers, and come out of the text as they went in. -/
lemma mapFind_entries (cur : RegFile) (rs : List RegField) (k : Bytes) :
    mapFind k (rs.map fun r => (ascii r.name, (cur r).toNat)) =
      (mapFind k (rs.map fun r => (ascii r.name, (.int (cur r).toNat : Json F)))).bind
        fun j => j.asInt.map fun n => (n % 2 ^ 64).toNat := by
  induction rs with
  | nil => rfl
  | cons r rs ih =>
    rw [List.map_cons, List.map_cons, mapFind, mapFind]
    by_cases hk : k = ascii r.name
    · have hmod : (((cur r).toNat : ℤ) % 2 ^ 64).toNat = (cur r).toNat := by
        have hlt := (cur r).isLt
        omega
      rw [if_pos hk, if_pos hk, Option.bind_some, Json.asInt, Option.map_some, hmod]
    · rw [if_neg hk, if_neg hk, ih]

/-- What a delta is: the fields that changed, with their new values -/
structure IsDelta (step : ℕ) (prev : Option RegFile) (cur : RegFile) (d : StateDelta) : Prop where
  step : d.step = step
  computed : d.computed = prev.isSome
  sorted : KeysSorted d.changed
  find : ∀ r, mapFind (ascii r.name) d.changed =
    if r ∈ listedFields prev cur then some (cur r).toNat else none
  named : ∀ k v, mapFind k d.changed = some v → ∃ r : RegField, k = ascii r.name

lemma isDelta_decodeStateDelta {step : ℕ} (hstep : step < 2 ^ 32) (prev : Option RegFile)
    (cur : RegFile) :
    IsDelta step prev cur (decodeStateDelta ((statediffText step prev cur).value : Json F)) := by
  set rs := listedFields prev cur with hrs
  set m := fields ((statediffText step prev cur).value : Json F) with hm
  have hs : member "step" m = some (.int step) := by
    simp +decide [hm, statediffText, member, JText.memberValues, JText.value, fields, Json.asObj]
  have hc : member "computed" m = some (.bool prev.isSome) := by
    simp +decide [hm, statediffText, member, JText.memberValues, JText.value, fields, Json.asObj]
  have hch : member "changed" m = some (changedText cur rs).value := by
    simp +decide [hm, statediffText, member, JText.memberValues, JText.value, fields, Json.asObj,
      hrs]
  set entries : List (Bytes × Json F) :=
    rs.foldl (fun a r => mapInsert (ascii r.name) (.int (cur r).toNat) a) [] with hentries
  have hobj : objMember "changed" m = some entries := by
    rw [objMember, hch, changedText, JText.value, memberValues_eq_foldl, List.foldl_map, hentries]
    simp only [entryMember, JText.value]
    rfl
  have hsorted : KeysSorted entries := keysSorted_foldl_mapInsert _ _ rs keysSorted_nil
  have hfind : ∀ k, mapFind k (decodeChanged entries) =
      mapFind k (rs.map fun r => (ascii r.name, (cur r).toNat)) := by
    intro k
    have hnodup : (rs.map fun r : RegField => ascii r.name).Nodup :=
      (nodup_listedFields prev cur).map_on fun r _ r' _ h => name_injective h
    rw [mapFind_decodeChanged hsorted, hentries, mapFind_foldl_mapInsert _ _ hnodup,
      @mapFind_entries F cur rs k, mapFind, Option.or_none]
  have hdelta : decodeStateDelta ((statediffText step prev cur).value : Json F) =
      { step, changed := decodeChanged entries, computed := prev.isSome } := by
    rw [decodeStateDelta, ← hm, hobj, getUint_of_some hs hstep, getBool, boolMember, hc]
    rfl
  rw [hdelta]
  refine ⟨rfl, rfl, keysSorted_foldl_mapInsert _ _ _ keysSorted_nil, fun r => ?_, fun k v h => ?_⟩
  · rw [hfind, mapFind_names]
  · rw [hfind] at h
    obtain ⟨r, -, hr⟩ := List.mem_map.1 (mem_of_mapFind h)
    exact ⟨r, (Prod.mk.inj hr).1.symm⟩

end Delta

section Diverging

/-- Nothing is listed exactly when the two deltas say the same of every register. -/
lemma divergingRegs_eq_nil {ca cb : List (Bytes × ℕ)} (ha : KeysSorted ca) (hb : KeysSorted cb) :
    divergingRegs ca cb = [] ↔ ∀ k, mapFind k ca = mapFind k cb := by
  rw [divergingRegs, List.destutter_eq_nil, ← List.length_eq_zero_iff, List.length_insertionSort,
    List.length_eq_zero_iff, List.append_eq_nil_iff, List.map_eq_nil_iff, List.map_eq_nil_iff,
    List.filter_eq_nil_iff, List.filter_eq_nil_iff]
  constructor
  · intro ⟨hleft, hright⟩ k
    cases hka : mapFind k ca with
    | some v =>
      have hv := hleft (k, v) (mem_of_mapFind hka)
      rw [decide_eq_true_eq, not_not] at hv
      exact hv.symm
    | none =>
      cases hkb : mapFind k cb with
      | none => rfl
      | some v => exact absurd (decide_eq_true hka) (hright (k, v) (mem_of_mapFind hkb))
  · intro h
    refine ⟨fun e he => ?_, fun e he => ?_⟩
    · rw [decide_eq_true_eq, not_not, ← h e.1]
      exact mapFind_of_mem ha he
    · rw [decide_eq_true_eq, h e.1, mapFind_of_mem hb he]
      exact Option.some_ne_none _

lemma mem_listedFields (prev cur : RegFile) (r : RegField) :
    r ∈ listedFields (some prev) cur ↔ prev r ≠ cur r := by
  have hmem : r ∈ kRegfileFields := by cases r <;> decide
  simp [listedFields, changedFields, hmem]

/-- From equal predecessors, the deltas say the same exactly when the register files agree. -/
lemma divergingRegs_eq_nil_iff {step : ℕ} {prev fa fb : RegFile} {da db : StateDelta}
    (ha : IsDelta step (some prev) fa da) (hb : IsDelta step (some prev) fb db) :
    divergingRegs da.changed db.changed = [] ↔ fa = fb := by
  rw [divergingRegs_eq_nil ha.sorted hb.sorted]
  constructor
  · intro h
    funext r
    have hr := h (ascii r.name)
    simp only [ha.find, hb.find, mem_listedFields] at hr
    by_cases hra : prev r = fa r <;> by_cases hrb : prev r = fb r
    · exact hra.symm.trans hrb
    · rw [if_neg (not_not.2 hra), if_pos hrb] at hr
      cases hr
    · rw [if_pos hra, if_neg (not_not.2 hrb)] at hr
      cases hr
    · rw [if_pos hra, if_pos hrb] at hr
      exact BitVec.eq_of_toNat_eq (Option.some.inj hr)
  · intro h k
    subst h
    -- a key that is no register's name is on neither side
    by_cases hk : ∃ r : RegField, k = ascii r.name
    · obtain ⟨r, rfl⟩ := hk
      rw [ha.find, hb.find]
    · have hnone : ∀ {d : StateDelta}, IsDelta step (some prev) fa d → mapFind k d.changed = none :=
        fun hd => Option.eq_none_iff_forall_ne_some.2 fun v hv => hk (hd.named k v hv)
      rw [hnone ha, hnone hb]

end Diverging

section Runs

/-- The deltas of the held register files, in order -/
def IsDeltas : ℕ → Option RegFile → List RegFile → List StateDelta → Prop
  | _, _, [], ds => ds = []
  | step, prev, cur :: files, ds =>
    ∃ d ds', ds = d :: ds' ∧ IsDelta step prev cur d ∧ IsDeltas (step + 1) (some cur) files ds'

/-- The stream that the desktop decodes from the lines -/
def DecodesTo (L : JsonLib F) (lines : List Bytes) (ds : List StateDelta) : Prop :=
  ∃ evs : List (Event F), lines.map L.parse = evs.map (fun e => some e.body) ∧
    ds = evs.map fun e => decodeStateDelta e.body

/-- Every body fits the buffer it is printed into. -/
def BodiesFit (cap : ℕ) : ℕ → Option RegFile → List RegFile → Prop
  | _, _, [] => True
  | step, prev, cur :: files => (statediffPieces (step % 2 ^ 32) prev cur).flatten.length < cap ∧
    BodiesFit cap (step + 1) (some cur) files

lemma length_decimal_le {n : ℕ} (h : n < 2 ^ 64) : (decimal n).length ≤ 20 := by
  rw [decimal, List.length_map]
  exact Nat.toDigits_length 10 n 20 (by norm_num) (h.trans (by norm_num))

lemma length_entryPiece_le (sep : String) (cur : RegFile) (r : RegField) :
    (entryPiece sep cur r).length ≤ (ascii sep).length + 29 := by
  have hname : (ascii r.name).length ≤ 6 := by cases r <;> decide
  have hval := length_decimal_le (cur r).isLt
  have hquote : (ascii "\"").length = 1 ∧ (ascii "\":").length = 2 := by decide
  simp only [entryPiece, List.length_append]
  omega

lemma length_flatten_entryPieces_le (cur : RegFile) (rs : List RegField) :
    (entryPieces cur rs).flatten.length ≤ 30 * rs.length := by
  cases rs with
  | nil => simp [entryPieces]
  | cons r rs =>
    have hhead := length_entryPiece_le "" cur r
    have hrest : ((rs.map (entryPiece "," cur)).flatten).length ≤ 30 * rs.length := by
      induction rs with
      | nil => simp
      | cons r' rs ih =>
        have hr' := length_entryPiece_le "," cur r'
        have hcomma : (ascii ",").length = 1 := by decide
        simp only [List.map_cons, List.flatten_cons, List.length_append, List.length_cons]
        omega
    have hnil : (ascii "").length = 0 := by decide
    simp only [entryPieces, List.flatten_cons, List.length_append, List.length_cons]
    omega

/-- The live capture prints into a buffer that is always large enough. -/
lemma bodiesFit_live {cap : ℕ} (hcap : 1024 ≤ cap) (step : ℕ) (prev : Option RegFile)
    (files : List RegFile) : BodiesFit cap step prev files := by
  induction files generalizing step prev with
  | nil => trivial
  | cons cur files ih =>
    refine ⟨?_, ih _ _⟩
    have hstep := @length_decimal_le (step % 2 ^ 32) (by omega)
    have hlisted : (listedFields prev cur).length ≤ 18 := by
      cases prev with
      | none => exact Nat.zero_le _
      | some prev => exact List.length_filter_le _ _
    have hentries := length_flatten_entryPieces_le cur (listedFields prev cur)
    have hlit : (ascii "\"step\":").length = 7 ∧ (ascii ",\"changed\":\x7b").length = 12 ∧
        (ascii "\x7d,\"computed\":").length = 13 := by decide
    have hbool : (boolText prev.isSome).length ≤ 5 := by cases prev.isSome <;> decide
    simp only [statediffPieces, List.flatten_append, List.flatten_singleton, List.length_append]
    omega

lemma parse_statediffLine {L : JsonLib F} (hL : L.ReadsCompact) {cap step : ℕ}
    {prev : Option RegFile} {cur : RegFile} (hstep : step < 2 ^ 32)
    (hcap : (statediffPieces step prev cur).flatten.length < cap) :
    L.parse (asmtraceEmit "statediff" (asmtraceStatediffBody cap step prev cur)) =
      some (statediffText step prev cur).value := by
  rw [asmtraceStatediffBody, foldl_bp _ _ (by rwa [List.nil_append]), List.nil_append,
    flatten_statediffPieces]
  exact hL _ (ok_statediffText hstep prev cur)

lemma exists_decodesTo {L : JsonLib F} (hL : L.ReadsCompact) {cap step : ℕ}
    {prev : Option RegFile} {files : List RegFile} (hfit : BodiesFit cap step prev files)
    (hstep : step + files.length ≤ 2 ^ 32) :
    ∃ ds, DecodesTo L (emitStatediffs cap step prev files) ds := by
  suffices ∃ evs : List (Event F),
      (emitStatediffs cap step prev files).map L.parse = evs.map fun e => some e.body by
    obtain ⟨evs, h⟩ := this
    exact ⟨_, evs, h, rfl⟩
  induction files generalizing step prev with
  | nil => exact ⟨[], rfl⟩
  | cons cur files ih =>
    obtain ⟨hcap, hfit⟩ := hfit
    rw [List.length_cons] at hstep
    obtain ⟨evs, hevs⟩ := ih hfit (by omega)
    rw [Nat.mod_eq_of_lt (show step < 2 ^ 32 by omega)] at hcap
    refine ⟨⟨ascii "statediff", (statediffText step prev cur).value, 0⟩ :: evs, ?_⟩
    rw [emitStatediffs, List.map_cons, List.map_cons, hevs,
      Nat.mod_eq_of_lt (show step < 2 ^ 32 by omega), parse_statediffLine hL (by omega) hcap]

lemma isDeltas_of_decodesTo {L : JsonLib F} (hL : L.ReadsCompact) {cap step : ℕ}
    {prev : Option RegFile} {files : List RegFile} {ds : List StateDelta}
    (hfit : BodiesFit cap step prev files) (hstep : step + files.length ≤ 2 ^ 32)
    (h : DecodesTo L (emitStatediffs cap step prev files) ds) : IsDeltas step prev files ds := by
  obtain ⟨evs, hparse, rfl⟩ := h
  induction files generalizing step prev evs with
  | nil =>
    have hevs : evs = [] := by simpa [emitStatediffs] using hparse.symm
    rw [hevs]
    rfl
  | cons cur files ih =>
    obtain ⟨hcap, hfit⟩ := hfit
    rw [List.length_cons] at hstep
    cases evs with
    | nil => simp [emitStatediffs] at hparse
    | cons e evs =>
      rw [emitStatediffs, List.map_cons, List.map_cons, List.cons.injEq] at hparse
      have hlt : step < 2 ^ 32 := by omega
      rw [Nat.mod_eq_of_lt hlt] at hcap hparse
      have hbody : e.body = (statediffText step prev cur).value := by
        rw [parse_statediffLine hL hlt hcap] at hparse
        exact (Option.some.inj hparse.1).symm
      refine ⟨_, _, rfl, ?_, ih hfit (by omega) evs hparse.2⟩
      have hdelta := @isDelta_decodeStateDelta F step hlt prev cur
      rwa [← hbody] at hdelta

/-- The file that a delta is taken from -/
def before (prev : Option RegFile) (files : List RegFile) : ℕ → Option RegFile
  | 0 => prev
  | i + 1 => files[i]?

lemma IsDeltas.at {step : ℕ} {prev : Option RegFile} {files : List RegFile} {ds : List StateDelta}
    (h : IsDeltas step prev files ds) (i : ℕ) :
    (ds[i]? = none ∧ files[i]? = none) ∨
      ∃ d cur, ds[i]? = some d ∧ files[i]? = some cur ∧
        IsDelta (step + i) (before prev files i) cur d := by
  induction files generalizing step prev ds i with
  | nil =>
    obtain rfl : ds = [] := h
    exact .inl ⟨by simp, by simp⟩
  | cons cur files ih =>
    obtain ⟨d, ds, rfl, hd, hds⟩ := h
    cases i with
    | zero => exact .inr ⟨d, cur, rfl, rfl, hd⟩
    | succ i =>
      rcases ih hds i with h | ⟨d', cur', hd', hcur', hdelta⟩
      · exact .inl h
      · refine .inr ⟨d', cur', hd', hcur', ?_⟩
        rw [show step + (i + 1) = step + 1 + i by omega]
        cases i with
        | zero => exact hdelta
        | succ i => exact hdelta

lemma mapFind_map_step {step : ℕ} {prev : Option RegFile} {files : List RegFile}
    {ds : List StateDelta} (h : IsDeltas step prev files ds) (s : ℕ) :
    mapFind s (ds.map fun d => (d.step, d)) = if step ≤ s then ds[s - step]? else none := by
  induction files generalizing step prev ds with
  | nil =>
    obtain rfl : ds = [] := h
    simp [mapFind]
  | cons cur files ih =>
    obtain ⟨d, ds, rfl, hd, hds⟩ := h
    rw [List.map_cons, mapFind, hd.step, ih hds]
    by_cases hs : s = step
    · simp [hs]
    · rw [if_neg hs]
      by_cases hle : step ≤ s
      · have hsub : s - step = s - (step + 1) + 1 := by omega
        rw [if_pos (by omega), if_pos hle, hsub, List.getElem?_cons_succ]
      · rw [if_neg (by omega), if_neg hle]

lemma le_step_of_isDeltas {step : ℕ} {prev : Option RegFile} {files : List RegFile}
    {ds : List StateDelta} (h : IsDeltas step prev files ds) :
    (ds.map StateDelta.step).Nodup ∧ ∀ d ∈ ds, step ≤ d.step := by
  induction files generalizing step prev ds with
  | nil =>
    obtain rfl : ds = [] := h
    simp
  | cons cur files ih =>
    obtain ⟨d, ds, rfl, hd, hds⟩ := h
    obtain ⟨hnodup, hle⟩ := ih hds
    refine ⟨?_, ?_⟩
    · rw [List.map_cons, List.nodup_cons]
      refine ⟨fun hmem => ?_, hnodup⟩
      obtain ⟨d', hd', heq⟩ := List.mem_map.1 hmem
      have := hle d' hd'
      have := hd.step
      omega
    · rw [List.forall_mem_cons]
      exact ⟨hd.step.ge, fun d' hd' => (Nat.le_succ step).trans (hle d' hd')⟩

lemma mapFind_indexSteps {step : ℕ} {prev : Option RegFile} {files : List RegFile}
    {ds : List StateDelta} (h : IsDeltas step prev files ds) (s : ℕ) :
    mapFind s (indexSteps ds) = if step ≤ s then ds[s - step]? else none := by
  rw [indexSteps, mapFind_foldl_mapInsert StateDelta.step (fun d => d) (le_step_of_isDeltas h).1,
    mapFind_map_step h]
  simp [mapFind]

end Runs

section Report

/-- The steps with a non-empty list of registers, in the order of the report -/
def reportedSteps (d : DtStatediff) : List ℕ :=
  (d.steps.filter fun st => st.regs ≠ []).map DtStateStep.step

lemma stateStep_step {ma mb : List (ℕ × StateDelta)} {s : ℕ} {st : DtStateStep}
    (h : stateStep ma mb s = some st) : st.step = s := by
  rw [stateStep] at h
  split at h
  · split_ifs at h
    · dsimp only at h
      split_ifs at h
      obtain rfl := Option.some.inj h
      rfl
    · obtain rfl := Option.some.inj h
      rfl
  · obtain rfl := Option.some.inj h
    rfl

lemma stateStep_regs_ne_nil {ma mb : List (ℕ × StateDelta)} {s : ℕ} :
    (∃ st, stateStep ma mb s = some st ∧ st.regs ≠ []) ↔
      ∃ da db, mapFind s ma = some da ∧ mapFind s mb = some db ∧ da.computed = true ∧
        db.computed = true ∧ divergingRegs da.changed db.changed ≠ [] := by
  cases ha : mapFind s ma with
  | none => simp [stateStep, ha]
  | some da =>
    cases hb : mapFind s mb with
    | none => simp [stateStep, ha, hb]
    | some db =>
      by_cases hcomp : da.computed = true ∧ db.computed = true
      · by_cases hregs : divergingRegs da.changed db.changed = []
        · simp [stateStep, ha, hb, hcomp, hregs]
        · simp [stateStep, ha, hb, hcomp, hregs]
      · have hne : ¬(da.computed = true ∧ db.computed = true ∧
            divergingRegs da.changed db.changed ≠ []) := fun h => hcomp ⟨h.1, h.2.1⟩
        simp [stateStep, ha, hb, hcomp]
        simpa using hne

lemma pairwise_unionSteps (ma mb : List (ℕ × StateDelta)) :
    (unionSteps ma mb).Pairwise (· < ·) :=
  List.pairwise_map.2 (keysSorted_foldl_mapInsert (fun k => k) (fun _ => ()) _ keysSorted_nil)

lemma mem_unionSteps_of_mapFind {ma mb : List (ℕ × StateDelta)} {s : ℕ} {d : StateDelta}
    (h : mapFind s ma = some d) : s ∈ unionSteps ma mb := by
  have hmem : s ∈ ma.map Prod.fst ++ mb.map Prod.fst :=
    List.mem_append_left _ (List.mem_map.2 ⟨_, mem_of_mapFind h, rfl⟩)
  have hsome := (isSome_mapFind_foldl_mapInsert (fun k => k) (fun _ => ())
    (ma.map Prod.fst ++ mb.map Prod.fst) [] s).2 (.inl ⟨s, hmem, rfl⟩)
  obtain ⟨u, hu⟩ := Option.isSome_iff_exists.1 hsome
  exact List.mem_map.2 ⟨_, mem_of_mapFind hu, rfl⟩

/-- The report of a merge, step by step and in ascending order -/
lemma reportedSteps_merge (ma mb : List (ℕ × StateDelta)) (d : DtStatediff)
    (hd : d.steps = (unionSteps ma mb).filterMap (stateStep ma mb)) :
    (reportedSteps d).Pairwise (· < ·) ∧
      ∀ s, s ∈ reportedSteps d ↔ ∃ st, stateStep ma mb s = some st ∧ st.regs ≠ [] := by
  rw [reportedSteps, hd]
  refine ⟨?_, fun s => ?_⟩
  · refine List.pairwise_map.2 (List.Pairwise.filter _ ?_)
    refine (pairwise_unionSteps ma mb).filterMap _ fun s t hst st hst' tt htt => ?_
    rw [stateStep_step hst', stateStep_step htt]
    exact hst
  · constructor
    · intro h
      obtain ⟨st, hst, rfl⟩ := List.mem_map.1 h
      obtain ⟨hmem, hregs⟩ := List.mem_filter.1 hst
      obtain ⟨t, -, ht⟩ := List.mem_filterMap.1 hmem
      rw [stateStep_step ht]
      exact ⟨st, ht, by simpa using hregs⟩
    · intro ⟨st, hst, hregs⟩
      obtain ⟨da, db, ha, -⟩ := stateStep_regs_ne_nil.1 ⟨st, hst, hregs⟩
      refine List.mem_map.2 ⟨st, List.mem_filter.2 ⟨?_, by simpa using hregs⟩, stateStep_step hst⟩
      exact List.mem_filterMap.2 ⟨s, mem_unionSteps_of_mapFind ha, hst⟩

lemma head?_eq_some_iff_isLeast {l : List ℕ} (h : l.Pairwise (· < ·)) (s : ℕ) :
    l.head? = some s ↔ IsLeast {x | x ∈ l} s := by
  cases l with
  | nil => simp [IsLeast]
  | cons a l =>
    obtain ⟨hhead, -⟩ := List.pairwise_cons.1 h
    have ha : IsLeast {x | x ∈ a :: l} a := by
      refine ⟨List.mem_cons_self, fun x hx => ?_⟩
      rcases List.mem_cons.1 hx with rfl | hx
      · exact le_rfl
      · exact (hhead x hx).le
    rw [List.head?_cons, Option.some.injEq]
    exact ⟨fun h => h ▸ ha, fun h => ha.unique h⟩

/-- Two sets that agree up to the first element of one have the same first element. -/
lemma isLeast_iff_of_agree {R D : Set ℕ} (h : ∀ s, (∀ t < s, t ∉ D) → (s ∈ R ↔ s ∈ D)) :
    (∀ s, IsLeast R s ↔ IsLeast D s) ∧ (R = ∅ ↔ D = ∅) := by
  have hleast : ∀ s, IsLeast D s → IsLeast R s := by
    intro s hs
    have hbelow : ∀ t < s, t ∉ D := fun t ht hD => absurd (hs.2 hD) (not_le.2 ht)
    refine ⟨(h s hbelow).2 hs.1, fun t ht => ?_⟩
    by_contra hlt
    exact hbelow t (not_le.1 hlt) ((h t fun u hu => hbelow u (hu.trans (not_le.1 hlt))).1 ht)
  have hfirst : D.Nonempty → ∃ s, IsLeast D s := fun hD =>
    ⟨sInf D, Nat.sInf_mem hD, fun t ht => Nat.sInf_le ht⟩
  have hnonempty : R.Nonempty → D.Nonempty := by
    rintro ⟨s, hs⟩
    by_contra hD
    rw [Set.not_nonempty_iff_eq_empty] at hD
    have hsD := (h s fun t _ => hD ▸ Set.notMem_empty t).1 hs
    rw [hD] at hsD
    exact hsD
  refine ⟨fun s => ⟨fun hs => ?_, hleast s⟩, ?_⟩
  · obtain ⟨d, hd⟩ := hfirst (hnonempty ⟨s, hs.1⟩)
    exact (hleast d hd).unique hs ▸ hd
  · rw [← Set.not_nonempty_iff_eq_empty, ← Set.not_nonempty_iff_eq_empty, not_iff_not]
    refine ⟨hnonempty, fun hD => ?_⟩
    obtain ⟨d, hd⟩ := hfirst hD
    exact ⟨d, (hleast d hd).1⟩

/-- The common steps whose deltas lead to different register files. `fa[i]` is the file that run `a`
has after the delta of step `first + i`. -/
def Diverged (first : ℕ) (fa fb : List RegFile) : Set ℕ :=
  {s | ∃ i f g, s = first + i ∧ fa[i]? = some f ∧ fb[i]? = some g ∧ f ≠ g}

/-- A step is reported exactly when its deltas were computed on both sides and differ. -/
lemma mem_reportedSteps {first : ℕ} {fa fb : List RegFile} {a b : Streams}
    (ha : IsDeltas first none fa a.statediff) (hb : IsDeltas first none fb b.statediff)
    (hgate : (dtDiffBuild a b).err = []) :
    (reportedSteps (dtStatediffBuild a b)).Pairwise (· < ·) ∧
      ∀ s, s ∈ reportedSteps (dtStatediffBuild a b) ↔ ∃ i da db, s = first + i ∧
        a.statediff[i]? = some da ∧ b.statediff[i]? = some db ∧ da.computed = true ∧
        db.computed = true ∧ divergingRegs da.changed db.changed ≠ [] := by
  by_cases hnil : a.statediff = [] ∨ b.statediff = []
  · have hsteps : reportedSteps (dtStatediffBuild a b) = [] := by
      simp [dtStatediffBuild, hgate, hnil, reportedSteps]
    rw [hsteps]
    refine ⟨List.Pairwise.nil, fun s => ⟨fun h => absurd h List.not_mem_nil, ?_⟩⟩
    rintro ⟨i, da, db, -, hda, hdb, -⟩
    rcases hnil with hnil | hnil
    · simp [hnil] at hda
    · simp [hnil] at hdb
  · have hsteps : (dtStatediffBuild a b).steps =
        (unionSteps (indexSteps a.statediff) (indexSteps b.statediff)).filterMap
          (stateStep (indexSteps a.statediff) (indexSteps b.statediff)) := by
      simp [dtStatediffBuild, hgate, hnil]
    obtain ⟨hpair, hmem⟩ := reportedSteps_merge _ _ _ hsteps
    refine ⟨hpair, fun s => ?_⟩
    rw [hmem, stateStep_regs_ne_nil, mapFind_indexSteps ha, mapFind_indexSteps hb]
    by_cases hle : first ≤ s
    · obtain ⟨i, rfl⟩ := Nat.exists_eq_add_of_le hle
      rw [if_pos hle, if_pos hle, Nat.add_sub_cancel_left]
      constructor
      · rintro ⟨da, db, h⟩
        exact ⟨i, da, db, rfl, h⟩
      · rintro ⟨i', da, db, heq, h⟩
        obtain rfl : i = i' := by omega
        exact ⟨da, db, h⟩
    · constructor
      · rintro ⟨da, db, h, -⟩
        rw [if_neg hle] at h
        cases h
      · rintro ⟨i, da, db, rfl, -⟩
        exact absurd (Nat.le_add_right first i) hle

lemma step_differs_iff {first i : ℕ} {fa fb : List RegFile} {f g : RegFile} {da db : StateDelta}
    (hf : fa[i]? = some f) (hg : fb[i]? = some g)
    (hda : IsDelta (first + i) (before none fa i) f da)
    (hdb : IsDelta (first + i) (before none fb i) g db)
    (hstart : ∀ f g, fa[0]? = some f → fb[0]? = some g → f = g)
    (hagree : ∀ t < first + i, t ∉ Diverged first fa fb) :
    (da.computed = true ∧ db.computed = true ∧ divergingRegs da.changed db.changed ≠ []) ↔
      f ≠ g := by
  cases i with
  | zero =>
    -- the first held step has no delta, and the files start out equal
    refine ⟨fun h => ?_, fun hne => absurd (hstart f g hf hg) hne⟩
    rw [hda.computed] at h
    cases h.1
  | succ j =>
    obtain ⟨hj, -⟩ := List.getElem?_eq_some_iff.1 hf
    obtain ⟨hj', -⟩ := List.getElem?_eq_some_iff.1 hg
    have hp : fa[j]? = some fa[j] := List.getElem?_eq_getElem (by omega)
    have hq : fb[j]? = some fb[j] := List.getElem?_eq_getElem (by omega)
    have hpq : fa[j] = fb[j] := by
      by_contra hne
      exact hagree (first + j) (by omega) ⟨j, _, _, rfl, hp, hq, hne⟩
    rw [before, hp] at hda
    rw [before, hq, ← hpq] at hdb
    have hregs := not_iff_not.2 (divergingRegs_eq_nil_iff hda hdb)
    rw [hda.computed, hdb.computed]
    exact ⟨fun h => hregs.1 h.2.2, fun h => ⟨rfl, rfl, hregs.2 h⟩⟩

/-- While the files have agreed so far, a step is reported exactly when they part there. -/
lemma mem_reportedSteps_iff_diverged {first : ℕ} {fa fb : List RegFile} {a b : Streams}
    (ha : IsDeltas first none fa a.statediff) (hb : IsDeltas first none fb b.statediff)
    (hgate : (dtDiffBuild a b).err = [])
    (hstart : ∀ f g, fa[0]? = some f → fb[0]? = some g → f = g) {s : ℕ}
    (hagree : ∀ t < s, t ∉ Diverged first fa fb) :
    s ∈ reportedSteps (dtStatediffBuild a b) ↔ s ∈ Diverged first fa fb := by
  rw [(mem_reportedSteps ha hb hgate).2]
  constructor
  · rintro ⟨i, da, db, rfl, hda, hdb, hca, hcb, hregs⟩
    rcases ha.at i with ⟨hnone, -⟩ | ⟨da', f, hda', hf, hfa⟩
    · rw [hda] at hnone
      cases hnone
    rcases hb.at i with ⟨hnone, -⟩ | ⟨db', g, hdb', hg, hgb⟩
    · rw [hdb] at hnone
      cases hnone
    obtain rfl : da = da' := Option.some.inj (hda.symm.trans hda')
    obtain rfl : db = db' := Option.some.inj (hdb.symm.trans hdb')
    exact ⟨i, f, g, rfl, hf, hg,
      (step_differs_iff hf hg hfa hgb hstart hagree).1 ⟨hca, hcb, hregs⟩⟩
  · rintro ⟨i, f, g, rfl, hf, hg, hne⟩
    rcases ha.at i with ⟨-, hnone⟩ | ⟨da, f', hda, hf', hfa⟩
    · rw [hf] at hnone
      cases hnone
    rcases hb.at i with ⟨-, hnone⟩ | ⟨db, g', hdb, hg', hgb⟩
    · rw [hg] at hnone
      cases hnone
    obtain rfl : f = f' := Option.some.inj (hf.symm.trans hf')
    obtain rfl : g = g' := Option.some.inj (hg.symm.trans hg')
    exact ⟨i, da, db, rfl, hda, hdb, (step_differs_iff hf hg hfa hgb hstart hagree).2 hne⟩

/-- A run in which the second instruction leaves `rax` in `rax` -/
def forkFiles (rax : BitVec 64) : List RegFile :=
  [fun _ => 0, fun r => if r = .rip then 3 else 0,
    fun r => if r = .rip then 6 else if r = .rax then rax else 0]

def forkStreams (ds : List StateDelta) : Streams :=
  { trace := { basis := ascii "rel", insns := [0, 3, 6] }, statediff := ds }

end Report

end AsmTest.Doc
