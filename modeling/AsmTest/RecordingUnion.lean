import AsmTest.Recording
import Mathlib.Data.List.Infix

/-!
# The session union

Several captures of one session as one document. The union weakens the decoded provenance to its
weakest part, but the writer writes the provenance object of the first part, and whether the file
is torn is told by its last part only.
-/

namespace AsmTest.Doc

open Lib

variable {F : Type}

/-- The trust ladder; a trust that is not known ranks weakest. -/
def trustRank (t : Bytes) : ℕ :=
  if t = ascii "exact" then 3
  else if t = ascii "strong" then 2
  else if t = ascii "statistical" then 1
  else 0

def mergeProvenance (u p : Provenance F) : Provenance F :=
  { u with
    backend := if p.backend ≠ u.backend ∧ ¬p.backend <:+: u.backend
      then u.backend ++ (ascii "+" ++ p.backend) else u.backend
    exact := u.exact && p.exact
    trust := if trustRank p.trust < trustRank u.trust then p.trust else u.trust
    redacted := u.redacted || p.redacted }

/-- The identity survives only parts that hashed the same bytes. -/
def mergeCode (u c : Code) : Code :=
  if u.present = true ∧ (c.present = false ∨ c.sha256 ≠ u.sha256) then {} else u

def shiftSeq (offset : ℕ) (e : Event F) : Event F :=
  { e with seq := e.seq + offset }

def mergeKind (offset : ℕ) (m : List (Bytes × List (Event F))) (kv : Bytes × List (Event F)) :
    List (Bytes × List (Event F)) :=
  mapInsert kv.1 ((mapFind kv.1 m).getD [] ++ kv.2.map (shiftSeq offset)) m

/-- The events of one more part; the positions so far are the offset. -/
def mergeEvents (u p : Recording F) : Recording F :=
  { u with
    byKind := p.byKind.foldl (mergeKind u.nextSeq) u.byKind
    nextSeq := u.nextSeq + p.nextSeq
    unknownKinds := u.unknownKinds + p.unknownKinds }

def mergeFidelity (u p : Recording F) : Recording F :=
  { u with
    torn := u.torn || p.torn
    endTruncated := u.endTruncated || p.endTruncated
    dropsLost := (u.dropsLost + p.dropsLost) % 2 ^ 64
    dropsThrottled := u.dropsThrottled || p.dropsThrottled
    declaredEvents := (u.declaredEvents + p.declaredEvents) % 2 ^ 64
    hasStepsTotal := p.hasStepsTotal || u.hasStepsTotal
    stepsTotal := if p.hasStepsTotal then (u.stepsTotal + p.stepsTotal) % 2 ^ 64 else u.stepsTotal }

/-- The first part names the union, its provenance is the weakest of all. -/
def mergeIdentity (front : Recording F) (rest : List (Recording F)) : Recording F where
  version := front.version
  producer := front.producer
  arch := front.arch
  provenance := (rest.map Recording.provenance).foldl mergeProvenance front.provenance
  code := (rest.map Recording.code).foldl mergeCode front.code

/-- The part whose footer decides whether the union has one -/
def lastPart (front : Recording F) (rest : List (Recording F)) : Recording F :=
  rest.getLast?.getD front

def mergeEnd (last u : Recording F) : Recording F :=
  { u with hasEnd := last.hasEnd }

/-- A refusal only when every part was refused -/
def mergeSkipped (front : Recording F) (rest : List (Recording F)) (u : Recording F) :
    Recording F :=
  if (front :: rest).all Recording.skipped then
    { u with skipped := true, skipCode := front.skipCode, skipReason := front.skipReason }
  else u

/-- The union of two parts and more -/
def mergeParts (front : Recording F) (rest : List (Recording F)) : Recording F :=
  mergeSkipped front rest ((front :: rest).foldl mergeFidelity (mergeEnd (lastPart front rest)
    ((front :: rest).foldl mergeEvents (mergeIdentity front rest))))

def mergeSessionRecordings (done : List (Recording F)) (growing : Option (Recording F)) :
    Recording F :=
  match done ++ growing.toList with
  | [] => {}
  | [r] => r
  | front :: rest => mergeParts front rest

section Union

lemma raw_foldl_mergeProvenance (ps : List (Provenance F)) (p : Provenance F) :
    (ps.foldl mergeProvenance p).raw = p.raw := by
  induction ps generalizing p with
  | nil => rfl
  | cons q ps ih => exact ih (mergeProvenance p q)

lemma foldl_mergeCode_eq (cs : List Code) (c : Code) :
    cs.foldl mergeCode c = c ∨ cs.foldl mergeCode c = {} := by
  induction cs generalizing c with
  | nil => exact .inl rfl
  | cons d cs ih =>
    rw [List.foldl_cons, mergeCode]
    split_ifs
    · exact .inr ((ih {}).elim id id)
    · exact ih c

lemma exists_foldl_mergeEvents_eq (parts : List (Recording F)) (u : Recording F) :
    ∃ byKind nextSeq unknownKinds,
      parts.foldl mergeEvents u = { u with byKind, nextSeq, unknownKinds } := by
  induction parts generalizing u with
  | nil => exact ⟨_, _, _, rfl⟩
  | cons p parts ih =>
    obtain ⟨m, n, k, h⟩ := ih (mergeEvents u p)
    exact ⟨m, n, k, h⟩

lemma exists_foldl_mergeFidelity_eq (parts : List (Recording F)) {u : Recording F}
    (hlost : u.dropsLost < 2 ^ 64) (hsteps : u.stepsTotal < 2 ^ 64) :
    ∃ torn endTruncated dropsLost dropsThrottled declaredEvents hasStepsTotal stepsTotal,
      dropsLost < 2 ^ 64 ∧ stepsTotal < 2 ^ 64 ∧
      parts.foldl mergeFidelity u = { u with
        torn, endTruncated, dropsLost, dropsThrottled, declaredEvents, hasStepsTotal,
        stepsTotal } := by
  induction parts generalizing u with
  | nil => exact ⟨_, _, _, _, _, _, _, hlost, hsteps, rfl⟩
  | cons p parts ih =>
    have hsteps' : (mergeFidelity u p).stepsTotal < 2 ^ 64 := by
      rw [mergeFidelity]
      dsimp only
      split_ifs
      exacts [Nat.mod_lt _ (by norm_num), hsteps]
    obtain ⟨t, e, l, th, d, hs, st, hl, hst, h⟩ :=
      ih (show (mergeFidelity u p).dropsLost < 2 ^ 64 from Nat.mod_lt _ (by norm_num)) hsteps'
    exact ⟨t, e, l, th, d, hs, st, hl, hst, h⟩

/-- A property of events that does not look at the position holds of the union's events when it
holds of every part's. -/
lemma forall_mem_mergeKind {P : Event F → Prop} (hP : ∀ e n, P e → P (shiftSeq n e))
    {m : List (Bytes × List (Event F))} {kv : Bytes × List (Event F)} (offset : ℕ)
    (hm : ∀ e ∈ m.flatMap fun kv => kv.2, P e) (hkv : ∀ e ∈ kv.2, P e) :
    ∀ e ∈ (mergeKind offset m kv).flatMap fun kv => kv.2, P e := by
  intro e he
  obtain ⟨kv', hmem, he⟩ := List.mem_flatMap.1 he
  rcases mem_mapInsert hmem with rfl | hmem
  · rcases List.mem_append.1 he with he | he
    · cases hfind : mapFind kv.1 m with
      | none => rw [hfind] at he; cases he
      | some es =>
        rw [hfind] at he
        exact hm e (List.mem_flatMap.2 ⟨_, mem_of_mapFind hfind, he⟩)
    · obtain ⟨e', he', rfl⟩ := List.mem_map.1 he
      exact hP e' offset (hkv e' he')
  · exact hm e (List.mem_flatMap.2 ⟨kv', hmem, he⟩)

lemma forall_mem_foldl_mergeEvents {P : Event F → Prop} (hP : ∀ e n, P e → P (shiftSeq n e))
    {parts : List (Recording F)} {u : Recording F}
    (hu : ∀ e ∈ u.byKind.flatMap fun kv => kv.2, P e)
    (hparts : ∀ p ∈ parts, ∀ e ∈ p.byKind.flatMap fun kv => kv.2, P e) :
    ∀ e ∈ (parts.foldl mergeEvents u).byKind.flatMap fun kv => kv.2, P e := by
  induction parts generalizing u with
  | nil => exact hu
  | cons p parts ih =>
    refine ih ?_ fun q hq => hparts q (List.mem_cons_of_mem _ hq)
    have hp := hparts p List.mem_cons_self
    show ∀ e ∈ (p.byKind.foldl (mergeKind u.nextSeq) u.byKind).flatMap fun kv => kv.2, P e
    generalize p.byKind = kvs at hp
    generalize u.byKind = m at hu
    induction kvs generalizing m with
    | nil => exact hu
    | cons kv kvs ihk =>
      rw [List.flatMap_cons, List.forall_mem_append] at hp
      exact ihk hp.2 _ (forall_mem_mergeKind hP u.nextSeq hu hp.1)

lemma mem_of_mem_stamp {n : ℕ} {evs : List (Bytes × Json F)} {e : Event F}
    (h : e ∈ stamp n evs) : (e.kind, e.body) ∈ evs := by
  induction evs generalizing n with
  | nil => cases h
  | cons e' evs ih =>
    rcases List.mem_cons.1 h with rfl | h
    · exact List.mem_cons_self
    · exact List.mem_cons_of_mem _ (ih h)

lemma Loaded.storable_events {r : Recording F} {evs : List (Bytes × Json F)} (h : Loaded r evs) :
    ∀ e ∈ r.byKind.flatMap fun kv => kv.2, Storable (e.kind, e.body) := by
  intro e he
  have hstamp : e ∈ r.events := (List.mem_insertionSort _).2 he
  rw [events_pushAll evs r h.events] at hstamp
  exact h.storable _ (mem_of_mem_stamp hstamp)

/-- A reload takes its provenance from the raw object and its tear from the missing footer. -/
lemma reload_flags (L : JsonLib F) (hL : L.Lawful) {r : Recording F} {p : Provenance F}
    (hheader : HeaderOk r p) (hfooter : FooterRange r)
    (hstorable : ∀ e ∈ r.byKind.flatMap fun kv => kv.2, Storable (e.kind, e.body)) :
    ∃ r', loadRecording L (recordingToAsmtrace L r) = .ok r' ∧ r'.provenance = p ∧
      r'.torn = !r.hasEnd := by
  have hbodies : r.events.map Event.body =
      (r.events.map fun e => (e.kind, e.body)).map Prod.snd := by
    rw [List.map_map]
    rfl
  have hst : ∀ e ∈ r.events.map fun e => (e.kind, e.body), Storable e := by
    intro e he
    obtain ⟨e', he', rfl⟩ := List.mem_map.1 he
    exact hstorable e' ((List.mem_insertionSort _).1 he')
  refine ⟨_, reload_eq L hL hheader hfooter hbodies hst, ?_⟩
  obtain ⟨m, n, u, hpush⟩ := exists_pushAll_eq (r.events.map fun e => (e.kind, e.body)) (headOf r p)
  rw [hpush]
  cases r.hasEnd <;> exact ⟨rfl, rfl⟩

/-- What of the union a writer looks at, besides its events -/
structure UnionOf (front : Recording F) (rest : List (Recording F)) (u : Recording F) : Prop where
  version : u.version = front.version
  producer : u.producer = front.producer
  arch : u.arch = front.arch
  raw : u.provenance.raw = front.provenance.raw
  code : u.code = front.code ∨ u.code = {}
  hasEnd : u.hasEnd = (lastPart front rest).hasEnd
  dropsLost : u.dropsLost < 2 ^ 64
  stepsTotal : u.stepsTotal < 2 ^ 64
  skip : u.skipCode = front.skipCode ∧ u.skipReason = front.skipReason ∨
    u.skipCode = 0 ∧ u.skipReason = []
  byKind : u.byKind = ((front :: rest).foldl mergeEvents {}).byKind

lemma byKind_foldl_mergeEvents (parts : List (Recording F)) {u v : Recording F}
    (hkind : u.byKind = v.byKind) (hseq : u.nextSeq = v.nextSeq) :
    (parts.foldl mergeEvents u).byKind = (parts.foldl mergeEvents v).byKind := by
  induction parts generalizing u v with
  | nil => exact hkind
  | cons p parts ih =>
    apply ih
    · simp [mergeEvents, hkind, hseq]
    · simp [mergeEvents, hseq]

lemma unionOf_mergeParts (front : Recording F) (rest : List (Recording F)) :
    UnionOf front rest (mergeParts front rest) := by
  have hraw := raw_foldl_mergeProvenance (rest.map Recording.provenance) front.provenance
  have hcode := foldl_mergeCode_eq (rest.map Recording.code) front.code
  have hkind := @byKind_foldl_mergeEvents F (front :: rest) (mergeIdentity front rest) {} rfl rfl
  obtain ⟨m, n, k, hu⟩ := exists_foldl_mergeEvents_eq (front :: rest) (mergeIdentity front rest)
  rw [hu] at hkind
  have hzero : (0 : ℕ) < 2 ^ 64 := by norm_num
  obtain ⟨t, e, l, th, d, hs, st, hl, hst, hv⟩ := exists_foldl_mergeFidelity_eq (front :: rest)
    (show (mergeEnd (lastPart front rest) { mergeIdentity front rest with
      byKind := m, nextSeq := n, unknownKinds := k }).dropsLost < 2 ^ 64 from hzero) hzero
  rw [mergeParts, hu, hv, mergeSkipped]
  split_ifs
  · exact ⟨rfl, rfl, rfl, hraw, hcode, rfl, hl, hst, .inl ⟨rfl, rfl⟩, hkind⟩
  · exact ⟨rfl, rfl, rfl, hraw, hcode, rfl, hl, hst, .inr ⟨rfl, rfl⟩, hkind⟩

lemma UnionOf.headerOk {front u : Recording F} {rest : List (Recording F)} {p : Provenance F}
    (hu : UnionOf front rest u) (h : HeaderOk front p) : HeaderOk u p := by
  obtain ⟨prov, hwf, hraw, hload⟩ := h.provenance
  refine ⟨hu.version ▸ h.version, ⟨prov, hwf, hu.raw.trans hraw, hload⟩, hu.producer ▸ h.producer,
    hu.arch ▸ h.arch, ?_, ?_⟩
  · rcases hu.code with hc | hc
    · rw [hc]
      exact h.code
    · exact fun _ => hc
  · rcases hu.code with hc | hc
    · rw [hc]
      exact h.codeOk
    · rw [hc]
      exact ⟨rfl, rfl, by norm_num⟩

lemma UnionOf.footerRange {front u : Recording F} {rest : List (Recording F)}
    (hu : UnionOf front rest u) (h : FooterRange front) : FooterRange u := by
  obtain ⟨hcode, hreason⟩ | ⟨hcode, hreason⟩ := hu.skip
  · exact ⟨hu.dropsLost, hu.stepsTotal, hcode ▸ h.skipCode, hreason ▸ h.skipReason⟩
  · refine ⟨hu.dropsLost, hu.stepsTotal, ?_, ?_⟩
    · rw [hcode]
      norm_num
    · rw [hreason]
      rfl

/-- A union that is saved and loaded says of exactness, redaction and trust what its first part
said, and it is torn when its last part has no footer. -/
lemma reload_union (L : JsonLib F) (hL : L.Lawful) (done : List (Recording F))
    (growing : Option (Recording F)) {front : Recording F} {rest : List (Recording F)}
    (hparts : done ++ growing.toList = front :: rest)
    (hload : ∀ p ∈ front :: rest, ∃ evs, Loaded p evs) :
    ∃ r', loadRecording L (recordingToAsmtrace L (mergeSessionRecordings done growing)) = .ok r' ∧
      r'.provenance = front.provenance ∧ r'.torn = !(lastPart front rest).hasEnd := by
  obtain ⟨evs, hfront⟩ := hload front List.mem_cons_self
  rw [mergeSessionRecordings, hparts]
  cases rest with
  | nil =>
    exact reload_flags L hL hfront.header hfront.footer.toFooterRange hfront.storable_events
  | cons r rest =>
    have hu := unionOf_mergeParts front (r :: rest)
    have hstorable : ∀ e ∈ (mergeParts front (r :: rest)).byKind.flatMap fun kv => kv.2,
        Storable (e.kind, e.body) := by
      rw [hu.byKind]
      refine forall_mem_foldl_mergeEvents (P := fun e => Storable (e.kind, e.body))
        (fun _ _ h => h) (by simp) fun p hp => ?_
      obtain ⟨evs, hp⟩ := hload p hp
      exact hp.storable_events
    obtain ⟨r', hr', hprov, htorn⟩ := reload_flags L hL (hu.headerOk hfront.header)
      (hu.footerRange hfront.footer.toFooterRange) hstorable
    exact ⟨r', hr', hprov, htorn.trans (congrArg _ hu.hasEnd)⟩

lemma torn_of_loadRecording {L : JsonLib F} {text : Bytes} {r : Recording F}
    (h : loadRecording L text = .ok r) (hend : r.hasEnd = false) : r.torn = true := by
  rw [loadRecording] at h
  split at h
  · cases h
  split at h
  · cases h
  split at h
  · cases h
  obtain rfl := Except.ok.inj h
  split_ifs at hend ⊢ with hend'
  · rw [hend] at hend'
    cases hend'
  · rfl

lemma lastPart_mem (front : Recording F) (rest : List (Recording F)) :
    lastPart front rest ∈ front :: rest := by
  rw [lastPart]
  cases h : rest.getLast? with
  | none => exact List.mem_cons_self
  | some p => exact List.mem_cons_of_mem _ (List.mem_of_getLast? h)

/-- A document that claims no more than the weakest of its parts -/
structure Honest (parts : List (Recording F)) (r : Recording F) : Prop where
  exact : r.provenance.exact = parts.all fun p => p.provenance.exact
  redacted : r.provenance.redacted = parts.any fun p => p.provenance.redacted
  trust : ∃ p ∈ parts, r.provenance.trust = p.provenance.trust ∧
    ∀ q ∈ parts, trustRank p.provenance.trust ≤ trustRank q.provenance.trust
  torn : r.torn = parts.any Recording.torn

/-- The first part is the weakest and, when the last part has a footer, no part is torn. -/
structure FrontWeakest (front : Recording F) (rest : List (Recording F)) : Prop where
  exact : front.provenance.exact = true → ∀ p ∈ rest, p.provenance.exact = true
  redacted : front.provenance.redacted = false → ∀ p ∈ rest, p.provenance.redacted = false
  trust : ∀ p ∈ rest, trustRank front.provenance.trust ≤ trustRank p.provenance.trust
  torn : (lastPart front rest).hasEnd = true → ∀ p ∈ front :: rest, p.torn = false

lemma honest_iff {front r : Recording F} {rest : List (Recording F)}
    (hprov : r.provenance = front.provenance) (htorn : r.torn = !(lastPart front rest).hasEnd)
    (hlast : (lastPart front rest).hasEnd = false → (lastPart front rest).torn = true) :
    Honest (front :: rest) r ↔ FrontWeakest front rest := by
  constructor
  · rintro ⟨hexact, hredacted, ⟨p, hp, htrust, hweak⟩, ht⟩
    rw [hprov, List.all_cons] at hexact
    rw [hprov, List.any_cons] at hredacted
    refine ⟨fun h => ?_, fun h => ?_, fun q hq => ?_, fun h q hq => ?_⟩
    · rw [h, Bool.true_and] at hexact
      exact List.all_eq_true.1 hexact.symm
    · rw [h, Bool.false_or] at hredacted
      intro q hq
      exact Bool.eq_false_iff.2 (List.any_eq_false.1 hredacted.symm q hq)
    · rw [← hprov, htrust]
      exact hweak q (List.mem_cons_of_mem _ hq)
    · rw [htorn, h] at ht
      exact Bool.eq_false_iff.2 (List.any_eq_false.1 ht.symm q hq)
  · rintro ⟨hexact, hredacted, htrust, ht⟩
    refine ⟨?_, ?_, ⟨front, List.mem_cons_self, by rw [hprov], ?_⟩, ?_⟩
    · rw [hprov, List.all_cons]
      cases h : front.provenance.exact with
      | false => rfl
      | true => exact (List.all_eq_true.2 (hexact h)).symm
    · rw [hprov, List.any_cons]
      cases h : front.provenance.redacted with
      | true => rfl
      | false =>
        refine (List.any_eq_false.2 fun q hq => ?_).symm
        rw [hredacted h q hq]
        exact Bool.false_ne_true
    · intro q hq
      rcases List.mem_cons.1 hq with rfl | hq
      exacts [le_rfl, htrust q hq]
    · rw [htorn]
      cases h : (lastPart front rest).hasEnd with
      | false => exact (List.any_eq_true.2 ⟨_, lastPart_mem front rest, hlast h⟩).symm
      | true =>
        refine (List.any_eq_false.2 fun q hq => ?_).symm
        rw [ht h q hq]
        exact Bool.false_ne_true

/-- A saved union is honest exactly when its first part is the weakest and its last part would not
hide a torn one. -/
theorem saved_union_honest_iff (L : JsonLib F) (hL : L.Lawful) (done : List (Recording F))
    (growing : Option (Recording F)) (front : Recording F) (rest : List (Recording F))
    (hparts : done ++ growing.toList = front :: rest)
    (hload : ∀ p ∈ front :: rest, ∃ text, loadRecording L text = .ok p) :
    (∃ r', loadRecording L (recordingToAsmtrace L (mergeSessionRecordings done growing)) = .ok r' ∧
      Honest (front :: rest) r') ↔ FrontWeakest front rest := by
  obtain ⟨r', hr', hprov, htorn⟩ := reload_union L hL done growing hparts fun p hp => by
    obtain ⟨text, htext⟩ := hload p hp
    exact loadRecording_loaded L hL htext
  have hlast : (lastPart front rest).hasEnd = false → (lastPart front rest).torn = true := by
    intro hend
    obtain ⟨text, htext⟩ := hload _ (lastPart_mem front rest)
    exact torn_of_loadRecording htext hend
  rw [← honest_iff hprov htorn hlast]
  constructor
  · rintro ⟨r'', hr'', hhonest⟩
    rw [hr'] at hr''
    exact Except.ok.inj hr'' ▸ hhonest
  · exact fun h => ⟨r', hr', h⟩

/-- A capture without events -/
def emptyCapture (exact : Bool) (trust : String) : Bytes :=
  [JText.obj [(ascii "asmtrace", .int 1), (ascii "provenance",
      .obj [(ascii "exact", .bool exact), (ascii "trust", .str (ascii trust))])],
    .obj [(ascii "k", .str (ascii "end")), (ascii "events", .int 0)]].flatMap
    fun t => t.render ++ [10]

lemma exists_load_emptyCapture (exact : Bool) (trust : String)
    (h : ((loadRecording compactJson (emptyCapture exact trust)).toOption.map fun r =>
      (r.provenance.exact, r.provenance.trust, r.provenance.redacted, r.hasEnd, r.torn)) =
        some (exact, ascii trust, false, true, false)) :
    ∃ r, loadRecording compactJson (emptyCapture exact trust) = .ok r ∧
      r.provenance.exact = exact ∧ r.provenance.trust = ascii trust ∧
      r.provenance.redacted = false ∧ r.hasEnd = true ∧ r.torn = false := by
  cases hr : loadRecording compactJson (emptyCapture exact trust) with
  | error e =>
    rw [hr] at h
    cases h
  | ok r =>
    rw [hr] at h
    simp only [Except.toOption, Option.map_some, Option.some.injEq, Prod.mk.injEq] at h
    exact ⟨r, rfl, h⟩

theorem saved_union_honest_emptyCapture :
    ∃ a b : Recording Empty,
      loadRecording compactJson (emptyCapture false "statistical") = .ok a ∧
      loadRecording compactJson (emptyCapture true "exact") = .ok b ∧
      ∃ r', loadRecording compactJson
          (recordingToAsmtrace compactJson (mergeSessionRecordings [a] (some b))) = .ok r' ∧
        Honest [a, b] r' := by
  obtain ⟨a, ha, haexact, hatrust, haredacted, haend, hatorn⟩ :=
    exists_load_emptyCapture false "statistical" (by decide +kernel)
  obtain ⟨b, hb, hbexact, hbtrust, hbredacted, hbend, hbtorn⟩ :=
    exists_load_emptyCapture true "exact" (by decide +kernel)
  have hload : ∀ p ∈ [a, b], ∃ text, loadRecording compactJson text = .ok p := by
    simp only [List.forall_mem_cons]
    exact ⟨⟨_, ha⟩, ⟨_, hb⟩, by simp⟩
  refine ⟨a, b, ha, hb, (saved_union_honest_iff compactJson compactJson_lawful [a] (some b) a [b]
    rfl hload).2 ⟨?_, ?_, ?_, ?_⟩⟩
  · simp [haexact]
  · simp [hbredacted]
  · simp only [List.forall_mem_singleton, hatrust, hbtrust]
    decide
  · simp [hatorn, hbtorn]

/-- An exact capture followed by a statistical one is exact once it has been saved. -/
theorem saved_union_launders :
    ∃ a b r' : Recording Empty,
      loadRecording compactJson (emptyCapture true "exact") = .ok a ∧
      loadRecording compactJson (emptyCapture false "statistical") = .ok b ∧
      loadRecording compactJson
        (recordingToAsmtrace compactJson (mergeSessionRecordings [a, b] none)) = .ok r' ∧
      r'.provenance.exact = true ∧ b.provenance.exact = false ∧ ¬Honest [a, b] r' := by
  obtain ⟨a, ha, haexact, -⟩ := exists_load_emptyCapture true "exact" (by decide +kernel)
  obtain ⟨b, hb, hbexact, -⟩ :=
    exists_load_emptyCapture false "statistical" (by decide +kernel)
  have hload : ∀ p ∈ [a, b], ∃ evs, Loaded p evs := by
    simp only [List.forall_mem_cons]
    exact ⟨loadRecording_loaded _ compactJson_lawful ha,
      loadRecording_loaded _ compactJson_lawful hb, by simp⟩
  obtain ⟨r', hr', hprov, -⟩ :=
    reload_union compactJson compactJson_lawful [a, b] none rfl hload
  have hexact : r'.provenance.exact = true := hprov ▸ haexact
  refine ⟨a, b, r', ha, hb, hr', hexact, hbexact, fun h => ?_⟩
  have := h.exact
  rw [hexact] at this
  simp [haexact, hbexact] at this

end Union

end AsmTest.Doc
