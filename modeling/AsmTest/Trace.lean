import Mathlib.Tactic
import Mathlib.Data.Finset.Card
import Mathlib.Data.List.Basic

/-!
# The execution trace

The sink shared by every trace backend: an ordered instruction stream and a set of block
starts, each with a capacity, and one flag that says that something was dropped.
-/

namespace AsmTest.Hwtrace

/-- `asmtest_trace_t`; a buffer that is `none` is a null pointer, its length is the list's. -/
structure Trace where
  insns : Option (List ℕ)
  insnsCap : ℕ
  insnsTotal : ℕ
  blocks : Option (List ℕ)
  blocksCap : ℕ
  blocksTotal : ℕ
  truncated : Bool
deriving DecidableEq, Repr

/-- `trace->truncated = true` -/
def Trace.markTruncated (t : Trace) : Trace :=
  { t with truncated := true }

def traceAppendInsn (t : Trace) (off : ℕ) : Trace :=
  let t' := match t.insns with
    | none => t
    | some l =>
      if l.length < t.insnsCap then { t with insns := some (l ++ [off]) } else t.markTruncated
  { t' with insnsTotal := t.insnsTotal + 1 }

def traceAppendBlock (t : Trace) (off : ℕ) : Trace :=
  let t := { t with blocksTotal := t.blocksTotal + 1 }
  match t.blocks with
  | none => t
  | some l =>
    if off ∈ l then t
    else if l.length < t.blocksCap then { t with blocks := some (l ++ [off]) }
    else t.markTruncated

/-- One call of a fill point. -/
inductive Event where
  | insn (off : ℕ)
  | block (off : ℕ)
deriving DecidableEq, Repr

def emit (t : Trace) : Event → Trace
  | .insn off => traceAppendInsn t off
  | .block off => traceAppendBlock t off

def emitAll (t : Trace) (evs : List Event) : Trace :=
  evs.foldl emit t

/-- The offsets of the instruction events, in order. -/
def insnsOf : List Event → List ℕ
  | [] => []
  | .insn off :: evs => off :: insnsOf evs
  | .block _ :: evs => insnsOf evs

/-- The offsets of the block events, in order and with repetitions. -/
def blocksOf : List Event → List ℕ
  | [] => []
  | .insn _ :: evs => blocksOf evs
  | .block off :: evs => off :: blocksOf evs

@[simp] lemma insnsOf_append (a b : List Event) : insnsOf (a ++ b) = insnsOf a ++ insnsOf b := by
  induction a with
  | nil => rfl
  | cons e a ih => cases e <;> simp [insnsOf, ih]

@[simp] lemma blocksOf_append (a b : List Event) :
    blocksOf (a ++ b) = blocksOf a ++ blocksOf b := by
  induction a with
  | nil => rfl
  | cons e a ih => cases e <;> simp [blocksOf, ih]

@[simp] lemma emitAll_nil (t : Trace) : emitAll t [] = t := rfl

@[simp] lemma emitAll_cons (t : Trace) (e : Event) (evs : List Event) :
    emitAll t (e :: evs) = emitAll (emit t e) evs := rfl

lemma emitAll_append (t : Trace) (a b : List Event) :
    emitAll t (a ++ b) = emitAll (emitAll t a) b :=
  List.foldl_append

lemma traceAppendInsn_eq_emitAll (t : Trace) (off : ℕ) :
    traceAppendInsn t off = emitAll t [.insn off] := rfl

lemma traceAppendBlock_eq_emitAll (t : Trace) (off : ℕ) :
    traceAppendBlock t off = emitAll t [.block off] := rfl

section Emit

variable {t : Trace}

lemma traceAppendInsn_some {l : List ℕ} (h : t.insns = some l) (off : ℕ) :
    traceAppendInsn t off =
      if l.length < t.insnsCap then
        { t with insns := some (l ++ [off]), insnsTotal := t.insnsTotal + 1 }
      else { t with truncated := true, insnsTotal := t.insnsTotal + 1 } := by
  cases t
  subst h
  unfold traceAppendInsn
  dsimp only
  split_ifs <;> rfl

lemma traceAppendInsn_none (h : t.insns = none) (off : ℕ) :
    traceAppendInsn t off = { t with insnsTotal := t.insnsTotal + 1 } := by
  cases t
  subst h
  rfl

lemma traceAppendBlock_some {l : List ℕ} (h : t.blocks = some l) (off : ℕ) :
    traceAppendBlock t off =
      if off ∈ l then { t with blocksTotal := t.blocksTotal + 1 }
      else if l.length < t.blocksCap then
        { t with blocks := some (l ++ [off]), blocksTotal := t.blocksTotal + 1 }
      else { t with truncated := true, blocksTotal := t.blocksTotal + 1 } := by
  cases t
  subst h
  rfl

lemma traceAppendBlock_none (h : t.blocks = none) (off : ℕ) :
    traceAppendBlock t off = { t with blocksTotal := t.blocksTotal + 1 } := by
  cases t
  subst h
  rfl

/-- `t'` is `t` with these events and nothing dropped. -/
structure Extends (t : Trace) (evs : List Event) (t' : Trace) : Prop where
  insns : t'.insns = t.insns.map (· ++ insnsOf evs)
  blocks_none : t.blocks = none → t'.blocks = none
  blocks_some : ∀ l, t.blocks = some l →
    ∃ l', t'.blocks = some l' ∧ ∀ x, x ∈ l' ↔ x ∈ l ∨ x ∈ blocksOf evs

/-- A fill point either extends the trace or sets the flag, and never clears it. -/
lemma emit_spec (t : Trace) (e : Event) :
    ((emit t e).truncated = t.truncated ∧ Extends t [e] (emit t e)) ∨
      (emit t e).truncated = true := by
  cases e with
  | insn off =>
    rw [emit]
    cases hl : t.insns with
    | none =>
      rw [traceAppendInsn_none hl]
      exact .inl ⟨rfl, by simp [hl], id, fun l h => ⟨l, h, by simp [blocksOf]⟩⟩
    | some l =>
      rw [traceAppendInsn_some hl]
      split_ifs
      · exact .inl ⟨rfl, by simp [hl, insnsOf], id, fun l h => ⟨l, h, by simp [blocksOf]⟩⟩
      · exact .inr rfl
  | block off =>
    rw [emit]
    cases hl : t.blocks with
    | none =>
      rw [traceAppendBlock_none hl]
      exact .inl ⟨rfl, by simp [insnsOf], id, fun l h => by simp [hl] at h⟩
    | some l =>
      rw [traceAppendBlock_some hl]
      split_ifs with hmem
      · refine .inl ⟨rfl, by simp [insnsOf], fun h => by simp [hl] at h, fun l' h => ⟨l', h, ?_⟩⟩
        obtain rfl : l = l' := Option.some.inj (hl.symm.trans h)
        intro x
        simp only [blocksOf, List.mem_singleton]
        exact ⟨.inl, fun hx => hx.elim id fun hx => hx ▸ hmem⟩
      · refine .inl ⟨rfl, by simp [insnsOf], fun h => by simp [hl] at h, fun l' h => ?_⟩
        obtain rfl : l = l' := Option.some.inj (hl.symm.trans h)
        exact ⟨l ++ [off], rfl, by simp [blocksOf]⟩
      · exact .inr rfl

lemma Extends.trans {t t' t'' : Trace} {a b : List Event} (h : Extends t a t')
    (h' : Extends t' b t'') : Extends t (a ++ b) t'' where
  insns := by
    rw [h'.insns, h.insns, insnsOf_append, Option.map_map]
    congr 1
    funext l
    simp
  blocks_none hn := h'.blocks_none (h.blocks_none hn)
  blocks_some l hl := by
    obtain ⟨l', hl', hx'⟩ := h.blocks_some l hl
    obtain ⟨l'', hl'', hx''⟩ := h'.blocks_some l' hl'
    refine ⟨l'', hl'', fun x => ?_⟩
    rw [hx'', hx', blocksOf_append, List.mem_append, or_assoc]

/-- A set flag stays set. -/
lemma truncated_emit (e : Event) (h : t.truncated = true) : (emit t e).truncated = true := by
  obtain ⟨he, -⟩ | he := emit_spec t e
  · rw [he, h]
  · exact he

lemma truncated_emitAll (evs : List Event) (h : t.truncated = true) :
    (emitAll t evs).truncated = true := by
  induction evs generalizing t with
  | nil => exact h
  | cons e evs ih => exact ih (truncated_emit e h)

/-- A trace that ends with the flag clear has dropped nothing on the way. -/
lemma emitAll_extends (evs : List Event) (h : (emitAll t evs).truncated = false) :
    t.truncated = false ∧ Extends t evs (emitAll t evs) := by
  induction evs generalizing t with
  | nil =>
    exact ⟨h, by simp [insnsOf], id, fun l hl => ⟨l, hl, by simp [blocksOf]⟩⟩
  | cons e evs ih =>
    obtain ⟨he, hext⟩ := ih h
    obtain ⟨hkeep, hone⟩ | htrunc := emit_spec t e
    · exact ⟨by rw [← hkeep, he], hone.trans hext⟩
    · exact absurd htrunc (by simp [he])

/-- The capacities suffice for the events: only block starts not stored yet need room. -/
structure Room (t : Trace) (evs : List Event) : Prop where
  insns : ∀ l, t.insns = some l → l.length + (insnsOf evs).length ≤ t.insnsCap
  blocks : ∀ l, t.blocks = some l →
    l.length + ((blocksOf evs).toFinset \ l.toFinset).card ≤ t.blocksCap

lemma Room.emit {e : Event} {evs : List Event} (h : Room t (e :: evs)) :
    (emit t e).truncated = t.truncated ∧ Room (emit t e) evs := by
  cases e with
  | insn off =>
    rw [Hwtrace.emit]
    cases hl : t.insns with
    | none =>
      rw [traceAppendInsn_none hl]
      exact ⟨rfl, fun l h' => by simp [hl] at h', h.blocks⟩
    | some l =>
      have hroom := h.insns l hl
      simp only [insnsOf, List.length_cons] at hroom
      rw [traceAppendInsn_some hl, if_pos (by omega)]
      refine ⟨rfl, fun l' h' => ?_, h.blocks⟩
      obtain rfl : l ++ [off] = l' := Option.some.inj h'
      simp only [List.length_append, List.length_singleton]
      omega
  | block off =>
    rw [Hwtrace.emit]
    cases hl : t.blocks with
    | none =>
      rw [traceAppendBlock_none hl]
      exact ⟨rfl, h.insns, fun l h' => by simp [hl] at h'⟩
    | some l =>
      have hroom := h.blocks l hl
      simp only [blocksOf, List.toFinset_cons] at hroom
      rw [traceAppendBlock_some hl]
      by_cases hmem : off ∈ l
      · rw [if_pos hmem]
        refine ⟨rfl, h.insns, fun l' h' => ?_⟩
        obtain rfl : l = l' := Option.some.inj (hl.symm.trans h')
        -- a block start already stored takes no room
        rwa [Finset.insert_sdiff_of_mem _ (List.mem_toFinset.mpr hmem)] at hroom
      · have hout : off ∉ l.toFinset := by simpa using hmem
        -- the new start takes one place, and none after it is stored
        have hcard : ((blocksOf evs).toFinset \ (l ++ [off]).toFinset).card + 1 ≤
            (insert off (blocksOf evs).toFinset \ l.toFinset).card := by
          have hnew : off ∉ (blocksOf evs).toFinset \ (l ++ [off]).toFinset := by simp
          rw [← Finset.card_insert_of_notMem hnew]
          apply Finset.card_le_card
          intro x hx
          simp only [List.toFinset_append, List.toFinset_cons, List.toFinset_nil,
            Finset.mem_insert, Finset.mem_sdiff, Finset.mem_union, List.mem_toFinset] at hx ⊢
          grind
        rw [if_neg hmem, if_pos (by omega)]
        refine ⟨rfl, h.insns, fun l' h' => ?_⟩
        obtain rfl : l ++ [off] = l' := Option.some.inj h'
        simp only [List.length_append, List.length_singleton]
        omega

/-- With room the flag keeps its value. -/
lemma truncated_emitAll_of_room {evs : List Event} (h : Room t evs) :
    (emitAll t evs).truncated = t.truncated := by
  induction evs generalizing t with
  | nil => rfl
  | cons e evs ih =>
    obtain ⟨hkeep, hroom⟩ := h.emit
    rw [emitAll_cons, ih hroom, hkeep]

/-- Whatever the capacities, what the stream holds afterwards is a prefix of what was sent. -/
lemma insns_emitAll (evs : List Event) {l : List ℕ} (h : t.insns = some l) :
    (emitAll t evs).insns = some (l ++ (insnsOf evs).take (t.insnsCap - l.length)) := by
  induction evs generalizing t l with
  | nil => simp [h, insnsOf]
  | cons e evs ih =>
    rw [emitAll_cons]
    cases e with
    | insn off =>
      rw [emit, traceAppendInsn_some h]
      split_ifs with hroom
      · rw [ih rfl, insnsOf, show t.insnsCap - l.length = t.insnsCap - (l.length + 1) + 1 by omega]
        simp
      · have hfull : t.insnsCap - l.length = 0 := by omega
        refine (ih (t := { t with truncated := true, insnsTotal := t.insnsTotal + 1 }) h).trans ?_
        simp [hfull]
    | block off =>
      cases hb : t.blocks with
      | none =>
        rw [emit, traceAppendBlock_none hb]
        exact ih h
      | some bs =>
        rw [emit, traceAppendBlock_some hb]
        split_ifs <;> exact ih h

end Emit

end AsmTest.Hwtrace
