import AsmTest.Streams
import AsmTest.Lib.JsonText

/-!
# The tables of a decoded data-flow stream

`decode_dataflow` sizes its tables by the largest step index and then writes one entry for each
`df_step`. The size is a 32-bit number, so the index 2 ^ 32 - 1 leaves no room for itself.
-/

namespace AsmTest.Doc

open Lib

variable {F : Type} {L : JsonLib F} {stepEvs edgeEvs : List (Event F)}

/-- The steps as they come, before the sort -/
def decodedSteps (L : JsonLib F) (stepEvs : List (Event F)) : List DfStep :=
  (stepEvs.map Event.body).filterMap (decodeStep L)

/-- The steps in the order of the writes -/
def sortedSteps (L : JsonLib F) (stepEvs : List (Event F)) : List DfStep :=
  (decodedSteps L stepEvs).insertionSort fun a b => a.step ≤ b.step

/-- The writes of `fillSteps`, where each has to be inside the table -/
def fillChecked {α : Type} (f : DfStep → α) (steps : List DfStep) (a : List α) : Option (List α) :=
  steps.foldlM (fun a st => if st.step < a.length then some (a.set st.step (f st)) else none) a

lemma fillChecked_eq {α : Type} (f : DfStep → α) {steps : List DfStep} {a : List α}
    (h : ∀ st ∈ steps, st.step < a.length) :
    fillChecked f steps a = some (fillSteps f steps a) := by
  induction steps generalizing a with
  | nil => rfl
  | cons st steps ih =>
    rw [List.forall_mem_cons] at h
    rw [fillChecked, List.foldlM_cons, if_pos h.1]
    apply ih
    intro st' hst'
    rw [List.length_set]
    exact h.2 st' hst'

lemma mem_sortedSteps {st : DfStep} : st ∈ sortedSteps L stepEvs ↔ st ∈ decodedSteps L stepEvs :=
  (List.perm_insertionSort _ _).mem_iff

/-- The number of steps is the largest of the numbers after each index. -/
lemma nsteps_spec (edgeEvs : List (Event F)) :
    (decodeDataflow L stepEvs edgeEvs).nsteps ∈
        0 :: (sortedSteps L stepEvs).map (fun st => (st.step + 1) % 2 ^ 32) ∧
      ∀ n ∈ 0 :: (sortedSteps L stepEvs).map fun st => (st.step + 1) % 2 ^ 32,
        n ≤ (decodeDataflow L stepEvs edgeEvs).nsteps :=
  List.max?_eq_some_iff.1 List.max?_cons'

/-- Below the last index there is room for every step. -/
lemma step_lt_nsteps (edgeEvs : List (Event F))
    (h : ∀ st ∈ decodedSteps L stepEvs, st.step < 2 ^ 32 - 1) {st : DfStep}
    (hst : st ∈ decodedSteps L stepEvs) : st.step < (decodeDataflow L stepEvs edgeEvs).nsteps := by
  have hle := (nsteps_spec edgeEvs).2 ((st.step + 1) % 2 ^ 32)
    (List.mem_cons_of_mem 0 (List.mem_map.2 ⟨st, mem_sortedSteps.2 hst, rfl⟩))
  have := h st hst
  omega

/-- The number of steps is one more than the largest index. -/
lemma exists_nsteps_eq (edgeEvs : List (Event F))
    (h : ∀ st ∈ decodedSteps L stepEvs, st.step < 2 ^ 32 - 1)
    (hne : decodedSteps L stepEvs ≠ []) :
    ∃ st ∈ decodedSteps L stepEvs, (decodeDataflow L stepEvs edgeEvs).nsteps = st.step + 1 := by
  obtain ⟨st₀, hst₀⟩ := List.exists_mem_of_ne_nil _ hne
  have hpos := step_lt_nsteps edgeEvs h hst₀
  rcases List.mem_cons.1 (nsteps_spec edgeEvs).1 with hzero | hmem
  · rw [hzero] at hpos
    omega
  · obtain ⟨st, hst, heq⟩ := List.mem_map.1 hmem
    have hdec := mem_sortedSteps.1 hst
    have := h st hdec
    refine ⟨st, hdec, ?_⟩
    omega

/-- An index is a number of 32 bits. -/
lemma step_lt_of_decoded {st : DfStep} (hst : st ∈ decodedSteps L stepEvs) : st.step < 2 ^ 32 := by
  obtain ⟨body, -, hstep⟩ := List.mem_filterMap.1 hst
  rw [decodeStep] at hstep
  dsimp only at hstep
  split at hstep
  · cases hstep
  · rename_i n hn
    cases hstep
    obtain ⟨j, -, hj⟩ := Option.bind_eq_some_iff.1 hn
    cases j with
    | int i =>
      cases hj
      dsimp only
      omega
    | float x =>
      cases hj
      exact Nat.mod_lt _ (by decide)
    | null => cases hj
    | bool => cases hj
    | str => cases hj
    | arr => cases hj
    | obj => cases hj

lemma step_of_mem_recs {r : ValRec} (hr : r ∈ (decodeDataflow L stepEvs edgeEvs).recs) :
    ∃ st ∈ decodedSteps L stepEvs, r.step = st.step := by
  obtain ⟨st, hst, hop⟩ := List.mem_flatMap.1 hr
  have hdec : st ∈ decodedSteps L stepEvs := mem_sortedSteps.1 hst
  obtain ⟨body, -, hstep⟩ := List.mem_filterMap.1 hdec
  refine ⟨st, hdec, ?_⟩
  rw [decodeStep] at hstep
  dsimp only at hstep
  split at hstep
  · cases hstep
  · cases hstep
    obtain ⟨o, -, rfl⟩ := List.mem_map.1 hop
    rfl

/-- The five tables written entry by entry -/
structure TablesFilled (L : JsonLib F) (stepEvs edgeEvs : List (Event F)) : Prop where
  off : fillChecked DfStep.off (sortedSteps L stepEvs)
    (List.replicate (decodeDataflow L stepEvs edgeEvs).nsteps 0) =
      some (decodeDataflow L stepEvs edgeEvs).insnOff
  rbase : fillChecked DfStep.rbase (sortedSteps L stepEvs)
    (List.replicate (decodeDataflow L stepEvs edgeEvs).nsteps 0) =
      some (decodeDataflow L stepEvs edgeEvs).insnRbase
  when : fillChecked DfStep.when (sortedSteps L stepEvs)
    (List.replicate (decodeDataflow L stepEvs edgeEvs).nsteps 0) =
      some (decodeDataflow L stepEvs edgeEvs).insnWhen
  disasm : fillChecked DfStep.disasm ((sortedSteps L stepEvs).filter fun st => st.disasm ≠ [])
    (List.replicate (decodeDataflow L stepEvs edgeEvs).nsteps []) =
      some (decodeDataflow L stepEvs edgeEvs).disasm
  present : fillChecked (fun _ => true) (sortedSteps L stepEvs)
    (List.replicate (decodeDataflow L stepEvs edgeEvs).nsteps false) =
      some (decodeDataflow L stepEvs edgeEvs).stepPresent

lemma tablesFilled (h : ∀ st ∈ decodedSteps L stepEvs, st.step < 2 ^ 32 - 1) :
    TablesFilled L stepEvs edgeEvs := by
  have hin : ∀ {α : Type} (a : α), ∀ st ∈ sortedSteps L stepEvs,
      st.step < (List.replicate (decodeDataflow L stepEvs edgeEvs).nsteps a).length := by
    intro α a st hst
    rw [List.length_replicate]
    exact step_lt_nsteps _ h (mem_sortedSteps.1 hst)
  constructor
  · exact fillChecked_eq _ (hin 0)
  · exact fillChecked_eq _ (hin 0)
  · exact fillChecked_eq _ (hin 0)
  · exact fillChecked_eq _ fun st hst => hin [] st (List.mem_filter.1 hst).1
  · exact fillChecked_eq _ (hin false)

/-- Where no step has the index 2 ^ 32 - 1, the steps and operands of the decoded stream are below
`nsteps`, every write of a per-step table is inside it, and `nsteps` is one more than the largest
index. The endpoints of the edges are those of the file. -/
theorem decode_dataflow_in_range (L : JsonLib F) (stepEvs edgeEvs : List (Event F))
    (h : ∀ st ∈ decodedSteps L stepEvs, st.step ≠ 2 ^ 32 - 1) :
    (∀ st ∈ decodedSteps L stepEvs, st.step < (decodeDataflow L stepEvs edgeEvs).nsteps) ∧
    (∀ r ∈ (decodeDataflow L stepEvs edgeEvs).recs,
      r.step < (decodeDataflow L stepEvs edgeEvs).nsteps) ∧
    TablesFilled L stepEvs edgeEvs ∧
    (decodedSteps L stepEvs = [] → (decodeDataflow L stepEvs edgeEvs).nsteps = 0) ∧
    (decodedSteps L stepEvs ≠ [] → ∃ st ∈ decodedSteps L stepEvs,
      (decodeDataflow L stepEvs edgeEvs).nsteps = st.step + 1 ∧
        ∀ st' ∈ decodedSteps L stepEvs, st'.step ≤ st.step) ∧
    (decodeDataflow L stepEvs edgeEvs).edges =
      ((edgeEvs.map Event.body).filterMap (decodeEdge L)).map Prod.fst := by
  have hlt : ∀ st ∈ decodedSteps L stepEvs, st.step < 2 ^ 32 - 1 := by
    intro st hst
    have := step_lt_of_decoded hst
    have := h st hst
    omega
  refine ⟨fun st hst => step_lt_nsteps _ hlt hst, ?_, tablesFilled hlt, ?_, ?_, rfl⟩
  · intro r hr
    obtain ⟨st, hst, heq⟩ := step_of_mem_recs hr
    rw [heq]
    exact step_lt_nsteps _ hlt hst
  · intro hnil
    have hmem : (decodeDataflow L stepEvs edgeEvs).nsteps ∈ _ := (nsteps_spec edgeEvs).1
    rw [sortedSteps, hnil] at hmem
    exact List.mem_singleton.1 hmem
  · intro hne
    obtain ⟨st, hst, heq⟩ := exists_nsteps_eq edgeEvs hlt hne
    refine ⟨st, hst, heq, fun st' hst' => ?_⟩
    have := step_lt_nsteps edgeEvs hlt hst'
    omega

/-- A `df_step` event with nothing but its index -/
def stepEvent (step : ℤ) : Event Empty :=
  ⟨ascii "df_step", .obj [(ascii "step", .int step)], 0⟩

def edgeEvent (s t : ℤ) : Event Empty :=
  ⟨ascii "df_edge", .obj [(ascii "from", .int s), (ascii "to", .int t)], 1⟩

lemma decodedSteps_pair : decodedSteps compactJson [stepEvent 5, stepEvent 2] =
    [⟨5, 0, 0, 0, [], []⟩, ⟨2, 0, 0, 0, [], []⟩] := by
  decide +kernel

theorem decode_dataflow_in_range_gap :
    TablesFilled compactJson [stepEvent 5, stepEvent 2] [edgeEvent 2 5] ∧
      (decodeDataflow compactJson [stepEvent 5, stepEvent 2] [edgeEvent 2 5]).nsteps = 6 := by
  obtain ⟨-, -, htables, -, hmax, -⟩ := decode_dataflow_in_range compactJson
    [stepEvent 5, stepEvent 2] [edgeEvent 2 5] (by rw [decodedSteps_pair]; decide)
  refine ⟨htables, ?_⟩
  rw [decodedSteps_pair] at hmax
  obtain ⟨st, hst, heq, hle⟩ := hmax (by decide)
  have h5 := hle _ List.mem_cons_self
  simp only [List.mem_cons, List.not_mem_nil, or_false] at hst
  rcases hst with rfl | rfl
  · exact heq
  · exact absurd h5 (by decide)

/-- The largest index wraps `nsteps` to 0 and its entries are written outside the tables; and the
endpoints of an edge are kept where there is no step. -/
theorem decode_dataflow_wraps :
    ((decodeDataflow compactJson [stepEvent 4294967295] []).nsteps = 0 ∧
      fillChecked DfStep.off (sortedSteps compactJson [stepEvent 4294967295])
        (List.replicate (decodeDataflow compactJson [stepEvent 4294967295] []).nsteps 0) = none) ∧
    (decodeDataflow compactJson [] [edgeEvent 5 7]).edges = [(5, 7)] ∧
    (decodeDataflow compactJson [] [edgeEvent 5 7]).nsteps = 0 := by
  refine ⟨⟨?_, ?_⟩, ?_, ?_⟩ <;> decide +kernel

end AsmTest.Doc
