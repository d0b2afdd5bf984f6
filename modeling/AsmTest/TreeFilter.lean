import AsmTest.Lib.CStr
import AsmTest.Lib.Nesting

/-!
# The call tree's output filter

Depth cap, symbol focus and module filter of the call-tree view. The focus state of a
thread is one depth; over any well-nested run it is that of the outermost open call that
matches.
-/

namespace AsmTest.Tree

open Nesting

/-- `asmspy_tree_filter_t`; `none` is the null pointer. -/
structure TreeFilter where
  maxDepth : ℤ := 0
  focus : Option CStr := none
  modName : Option CStr := none
  deriving DecidableEq

/-- A pattern that is null or empty filters nothing. -/
def engaged : Option CStr → Bool
  | none => false
  | some s => !s.bytes.isEmpty

def noFocus : ℤ := -1

/-- `asmspy_tf_match`; `strstr` is the infix test. -/
def tfMatch (hay needle : Option CStr) : Bool :=
  match needle with
  | none => true
  | some n => n.bytes.isEmpty || hay.any fun h => decide (n.bytes <:+: h.bytes)

/-- A call offered to the filter: its name and its module. -/
structure Call where
  name : Option CStr
  modName : Option CStr
  deriving DecidableEq

/-- The tests after the focus: `some d` when the call is emitted at depth `d`. -/
def emitAt (f : Option TreeFilter) (c : Call) (depth base : ℤ) : Option ℤ :=
  let d := depth - base
  let d := if d < 0 then 0 else d
  if f.any fun f => decide (0 < f.maxDepth ∧ f.maxDepth ≤ d) then none
  else if f.any fun f => engaged f.modName && !tfMatch c.modName f.modName then none
  else some d

/-- `asmspy_tree_filter_call`: the effective depth if the call is emitted, and the focus
state. -/
def treeFilterCall (f : Option TreeFilter) (c : Call) (depth focusDepth : ℤ) : Option ℤ × ℤ :=
  if f.any fun f => engaged f.focus then
    if focusDepth = noFocus then
      if !f.any fun f => tfMatch c.name f.focus then (none, focusDepth)
      else (emitAt f c depth depth, depth)
    else (emitAt f c depth focusDepth, focusDepth)
  else (emitAt f c depth 0, focusDepth)

/-- `asmspy_tree_filter_ret` -/
def treeFilterRet (f : Option TreeFilter) (depth focusDepth : ℤ) : ℤ :=
  if !f.any fun f => engaged f.focus then focusDepth
  else if focusDepth ≠ noFocus ∧ depth ≤ focusDepth then noFocus
  else focusDepth

/-- One thread of `asmspy_engine_tree`: its depth, its focus state, the number of events so
far and the calls emitted, each by its place in the run with its effective depth. -/
structure Thread where
  depth : ℤ := 0
  focusDepth : ℤ := noFocus
  seen : ℕ := 0
  out : List (ℕ × ℤ) := []
  deriving DecidableEq, Repr

/-- `some c` is a call, `none` a return. The depth moves whatever the filter says. -/
def Thread.step (f : Option TreeFilter) (t : Thread) : Option Call → Thread
  | some c =>
    let r := treeFilterCall f c t.depth t.focusDepth
    { depth := t.depth + 1
      focusDepth := r.2
      seen := t.seen + 1
      out := t.out ++ (r.1.map fun d => (t.seen, d)).toList }
  | none =>
    { t with
      depth := t.depth - 1
      focusDepth := treeFilterRet f (t.depth - 1) t.focusDepth
      seen := t.seen + 1 }

def replay (f : Option TreeFilter) (evs : List (Option Call)) : Thread :=
  evs.foldl (Thread.step f) {}

/-! ## What is to be emitted -/

/-- A null filter is the zeroed one. -/
def filterOf (f : Option TreeFilter) : TreeFilter := f.getD {}

/-- The calls that match the focus. -/
def Focused (f : TreeFilter) (c : Call) : Prop := tfMatch c.name f.focus = true

/-- Call `i` is in the displayed scope at relative depth `d`: without a focus every call is,
at its own depth; with one, the calls made while an outermost matching call is open, that
call included. -/
def InScope (f : TreeFilter) (evs : List (Option Call)) (i : ℕ) (d : ℤ) : Prop :=
  if engaged f.focus then
    ∃ j, Outermost (Focused f) evs j ∧ (j = i ∨ OpenAt evs j i) ∧ d = depth evs i - depth evs j
  else d = depth evs i

/-- The calls to be emitted, with the cap a parameter. -/
def Selected (cap : ℤ → Prop) (f : TreeFilter) (evs : List (Option Call)) (i : ℕ) (d : ℤ) :
    Prop :=
  ∃ c, evs[i]? = some (some c) ∧ InScope f evs i d ∧ cap d ∧ tfMatch c.modName f.modName = true

/-- A cap that is not positive is no cap. -/
def TreeFilter.Below (f : TreeFilter) (d : ℤ) : Prop :=
  0 < f.maxDepth → d < f.maxDepth

/-- `out` holds exactly the selected calls, each once, in the order they were made. -/
structure Exactly (S : ℕ → ℤ → Prop) (out : List (ℕ × ℤ)) : Prop where
  mem : ∀ i d, (i, d) ∈ out ↔ S i d
  ordered : out.Pairwise fun p q => p.1 < q.1

/-! ## The filter's tests -/

variable {f : Option TreeFilter} {evs : List (Option Call)} {c : Call} {n : ℕ} {t : Thread}

theorem tfMatch_of_not_engaged {hay needle : Option CStr} (h : engaged needle = false) :
    tfMatch hay needle = true := by
  cases needle with
  | none => rfl
  | some n =>
    have hn : n.bytes.isEmpty = true := by simpa [engaged] using h
    simp [tfMatch, hn]

theorem any_focus : (f.any fun f => engaged f.focus) = engaged (filterOf f).focus := by
  cases f <;> rfl

theorem any_name (h : engaged (filterOf f).focus = true) :
    (f.any fun f => tfMatch c.name f.focus) = tfMatch c.name (filterOf f).focus := by
  cases f with
  | none => simp [filterOf, engaged] at h
  | some f => rfl

theorem any_cap {d : ℤ} : (f.any fun f => decide (0 < f.maxDepth ∧ f.maxDepth ≤ d)) = true ↔
    ¬ (filterOf f).Below d := by
  cases f with
  | none => simp [filterOf, TreeFilter.Below]
  | some f => simp [filterOf, TreeFilter.Below]

theorem any_modName :
    (f.any fun f => engaged f.modName && !tfMatch c.modName f.modName) = true ↔
      ¬ tfMatch c.modName (filterOf f).modName = true := by
  cases f with
  | none => simp [filterOf, tfMatch]
  | some f =>
    cases he : engaged f.modName with
    | false => simp [filterOf, he, tfMatch_of_not_engaged he]
    | true => simp [filterOf, he]

theorem emitAt_eq_some {depth base d : ℤ} (h : base ≤ depth) :
    emitAt f c depth base = some d ↔
      d = depth - base ∧ (filterOf f).Below d ∧ tfMatch c.modName (filterOf f).modName = true := by
  have hd : (if depth - base < 0 then 0 else depth - base) = depth - base := if_neg (by omega)
  unfold emitAt
  dsimp only
  rw [hd]
  by_cases hc : (filterOf f).Below (depth - base)
  · rw [if_neg (fun hh => any_cap.mp hh hc)]
    by_cases hm : tfMatch c.modName (filterOf f).modName = true
    · rw [if_neg (fun hh => any_modName.mp hh hm)]
      simp only [hm, and_true, Option.some.injEq]
      exact ⟨fun h => ⟨h.symm, h ▸ hc⟩, fun h => h.1.symm⟩
    · rw [if_pos (any_modName.mpr hm)]
      simp [hm]
  · rw [if_pos (any_cap.mpr hc)]
    simp only [reduceCtorEq, false_iff]
    rintro ⟨rfl, h, -⟩
    exact hc h

/-! ## One event -/

/-- The focus state as the depth it remembers. -/
def focusOf (d : ℤ) : Option ℤ := if d = noFocus then none else some d

theorem focusOf_of_nonneg {d : ℤ} (h : 0 ≤ d) : focusOf d = some d := by
  have : d ≠ noFocus := by simp only [noFocus]; omega
  simp [focusOf, this]

/-- What the filter knows of the run before event `n`. -/
def Follows (f : Option TreeFilter) (evs : List (Option Call)) (n : ℕ) (focusDepth : ℤ) : Prop :=
  engaged (filterOf f).focus = true →
    Tracks (Focused (filterOf f)) evs n (focusOf focusDepth)

theorem follows_call (hc : evs[n]? = some (some c)) (h0 : 0 ≤ depth evs n) {fd : ℤ}
    (h : Follows f evs n fd) :
    Follows f evs (n + 1) (treeFilterCall f c (depth evs n) fd).2 := by
  intro he
  have ht := h he
  by_cases hfd : fd = noFocus
  · have hn : focusOf fd = none := by simp [focusOf, hfd]
    rw [hn] at ht
    by_cases hm : tfMatch c.name (filterOf f).focus = true
    · simp only [treeFilterCall, any_focus, he, if_true, hfd, any_name he, hm, Bool.not_true,
        Bool.false_eq_true, if_false, focusOf_of_nonneg h0]
      exact tracks_enter_root hc hm ht
    · simp only [treeFilterCall, any_focus, he, if_true, hfd, any_name he, hm, Bool.not_false]
      exact tracks_enter_skip hc hm ht
  · have hs : focusOf fd = some fd := by simp [focusOf, hfd]
    simp only [treeFilterCall, any_focus, he, if_true, hfd, if_false]
    rw [hs] at ht ⊢
    exact tracks_enter_inside hc ht

theorem follows_ret (hr : evs[n]? = some none) {fd : ℤ} (h : Follows f evs n fd) :
    Follows f evs (n + 1) (treeFilterRet f (depth evs n - 1) fd) := by
  intro he
  have ht := h he
  simp only [treeFilterRet, any_focus, he, Bool.not_true, Bool.false_eq_true, if_false]
  by_cases hfd : fd = noFocus
  · have hn : focusOf fd = none := by simp [focusOf, hfd]
    rw [if_neg (fun hh => hh.1 hfd), hn]
    rw [hn] at ht
    exact tracks_leave_none hr ht
  · have hs : focusOf fd = some fd := by simp [focusOf, hfd]
    rw [hs] at ht
    by_cases hd : depth evs n - 1 ≤ fd
    · rw [if_pos ⟨hfd, hd⟩]
      exact tracks_leave_root hr ht hd
    · rw [if_neg (fun hh => hd hh.2), hs]
      exact tracks_leave_inside hr ht (by omega)

/-- The filter emits the call at a depth exactly when the call is selected with it. -/
theorem treeFilterCall_eq_some (hc : evs[n]? = some (some c)) (h0 : 0 ≤ depth evs n) {fd d : ℤ}
    (h : Follows f evs n fd) :
    (treeFilterCall f c (depth evs n) fd).1 = some d ↔
      Selected (filterOf f).Below (filterOf f) evs n d := by
  have hsel : Selected (filterOf f).Below (filterOf f) evs n d ↔ InScope (filterOf f) evs n d ∧
      (filterOf f).Below d ∧ tfMatch c.modName (filterOf f).modName = true := by
    constructor
    · rintro ⟨c', hc', hrest⟩
      obtain rfl : c' = c := by simpa [hc] using hc'.symm
      exact hrest
    · exact fun hrest => ⟨c, hc, hrest⟩
  rw [hsel]
  cases he : engaged (filterOf f).focus with
  | false =>
    simp only [treeFilterCall, any_focus, he, Bool.false_eq_true, if_false, emitAt_eq_some h0,
      InScope, sub_zero]
  | true =>
    have ht := h he
    simp only [InScope, he, if_true]
    by_cases hfd : fd = noFocus
    · have hn : focusOf fd = none := by simp [focusOf, hfd]
      rw [hn] at ht
      by_cases hm : tfMatch c.name (filterOf f).focus = true
      · -- this call becomes the root: no other can be, since none was open
        have hroot := outermost_of_tracks hc hm ht
        simp only [treeFilterCall, any_focus, he, if_true, hfd, any_name he, hm, Bool.not_true,
          Bool.false_eq_true, if_false, emitAt_eq_some le_rfl]
        constructor
        · rintro ⟨hd, hrest⟩
          exact ⟨⟨n, hroot, .inl rfl, hd⟩, hrest⟩
        · rintro ⟨⟨j, hj, rfl | ho, hd⟩, hrest⟩
          · exact ⟨hd, hrest⟩
          · obtain ⟨b, hb, pb⟩ := hj.holds
            exact absurd ho (ht j b hb pb)
      · simp only [treeFilterCall, any_focus, he, if_true, hfd, any_name he, hm, Bool.not_false,
          reduceCtorEq, false_iff]
        rintro ⟨⟨j, hj, hin, -⟩, -⟩
        obtain ⟨b, hb, pb⟩ := hj.holds
        rcases hin with rfl | ho
        · obtain rfl : b = c := by simpa [hc] using hb.symm
          exact hm pb
        · exact ht j b hb pb ho
    · have hs : focusOf fd = some fd := by simp [focusOf, hfd]
      rw [hs] at ht
      obtain ⟨j, hj, ho, rfl⟩ := ht
      have hle := (ho.inside n ho.before le_rfl).le
      simp only [treeFilterCall, any_focus, he, if_true, hfd, if_false, emitAt_eq_some hle]
      constructor
      · rintro ⟨hd, hrest⟩
        exact ⟨⟨j, hj, .inr ho, hd⟩, hrest⟩
      · rintro ⟨⟨k, hk, hin, hd⟩, hrest⟩
        have hopen : OpenAt evs k (n + 1) := by
          rw [openAt_enter hc]
          exact hin
        obtain rfl := hj.unique hk ((openAt_enter hc).mpr (.inr ho)) hopen
        exact ⟨hd, hrest⟩

/-! ## Whole runs -/

/-- The state of the thread after the first `n` events. -/
structure Thread.Inv (f : Option TreeFilter) (evs : List (Option Call)) (n : ℕ) (t : Thread) :
    Prop where
  seen : t.seen = n
  depth : t.depth = Nesting.depth evs n
  focus : Follows f evs n t.focusDepth
  out : Exactly (fun i d => i < n ∧ Selected (filterOf f).Below (filterOf f) evs i d) t.out

theorem Thread.inv_init : Thread.Inv f evs 0 {} := by
  refine ⟨rfl, depth_zero.symm, fun _ => ?_, ⟨fun i d => ?_, List.Pairwise.nil⟩⟩
  · exact tracks_zero
  · simp

theorem exactly_step {S : ℕ → ℤ → Prop} {out : List (ℕ × ℤ)} {r : Option ℤ}
    (h : Exactly (fun i d => i < n ∧ S i d) out) (hr : ∀ d, r = some d ↔ S n d) :
    Exactly (fun i d => i < n + 1 ∧ S i d) (out ++ (r.map fun d => (n, d)).toList) := by
  constructor
  · intro i d
    have hmem : (i, d) ∈ (r.map fun d => (n, d)).toList ↔ i = n ∧ S n d := by
      rw [← hr d]
      cases r with
      | none => simp
      | some e =>
        simp only [Option.map_some, Option.toList_some, List.mem_singleton, Prod.mk.injEq,
          Option.some.injEq]
        exact ⟨fun h => ⟨h.1, h.2.symm⟩, fun h => ⟨h.1, h.2.symm⟩⟩
    rw [List.mem_append, h.mem, hmem, Nat.lt_succ_iff_lt_or_eq]
    constructor
    · rintro (⟨hi, hs⟩ | ⟨rfl, hs⟩)
      · exact ⟨.inl hi, hs⟩
      · exact ⟨.inr rfl, hs⟩
    · rintro ⟨hi | rfl, hs⟩
      · exact .inl ⟨hi, hs⟩
      · exact .inr ⟨rfl, hs⟩
  · rw [List.pairwise_append]
    refine ⟨h.ordered, by cases r <;> simp, ?_⟩
    rintro ⟨i, d⟩ hi ⟨k, e⟩ hk
    have hlt := ((h.mem i d).mp hi).1
    have hkn : k = n := by
      cases r with
      | none => simp at hk
      | some e' => simp_all
    exact hkn ▸ hlt

theorem Thread.inv_call (hc : evs[n]? = some (some c)) (h0 : 0 ≤ Nesting.depth evs n)
    (h : t.Inv f evs n) : (t.step f (some c)).Inv f evs (n + 1) := by
  have hf := follows_call hc h0 h.focus
  have hsel := fun d => treeFilterCall_eq_some (d := d) hc h0 h.focus
  rw [← h.depth] at hf hsel
  refine ⟨?_, ?_, hf, ?_⟩
  · simp [Thread.step, h.seen]
  · simp [Thread.step, h.depth, depth_enter hc]
  · simp only [Thread.step, h.seen]
    exact exactly_step h.out hsel

theorem Thread.inv_ret (hr : evs[n]? = some none) (h : t.Inv f evs n) :
    (t.step f none).Inv f evs (n + 1) := by
  have hf := follows_ret hr h.focus
  rw [← h.depth] at hf
  refine ⟨?_, ?_, hf, ?_⟩
  · simp [Thread.step, h.seen]
  · simp [Thread.step, h.depth, depth_leave hr]
  · have hnone : ∀ d, (none : Option ℤ) = some d ↔
        Selected (filterOf f).Below (filterOf f) evs n d := by
      intro d
      simp [Selected, hr]
    simpa [Thread.step] using exactly_step h.out hnone

theorem Thread.inv_run (hw : WellNested evs) :
    ∀ n ≤ evs.length, (replay f (evs.take n)).Inv f evs n := by
  intro n
  induction n with
  | zero => exact fun _ => Thread.inv_init
  | succ n ih =>
    intro hn
    have h := ih (by omega)
    obtain ⟨e, he⟩ : ∃ e, evs[n]? = some e := ⟨evs[n], List.getElem?_eq_getElem hn⟩
    have hstep : replay f (evs.take (n + 1)) = (replay f (evs.take n)).step f e := by
      simp [replay, List.take_add_one, he]
    rw [hstep]
    cases e with
    | some c => exact Thread.inv_call he (hw n (by omega)) h
    | none => exact Thread.inv_ret he h

/-- Over every well-nested run the emitted calls are those in the displayed scope, below a
positive cap and of the module, each with its relative depth. -/
theorem tree_filter_exact (f : Option TreeFilter) (evs : List (Option Call))
    (hw : WellNested evs) :
    Exactly (Selected (filterOf f).Below (filterOf f) evs) (replay f evs).out := by
  have h := (Thread.inv_run (f := f) hw evs.length le_rfl).out
  rw [List.take_length] at h
  refine ⟨fun i d => ?_, h.ordered⟩
  rw [h.mem]
  constructor
  · exact fun hs => hs.2
  · intro hs
    obtain ⟨c, hc, -⟩ := id hs
    exact ⟨(List.getElem?_eq_some_iff.mp hc).1, hs⟩

/-- `"w"` -/
def work : CStr := ⟨[119], by decide⟩

/-- `"h"` -/
def helper : CStr := ⟨[104], by decide⟩

/-- `work` calls `helper`, which calls `work`; both return, and `helper` is called again. -/
def focusRun : List (Option Call) :=
  [some ⟨some work, none⟩, some ⟨some helper, none⟩, some ⟨some work, none⟩, none, none, none,
    some ⟨some helper, none⟩]

theorem tree_filter_exact_focusRun : (replay (some { focus := some work }) focusRun).out =
      [(0, 0), (1, 1), (2, 2)] ∧
    Exactly (Selected (filterOf (some { focus := some work })).Below
      (filterOf (some { focus := some work })) focusRun)
      (replay (some { focus := some work }) focusRun).out :=
  ⟨by decide, tree_filter_exact _ focusRun (by unfold WellNested; decide)⟩

/-- With a cap of zero every call is emitted, though no depth is below it. -/
theorem tree_filter_zero_cap : ¬ ∀ (f : Option TreeFilter) (evs : List (Option Call)),
    WellNested evs → Exactly (Selected (fun d => d < (filterOf f).maxDepth) (filterOf f) evs)
      (replay f evs).out := by
  intro h
  have hmem := (h none [some ⟨none, none⟩] (by unfold WellNested; decide)).mem 0 0
  have hout : (0, 0) ∈ (replay none [some ⟨none, none⟩]).out := by decide
  obtain ⟨c, -, -, hcap, -⟩ := hmem.mp hout
  exact absurd hcap (by decide)

end AsmTest.Tree
