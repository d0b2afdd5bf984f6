import AsmTest.Streams

/-!
# The passes of a session union

A union puts the parts' events one behind the other and shifts their positions. Its passes are the
parts' passes as long as every part marks its passes; a part without markers runs into the others.
-/

namespace AsmTest.Doc

open Lib

variable {F : Type}

/-- What every document keeps: events of a kind ascend and lie below the next position. -/
structure StreamOk (r : Recording F) : Prop where
  sorted : KeysSorted r.byKind
  ascending : ∀ k, (kindEvents k r).Pairwise fun a b => a.seq < b.seq
  bounded : ∀ k, ∀ e ∈ kindEvents k r, e.seq < r.nextSeq

lemma kindEvents_pushEvent (k : String) (k' : Bytes) (body : Json F) (r : Recording F) :
    kindEvents k (pushEvent k' body r) =
      if ascii k = k' then kindEvents k r ++ [⟨k', body, r.nextSeq⟩] else kindEvents k r := by
  rw [kindEvents, pushEvent]
  dsimp only
  rw [mapFind_mapInsert]
  split_ifs with h
  · subst h
    rfl
  · rfl

lemma streamOk_pushEvent {r : Recording F} (h : StreamOk r) (k : Bytes) (body : Json F) :
    StreamOk (pushEvent k body r) := by
  refine ⟨keysSorted_mapInsert _ _ h.sorted, fun k' => ?_, fun k' e he => ?_⟩
  · rw [kindEvents_pushEvent]
    split_ifs
    · refine List.pairwise_append.2 ⟨h.ascending k', List.pairwise_singleton _ _, ?_⟩
      intro a ha b hb
      obtain rfl := List.mem_singleton.1 hb
      exact h.bounded k' a ha
    · exact h.ascending k'
  · rw [kindEvents_pushEvent] at he
    show e.seq < r.nextSeq + 1
    split_ifs at he
    · rcases List.mem_append.1 he with he | he
      · exact (h.bounded k' e he).trans (Nat.lt_succ_self _)
      · obtain rfl := List.mem_singleton.1 he
        exact Nat.lt_succ_self _
    · exact (h.bounded k' e he).trans (Nat.lt_succ_self _)

lemma streamOk_pushAll (evs : List (Bytes × Json F)) {r : Recording F} (h : StreamOk r) :
    StreamOk (pushAll evs r) := by
  induction evs generalizing r with
  | nil => exact h
  | cons e evs ih => exact ih (streamOk_pushEvent h e.1 e.2)

/-- The loader keeps it. -/
theorem streamOk_of_loadRecording {L : JsonLib F} (hL : L.Lawful) {text : Bytes}
    {r : Recording F} (h : loadRecording L text = .ok r) : StreamOk r := by
  obtain ⟨evs, hr⟩ := loadRecording_loaded L hL h
  have hnil : StreamOk ({} : Recording F) :=
    ⟨keysSorted_nil, fun _ => List.Pairwise.nil, fun _ _ he => nomatch he⟩
  have hpush := streamOk_pushAll evs hnil
  have hkind : ∀ k, kindEvents k r = kindEvents k (pushAll evs {}) := fun k => by
    rw [kindEvents, kindEvents, hr.events.byKind]
  refine ⟨hr.events.byKind ▸ hpush.sorted, fun k => hkind k ▸ hpush.ascending k, fun k e he => ?_⟩
  rw [hr.events.nextSeq]
  exact hpush.bounded k e (hkind k ▸ he)

section Positions

lemma shiftSeq_zero : (shiftSeq 0 : Event F → Event F) = id :=
  rfl

/-- The events of a kind in a union whose first part starts at position `off` -/
def shifted (k : String) : ℕ → List (Recording F) → List (Event F)
  | _, [] => []
  | off, p :: parts => (kindEvents k p).map (shiftSeq off) ++ shifted k (off + p.nextSeq) parts

lemma mapFind_foldl_mergeKind {k : Bytes} {kvs : List (Bytes × List (Event F))}
    (hkvs : KeysSorted kvs) (off : ℕ) (m : List (Bytes × List (Event F))) :
    (mapFind k (kvs.foldl (mergeKind off) m)).getD [] =
      (mapFind k m).getD [] ++ ((mapFind k kvs).getD []).map (shiftSeq off) := by
  induction kvs generalizing m with
  | nil => simp [mapFind]
  | cons kv kvs ih =>
    obtain ⟨hhead, htail⟩ := List.pairwise_cons.1 hkvs
    rw [List.foldl_cons, ih htail, mergeKind, mapFind_mapInsert, mapFind]
    by_cases hk : k = kv.1
    · subst hk
      rw [if_pos rfl, if_pos rfl, mapFind_eq_none_of_lt hhead]
      simp
    · rw [if_neg hk, if_neg hk]

lemma kindEvents_foldl_mergeEvents (k : String) {parts : List (Recording F)}
    (hparts : ∀ p ∈ parts, StreamOk p) (u : Recording F) :
    kindEvents k (parts.foldl mergeEvents u) = kindEvents k u ++ shifted k u.nextSeq parts := by
  induction parts generalizing u with
  | nil => simp [shifted]
  | cons p parts ih =>
    have hp := (hparts p List.mem_cons_self).sorted
    rw [List.foldl_cons, ih fun q hq => hparts q (List.mem_cons_of_mem _ hq), shifted,
      ← List.append_assoc]
    congr 1
    exact mapFind_foldl_mergeKind hp u.nextSeq u.byKind

lemma kindEvents_mergeSessionRecordings (k : String) (done : List (Recording F))
    (growing : Option (Recording F)) (hparts : ∀ p ∈ done ++ growing.toList, StreamOk p) :
    kindEvents k (mergeSessionRecordings done growing) = shifted k 0 (done ++ growing.toList) := by
  rw [mergeSessionRecordings]
  split
  · rename_i h
    rw [h]
    rfl
  · rename_i r h
    rw [h, shifted, shifted, List.append_nil, shiftSeq_zero, List.map_id]
  · rename_i front rest _ h
    rw [h] at hparts ⊢
    have hfold := kindEvents_foldl_mergeEvents k hparts {}
    rw [kindEvents, (unionOf_mergeParts front rest).byKind]
    exact hfold

lemma shifted_bounds {k : String} {parts : List (Recording F)} (hparts : ∀ p ∈ parts, StreamOk p)
    {off : ℕ} {e : Event F} (he : e ∈ shifted k off parts) :
    off ≤ e.seq ∧ e.seq < off + (parts.map Recording.nextSeq).sum := by
  induction parts generalizing off with
  | nil => cases he
  | cons p parts ih =>
    rw [List.map_cons, List.sum_cons]
    rcases List.mem_append.1 he with he | he
    · obtain ⟨e', he', rfl⟩ := List.mem_map.1 he
      have := (hparts p List.mem_cons_self).bounded k e' he'
      simp only [shiftSeq]
      omega
    · have := ih (fun q hq => hparts q (List.mem_cons_of_mem _ hq)) he
      omega

lemma pairwise_shifted (k : String) {parts : List (Recording F)}
    (hparts : ∀ p ∈ parts, StreamOk p) (off : ℕ) :
    (shifted k off parts).Pairwise fun a b => a.seq < b.seq := by
  induction parts generalizing off with
  | nil => exact List.Pairwise.nil
  | cons p parts ih =>
    have hp := hparts p List.mem_cons_self
    have htail : ∀ q ∈ parts, StreamOk q := fun q hq => hparts q (List.mem_cons_of_mem _ hq)
    refine List.pairwise_append.2 ⟨?_, ih htail _, ?_⟩
    · rw [List.pairwise_map]
      exact (hp.ascending k).imp fun h => Nat.add_lt_add_right h off
    · intro a ha b hb
      obtain ⟨a', ha', rfl⟩ := List.mem_map.1 ha
      have hlt := hp.bounded k a' ha'
      have hle := (shifted_bounds htail hb).1
      simp only [shiftSeq]
      omega

end Positions

section Windows

lemma windows_append (top : ℕ) (ms : List ℕ) (h : ℕ) (t : List ℕ) :
    windows top (ms ++ h :: t) = windows h ms ++ windows top (h :: t) := by
  induction ms with
  | nil => rfl
  | cons m ms ih =>
    cases ms with
    | nil => rfl
    | cons m' ms => simpa [windows] using ih

lemma windows_shift (off top : ℕ) (ms : List ℕ) :
    windows (top + off) (ms.map (· + off)) =
      (windows top ms).map fun w => (w.1 + off, w.2 + off) := by
  induction ms with
  | nil => rfl
  | cons m ms ih =>
    cases ms with
    | nil => rfl
    | cons m' ms => simpa [windows] using ih

/-- Where the last window ends does not matter to a function that cannot tell. -/
lemma map_windows_top {α : Type} (f : ℕ × ℕ → α) {top top' : ℕ}
    (h : ∀ lo, f (lo, top) = f (lo, top')) (ms : List ℕ) :
    (windows top ms).map f = (windows top' ms).map f := by
  induction ms with
  | nil => rfl
  | cons m ms ih =>
    cases ms with
    | nil => simp [windows, h]
    | cons m' ms => simpa [windows] using ih

lemma length_windows (top : ℕ) (ms : List ℕ) : (windows top ms).length = ms.length := by
  induction ms with
  | nil => rfl
  | cons m ms ih =>
    cases ms with
    | nil => rfl
    | cons m' ms => simpa [windows] using ih

/-- A window starts at a marker and ends at one, or at the top. -/
lemma mem_windows {top : ℕ} {ms : List ℕ} {w : ℕ × ℕ} (hw : w ∈ windows top ms) :
    w.1 ∈ ms ∧ (w.2 = top ∨ w.2 ∈ ms) := by
  induction ms with
  | nil => cases hw
  | cons m ms ih =>
    cases ms with
    | nil =>
      obtain rfl := List.mem_singleton.1 hw
      exact ⟨List.mem_cons_self, .inl rfl⟩
    | cons m' ms =>
      rcases List.mem_cons.1 hw with rfl | hw
      · exact ⟨List.mem_cons_self, .inr (List.mem_cons_of_mem _ List.mem_cons_self)⟩
      · obtain ⟨hlo, hhi⟩ := ih hw
        exact ⟨List.mem_cons_of_mem _ hlo, hhi.imp id (List.mem_cons_of_mem _)⟩

lemma bucket_cons (w : ℕ × ℕ) (e : Event F) (es : List (Event F)) :
    bucket w (e :: es) = if w.1 ≤ e.seq ∧ e.seq < w.2 then e :: bucket w es else bucket w es := by
  simp [bucket, List.filter_cons]

lemma bucket_append (w : ℕ × ℕ) (es es' : List (Event F)) :
    bucket w (es ++ es') = bucket w es ++ bucket w es' :=
  List.filter_append _ _

lemma bucket_eq_nil_of_le {w : ℕ × ℕ} {es : List (Event F)} (h : ∀ e ∈ es, w.2 ≤ e.seq) :
    bucket w es = [] := by
  refine List.filter_eq_nil_iff.2 fun e he => ?_
  have := h e he
  simp only [decide_eq_true_eq, not_and, not_lt]
  exact fun _ => this

lemma bucket_eq_nil_of_lt {w : ℕ × ℕ} {es : List (Event F)} (h : ∀ e ∈ es, e.seq < w.1) :
    bucket w es = [] := by
  refine List.filter_eq_nil_iff.2 fun e he => ?_
  have := h e he
  simp only [decide_eq_true_eq, not_and, not_lt]
  omega

lemma bucket_shift (w : ℕ × ℕ) (off : ℕ) (es : List (Event F)) :
    bucket (w.1 + off, w.2 + off) (es.map (shiftSeq off)) = (bucket w es).map (shiftSeq off) := by
  rw [bucket, bucket, List.filter_map]
  congr 1
  refine List.filter_congr fun e _ => ?_
  simp [shiftSeq]

lemma bucket_top {lo top top' : ℕ} {es : List (Event F)} (h : ∀ e ∈ es, e.seq < top)
    (h' : ∀ e ∈ es, e.seq < top') : bucket (lo, top) es = bucket (lo, top') es := by
  refine List.filter_congr fun e he => ?_
  simp [h e he, h' e he]

end Windows

section Passes

/-- A capture of one pass, without markers -/
def OneShot (r : Recording F) : Prop :=
  kindEvents "df_invocation" r = []

/-- A capture that marks its passes; the first marker comes before any data flow. -/
def Continuous (r : Recording F) : Prop :=
  ∃ m ms, kindEvents "df_invocation" r = m :: ms ∧
    ∀ e ∈ kindEvents "df_step" r ++ kindEvents "df_edge" r, m.seq ≤ e.seq

/-- A pass whose positions start at `off` -/
def shiftPass (off : ℕ) (b : List (Event F) × List (Event F)) :
    List (Event F) × List (Event F) :=
  (b.1.map (shiftSeq off), b.2.map (shiftSeq off))

/-- The passes of the parts one after the other, with the positions they have in the union -/
def shiftedPasses : ℕ → List (Recording F) → List (List (Event F) × List (Event F))
  | _, [] => []
  | off, p :: parts => (passEvents p).map (shiftPass off) ++ shiftedPasses (off + p.nextSeq) parts

/-- A one-shot capture with something to show -/
def OneShotDf (r : Recording F) : Prop :=
  OneShot r ∧ ¬(kindEvents "df_step" r = [] ∧ kindEvents "df_edge" r = [])

instance (r : Recording F) : Decidable (OneShot r) :=
  inferInstanceAs (Decidable (_ = []))

instance (r : Recording F) : Decidable (OneShotDf r) :=
  inferInstanceAs (Decidable (_ ∧ ¬(_ ∧ _)))

lemma insertionSort_of_pairwise {es : List (Event F)} (h : es.Pairwise fun a b => a.seq < b.seq) :
    (es.insertionSort fun a b => a.seq ≤ b.seq) = es :=
  insertionSort_eq_of_perm (List.Perm.refl _) h

lemma passEvents_oneShot {r : Recording F} (h : OneShot r) :
    passEvents r = if kindEvents "df_step" r = [] ∧ kindEvents "df_edge" r = [] then []
      else [(kindEvents "df_step" r, kindEvents "df_edge" r)] := by
  rw [passEvents, h]
  rfl

lemma passEvents_marked {r : Recording F} (h : ¬OneShot r)
    (hr : (kindEvents "df_invocation" r).Pairwise fun a b => a.seq < b.seq) :
    passEvents r = (windows (2 ^ 64 - 1) ((kindEvents "df_invocation" r).map Event.seq)).map
      fun w => (bucket w (kindEvents "df_step" r), bucket w (kindEvents "df_edge" r)) := by
  rw [passEvents, insertionSort_of_pairwise hr]
  exact if_neg h

lemma length_passEvents {r : Recording F}
    (hr : (kindEvents "df_invocation" r).Pairwise fun a b => a.seq < b.seq) :
    (passEvents r).length =
      (kindEvents "df_invocation" r).length + if OneShotDf r then 1 else 0 := by
  by_cases h : OneShot r
  · have hmarks : (kindEvents "df_invocation" r).length = 0 := by rw [h]; rfl
    rw [passEvents_oneShot h, hmarks]
    by_cases hdf : kindEvents "df_step" r = [] ∧ kindEvents "df_edge" r = [] <;>
      simp [OneShotDf, h, hdf]
  · have hnot : ¬OneShotDf r := fun hr => h hr.1
    rw [passEvents_marked h hr, List.length_map, length_windows, List.length_map, if_neg hnot,
      Nat.add_zero]

/-- The kinds that a pass holds -/
def dfKinds : List String :=
  ["df_step", "df_edge"]

lemma first_mark_le {parts : List (Recording F)} (hok : ∀ p ∈ parts, StreamOk p)
    (hkind : ∀ p ∈ parts, OneShot p ∨ Continuous p) (hno : ∀ p ∈ parts, ¬OneShotDf p)
    {k : String} (hk : k ∈ dfKinds) {off : ℕ} {e : Event F} (he : e ∈ shifted k off parts) :
    ∃ m ms, shifted "df_invocation" off parts = m :: ms ∧ m.seq ≤ e.seq := by
  induction parts generalizing off with
  | nil => cases he
  | cons p parts ih =>
    have hp := hok p List.mem_cons_self
    have htail : ∀ q ∈ parts, StreamOk q := fun q hq => hok q (List.mem_cons_of_mem _ hq)
    rw [shifted]
    rcases List.mem_append.1 he with he | he
    · obtain ⟨e', he', rfl⟩ := List.mem_map.1 he
      rcases hkind p List.mem_cons_self with hone | ⟨m, ms, hmarks, hfirst⟩
      · -- a one-shot part has no such event
        refine absurd ⟨hone, fun hnil => ?_⟩ (hno p List.mem_cons_self)
        simp only [dfKinds, List.mem_cons, List.not_mem_nil, or_false] at hk
        rcases hk with rfl | rfl
        · rw [hnil.1] at he'
          cases he'
        · rw [hnil.2] at he'
          cases he'
      · have hmem : e' ∈ kindEvents "df_step" p ++ kindEvents "df_edge" p := by
          simp only [dfKinds, List.mem_cons, List.not_mem_nil, or_false] at hk
          rcases hk with rfl | rfl
          · exact List.mem_append_left _ he'
          · exact List.mem_append_right _ he'
        rw [hmarks]
        exact ⟨_, _, rfl, Nat.add_le_add_right (hfirst e' hmem) off⟩
    · obtain ⟨m, ms, hmarks, hle⟩ := ih htail (fun q hq => hkind q (List.mem_cons_of_mem _ hq))
        (fun q hq => hno q (List.mem_cons_of_mem _ hq)) he
      cases hown : kindEvents "df_invocation" p with
      | nil => exact ⟨m, ms, hmarks, hle⟩
      | cons m' ms' =>
        have hlt := hp.bounded "df_invocation" m' (hown ▸ List.mem_cons_self)
        have hge := (shifted_bounds htail he).1
        refine ⟨_, _, rfl, ?_⟩
        simp only [shiftSeq]
        omega

/-- What one part puts into its own windows, in its place in the union -/
lemma map_windows_shift {p : Recording F} (hp : StreamOk p) (hmarked : ¬OneShot p)
    {off top : ℕ} (htop : off + p.nextSeq ≤ top) (hsmall : p.nextSeq < 2 ^ 64) :
    (windows top (((kindEvents "df_invocation" p).map (shiftSeq off)).map Event.seq)).map
        (fun w => (bucket w ((kindEvents "df_step" p).map (shiftSeq off)),
          bucket w ((kindEvents "df_edge" p).map (shiftSeq off)))) =
      (passEvents p).map (shiftPass off) := by
  have hseq : ((kindEvents "df_invocation" p).map (shiftSeq off)).map Event.seq =
      ((kindEvents "df_invocation" p).map Event.seq).map (· + off) := by
    rw [List.map_map, List.map_map]
    rfl
  obtain ⟨t, rfl⟩ : ∃ t, top = t + off := ⟨top - off, by omega⟩
  rw [hseq, windows_shift, List.map_map, passEvents_marked hmarked (hp.ascending _), List.map_map]
  refine (map_windows_top _ (fun lo => ?_) _).trans (List.map_congr_left fun w _ => ?_)
  · have hstep : bucket (lo, t) (kindEvents "df_step" p) = bucket (lo, 2 ^ 64 - 1) _ :=
      bucket_top (fun e he => by have := hp.bounded _ e he; omega)
        fun e he => by have := hp.bounded _ e he; omega
    have hedge : bucket (lo, t) (kindEvents "df_edge" p) = bucket (lo, 2 ^ 64 - 1) _ :=
      bucket_top (fun e he => by have := hp.bounded _ e he; omega)
        fun e he => by have := hp.bounded _ e he; omega
    simp only [Function.comp_apply, bucket_shift (lo, t), bucket_shift (lo, 2 ^ 64 - 1), hstep,
      hedge]
  · simp only [Function.comp_apply, bucket_shift, shiftPass]

lemma map_windows_shifted {parts : List (Recording F)} (hok : ∀ p ∈ parts, StreamOk p)
    (hkind : ∀ p ∈ parts, OneShot p ∨ Continuous p) (hno : ∀ p ∈ parts, ¬OneShotDf p)
    {off : ℕ} (hfit : off + (parts.map Recording.nextSeq).sum < 2 ^ 64) :
    (windows (2 ^ 64 - 1) ((shifted "df_invocation" off parts).map Event.seq)).map
        (fun w => (bucket w (shifted "df_step" off parts), bucket w (shifted "df_edge" off parts))) =
      shiftedPasses off parts := by
  induction parts generalizing off with
  | nil => rfl
  | cons p parts ih =>
    have hp := hok p List.mem_cons_self
    have htail : ∀ q ∈ parts, StreamOk q := fun q hq => hok q (List.mem_cons_of_mem _ hq)
    have hkind' : ∀ q ∈ parts, OneShot q ∨ Continuous q :=
      fun q hq => hkind q (List.mem_cons_of_mem _ hq)
    have hno' : ∀ q ∈ parts, ¬OneShotDf q := fun q hq => hno q (List.mem_cons_of_mem _ hq)
    rw [List.map_cons, List.sum_cons] at hfit
    have hrest : off + p.nextSeq + (parts.map Recording.nextSeq).sum < 2 ^ 64 := by omega
    have ih := ih htail hkind' hno' hrest
    rw [shiftedPasses, ← ih]
    by_cases hone : OneShot p
    · -- nothing of this part is in a pass
      have hdf : kindEvents "df_step" p = [] ∧ kindEvents "df_edge" p = [] :=
        not_not.1 fun h => hno p List.mem_cons_self ⟨hone, h⟩
      rw [passEvents_oneShot hone, if_pos hdf, shifted, shifted, shifted, hone, hdf.1, hdf.2]
      rfl
    · rw [shifted, shifted, shifted, List.map_append]
      cases hmarks : shifted "df_invocation" (off + p.nextSeq) parts with
      | nil =>
        have hnil : ∀ k ∈ dfKinds, shifted k (off + p.nextSeq) parts = [] := by
          intro k hk
          refine List.eq_nil_iff_forall_not_mem.2 fun e he => ?_
          obtain ⟨m, ms, hms, -⟩ := first_mark_le htail hkind' hno' hk he
          rw [hmarks] at hms
          cases hms
        rw [hnil "df_step" (by simp [dfKinds]), hnil "df_edge" (by simp [dfKinds]), List.map_nil,
          List.append_nil, List.append_nil, List.append_nil,
          map_windows_shift hp hone (by omega) (by omega)]
        simp [windows]
      | cons m ms =>
        have hm : off + p.nextSeq ≤ m.seq :=
          (shifted_bounds htail (hmarks ▸ List.mem_cons_self)).1
        rw [List.map_cons, windows_append, List.map_append,
          ← map_windows_shift hp hone hm (by omega)]
        congr 1
        · -- the windows of this part end before the events of the others
          refine List.map_congr_left fun w hw => ?_
          have hhi : w.2 ≤ m.seq := by
            rcases (mem_windows hw).2 with hw | hw
            · exact hw.le
            · obtain ⟨e, he, hwe⟩ := List.mem_map.1 hw
              obtain ⟨e', he', rfl⟩ := List.mem_map.1 he
              have := hp.bounded _ e' he'
              simp only [shiftSeq] at hwe
              omega
          have hlater : ∀ k ∈ dfKinds, bucket w (shifted k (off + p.nextSeq) parts) = [] := by
            refine fun k hk => bucket_eq_nil_of_le fun e he => hhi.trans ?_
            obtain ⟨m', ms', hms, hle⟩ := first_mark_le htail hkind' hno' hk he
            rw [hmarks] at hms
            exact (List.cons.inj hms).1 ▸ hle
          rw [bucket_append, bucket_append, hlater "df_step" (by simp [dfKinds]),
            hlater "df_edge" (by simp [dfKinds]), List.append_nil, List.append_nil]
        · -- the windows of the others begin after the events of this part
          refine List.map_congr_left fun w hw => ?_
          have hlo : off + p.nextSeq ≤ w.1 := by
            have hmem : w.1 ∈ (shifted "df_invocation" (off + p.nextSeq) parts).map Event.seq := by
              rw [hmarks]
              exact (mem_windows hw).1
            obtain ⟨e, he, hwe⟩ := List.mem_map.1 hmem
            exact hwe ▸ (shifted_bounds htail he).1
          have hearlier : ∀ k, bucket w ((kindEvents k p).map (shiftSeq off)) = [] := by
            refine fun k => bucket_eq_nil_of_lt fun e he => ?_
            obtain ⟨e', he', rfl⟩ := List.mem_map.1 he
            have := hp.bounded k e' he'
            simp only [shiftSeq]
            omega
          rw [bucket_append, bucket_append, hearlier, hearlier, List.nil_append, List.nil_append]

lemma mem_dfKinds_step : "df_step" ∈ dfKinds := by
  simp [dfKinds]

lemma mem_dfKinds_edge : "df_edge" ∈ dfKinds := by
  simp [dfKinds]

lemma OneShot.kindEvents_eq_nil {p : Recording F} (h : OneShot p) (hno : ¬OneShotDf p)
    {k : String} (hk : k ∈ dfKinds) : kindEvents k p = [] := by
  have hdf : kindEvents "df_step" p = [] ∧ kindEvents "df_edge" p = [] :=
    not_not.1 fun hdf => hno ⟨h, hdf⟩
  simp only [dfKinds, List.mem_cons, List.not_mem_nil, or_false] at hk
  rcases hk with rfl | rfl
  exacts [hdf.1, hdf.2]

lemma OneShot.passEvents_eq_nil {p : Recording F} (h : OneShot p) (hno : ¬OneShotDf p) :
    passEvents p = [] := by
  rw [passEvents_oneShot h, if_pos ⟨h.kindEvents_eq_nil hno mem_dfKinds_step,
    h.kindEvents_eq_nil hno mem_dfKinds_edge⟩]

/-- Parts without data flow add nothing. -/
lemma shifted_eq_nil {parts : List (Recording F)} (hone : ∀ p ∈ parts, OneShot p)
    (hno : ∀ p ∈ parts, ¬OneShotDf p) (off : ℕ) :
    (∀ k ∈ dfKinds, shifted k off parts = []) ∧ shiftedPasses off parts = [] := by
  induction parts generalizing off with
  | nil => exact ⟨fun _ _ => rfl, rfl⟩
  | cons p parts ih =>
    obtain ⟨hk, hpasses⟩ := ih (fun q hq => hone q (List.mem_cons_of_mem _ hq))
      (fun q hq => hno q (List.mem_cons_of_mem _ hq)) (off + p.nextSeq)
    have hp := hone p List.mem_cons_self
    have hpno := hno p List.mem_cons_self
    refine ⟨fun k hmem => ?_, ?_⟩
    · rw [shifted, hp.kindEvents_eq_nil hpno hmem, hk k hmem]
      rfl
    · rw [shiftedPasses, hp.passEvents_eq_nil hpno, hpasses]
      rfl

lemma shifted_marks_eq_nil_iff {parts : List (Recording F)} (off : ℕ) :
    shifted "df_invocation" off parts = [] ↔ ∀ p ∈ parts, OneShot p := by
  induction parts generalizing off with
  | nil => simp [shifted]
  | cons p parts ih =>
    rw [shifted, List.append_eq_nil_iff, List.map_eq_nil_iff, ih, List.forall_mem_cons, OneShot]

/-- One-shot parts of which at most one has data flow -/
lemma shiftedPasses_oneShots {parts : List (Recording F)} (hone : ∀ p ∈ parts, OneShot p)
    (hcount : parts.countP (fun p => OneShotDf p) ≤ 1) (off : ℕ) :
    shiftedPasses off parts =
      if shifted "df_step" off parts = [] ∧ shifted "df_edge" off parts = [] then []
      else [(shifted "df_step" off parts, shifted "df_edge" off parts)] := by
  induction parts generalizing off with
  | nil => simp [shiftedPasses, shifted]
  | cons p parts ih =>
    have hp := hone p List.mem_cons_self
    have hone' : ∀ q ∈ parts, OneShot q := fun q hq => hone q (List.mem_cons_of_mem _ hq)
    rw [List.countP_cons] at hcount
    by_cases hdf : OneShotDf p
    · have hno : ∀ q ∈ parts, ¬OneShotDf q := by
        have hzero : parts.countP (fun q => OneShotDf q) = 0 := by
          simp only [hdf, decide_true, if_true] at hcount
          omega
        simpa using List.countP_eq_zero.1 hzero
      obtain ⟨hk, hpasses⟩ := shifted_eq_nil hone' hno (off + p.nextSeq)
      rw [shiftedPasses, hpasses, passEvents_oneShot hp, if_neg hdf.2, shifted, shifted,
        hk _ mem_dfKinds_step, hk _ mem_dfKinds_edge, List.append_nil, List.append_nil,
        List.append_nil, if_neg (by simpa using hdf.2)]
      rfl
    · rw [shiftedPasses, hp.passEvents_eq_nil hdf, shifted, shifted,
        hp.kindEvents_eq_nil hdf mem_dfKinds_step, hp.kindEvents_eq_nil hdf mem_dfKinds_edge]
      exact ih hone' (by omega) (off + p.nextSeq)

lemma filter_append_filter {es : List (Event F)} (h : es.Pairwise fun a b => a.seq < b.seq)
    {a b c : ℕ} (hab : a ≤ b) (hbc : b ≤ c) :
    bucket (a, b) es ++ bucket (b, c) es = bucket (a, c) es := by
  induction es with
  | nil => rfl
  | cons e es ih =>
    obtain ⟨hhead, htail⟩ := List.pairwise_cons.1 h
    have ih := ih htail
    rw [bucket_cons, bucket_cons, bucket_cons]
    by_cases heb : e.seq < b
    · have hc : e.seq < c := heb.trans_le hbc
      by_cases hae : a ≤ e.seq <;> simp [hae, heb, hc, not_le.2 heb, ih]
    · have hnil : bucket (a, b) es = [] := by
        refine bucket_eq_nil_of_le fun e' he' => ?_
        have := hhead e' he'
        simp only
        omega
      have hae : a ≤ e.seq := by omega
      rw [hnil, List.nil_append] at ih
      simp [hae, heb, not_lt.1 heb, hnil, ih]

lemma flatMap_bucket_windows {es : List (Event F)} (h : es.Pairwise fun a b => a.seq < b.seq)
    {top m : ℕ} {ms : List ℕ} (hms : (m :: ms).Pairwise (· < ·)) (htop : ∀ x ∈ m :: ms, x ≤ top) :
    (windows top (m :: ms)).flatMap (bucket · es) = bucket (m, top) es := by
  induction ms generalizing m with
  | nil => simp [windows]
  | cons m' ms ih =>
    obtain ⟨hhead, htail⟩ := List.pairwise_cons.1 hms
    rw [windows, List.flatMap_cons, ih htail fun x hx => htop x (List.mem_cons_of_mem _ hx)]
    exact filter_append_filter h (hhead m' List.mem_cons_self).le
      (htop m' (List.mem_cons_of_mem _ List.mem_cons_self))

/-- The passes of one part hold all its steps, each in one pass. -/
lemma flatMap_passEvents {p : Recording F} (hp : StreamOk p) (hkind : OneShot p ∨ Continuous p)
    (hsmall : p.nextSeq < 2 ^ 64) : (passEvents p).flatMap Prod.fst = kindEvents "df_step" p := by
  rcases hkind with hone | ⟨m, ms, hmarks, hfirst⟩
  · rw [passEvents_oneShot hone]
    split_ifs with h
    · simp [h.1]
    · simp
  · have hmarked : ¬OneShot p := by simp [OneShot, hmarks]
    have hasc := hp.ascending "df_invocation"
    have hbound : ∀ x ∈ (kindEvents "df_invocation" p).map Event.seq, x ≤ 2 ^ 64 - 1 := by
      intro x hx
      obtain ⟨e, he, rfl⟩ := List.mem_map.1 hx
      have := hp.bounded _ e he
      omega
    rw [passEvents_marked hmarked hasc, List.flatMap_map]
    rw [hmarks] at hasc hbound ⊢
    refine (flatMap_bucket_windows (hp.ascending _) (List.pairwise_map.2 hasc) hbound).trans ?_
    refine List.filter_eq_self.2 fun e he => ?_
    have hle := hfirst e (List.mem_append_left _ he)
    have hlt := hp.bounded _ e he
    simp only [decide_eq_true_eq]
    omega

lemma flatMap_shiftedPasses {parts : List (Recording F)} (hok : ∀ p ∈ parts, StreamOk p)
    (hkind : ∀ p ∈ parts, OneShot p ∨ Continuous p) {off : ℕ}
    (hfit : off + (parts.map Recording.nextSeq).sum < 2 ^ 64) :
    (shiftedPasses off parts).flatMap Prod.fst = shifted "df_step" off parts := by
  induction parts generalizing off with
  | nil => rfl
  | cons p parts ih =>
    rw [List.map_cons, List.sum_cons] at hfit
    have hrest : off + p.nextSeq + (parts.map Recording.nextSeq).sum < 2 ^ 64 := by omega
    have hp := flatMap_passEvents (hok p List.mem_cons_self) (hkind p List.mem_cons_self) (by omega)
    rw [shiftedPasses, List.flatMap_append, shifted,
      ih (fun q hq => hok q (List.mem_cons_of_mem _ hq))
        (fun q hq => hkind q (List.mem_cons_of_mem _ hq)) hrest, ← hp]
    congr 1
    rw [List.flatMap_map, List.map_flatMap]
    rfl

lemma map_decode_shiftedPasses (L : JsonLib F) (off : ℕ) (parts : List (Recording F)) :
    (shiftedPasses off parts).map (fun b => decodeDataflow L b.1 b.2) =
      parts.flatMap (buildSegmentedDataflow L) := by
  induction parts generalizing off with
  | nil => rfl
  | cons p parts ih =>
    rw [shiftedPasses, List.map_append, ih, List.flatMap_cons, List.map_map]
    congr 1
    refine List.map_congr_left fun b _ => ?_
    -- a position is not part of a body
    have hbody : ∀ es : List (Event F), (es.map (shiftSeq off)).map Event.body =
        es.map Event.body := fun es => by rw [List.map_map]; rfl
    simp only [Function.comp_apply, shiftPass, decodeDataflow, hbody]

/-- The passes of a union are its parts' passes in order, and every step is in one of them. -/
structure Segmented (L : JsonLib F) (parts : List (Recording F)) (u : Recording F) : Prop where
  passes : buildSegmentedDataflow L u = parts.flatMap (buildSegmentedDataflow L)
  events : passEvents u = shiftedPasses 0 parts
  steps : (passEvents u).flatMap Prod.fst = kindEvents "df_step" u

/-- A one-shot capture with data flow stands alone. -/
def LoneOneShot (parts : List (Recording F)) : Prop :=
  parts.countP (fun p => OneShotDf p) ≤ 1 ∧
    ((∃ p ∈ parts, ¬OneShot p) → ∀ p ∈ parts, ¬OneShotDf p)

lemma length_shifted_marks (parts : List (Recording F)) (off : ℕ) :
    (shifted "df_invocation" off parts).length =
      (parts.map fun p => (kindEvents "df_invocation" p).length).sum := by
  induction parts generalizing off with
  | nil => rfl
  | cons p parts ih => simp [shifted, ih]

lemma length_flatMap_passes (L : JsonLib F) {parts : List (Recording F)}
    (hok : ∀ p ∈ parts, StreamOk p) :
    (parts.flatMap (buildSegmentedDataflow L)).length =
      (parts.map fun p => (kindEvents "df_invocation" p).length).sum +
        parts.countP fun p => OneShotDf p := by
  induction parts with
  | nil => rfl
  | cons p parts ih =>
    have hlen := length_passEvents ((hok p List.mem_cons_self).ascending "df_invocation")
    rw [List.flatMap_cons, List.length_append, ih fun q hq => hok q (List.mem_cons_of_mem _ hq),
      buildSegmentedDataflow, List.length_map, hlen, List.map_cons, List.sum_cons, List.countP_cons]
    simp only [decide_eq_true_eq]
    omega

theorem union_passes_iff (L : JsonLib F) (done : List (Recording F))
    (growing : Option (Recording F)) (hok : ∀ p ∈ done ++ growing.toList, StreamOk p)
    (hkind : ∀ p ∈ done ++ growing.toList, OneShot p ∨ Continuous p)
    (hfit : ((done ++ growing.toList).map Recording.nextSeq).sum < 2 ^ 64) :
    Segmented L (done ++ growing.toList) (mergeSessionRecordings done growing) ↔
      LoneOneShot (done ++ growing.toList) := by
  have hunion := fun k => kindEvents_mergeSessionRecordings k done growing hok
  set u := mergeSessionRecordings done growing
  set parts := done ++ growing.toList
  have hasc : (kindEvents "df_invocation" u).Pairwise fun a b => a.seq < b.seq := by
    rw [hunion]
    exact pairwise_shifted _ hok 0
  have hone : OneShot u ↔ ∀ p ∈ parts, OneShot p := by
    rw [OneShot, hunion, shifted_marks_eq_nil_iff]
  constructor
  · intro h
    have hlen := congrArg List.length h.passes
    rw [length_flatMap_passes L hok, buildSegmentedDataflow, List.length_map,
      length_passEvents hasc, hunion, length_shifted_marks] at hlen
    have hcount : parts.countP (fun p => OneShotDf p) = if OneShotDf u then 1 else 0 := by omega
    refine ⟨?_, fun hmarked => ?_⟩
    · rw [hcount]
      split_ifs <;> omega
    · have hnot : ¬OneShotDf u := fun hu => by
        obtain ⟨p, hp, hpm⟩ := hmarked
        exact hpm (hone.1 hu.1 p hp)
      rw [if_neg hnot] at hcount
      simpa using List.countP_eq_zero.1 hcount
  · rintro ⟨hcount, hmarked⟩
    have hevents : passEvents u = shiftedPasses 0 parts := by
      by_cases hu : OneShot u
      · rw [passEvents_oneShot hu, hunion, hunion, shiftedPasses_oneShots (hone.1 hu) hcount]
      · have hno : ∀ p ∈ parts, ¬OneShotDf p := by
          refine hmarked ?_
          by_contra hall
          exact hu (hone.2 fun p hp => not_not.1 fun hp' => hall ⟨p, hp, hp'⟩)
        rw [passEvents_marked hu hasc, hunion, hunion, hunion,
          map_windows_shifted hok hkind hno (by omega)]
    refine ⟨?_, hevents, ?_⟩
    · rw [buildSegmentedDataflow, hevents, map_decode_shiftedPasses]
    · rw [hevents, flatMap_shiftedPasses hok hkind (by omega), hunion]

/-- A capture of one step, with a marker before it or without one -/
def stepCapture (marked : Bool) : Recording Empty :=
  pushAll ((if marked then ["df_invocation", "df_step"] else ["df_step"]).map fun k =>
    (ascii k, .obj [(ascii "k", .str (ascii k)), (ascii "step", .int 0)])) {}

lemma streamOk_stepCapture (marked : Bool) : StreamOk (stepCapture marked) :=
  streamOk_pushAll _ ⟨keysSorted_nil, fun _ => List.Pairwise.nil, fun _ _ he => nomatch he⟩

theorem union_passes_marked :
    Segmented compactJson [stepCapture true, stepCapture true]
      (mergeSessionRecordings [stepCapture true] (some (stepCapture true))) := by
  refine (union_passes_iff compactJson [stepCapture true] (some (stepCapture true)) ?_ ?_ ?_).2
    ⟨?_, ?_⟩
  · intro p hp
    obtain rfl : p = stepCapture true := by simpa using hp
    exact streamOk_stepCapture true
  · intro p hp
    obtain rfl : p = stepCapture true := by simpa using hp
    exact .inr ⟨_, _, rfl, fun e _ => Nat.zero_le _⟩
  · decide
  · decide
  · intro _ p hp
    obtain rfl : p = stepCapture true := by simpa using hp
    decide

/-- Two one-shot captures become one pass, in which the second step 0 takes the place of the
first. -/
theorem union_passes_conflated :
    OneShot (stepCapture false) ∧
      (buildSegmentedDataflow compactJson (stepCapture false)).length = 1 ∧
      (buildSegmentedDataflow compactJson
        (mergeSessionRecordings [stepCapture false, stepCapture false] none)).length = 1 ∧
      ¬Segmented compactJson [stepCapture false, stepCapture false]
        (mergeSessionRecordings [stepCapture false, stepCapture false] none) := by
  have hone : (buildSegmentedDataflow compactJson (stepCapture false)).length = 1 := by decide
  have hunion : (buildSegmentedDataflow compactJson
      (mergeSessionRecordings [stepCapture false, stepCapture false] none)).length = 1 := by decide
  refine ⟨by decide, hone, hunion, fun h => ?_⟩
  have hlen := congrArg List.length h.passes
  rw [hunion] at hlen
  simp [hone] at hlen

end Passes

end AsmTest.Doc
