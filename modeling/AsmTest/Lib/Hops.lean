import Mathlib.Data.List.Basic
import Mathlib.Data.Nat.Find
import Mathlib.Logic.Relation
import Mathlib.Tactic

/-!
# Hop distances and breadth-first search with a limit

A search that meets each vertex once, at one hop more than the vertex it was met from, and that does
not go on from vertices at the limit. When its queue is empty it has met exactly the vertices up to
the limit, each at its distance, and it knows whether there are others.
-/

namespace AsmTest.Hops

variable {α : Type} (nbrs : α → List α) (origin : α)

/-- Reached from the origin in exactly `d` hops -/
def Walk : ℕ → α → Prop
  | 0, k => k = origin
  | d + 1, k => ∃ a, Walk d a ∧ k ∈ nbrs a

/-- The least number of hops -/
def IsDist (k : α) (d : ℕ) : Prop :=
  Walk nbrs origin d k ∧ ∀ d', Walk nbrs origin d' k → d ≤ d'

/-- Not yet at the limit; without a limit always so -/
def Below (cap : Option ℕ) (d : ℕ) : Prop :=
  ∀ c ∈ cap, d < c

structure Search (α : Type) where
  dist : α → Option ℕ
  q : List α
  bounded : Bool

section Distances

variable {nbrs origin} {k : α} {d : ℕ}

lemma IsDist.unique {d' : ℕ} (h : IsDist nbrs origin k d) (h' : IsDist nbrs origin k d') : d = d' :=
  Nat.le_antisymm (h.2 d' h'.1) (h'.2 d h.1)

lemma exists_isDist (h : Walk nbrs origin d k) : ∃ d' ≤ d, IsDist nbrs origin k d' := by
  classical
  have hex : ∃ d, Walk nbrs origin d k := ⟨d, h⟩
  exact ⟨Nat.find hex, Nat.find_le h, Nat.find_spec hex, fun d' hd' => Nat.find_le hd'⟩

/-- The last hop of a shortest walk comes from one hop nearer. -/
lemma IsDist.pred (h : IsDist nbrs origin k (d + 1)) :
    ∃ a, IsDist nbrs origin a d ∧ k ∈ nbrs a := by
  obtain ⟨a, ha, hk⟩ := h.1
  refine ⟨a, ⟨ha, fun d' hd' => ?_⟩, hk⟩
  have := h.2 (d' + 1) ⟨a, hd', hk⟩
  omega

/-- A walk past a distance crosses it. -/
lemma IsDist.crosses (h : IsDist nbrs origin k d) {c : ℕ} (hc : c < d) :
    ∃ a b, IsDist nbrs origin a c ∧ b ∈ nbrs a ∧ IsDist nbrs origin b (c + 1) := by
  induction d generalizing k with
  | zero => exact absurd hc (Nat.not_lt_zero _)
  | succ d ih =>
    obtain ⟨a, ha, hk⟩ := h.pred
    rcases Nat.lt_succ_iff_lt_or_eq.1 hc with hlt | rfl
    · exact ih ha hlt
    · exact ⟨a, k, ha, hk, h⟩

/-- In a finite set closed under the neighbours no distance reaches its size. -/
lemma IsDist.lt_card {s : Finset α} (ho : origin ∈ s) (hs : ∀ k ∈ s, ∀ b ∈ nbrs k, b ∈ s)
    (h : IsDist nbrs origin k d) : d < s.card := by
  have hmem : ∀ c a, Walk nbrs origin c a → a ∈ s := by
    intro c
    induction c with
    | zero => exact fun a ha => ha ▸ ho
    | succ c ih => exact fun a ⟨b, hb, hab⟩ => hs b (ih b hb) a hab
  -- a shortest walk meets one vertex at every distance up to `d`
  have hat : ∀ c : Fin (d + 1), ∃ a, IsDist nbrs origin a c := by
    intro c
    rcases Nat.lt_or_eq_of_le (Nat.lt_succ_iff.1 c.2) with hlt | heq
    · obtain ⟨a, -, ha, -⟩ := h.crosses hlt
      exact ⟨a, ha⟩
    · rw [heq]
      exact ⟨k, h⟩
  choose at_ hat using hat
  have hcard := Finset.card_le_card_of_injOn (s := Finset.univ) (t := s) at_
    (fun c _ => hmem _ _ (hat c).1)
    (fun c _ c' _ hcc => Fin.ext ((hat c).unique (hcc ▸ hat c')))
  rw [Finset.card_univ, Fintype.card_fin] at hcard
  exact hcard

lemma Below.mono {cap : Option ℕ} {d' : ℕ} (h : Below cap d) (hd : d' ≤ d) : Below cap d' :=
  fun c hc => hd.trans_lt (h c hc)

lemma below_none (d : ℕ) : Below none d :=
  fun _ hc => absurd hc (Option.not_mem_none _)

lemma exists_walk_iff :
    (∃ d, Walk nbrs origin d k) ↔ Relation.ReflTransGen (fun a b => b ∈ nbrs a) origin k := by
  constructor
  · rintro ⟨d, h⟩
    induction d generalizing k with
    | zero =>
      cases h
      exact Relation.ReflTransGen.refl
    | succ d ih =>
      obtain ⟨a, ha, hk⟩ := h
      exact (ih ha).tail hk
  · intro h
    induction h with
    | refl => exact ⟨0, rfl⟩
    | tail _ hab ih =>
      obtain ⟨d, hd⟩ := ih
      exact ⟨d + 1, _, hd, hab⟩

lemma exists_isDist_iff :
    (∃ d, IsDist nbrs origin k d) ↔ Relation.ReflTransGen (fun a b => b ∈ nbrs a) origin k := by
  rw [← exists_walk_iff]
  constructor
  · exact fun ⟨d, h⟩ => ⟨d, h.1⟩
  · rintro ⟨d, h⟩
    obtain ⟨d', -, h'⟩ := exists_isDist h
    exact ⟨d', h'⟩

/-- Only which vertices are neighbours counts, not how they are listed. -/
lemma isDist_congr {nbrs' : α → List α} (h : ∀ a b, b ∈ nbrs a ↔ b ∈ nbrs' a) :
    IsDist nbrs origin k d ↔ IsDist nbrs' origin k d := by
  have hwalk : Walk nbrs origin = Walk nbrs' origin := by
    funext d k
    induction d generalizing k with
    | zero => rfl
    | succ d ih =>
      simp only [Walk, ih, h]
  rw [IsDist, IsDist, hwalk]

end Distances

section Steps

variable [DecidableEq α]

def visit (d : ℕ) (st : Search α) (v : α) : Search α :=
  if (st.dist v).isSome then st
  else { st with dist := Function.update st.dist v (some d), q := st.q ++ [v] }

instance (cap : Option ℕ) (d : ℕ) : Decidable (Below cap d) :=
  match cap with
  | none => isTrue fun c hc => by cases hc
  | some c => decidable_of_iff (d < c) (by simp [Below])

/-- What happens to a vertex that has left the queue -/
def expand (cap : Option ℕ) (u : α) (st : Search α) : Search α :=
  let du := (st.dist u).getD 0
  if Below cap du then (nbrs u).foldl (visit (du + 1)) st
  else { st with bounded := st.bounded || (nbrs u).any fun v => (st.dist v).isNone }

def start : Search α :=
  ⟨fun k => if k = origin then some 0 else none, [origin], false⟩

/-- The neighbours that are new are met at one depth and put at the end of the queue. -/
lemma foldl_visit (d : ℕ) (l : List α) (st : Search α) :
    (∀ k, (l.foldl (visit d) st).dist k =
      if (st.dist k).isNone ∧ k ∈ l then some d else st.dist k) ∧
    (∃ new : List α, (l.foldl (visit d) st).q = st.q ++ new ∧ new.Nodup ∧
      ∀ k, k ∈ new ↔ (st.dist k).isNone ∧ k ∈ l) ∧
    (l.foldl (visit d) st).bounded = st.bounded := by
  induction l generalizing st with
  | nil =>
    refine ⟨fun k => ?_, ⟨[], ?_, List.nodup_nil, fun k => ?_⟩, rfl⟩
    · rw [if_neg fun h => List.not_mem_nil h.2]
      rfl
    · rw [List.append_nil]
      rfl
    · exact iff_of_false List.not_mem_nil fun h => List.not_mem_nil h.2
  | cons v l ih =>
    obtain ⟨hdist, ⟨new, hq, hnd, hnew⟩, hb⟩ := ih (visit d st v)
    rw [List.foldl_cons]
    by_cases hv : (st.dist v).isSome
    · have hsame : visit d st v = st := by rw [visit, if_pos hv]
      rw [hsame] at hdist hq hnew hb ⊢
      have hiff : ∀ k, (st.dist k).isNone ∧ k ∈ l ↔ (st.dist k).isNone ∧ k ∈ v :: l := by
        intro k
        rw [List.mem_cons]
        constructor
        · exact fun h => ⟨h.1, Or.inr h.2⟩
        · rintro ⟨hk, rfl | hmem⟩
          · rw [Option.isNone_iff_eq_none] at hk
            rw [hk] at hv
            cases hv
          · exact ⟨hk, hmem⟩
      refine ⟨fun k => ?_, ⟨new, hq, hnd, fun k => (hnew k).trans (hiff k)⟩, hb⟩
      rw [hdist k]
      simp only [hiff k]
    · have hnone : st.dist v = none := by simpa using hv
      have hvis : visit d st v =
          { st with dist := Function.update st.dist v (some d), q := st.q ++ [v] } := by
        rw [visit, if_neg hv]
      rw [hvis] at hdist hq hnew hb ⊢
      have hupd : ∀ k, k ≠ v → Function.update st.dist v (some d) k = st.dist k :=
        fun k hk => Function.update_of_ne hk _ _
      refine ⟨fun k => ?_, ⟨v :: new, ?_, ?_, fun k => ?_⟩, hb⟩
      · rw [hdist k]
        dsimp only
        by_cases hk : k = v
        · have hself : Function.update st.dist v (some d) v = some d := Function.update_self ..
          have hmet : (st.dist v).isNone ∧ v ∈ v :: l := by
            rw [hnone]
            exact ⟨rfl, List.mem_cons_self⟩
          rw [hk, if_pos hmet]
          simp only [hself, Option.isNone_some, Bool.false_eq_true, false_and, if_false]
        · simp only [hupd k hk, List.mem_cons, hk, false_or]
      · rw [hq, List.append_assoc, List.singleton_append]
      · refine List.nodup_cons.2 ⟨fun hmem => ?_, hnd⟩
        have := ((hnew v).1 hmem).1
        dsimp only at this
        rw [Function.update_self] at this
        cases this
      · rw [List.mem_cons, hnew k]
        dsimp only
        by_cases hk : k = v
        · rw [hk, hnone]
          simp
        · rw [hupd k hk]
          simp [hk]

end Steps

section Invariant

/-- What holds while the queue is worked off -/
structure Inv (cap : Option ℕ) (st : Search α) : Prop where
  atOrigin : st.dist origin = some 0
  sound : ∀ k d, st.dist k = some d → Walk nbrs origin d k
  queued : ∀ k ∈ st.q, ∃ d, st.dist k = some d
  nodup : st.q.Nodup
  /-- The queue is in the order of the depths. -/
  order : st.q.Pairwise fun a b => ∀ d d', st.dist a = some d → st.dist b = some d' → d ≤ d'
  /-- and spans two depths at most -/
  near : ∀ u ∈ st.q, ∀ k d d', st.dist u = some d → st.dist k = some d' → d' ≤ d + 1
  behind : ∀ k d, st.dist k = some d → k ∉ st.q → ∀ u ∈ st.q, ∀ d', st.dist u = some d' → d ≤ d'
  closed : ∀ k d, st.dist k = some d → k ∉ st.q → Below cap d →
    ∀ b ∈ nbrs k, ∃ d' ≤ d + 1, st.dist b = some d'
  capped : ∀ k d, st.dist k = some d → ∀ c ∈ cap, d ≤ c
  cut : st.bounded = true ↔
    ∃ k d, st.dist k = some d ∧ k ∉ st.q ∧ ¬ Below cap d ∧ ∃ b ∈ nbrs k, st.dist b = none

variable {nbrs origin} [DecidableEq α] {cap : Option ℕ} {dist : α → Option ℕ} {u : α} {q : List α}
  {bounded : Bool}

lemma start_inv : Inv nbrs origin cap (start origin) := by
  have hdist : ∀ k d, (start origin).dist k = some d → k = origin ∧ d = 0 := by
    intro k d h
    rw [start] at h
    dsimp only at h
    split_ifs at h with hk
    exact ⟨hk, (Option.some.inj h).symm⟩
  have hq : ∀ k d, (start origin).dist k = some d → k ∈ (start origin).q :=
    fun k d h => List.mem_singleton.2 (hdist k d h).1
  constructor
  · exact if_pos rfl
  · intro k d h
    obtain ⟨rfl, rfl⟩ := hdist k d h
    rfl
  · intro k hk
    exact ⟨0, if_pos (List.mem_singleton.1 hk)⟩
  · exact List.nodup_singleton _
  · exact List.pairwise_singleton _ _
  · intro u _ k d d' _ h'
    rw [(hdist k d' h').2]
    exact Nat.zero_le _
  · exact fun k d h hk => absurd (hq k d h) hk
  · exact fun k d h hk => absurd (hq k d h) hk
  · intro k d h c _
    rw [(hdist k d h).2]
    exact Nat.zero_le _
  · refine iff_of_false Bool.false_ne_true ?_
    rintro ⟨k, d, h, hk, -⟩
    exact hk (hq k d h)

/-- Where the limit is not reached the new neighbours are one hop farther. -/
lemma Inv.expand_below (h : Inv nbrs origin cap ⟨dist, u :: q, bounded⟩) {d : ℕ}
    (hu : dist u = some d) (hd : Below cap d) :
    Inv nbrs origin cap ((nbrs u).foldl (visit (d + 1)) ⟨dist, q, bounded⟩) := by
  obtain ⟨hdist, ⟨new, hq, hnd, hnew⟩, hb⟩ := foldl_visit (d + 1) (nbrs u) ⟨dist, q, bounded⟩
  generalize (nbrs u).foldl (visit (d + 1)) ⟨dist, q, bounded⟩ = st at hdist hq hb
  dsimp only at hdist hq hb hnew
  have hmem : ∀ k ∈ q, k ∈ u :: q := fun k hk => List.mem_cons_of_mem _ hk
  have huq : u ∈ u :: q := List.mem_cons_self
  obtain ⟨hfirst, hrest⟩ := List.pairwise_cons.1 h.order
  have hkeep : ∀ k e, dist k = some e → st.dist k = some e := by
    intro k e hk
    rw [hdist, if_neg, hk]
    rw [hk]
    exact fun hn => Bool.false_ne_true hn.1
  have hcases : ∀ k e, st.dist k = some e →
      dist k = some e ∨ dist k = none ∧ k ∈ nbrs u ∧ k ∈ new ∧ e = d + 1 := by
    intro k e hk
    rw [hdist] at hk
    split_ifs at hk with hn
    · exact .inr ⟨Option.isNone_iff_eq_none.1 hn.1, hn.2, (hnew k).2 hn, (Option.some.inj hk).symm⟩
    · exact .inl hk
  have hold : ∀ k e, st.dist k = some e → k ∉ st.q → dist k = some e ∧ k ∉ q := by
    intro k e hk hkq
    rw [hq, List.mem_append, not_or] at hkq
    rcases hcases k e hk with hk | ⟨-, -, hk, -⟩
    · exact ⟨hk, hkq.1⟩
    · exact absurd hk hkq.2
  have hnewd : ∀ k ∈ new, st.dist k = some (d + 1) := by
    intro k hk
    rw [hdist, if_pos ((hnew k).1 hk)]
  -- the depths in the queue start at the depth of `u`
  have hlow : ∀ w ∈ st.q, ∀ e, st.dist w = some e → d ≤ e := by
    intro w hw e he
    rw [hq, List.mem_append] at hw
    rcases hw with hw | hw
    · obtain ⟨e', he'⟩ := h.queued w (hmem w hw)
      have := hfirst w hw d e' hu he'
      rw [hkeep w e' he'] at he
      cases he
      exact this
    · rw [hnewd w hw] at he
      cases he
      exact Nat.le_succ d
  have hhigh : ∀ k e, st.dist k = some e → e ≤ d + 1 := by
    intro k e hk
    rcases hcases k e hk with hk | ⟨-, -, -, rfl⟩
    · exact h.near u huq k d e hu hk
    · exact le_rfl
  constructor
  · exact hkeep _ _ h.atOrigin
  · intro k e hk
    rcases hcases k e hk with hk | ⟨-, hmemk, -, rfl⟩
    · exact h.sound k e hk
    · exact ⟨u, h.sound u d hu, hmemk⟩
  · intro k hk
    rw [hq, List.mem_append] at hk
    rcases hk with hk | hk
    · obtain ⟨e, he⟩ := h.queued k (hmem k hk)
      exact ⟨e, hkeep k e he⟩
    · exact ⟨d + 1, hnewd k hk⟩
  · rw [hq]
    refine (List.nodup_cons.1 h.nodup).2.append hnd fun k hk hkn => ?_
    obtain ⟨e, he⟩ := h.queued k (hmem k hk)
    have := ((hnew k).1 hkn).1
    dsimp only at he
    rw [he] at this
    exact Bool.false_ne_true this
  · rw [hq, List.pairwise_append]
    refine ⟨?_, ?_, ?_⟩
    · refine hrest.imp_of_mem fun {a b} ha hb hab e e' he he' => ?_
      obtain ⟨x, hx⟩ := h.queued a (hmem a ha)
      obtain ⟨y, hy⟩ := h.queued b (hmem b hb)
      rw [hkeep a x hx] at he
      rw [hkeep b y hy] at he'
      exact hab e e' (hx.trans he) (hy.trans he')
    · refine List.Pairwise.imp_of_mem (fun {a b} ha hb _ e e' he he' => ?_) hnd
      rw [hnewd a ha] at he
      rw [hnewd b hb] at he'
      cases he
      cases he'
      exact le_rfl
    · intro a _ b hb e e' he he'
      rw [hnewd b hb] at he'
      cases he'
      exact hhigh a e he
  · intro w hw k e e' he he'
    exact (hhigh k e' he').trans (Nat.succ_le_succ (hlow w hw e he))
  · intro k e hk hkq w hw e' he'
    obtain ⟨hk, hkq⟩ := hold k e hk hkq
    refine le_trans ?_ (hlow w hw e' he')
    by_cases hku : k = u
    · rw [hku, hu] at hk
      cases hk
      exact le_rfl
    · exact h.behind k e hk (by simp [hku, hkq]) u huq d hu
  · intro k e hk hkq he b hbk
    obtain ⟨hk, hkq⟩ := hold k e hk hkq
    by_cases hku : k = u
    · subst hku
      rw [hu] at hk
      cases hk
      cases hdb : dist b with
      | none => exact ⟨d + 1, le_rfl, hnewd b ((hnew b).2 ⟨by rw [hdb]; rfl, hbk⟩)⟩
      | some e' => exact ⟨e', h.near k huq b d e' hu hdb, hkeep b e' hdb⟩
    · obtain ⟨e', hle, he'⟩ := h.closed k e hk (by simp [hku, hkq]) he b hbk
      exact ⟨e', hle, hkeep b e' he'⟩
  · intro k e hk c hc
    exact (hhigh k e hk).trans (hd c hc)
  · rw [hb, h.cut]
    constructor
    · -- a vertex at the limit has left the queue, so `u` is at the limit too
      rintro ⟨k, e, hk, hkq, he, -⟩
      exact absurd (hd.mono (h.behind k e hk hkq u huq d hu)) he
    · rintro ⟨k, e, hk, hkq, he, b, hbk, hbn⟩
      obtain ⟨hk, hkq⟩ := hold k e hk hkq
      refine ⟨k, e, hk, ?_, he, b, hbk, ?_⟩
      · rw [List.mem_cons, not_or]
        refine ⟨fun hku => ?_, hkq⟩
        rw [hku, hu] at hk
        cases hk
        exact he hd
      · cases hdb : dist b with
        | none => exact hdb
        | some e' =>
          rw [hkeep b e' hdb] at hbn
          cases hbn

/-- At the limit nothing is met any more. -/
lemma Inv.expand_cut (h : Inv nbrs origin cap ⟨dist, u :: q, bounded⟩) {d : ℕ}
    (hu : dist u = some d) (hd : ¬ Below cap d) :
    Inv nbrs origin cap
      ⟨dist, q, bounded || (nbrs u).any fun v => (dist v).isNone⟩ := by
  have hmem : ∀ k ∈ q, k ∈ u :: q := fun k hk => List.mem_cons_of_mem _ hk
  have huq : u ∈ u :: q := List.mem_cons_self
  obtain ⟨hfirst, hrest⟩ := List.pairwise_cons.1 h.order
  obtain ⟨huq', hq⟩ := List.nodup_cons.1 h.nodup
  have hne : ∀ k, k ≠ u → k ∉ q → k ∉ u :: q := fun k hku hkq => by simp [hku, hkq]
  constructor
  · exact h.atOrigin
  · exact h.sound
  · exact fun k hk => h.queued k (hmem k hk)
  · exact hq
  · exact hrest
  · exact fun w hw => h.near w (hmem w hw)
  · intro k e hk hkq w hw e' he'
    by_cases hku : k = u
    · rw [hku] at hk
      exact hfirst w hw e e' hk he'
    · exact h.behind k e hk (hne k hku hkq) w (hmem w hw) e' he'
  · intro k e hk hkq he
    by_cases hku : k = u
    · rw [hku] at hk
      cases hu.symm.trans hk
      exact absurd he hd
    · exact h.closed k e hk (hne k hku hkq) he
  · exact h.capped
  · rw [Bool.or_eq_true, h.cut, List.any_eq_true]
    constructor
    · rintro (⟨k, e, hk, hkq, hrst⟩ | ⟨b, hbu, hbn⟩)
      · exact ⟨k, e, hk, fun hk' => hkq (hmem k hk'), hrst⟩
      · exact ⟨u, d, hu, huq', hd, b, hbu, Option.isNone_iff_eq_none.1 hbn⟩
    · rintro ⟨k, e, hk, hkq, he, b, hbk, hbn⟩
      by_cases hku : k = u
      · subst hku
        exact .inr ⟨b, hbk, Option.isNone_iff_eq_none.2 hbn⟩
      · exact .inl ⟨k, e, hk, hne k hku hkq, he, b, hbk, hbn⟩

lemma Inv.expand (h : Inv nbrs origin cap ⟨dist, u :: q, bounded⟩) :
    Inv nbrs origin cap (expand nbrs cap u ⟨dist, q, bounded⟩) := by
  obtain ⟨d, hu⟩ := h.queued u List.mem_cons_self
  dsimp only at hu
  rw [Hops.expand]
  simp only [hu, Option.getD_some]
  split_ifs with hd
  · exact h.expand_below hu hd
  · exact h.expand_cut hu hd

end Invariant

section Run

variable [DecidableEq α]

/-- For at most `fuel` vertices -/
def run (cap : Option ℕ) : ℕ → Search α → Option (Search α)
  | _, ⟨dist, [], bounded⟩ => some ⟨dist, [], bounded⟩
  | 0, ⟨_, _ :: _, _⟩ => none
  | fuel + 1, ⟨dist, u :: q, bounded⟩ => run cap fuel (expand nbrs cap u ⟨dist, q, bounded⟩)

variable {nbrs origin} {cap : Option ℕ}

/-- The vertices of `s` that are not met -/
def unmet (s : Finset α) (dist : α → Option ℕ) : Finset α :=
  s.filter fun k => dist k = none

lemma card_unmet_foldl {s : Finset α} (d : ℕ) (l : List α) (hl : ∀ k ∈ l, k ∈ s) (st : Search α) :
    (l.foldl (visit d) st).q.length + (unmet s (l.foldl (visit d) st).dist).card =
      st.q.length + (unmet s st.dist).card := by
  obtain ⟨hdist, ⟨new, hq, hnd, hnew⟩, -⟩ := foldl_visit d l st
  have hsplit : unmet s st.dist = unmet s (l.foldl (visit d) st).dist ∪ new.toFinset := by
    ext k
    rw [Finset.mem_union, List.mem_toFinset, hnew, unmet, unmet, Finset.mem_filter,
      Finset.mem_filter, hdist]
    by_cases hk : (st.dist k).isNone ∧ k ∈ l
    · rw [if_pos hk]
      exact iff_of_true ⟨hl k hk.2, Option.isNone_iff_eq_none.1 hk.1⟩ (.inr hk)
    · rw [if_neg hk, or_iff_left hk]
  have hdisj : Disjoint (unmet s (l.foldl (visit d) st).dist) new.toFinset := by
    rw [Finset.disjoint_left]
    intro k hk hkn
    rw [unmet, Finset.mem_filter, hdist, if_pos ((hnew k).1 (List.mem_toFinset.1 hkn))] at hk
    cases hk.2
  rw [hsplit, Finset.card_union_of_disjoint hdisj, List.toFinset_card_of_nodup hnd, hq,
    List.length_append]
  omega

/-- Every vertex of a finite set closed under the neighbours leaves the queue once. -/
lemma run_spec {s : Finset α} (hs : ∀ k ∈ s, ∀ b ∈ nbrs k, b ∈ s) (fuel : ℕ) {st : Search α}
    (h : Inv nbrs origin cap st) (hmet : ∀ k, (st.dist k).isSome → k ∈ s)
    (hf : st.q.length + (unmet s st.dist).card ≤ fuel) :
    ∃ st', run nbrs cap fuel st = some st' ∧ Inv nbrs origin cap st' ∧ st'.q = [] := by
  induction fuel generalizing st with
  | zero =>
    obtain ⟨dist, q, bounded⟩ := st
    dsimp only at hf
    obtain rfl : q = [] := List.eq_nil_of_length_eq_zero (by omega)
    exact ⟨_, rfl, h, rfl⟩
  | succ fuel ih =>
    obtain ⟨dist, q, bounded⟩ := st
    cases q with
    | nil => exact ⟨_, rfl, h, rfl⟩
    | cons u q =>
      have hu : u ∈ s := by
        obtain ⟨d, hd⟩ := h.queued u List.mem_cons_self
        exact hmet u (by rw [hd]; rfl)
      rw [run]
      rw [List.length_cons] at hf
      refine ih h.expand ?_ ?_
      · intro k hk
        rw [expand] at hk
        split_ifs at hk with hd
        · rw [(foldl_visit _ _ _).1] at hk
          split_ifs at hk with hn
          · exact hs u hu k hn.2
          · exact hmet k hk
        · exact hmet k hk
      · rw [expand]
        split_ifs with hd
        · rw [card_unmet_foldl _ _ (hs u hu)]
          dsimp only at hf ⊢
          omega
        · dsimp only at hf ⊢
          omega

/-- From the start the search ends. -/
theorem run_start (cap : Option ℕ) {s : Finset α} (ho : origin ∈ s)
    (hs : ∀ k ∈ s, ∀ b ∈ nbrs k, b ∈ s) {fuel : ℕ} (hf : s.card ≤ fuel) :
    ∃ st, run nbrs cap fuel (start origin) = some st ∧ Inv nbrs origin cap st ∧ st.q = [] := by
  refine run_spec hs _ start_inv ?_ ?_
  · intro k hk
    rw [start] at hk
    dsimp only at hk
    split_ifs at hk with hko
    · exact hko ▸ ho
    · cases hk
  · have hsub : unmet s (start origin).dist ⊆ s.erase origin := by
      intro k hk
      rw [unmet, Finset.mem_filter] at hk
      refine Finset.mem_erase.2 ⟨fun hko => ?_, hk.1⟩
      rw [start, hko] at hk
      simp at hk
    have hcard := Finset.card_le_card hsub
    have hpos : 0 < s.card := Finset.card_pos.2 ⟨origin, ho⟩
    rw [Finset.card_erase_of_mem ho] at hcard
    change 1 + _ ≤ fuel
    omega

end Run

section Result

variable {nbrs origin} {cap : Option ℕ} {st : Search α} {k : α} {d : ℕ}

lemma Inv.met_of_walk (h : Inv nbrs origin cap st) (hq : st.q = []) (hw : Walk nbrs origin d k)
    (hd : ∀ c ∈ cap, d ≤ c) : ∃ d' ≤ d, st.dist k = some d' := by
  induction d generalizing k with
  | zero =>
    cases hw
    exact ⟨0, le_rfl, h.atOrigin⟩
  | succ d ih =>
    obtain ⟨a, ha, hk⟩ := hw
    obtain ⟨d', hle, hd'⟩ := ih ha fun c hc => Nat.le_of_succ_le (hd c hc)
    have hbelow : Below cap d' := fun c hc => hle.trans_lt (hd c hc)
    obtain ⟨e, hle', he⟩ := h.closed a d' hd' (by simp [hq]) hbelow k hk
    exact ⟨e, by omega, he⟩

/-- The vertices met are those up to the limit, each at its distance. -/
theorem Inv.dist_iff (h : Inv nbrs origin cap st) (hq : st.q = []) :
    st.dist k = some d ↔ IsDist nbrs origin k d ∧ ∀ c ∈ cap, d ≤ c := by
  constructor
  · intro hk
    refine ⟨⟨h.sound k d hk, fun d' hd' => ?_⟩, h.capped k d hk⟩
    by_contra hlt
    rw [not_le] at hlt
    obtain ⟨e, hle, he⟩ := h.met_of_walk hq hd' fun c hc => hlt.le.trans (h.capped k d hk c hc)
    rw [hk] at he
    cases he
    omega
  · rintro ⟨hdist, hd⟩
    obtain ⟨e, hle, he⟩ := h.met_of_walk hq hdist.1 hd
    rw [he, Nat.le_antisymm hle (hdist.2 e (h.sound k e he))]

/-- The flag tells whether a vertex lies beyond the limit. -/
theorem Inv.bounded_iff (h : Inv nbrs origin cap st) (hq : st.q = []) :
    st.bounded = true ↔ ∃ k d, IsDist nbrs origin k d ∧ ∃ c ∈ cap, c < d := by
  rw [h.cut]
  constructor
  · rintro ⟨k, d, hk, -, hd, b, hb, hbn⟩
    obtain ⟨c, hc, hcd⟩ : ∃ c ∈ cap, c ≤ d := by simpa [Below] using hd
    obtain ⟨e, -, he⟩ := exists_isDist (show Walk nbrs origin (d + 1) b from
      ⟨k, h.sound k d hk, hb⟩)
    refine ⟨b, e, he, c, hc, ?_⟩
    by_contra hle
    have := (h.dist_iff hq).2 ⟨he, fun c' hc' => by
      cases Option.mem_unique hc hc'
      exact not_lt.1 hle⟩
    rw [hbn] at this
    cases this
  · rintro ⟨k, d, hk, c, hc, hlt⟩
    obtain ⟨a, b, ha, hab, hb⟩ := hk.crosses hlt
    have hcap : ∀ c' ∈ cap, c ≤ c' := fun c' hc' => (Option.mem_unique hc hc').le
    refine ⟨a, c, (h.dist_iff hq).2 ⟨ha, hcap⟩, by simp [hq], fun hbel => ?_, b, hab, ?_⟩
    · exact lt_irrefl c (hbel c hc)
    · cases hbd : st.dist b with
      | none => rfl
      | some e =>
        have := (h.dist_iff hq).1 hbd
        have hle := this.2 c hc
        rw [this.1.unique hb] at hle
        omega

end Result

end AsmTest.Hops
