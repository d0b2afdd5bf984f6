import Mathlib.Data.List.Perm.Basic
import Mathlib.Logic.Relation
import Mathlib.Tactic

/-!
# Forests

A forest given by parents and by lists of children, and walks of it over an explicit stack. Such a
walk writes what the recursion over the children writes.
-/

namespace AsmTest.Lib

namespace Forest

section Walks

variable {α β : Type*}

/-- Takes the top off the stack, writes for it and puts its successors in its place. -/
def walk (out : α → List β) (next : α → List α) : ℕ → List α → List β
  | 0, _ => []
  | _ + 1, [] => []
  | fuel + 1, a :: stack => out a ++ walk out next fuel (next a ++ stack)

def expand (out : α → List β) (next : α → List α) : ℕ → α → List β
  | 0, a => out a
  | r + 1, a => out a ++ (next a).flatMap (expand out next r)

variable {out : α → List β} {next : α → List α} {rank : α → ℕ}

theorem expand_stable (h : ∀ a, ∀ b ∈ next a, rank b < rank a) {r : ℕ} :
    ∀ {a : α}, rank a ≤ r → expand out next r a = expand out next (rank a) a := by
  induction r using Nat.strong_induction_on with
  | _ r ih =>
    intro a ha
    rcases Nat.eq_or_lt_of_le ha with rfl | hlt
    · rfl
    · obtain ⟨r, rfl⟩ : ∃ k, r = k + 1 := ⟨r - 1, by omega⟩
      have hkids : ∀ b ∈ next a, expand out next r b = expand out next (rank b) b := fun b hb =>
        ih r (by omega) (by have := h a b hb; omega)
      cases hrank : rank a with
      | zero =>
        have hnil : next a = [] := List.eq_nil_iff_forall_not_mem.2 fun b hb => by
          have := h a b hb
          omega
        simp [expand, hnil]
      | succ k =>
        have hkids' : ∀ b ∈ next a, expand out next k b = expand out next (rank b) b := fun b hb =>
          ih k (by omega) (by have := h a b hb; omega)
        rw [expand, expand]
        congr 1
        exact List.flatMap_congr fun b hb => (hkids b hb).trans (hkids' b hb).symm

theorem expand_eq (h : ∀ a, ∀ b ∈ next a, rank b < rank a) (a : α) :
    expand out next (rank a) a =
      out a ++ (next a).flatMap fun b => expand out next (rank b) b := by
  have hsucc : expand out next (rank a + 1) a = expand out next (rank a) a :=
    expand_stable h (Nat.le_succ _)
  rw [← hsucc, expand]
  congr 1
  exact List.flatMap_congr fun b hb => expand_stable h (h a b hb).le

/-- What is written is written for each element in turn. -/
theorem expand_out (r : ℕ) (a : α) :
    expand out next r a = (expand (fun a => [a]) next r a).flatMap out := by
  induction r generalizing a with
  | zero => simp [expand]
  | succ r ih =>
    rw [expand, expand, List.flatMap_append, List.flatMap_singleton, List.flatMap_assoc]
    congr 1
    exact List.flatMap_congr fun b _ => ih b

/-- How many elements come to the top of the stack on behalf of one. -/
def size (next : α → List α) (rank : α → ℕ) (a : α) : ℕ :=
  (expand (fun _ => [()]) next (rank a) a).length

theorem size_eq (h : ∀ a, ∀ b ∈ next a, rank b < rank a) (a : α) :
    size next rank a = 1 + ((next a).map (size next rank)).sum := by
  rw [size, expand_eq h, List.length_append, List.length_flatMap]
  rfl

/-- The walk is the recursion, when it may go on for long enough. -/
theorem walk_eq (h : ∀ a, ∀ b ∈ next a, rank b < rank a) {fuel : ℕ} :
    ∀ {stack : List α}, (stack.map (size next rank)).sum ≤ fuel →
      walk out next fuel stack = stack.flatMap fun a => expand out next (rank a) a := by
  induction fuel with
  | zero =>
    intro stack hsum
    cases stack with
    | nil => rfl
    | cons a stack =>
      rw [List.map_cons, List.sum_cons, size_eq h] at hsum
      omega
  | succ fuel ih =>
    intro stack hsum
    cases stack with
    | nil => rfl
    | cons a stack =>
      rw [List.map_cons, List.sum_cons, size_eq h] at hsum
      rw [walk, ih (by rw [List.map_append, List.sum_append]; omega), List.flatMap_cons,
        expand_eq h, List.flatMap_append, List.append_assoc]

end Walks

end Forest

/-- Each element has one parent at most, and is as deep as it has elements above it. -/
structure Forest (α : Type*) where
  parent : α → Option α
  kids : α → List α
  depth : α → ℕ
  bound : ℕ
  mem_kids : ∀ {p c}, c ∈ kids p ↔ parent c = some p
  nodup_kids : ∀ p, (kids p).Nodup
  depth_root : ∀ {c}, parent c = none → depth c = 0
  depth_kid : ∀ {p c}, parent c = some p → depth c = depth p + 1
  depth_le : ∀ c, depth c ≤ bound

namespace Forest

variable {α : Type*} (F : Forest α)

def Climbs (c p : α) : Prop := F.parent c = some p

/-- `a` is at `b` or above it. -/
def Over (a b : α) : Prop := Relation.ReflTransGen F.Climbs b a

/-- What is above an element, from its parent on -/
def aboveFrom : ℕ → α → List α
  | 0, _ => []
  | d + 1, c =>
    match F.parent c with
    | none => []
    | some p => p :: aboveFrom d p

def above (c : α) : List α := F.aboveFrom (F.depth c) c

def rank (a : α) : ℕ := F.bound - F.depth a

/-- An element and what is below it, parents first -/
def preorder (a : α) : List α := expand (fun a => [a]) F.kids (F.rank a) a

variable {F} {a b c p : α}

theorem rank_lt : ∀ a, ∀ b ∈ F.kids a, F.rank b < F.rank a := by
  intro a b hb
  have hdepth := F.depth_kid (F.mem_kids.1 hb)
  have hle := F.depth_le b
  unfold rank
  omega

theorem preorder_eq (a : α) : F.preorder a = a :: (F.kids a).flatMap F.preorder :=
  expand_eq rank_lt a

theorem above_root (h : F.parent c = none) : F.above c = [] := by
  rw [above, F.depth_root h, aboveFrom]

theorem above_kid (h : F.parent c = some p) : F.above c = p :: F.above p := by
  rw [above, F.depth_kid h, aboveFrom, h]
  rfl

theorem length_above (c : α) : (F.above c).length = F.depth c := by
  induction hd : F.depth c generalizing c with
  | zero =>
    rw [above, hd]
    rfl
  | succ d ih =>
    cases hp : F.parent c with
    | none =>
      rw [F.depth_root hp] at hd
      omega
    | some p =>
      have hdepth := F.depth_kid hp
      rw [above_kid hp, List.length_cons, ih p (by omega)]

variable (F) in
/-- To show something of every element, show it of the roots and of the kids of what has it. -/
theorem from_roots {P : α → Prop} (hroot : ∀ c, F.parent c = none → P c)
    (hkid : ∀ c p, F.parent c = some p → P p → P c) (c : α) : P c := by
  induction hd : F.depth c generalizing c with
  | zero =>
    cases hp : F.parent c with
    | none => exact hroot c hp
    | some p =>
      rw [F.depth_kid hp] at hd
      omega
  | succ d ih =>
    cases hp : F.parent c with
    | none => exact hroot c hp
    | some p =>
      have hdepth := F.depth_kid hp
      exact hkid c p hp (ih p (by omega))

variable (F) in
/-- To show something of every element, show it of what has it of all its kids. -/
theorem from_kids {P : α → Prop} (h : ∀ a, (∀ b ∈ F.kids a, P b) → P a) (a : α) : P a := by
  induction hr : F.rank a using Nat.strong_induction_on generalizing a with
  | _ r ih => exact h a fun b hb => ih _ (hr ▸ rank_lt a b hb) b rfl

theorem over_kid (h : F.parent c = some p) : F.Over a c ↔ a = c ∨ F.Over a p := by
  constructor
  · intro hac
    rcases Relation.ReflTransGen.cases_head hac with rfl | ⟨q, hq, hqa⟩
    · exact .inl rfl
    · cases h.symm.trans hq
      exact .inr hqa
  · rintro (rfl | hap)
    · exact .refl
    · exact .head h hap

theorem over_root (h : F.parent c = none) : F.Over a c ↔ a = c := by
  constructor
  · intro hac
    rcases Relation.ReflTransGen.cases_head hac with rfl | ⟨q, hq, -⟩
    · rfl
    · cases h.symm.trans hq
  · rintro rfl
    exact .refl

theorem mem_above_iff : a ∈ F.above c ↔ ∃ p, F.parent c = some p ∧ F.Over a p := by
  induction c using F.from_roots with
  | hroot c hc => simp [above_root hc, hc]
  | hkid c p hp ih =>
    rw [above_kid hp, List.mem_cons, ih]
    cases hq : F.parent p with
    | none => simp [hp, over_root hq]
    | some q => simp [hp, over_kid hq]

/-- What is above an element is over it by way of a kid. -/
theorem mem_above_iff_kid : a ∈ F.above c ↔ ∃ b ∈ F.kids a, F.Over b c := by
  rw [mem_above_iff]
  constructor
  · rintro ⟨p, hp, hap⟩
    rcases Relation.ReflTransGen.cases_tail hap with rfl | ⟨b, hpb, hb⟩
    · exact ⟨c, F.mem_kids.2 hp, .refl⟩
    · exact ⟨b, F.mem_kids.2 hb, .head hp hpb⟩
  · rintro ⟨b, hb, hbc⟩
    rcases Relation.ReflTransGen.cases_head hbc with rfl | ⟨q, hq, hqb⟩
    · exact ⟨a, F.mem_kids.1 hb, .refl⟩
    · exact ⟨q, hq, hqb.tail (F.mem_kids.1 hb)⟩

theorem over_iff : F.Over a b ↔ a = b ∨ a ∈ F.above b := by
  rw [mem_above_iff]
  cases hp : F.parent b with
  | none => simp [over_root hp]
  | some p => simp [over_kid hp]

theorem over_depth_le (h : F.Over a b) : F.depth a ≤ F.depth b := by
  induction h with
  | refl => exact le_rfl
  | tail _ hstep ih =>
    have hdepth := F.depth_kid hstep
    omega

theorem above_depth_lt (h : a ∈ F.above b) : F.depth a < F.depth b := by
  obtain ⟨p, hp, hap⟩ := mem_above_iff.1 h
  have hle := over_depth_le hap
  have hdepth := F.depth_kid hp
  omega

/-- Of two elements over a third, one is over the other. -/
theorem over_total (ha : F.Over a c) (hb : F.Over b c) : F.Over a b ∨ F.Over b a := by
  have hunique : Relator.RightUnique F.Climbs := fun x y z hy hz =>
    Option.some.inj (hy.symm.trans hz)
  exact (Relation.ReflTransGen.total_of_right_unique hunique ha hb).symm

theorem eq_of_over_kids (ha : a ∈ F.kids p) (hb : b ∈ F.kids p) (h : F.Over a b) : a = b := by
  rcases (over_kid (F.mem_kids.1 hb)).1 h with h | h
  · exact h
  · have hdepth := F.depth_kid (F.mem_kids.1 ha)
    have hle := over_depth_le h
    omega

theorem mem_preorder : b ∈ F.preorder a ↔ F.Over a b := by
  induction a using F.from_kids with
  | h a ih =>
    rw [preorder_eq, List.mem_cons, List.mem_flatMap]
    constructor
    · rintro (rfl | ⟨c, hc, hb⟩)
      · exact .refl
      · exact ((ih c hc).1 hb).tail (F.mem_kids.1 hc)
    · intro h
      rcases Relation.ReflTransGen.cases_tail h with rfl | ⟨c, hbc, hc⟩
      · exact .inl rfl
      · exact .inr ⟨c, F.mem_kids.2 hc, (ih c (F.mem_kids.2 hc)).2 hbc⟩

/-- What stands later is not over what stands earlier. -/
theorem pairwise_flatMap_preorder {l : List α} (hl : l.Nodup)
    (hapart : ∀ a ∈ l, ∀ b ∈ l, F.Over a b → a = b)
    (h : ∀ a ∈ l, (F.preorder a).Pairwise fun x y => ¬F.Over y x) :
    (l.flatMap F.preorder).Pairwise fun x y => ¬F.Over y x := by
  refine List.pairwise_flatMap.2 ⟨h, ?_⟩
  refine hl.imp_of_mem fun {a b} ha hb hne x hx y hy hover => ?_
  -- both heads are over `x`
  have hbx : F.Over b x := Relation.ReflTransGen.trans hover (mem_preorder.1 hy)
  rcases over_total (mem_preorder.1 hx) hbx with hab | hba
  · exact hne (hapart a ha b hb hab)
  · exact hne (hapart b hb a ha hba).symm

theorem pairwise_preorder (a : α) : (F.preorder a).Pairwise fun x y => ¬F.Over y x := by
  induction a using F.from_kids with
  | h a ih =>
    rw [preorder_eq, List.pairwise_cons]
    constructor
    · intro y hy hover
      obtain ⟨c, hc, hyc⟩ := List.mem_flatMap.1 hy
      have hdepth := F.depth_kid (F.mem_kids.1 hc)
      have hle := over_depth_le hover
      have hle' := over_depth_le (mem_preorder.1 hyc)
      omega
    · exact pairwise_flatMap_preorder (F.nodup_kids a) (fun _ hb _ hc => eq_of_over_kids hb hc) ih

theorem over_of_parent_eq (h : F.parent b = F.parent c) (hab : F.Over a b) (hne : a ≠ b) :
    F.Over a c := by
  rcases Relation.ReflTransGen.cases_head hab with heq | ⟨p, hp, hap⟩
  · exact absurd heq.symm hne
  · exact .head (h.symm.trans hp) hap

theorem depth_eq_of_parent_eq (h : F.parent a = F.parent b) : F.depth a = F.depth b := by
  cases hp : F.parent b with
  | none => rw [F.depth_root hp, F.depth_root (h.trans hp)]
  | some p => rw [F.depth_kid hp, F.depth_kid (h.trans hp)]

/-- What has one parent stands in the order of the lists of kids. -/
theorem siblings_flatMap_preorder {R : α → α → Prop} {l : List α} (hl : l.Nodup)
    (hapart : ∀ a ∈ l, ∀ b ∈ l, F.Over a b → a = b) (hR : l.Pairwise R)
    (h : ∀ a ∈ l, (F.preorder a).Pairwise fun x y => F.parent x = F.parent y → R x y) :
    (l.flatMap F.preorder).Pairwise fun x y => F.parent x = F.parent y → R x y := by
  refine List.pairwise_flatMap.2 ⟨h, ?_⟩
  refine (hl.and hR).imp_of_mem fun {a b} ha hb hab x hx y hy hsame => ?_
  obtain ⟨hne, hRab⟩ := hab
  have hax := mem_preorder.1 hx
  have hby := mem_preorder.1 hy
  -- only the heads themselves can have one parent
  have hxa : a = x := by
    by_contra hxa
    rcases over_total (over_of_parent_eq hsame hax hxa) hby with hover | hover
    · exact hne (hapart a ha b hb hover)
    · exact hne (hapart b hb a ha hover).symm
  have hyb : b = y := by
    by_contra hyb
    rcases over_total (over_of_parent_eq hsame.symm hby hyb) hax with hover | hover
    · exact hne (hapart b hb a ha hover).symm
    · exact hne (hapart a ha b hb hover)
  rw [← hxa, ← hyb]
  exact hRab

theorem siblings_preorder {R : α → α → Prop} (hR : ∀ p, (F.kids p).Pairwise R) (a : α) :
    (F.preorder a).Pairwise fun x y => F.parent x = F.parent y → R x y := by
  induction a using F.from_kids with
  | h a ih =>
    rw [preorder_eq, List.pairwise_cons]
    constructor
    · intro y hy hsame
      obtain ⟨c, hc, hyc⟩ := List.mem_flatMap.1 hy
      have hdepth := F.depth_kid (F.mem_kids.1 hc)
      have hle := over_depth_le (mem_preorder.1 hyc)
      have heq := depth_eq_of_parent_eq hsame
      omega
    · exact siblings_flatMap_preorder (F.nodup_kids a)
        (fun _ hb _ hc => eq_of_over_kids hb hc) (hR a) ih

end Forest

end AsmTest.Lib
