import Mathlib.Order.Basic
import Mathlib.Data.List.Basic
import Mathlib.Tactic

/-!
# Binary space partitions

A rectangle cut in two, and the pieces cut again. The pieces tile the rectangle, and walking down
the cuts leads from a point to the piece that holds it.
-/

namespace AsmTest.Lib

/-- A rectangle, half open on both axes -/
structure Box (α : Type) where
  x0 : α
  y0 : α
  x1 : α
  y1 : α
deriving DecidableEq, Repr

variable {α ι : Type} [LinearOrder α]

def Box.Contains (b : Box α) (x y : α) : Prop :=
  b.x0 ≤ x ∧ x < b.x1 ∧ b.y0 ≤ y ∧ y < b.y1

instance (b : Box α) (x y : α) : Decidable (b.Contains x y) :=
  inferInstanceAs (Decidable (_ ∧ _))

def Box.Proper (b : Box α) : Prop :=
  b.x0 < b.x1 ∧ b.y0 < b.y1

/-- The part before a cut and the part from the cut on -/
def Box.cut (b : Box α) (inX : Bool) (c : α) : Box α × Box α :=
  if inX then ({ b with x1 := c }, { b with x0 := c }) else ({ b with y1 := c }, { b with y0 := c })

/-- The cut falls inside. -/
def Box.Within (b : Box α) (inX : Bool) (c : α) : Prop :=
  if inX then b.x0 ≤ c ∧ c ≤ b.x1 else b.y0 ≤ c ∧ c ≤ b.y1

/-- The coordinate that a cut looks at -/
def coord (inX : Bool) (x y : α) : α :=
  if inX then x else y

lemma Box.contains_cut_fst {b : Box α} {inX : Bool} {c x y : α} (hc : b.Within inX c) :
    (b.cut inX c).1.Contains x y ↔ b.Contains x y ∧ coord inX x y < c := by
  cases inX with
  | false =>
    simp only [Within, Bool.false_eq_true, if_false] at hc
    simp only [cut, Contains, coord, Bool.false_eq_true, if_false]
    exact ⟨fun ⟨h₁, h₂, h₃, h₄⟩ => ⟨⟨h₁, h₂, h₃, h₄.trans_le hc.2⟩, h₄⟩,
      fun ⟨⟨h₁, h₂, h₃, _⟩, h⟩ => ⟨h₁, h₂, h₃, h⟩⟩
  | true =>
    simp only [Within, if_true] at hc
    simp only [cut, Contains, coord, if_true]
    exact ⟨fun ⟨h₁, h₂, h₃, h₄⟩ => ⟨⟨h₁, h₂.trans_le hc.2, h₃, h₄⟩, h₂⟩,
      fun ⟨⟨h₁, _, h₃, h₄⟩, h⟩ => ⟨h₁, h, h₃, h₄⟩⟩

lemma Box.contains_cut_snd {b : Box α} {inX : Bool} {c x y : α} (hc : b.Within inX c) :
    (b.cut inX c).2.Contains x y ↔ b.Contains x y ∧ ¬coord inX x y < c := by
  cases inX with
  | false =>
    simp only [Within, Bool.false_eq_true, if_false] at hc
    simp only [cut, Contains, coord, Bool.false_eq_true, if_false, not_lt]
    exact ⟨fun ⟨h₁, h₂, h₃, h₄⟩ => ⟨⟨h₁, h₂, hc.1.trans h₃, h₄⟩, h₃⟩,
      fun ⟨⟨h₁, h₂, _, h₄⟩, h⟩ => ⟨h₁, h₂, h, h₄⟩⟩
  | true =>
    simp only [Within, if_true] at hc
    simp only [cut, Contains, coord, if_true, not_lt]
    exact ⟨fun ⟨h₁, h₂, h₃, h₄⟩ => ⟨⟨hc.1.trans h₁, h₂, h₃, h₄⟩, h₁⟩,
      fun ⟨⟨_, h₂, h₃, h₄⟩, h⟩ => ⟨h, h₂, h₃, h₄⟩⟩

/-- A tree of cuts with a name at every piece -/
inductive Bsp (α ι : Type) where
  | leaf (i : ι)
  | node (inX : Bool) (cut : α) (lo hi : Bsp α ι)

namespace Bsp

/-- Walk down the cuts. -/
def find (x y : α) : Bsp α ι → ι
  | leaf i => i
  | node inX cut lo hi => if coord inX x y < cut then lo.find x y else hi.find x y

/-- The pieces in order, with their names -/
def pieces : Bsp α ι → Box α → List (ι × Box α)
  | leaf i, b => [(i, b)]
  | node inX cut lo hi, b => lo.pieces (b.cut inX cut).1 ++ hi.pieces (b.cut inX cut).2

def depth : Bsp α ι → ℕ
  | leaf _ => 0
  | node _ _ lo hi => max lo.depth hi.depth + 1

/-- Every cut falls inside the rectangle that it cuts, and no piece is empty. -/
def Fits : Bsp α ι → Box α → Prop
  | leaf _, b => b.Proper
  | node inX cut lo hi, b =>
    b.Within inX cut ∧ lo.Fits (b.cut inX cut).1 ∧ hi.Fits (b.cut inX cut).2

lemma proper_of_mem_pieces {t : Bsp α ι} {b : Box α} (h : t.Fits b) {p : ι × Box α}
    (hp : p ∈ t.pieces b) : p.2.Proper := by
  induction t generalizing b with
  | leaf i =>
    rw [List.mem_singleton.1 hp]
    exact h
  | node inX cut lo hi ihlo ihhi =>
    rcases List.mem_append.1 hp with hp | hp
    · exact ihlo h.2.1 hp
    · exact ihhi h.2.2 hp

/-- The walk ends at a piece that holds the point. -/
theorem find_mem_pieces {t : Bsp α ι} {b : Box α} (h : t.Fits b) {x y : α} (hb : b.Contains x y) :
    ∃ c, (t.find x y, c) ∈ t.pieces b ∧ c.Contains x y := by
  induction t generalizing b with
  | leaf i => exact ⟨b, List.mem_singleton.2 rfl, hb⟩
  | node inX cut lo hi ihlo ihhi =>
    obtain ⟨hcut, hlo, hhi⟩ := h
    rw [find, pieces]
    split_ifs with hlt
    · obtain ⟨c, hc, hxy⟩ := ihlo hlo ((Box.contains_cut_fst hcut).2 ⟨hb, hlt⟩)
      exact ⟨c, List.mem_append_left _ hc, hxy⟩
    · obtain ⟨c, hc, hxy⟩ := ihhi hhi ((Box.contains_cut_snd hcut).2 ⟨hb, hlt⟩)
      exact ⟨c, List.mem_append_right _ hc, hxy⟩

/-- No other piece holds the point, and a piece holds only points of the rectangle. -/
theorem eq_find_of_contains {t : Bsp α ι} {b : Box α} (h : t.Fits b) {p : ι × Box α}
    (hp : p ∈ t.pieces b) {x y : α} (hxy : p.2.Contains x y) :
    p.1 = t.find x y ∧ b.Contains x y := by
  induction t generalizing b with
  | leaf i =>
    rw [List.mem_singleton.1 hp] at hxy ⊢
    exact ⟨rfl, hxy⟩
  | node inX cut lo hi ihlo ihhi =>
    obtain ⟨hcut, hlo, hhi⟩ := h
    rw [find]
    rcases List.mem_append.1 hp with hp | hp
    · obtain ⟨hname, hcontains⟩ := ihlo hlo hp
      obtain ⟨hb, hlt⟩ := (Box.contains_cut_fst hcut).1 hcontains
      rw [if_pos hlt]
      exact ⟨hname, hb⟩
    · obtain ⟨hname, hcontains⟩ := ihhi hhi hp
      obtain ⟨hb, hlt⟩ := (Box.contains_cut_snd hcut).1 hcontains
      rw [if_neg hlt]
      exact ⟨hname, hb⟩

end Bsp

end AsmTest.Lib
