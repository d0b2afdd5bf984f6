import AsmTest.HilbertLookup
import AsmTest.Lib.Intervals

/-!
# Spans of observed data

Observed addresses are clustered, rounded out to pages, clipped against the regions that are
known, and merged when there are too many. Addresses are 64-bit and their sums wrap.
-/

namespace AsmTest.Space

open Intervals

/-- `Span`, the addresses from `lo` to below `hi` -/
abbrev Span := Ivl

def kPageSize : ℕ := 4096
def kObservedSpanGap : ℕ := 4096
def kObservedSpanCap : ℕ := 4096

def pageFloor (a : ℕ) : ℕ := a / kPageSize * kPageSize

def pageCeil (a : ℕ) : ℕ := (a + kPageSize - 1) % 2 ^ 64 / kPageSize * kPageSize

/-- `std::unique` and `erase` -/
def unique : List ℕ → List ℕ
  | a :: b :: l => if a = b then unique (b :: l) else a :: unique (b :: l)
  | l => l

/-- The clustering loop, with the span that is open. -/
def cluster (cur : Span) : List ℕ → List Span
  | [] => [cur]
  | a :: l =>
    if a ≤ (cur.hi + kObservedSpanGap) % 2 ^ 64 then
      cluster { cur with hi := (a + 1) % 2 ^ 64 } l
    else cur :: cluster ⟨a, (a + 1) % 2 ^ 64⟩ l

def roundOut (sp : Span) : Span := ⟨pageFloor sp.lo, pageCeil sp.hi⟩

/-- The loop of `merge_adjacent`, with `out.back()`. -/
def mergeFrom (back : Span) : List Span → List Span
  | [] => [back]
  | sp :: l =>
    if sp.lo ≤ back.hi then mergeFrom { back with hi := max back.hi sp.hi } l
    else back :: mergeFrom sp l

def mergeAdjacent : List Span → List Span
  | [] => []
  | sp :: l => mergeFrom sp l

/-- One region's round of `clip_existing` on one piece. -/
def clipOne (r : Region) (p : Span) : List Span :=
  let rlo := r.base
  let rhi := (r.base + r.len) % 2 ^ 64
  if rhi ≤ p.lo ∨ p.hi ≤ rlo then [p]
  else (if p.lo < rlo then [⟨p.lo, rlo⟩] else []) ++ if rhi < p.hi then [⟨rhi, p.hi⟩] else []

def clipExisting (sp : Span) (existing : List Region) : List Span :=
  existing.foldl (fun pieces r => pieces.flatMap (clipOne r)) [sp]

/-- The scan for the smallest gap: its first index. -/
def bestFrom (i best bestGap : ℕ) : List Span → ℕ
  | [] => best
  | g :: l =>
    if g.hi - g.lo < bestGap then bestFrom (i + 1) i (g.hi - g.lo) l
    else bestFrom (i + 1) best bestGap l

def bestGapAt (clipped : List Span) : ℕ := bestFrom 0 0 (2 ^ 64 - 1) (gaps clipped)

/-- The spans after the cap. -/
def observedSpans (addrs : List (BitVec 64)) (existing : List Region) : List Span :=
  match unique ((addrs.map BitVec.toNat).insertionSort (· ≤ ·)) with
  | [] => []
  | a :: l =>
    let spans := cluster ⟨a, (a + 1) % 2 ^ 64⟩ l
    let spans := mergeAdjacent (spans.map roundOut)
    let clipped := spans.flatMap fun sp =>
      (clipExisting sp existing).filter fun p => p.lo < p.hi
    closeGaps bestGapAt kObservedSpanCap clipped.length clipped

/-- `observed_data_spans` on the addresses the recording holds. -/
def observedDataSpans (addrs : List (BitVec 64)) (existing : List Region) : List Region :=
  (observedSpans addrs existing).map fun sp => ⟨sp.lo, sp.hi - sp.lo⟩

/-! ## What the spans should be -/

/-- The spans are ascending, disjoint, not empty and clear of the regions, and every address
is in a region or in a span. -/
structure SpansOk (addrs : List (BitVec 64)) (existing out : List Region) : Prop where
  nonempty : ∀ r ∈ out, 0 < r.len
  ascending : out.Pairwise fun r r' => r.base + r.len ≤ r'.base
  clear : ∀ r ∈ out, ∀ e ∈ existing, ∀ x, ¬ (r.Contains x ∧ e.Contains x)
  covers : ∀ a ∈ addrs, (∃ e ∈ existing, e.Contains a.toNat) ∨ ∃ r ∈ out, r.Contains a.toNat

def Observed (addrs : List (BitVec 64)) (a : ℕ) : Prop := ∃ v ∈ addrs, v.toNat = a

/-- The first address of the last page. -/
def lastPage : ℕ := 2 ^ 64 - kPageSize

/-- `b` is the next observed address after `a` and close enough to share its span. -/
structure Linked (obs : ℕ → Prop) (a b : ℕ) : Prop where
  left : obs a
  right : obs b
  lt : a < b
  next : ∀ c, obs c → a < c → b ≤ c
  near : b ≤ a + 1 + kObservedSpanGap
  inSpace : a + 1 + kObservedSpanGap < 2 ^ 64

/-- Observed in the last page, or linked to an address that is. -/
inductive Lost (obs : ℕ → Prop) : ℕ → Prop
  | top {a : ℕ} : obs a → lastPage ≤ a → Lost obs a
  | link {a b : ℕ} : Linked obs a b → Lost obs b → Lost obs a

def Kept (obs : ℕ → Prop) (a : ℕ) : Prop := obs a ∧ ¬ Lost obs a

/-- In the page of a kept address, or between the pages of two that are linked. -/
def Extent (obs : ℕ → Prop) (x : ℕ) : Prop :=
  ∃ a b, Kept obs a ∧ Kept obs b ∧ (a = b ∨ Linked obs a b) ∧
    pageFloor a ≤ x ∧ x < pageFloor b + kPageSize

def InRegions (existing : List Region) (x : ℕ) : Prop := ∃ e ∈ existing, e.Contains x

/-- The part of the extent outside the regions. -/
def Free (addrs : List (BitVec 64)) (existing : List Region) (x : ℕ) : Prop :=
  Extent (Observed addrs) x ∧ ¬ InRegions existing x

/-! ## Clusters -/

variable {obs : ℕ → Prop} {f last x : ℕ} {l : List ℕ} {G : List Ivl}

theorem mem_unique {a : ℕ} : a ∈ unique l ↔ a ∈ l := by
  induction l using unique.induct with
  | case1 b l ih =>
    rw [unique, if_pos rfl, ih]
    simp
  | case2 b c l hne ih =>
    rw [unique, if_neg hne, List.mem_cons, ih, List.mem_cons (b := b)]
  | case3 l h =>
    match l with
    | [] => rfl
    | [_] => rfl
    | b :: c :: l => exact absurd rfl (h b c l)

theorem unique_ascending (h : l.Pairwise (· ≤ ·)) : (unique l).Pairwise (· < ·) := by
  induction l using unique.induct with
  | case1 b l ih =>
    rw [unique, if_pos rfl]
    exact ih (List.pairwise_cons.mp h).2
  | case2 b c l hne ih =>
    obtain ⟨hb, hl⟩ := List.pairwise_cons.mp h
    rw [unique, if_neg hne, List.pairwise_cons]
    refine ⟨fun a ha => ?_, ih hl⟩
    have hbc := hb c List.mem_cons_self
    rcases List.mem_cons.mp (mem_unique.mp ha) with rfl | ha
    · omega
    · have := (List.pairwise_cons.mp hl).1 a ha
      omega
  | case3 l h' =>
    match l with
    | [] => exact List.Pairwise.nil
    | [_] => exact List.pairwise_singleton _ _
    | b :: c :: l => exact absurd rfl (h' b c l)

/-- The clusters by their first and their last address. -/
def groups (f last : ℕ) : List ℕ → List Ivl
  | [] => [⟨f, last⟩]
  | a :: l =>
    if a ≤ last + 1 + kObservedSpanGap ∧ last + 1 + kObservedSpanGap < 2 ^ 64 then groups f a l
    else ⟨f, last⟩ :: groups a a l

/-- The open span of the code: its end wraps at the top of the address space. -/
def spanOf (g : Ivl) : Span := ⟨g.lo, (g.hi + 1) % 2 ^ 64⟩

theorem cluster_eq (hl : (last :: l).Pairwise (· < ·)) (hlt : ∀ a ∈ last :: l, a < 2 ^ 64) :
    cluster ⟨f, (last + 1) % 2 ^ 64⟩ l = (groups f last l).map spanOf := by
  induction l generalizing f last with
  | nil => rfl
  | cons a l ih =>
    obtain ⟨hla, hl'⟩ := List.pairwise_cons.mp hl
    have h1 := hla a List.mem_cons_self
    have h2 := hlt last List.mem_cons_self
    have h3 := hlt a (by simp)
    have hlt' : ∀ b ∈ a :: l, b < 2 ^ 64 := fun b hb => hlt b (List.mem_cons_of_mem last hb)
    -- beyond the top the sum wraps to less than any later address
    have hcond : a ≤ ((last + 1) % 2 ^ 64 + kObservedSpanGap) % 2 ^ 64 ↔
        a ≤ last + 1 + kObservedSpanGap ∧ last + 1 + kObservedSpanGap < 2 ^ 64 := by
      simp only [kObservedSpanGap]
      omega
    simp only [cluster, groups, hcond]
    split_ifs with hc
    · exact ih hl' hlt'
    · rw [List.map_cons, ih hl' hlt']
      rfl

/-- The next cluster begins beyond the gap, or the gap reaches the top. -/
def Far (g g' : Ivl) : Prop :=
  g.hi < g'.lo ∧ (g.hi + 1 + kObservedSpanGap < g'.lo ∨ 2 ^ 64 ≤ g.hi + 1 + kObservedSpanGap)

/-- The clusters partition the addresses from `f` on by their links. -/
structure Grouped (obs : ℕ → Prop) (f : ℕ) (G : List Ivl) : Prop where
  ends : ∀ g ∈ G, obs g.lo ∧ obs g.hi ∧ g.lo ≤ g.hi
  chain : ∀ g ∈ G, ∀ c, obs c → g.lo ≤ c → c ≤ g.hi →
    Relation.ReflTransGen (Linked obs) c g.hi
  all : ∀ c, obs c → f ≤ c → ∃ g ∈ G, g.lo ≤ c ∧ c ≤ g.hi
  stop : ∀ g ∈ G, ∀ b, ¬ Linked obs g.hi b
  apart : G.Pairwise Far
  above : ∀ g ∈ G, f ≤ g.lo

theorem grouped_groups (hl : (last :: l).Pairwise (· < ·)) (hin : ∀ c ∈ l, obs c)
    (hall : ∀ c, obs c → c ≤ last ∨ c ∈ l) (hf : obs f) (hlast : obs last) (hfl : f ≤ last)
    (hchain : ∀ c, obs c → f ≤ c → c ≤ last → Relation.ReflTransGen (Linked obs) c last) :
    Grouped obs f (groups f last l) := by
  induction l generalizing f last with
  | nil =>
    have hle : ∀ c, obs c → c ≤ last := fun c hc => by simpa using hall c hc
    refine ⟨?_, ?_, ?_, ?_, List.pairwise_singleton _ _, ?_⟩
    · simpa [groups] using ⟨hf, hlast, hfl⟩
    · simpa [groups] using hchain
    · exact fun c hc hfc => ⟨⟨f, last⟩, by simp [groups], hfc, hle c hc⟩
    · intro g hg b hb
      obtain rfl : g = ⟨f, last⟩ := by simpa [groups] using hg
      have := hle b hb.right
      have := hb.lt
      dsimp only at this
      omega
    · simp [groups]
  | cons a l ih =>
    obtain ⟨hla, hl'⟩ := List.pairwise_cons.mp hl
    have hlt := hla a List.mem_cons_self
    have ha := hin a List.mem_cons_self
    have hin' : ∀ c ∈ l, obs c := fun c hc => hin c (List.mem_cons_of_mem a hc)
    have hge : ∀ c, obs c → last < c → a ≤ c := by
      intro c hc hlc
      rcases hall c hc with h | h
      · omega
      · rcases List.mem_cons.mp h with rfl | h
        · exact le_rfl
        · exact ((List.pairwise_cons.mp hl').1 c h).le
    have hall' : ∀ c, obs c → c ≤ a ∨ c ∈ l := by
      intro c hc
      rcases hall c hc with h | h
      · exact .inl (by omega)
      · rcases List.mem_cons.mp h with rfl | h
        · exact .inl le_rfl
        · exact .inr h
    unfold groups
    split_ifs with hc
    · have hlink : Linked obs last a := ⟨hlast, ha, hlt, hge, hc.1, hc.2⟩
      refine ih hl' hin' hall' hf ha (by omega) fun c hc hfc hca => ?_
      rcases Nat.lt_or_ge last c with h | h
      · obtain rfl : c = a := le_antisymm hca (hge c hc h)
        exact Relation.ReflTransGen.refl
      · exact (hchain c hc hfc h).tail hlink
    · have hG := ih hl' hin' hall' ha ha le_rfl (by
        intro c _ h1 h2
        obtain rfl : c = a := by omega
        exact Relation.ReflTransGen.refl)
      refine ⟨?_, ?_, ?_, ?_, ?_, ?_⟩
      · exact List.forall_mem_cons.mpr ⟨⟨hf, hlast, hfl⟩, hG.ends⟩
      · exact List.forall_mem_cons.mpr ⟨hchain, hG.chain⟩
      · intro c hc hfc
        rcases Nat.lt_or_ge last c with h | h
        · obtain ⟨g, hg, hgc⟩ := hG.all c hc (hge c hc h)
          exact ⟨g, List.mem_cons_of_mem _ hg, hgc⟩
        · exact ⟨⟨f, last⟩, List.mem_cons_self, hfc, h⟩
      · refine List.forall_mem_cons.mpr ⟨fun b hb => hc ?_, hG.stop⟩
        have hba : b = a := le_antisymm (hb.next a ha hlt) (hge b hb.right hb.lt)
        exact ⟨hba ▸ hb.near, hb.inSpace⟩
      · refine List.pairwise_cons.mpr ⟨fun g hg => ?_, hG.apart⟩
        have := hG.above g hg
        unfold Far
        dsimp only
        omega
      · refine List.forall_mem_cons.mpr ⟨le_rfl, fun g hg => ?_⟩
        have := hG.above g hg
        omega

theorem pageFloor_mono {a b : ℕ} (h : a ≤ b) : pageFloor a ≤ pageFloor b :=
  Nat.mul_le_mul_right _ (Nat.div_le_div_right h)

namespace Grouped

variable {g : Ivl} {a b c : ℕ}

/-- A link stays within a cluster. -/
theorem link_mem (h : Grouped obs f G) (hg : g ∈ G) (hl : Linked obs a b) (h1 : g.lo ≤ a)
    (h2 : a ≤ g.hi) : g.lo ≤ b ∧ b ≤ g.hi := by
  have hlt := hl.lt
  rcases Nat.lt_or_eq_of_le h2 with h2 | rfl
  · exact ⟨by omega, hl.next g.hi (h.ends g hg).2.1 h2⟩
  · exact absurd hl (h.stop g hg b)

/-- An address is lost exactly when its cluster reaches the last page. -/
theorem lost_iff (h : Grouped obs f G) (hg : g ∈ G) (hc : obs c) (h1 : g.lo ≤ c) (h2 : c ≤ g.hi) :
    Lost obs c ↔ lastPage ≤ g.hi := by
  constructor
  · intro hlost
    induction hlost with
    | top _ hp => omega
    | link hl _ ih =>
      have hb := h.link_mem hg hl h1 h2
      exact ih hl.right hb.1 hb.2
  · intro hp
    have hch := h.chain g hg c hc h1 h2
    induction hch using Relation.ReflTransGen.head_induction_on with
    | refl => exact .top (h.ends g hg).2.1 hp
    | head hl _ ih =>
      have hb := h.link_mem hg hl h1 h2
      exact .link hl (ih hl.right hb.1 hb.2)

/-- The extent is that of the clusters below the last page, rounded out. -/
theorem extent_iff (h : Grouped obs f G) (hf : ∀ c, obs c → f ≤ c) :
    Extent obs x ↔ ∃ g ∈ G, g.hi < lastPage ∧ pageFloor g.lo ≤ x ∧
      x < pageFloor g.hi + kPageSize := by
  constructor
  · rintro ⟨a, b, ha, hb, hab, h1, h2⟩
    obtain ⟨g, hg, hga⟩ := h.all a ha.1 (hf a ha.1)
    have hlow : g.hi < lastPage := by
      by_contra hc
      exact ha.2 ((h.lost_iff hg ha.1 hga.1 hga.2).mpr (by omega))
    have hgb : b ≤ g.hi := by
      rcases hab with rfl | hl
      · exact hga.2
      · exact (h.link_mem hg hl hga.1 hga.2).2
    have h3 := pageFloor_mono hga.1
    have h4 := pageFloor_mono hgb
    exact ⟨g, hg, hlow, by omega, by omega⟩
  · rintro ⟨g, hg, hlow, h1, h2⟩
    obtain ⟨hlo, hhi, hle⟩ := h.ends g hg
    have hkept : ∀ c, obs c → g.lo ≤ c → c ≤ g.hi → Kept obs c := by
      intro c hc hc1 hc2
      refine ⟨hc, fun hl => ?_⟩
      have := (h.lost_iff hg hc hc1 hc2).mp hl
      omega
    -- along the links from the first address to the last
    have hwalk : ∀ c, Relation.ReflTransGen (Linked obs) c g.hi → obs c → g.lo ≤ c → c ≤ g.hi →
        pageFloor c ≤ x → Extent obs x := by
      intro c hch
      induction hch using Relation.ReflTransGen.head_induction_on with
      | refl =>
        intro hc hc1 hc2 hx
        exact ⟨g.hi, g.hi, hkept _ hc hc1 hc2, hkept _ hc hc1 hc2, .inl rfl, hx, h2⟩
      | @head c b hl _ ih =>
        intro hc hc1 hc2 hx
        have hb := h.link_mem hg hl hc1 hc2
        rcases Nat.lt_or_ge x (pageFloor b + kPageSize) with hlt | hge
        · exact ⟨c, b, hkept c hc hc1 hc2, hkept b hl.right hb.1 hb.2, .inr hl, hx, hlt⟩
        · exact ih hl.right hb.1 hb.2 (by omega)
    exact hwalk g.lo (h.chain g hg g.lo hlo le_rfl hle) hlo le_rfl hle h1

end Grouped

/-! ## Rounding and merging -/

/-- Rounded out, a cluster that reaches the last page ends at zero. -/
theorem roundOut_spanOf {g : Ivl} (h : g.hi < 2 ^ 64) : roundOut (spanOf g) =
    ⟨pageFloor g.lo, if g.hi < lastPage then pageFloor g.hi + kPageSize else 0⟩ := by
  have hceil : pageCeil ((g.hi + 1) % 2 ^ 64) =
      if g.hi < lastPage then pageFloor g.hi + kPageSize else 0 := by
    split_ifs with hl <;> simp only [pageCeil, pageFloor, kPageSize, lastPage] at hl ⊢ <;> omega
  simp only [roundOut, spanOf, hceil]

variable {S : List Span} {back : Span}

/-- Spans that end at zero are passed on as they are, or swallowed. -/
theorem mergeFrom_zero (h : ∀ s ∈ S, s.hi = 0) :
    ∃ Z, mergeFrom back S = back :: Z ∧ ∀ z ∈ Z, z.hi = 0 := by
  induction S generalizing back with
  | nil => exact ⟨[], rfl, by simp⟩
  | cons sp S ih =>
    obtain ⟨hsp, hS⟩ := List.forall_mem_cons.mp h
    unfold mergeFrom
    split_ifs with hle
    · have hmax : ({ back with hi := max back.hi sp.hi } : Span) = back := by simp [hsp]
      rw [hmax]
      exact ih hS
    · obtain ⟨Z, hZ, hz⟩ := @ih sp hS
      exact ⟨sp :: Z, by rw [hZ], List.forall_mem_cons.mpr ⟨hsp, hz⟩⟩

/-- Spans in ascending order, each not empty or, from some span on, ending at zero. -/
structure Rounded (S : List Span) : Prop where
  order : S.Pairwise fun s s' => s.lo ≤ s'.lo ∧ (s.hi = 0 → s'.hi = 0)
  shape : ∀ s ∈ S, s.hi = 0 ∨ s.lo < s.hi

theorem Rounded.tail {sp : Span} (h : Rounded (sp :: S)) : Rounded S :=
  ⟨(List.pairwise_cons.mp h.order).2, (List.forall_mem_cons.mp h.shape).2⟩

theorem not_covers_of_zero (h : ∀ s ∈ S, s.hi = 0) : ¬ Covers S x := by
  rintro ⟨s, hs, hx⟩
  have := h s hs
  have := hx.2
  omega

theorem mergeFrom_spec (hS : Rounded S) (hb : back.lo < back.hi) (hlo : ∀ s ∈ S, back.lo ≤ s.lo) :
    ∃ D Z, mergeFrom back S = D ++ Z ∧ (∀ z ∈ Z, z.hi = 0) ∧ Proper D ∧
      (∀ d ∈ D, back.lo ≤ d.lo) ∧ ∀ x, Covers D x ↔ back.Has x ∨ Covers S x := by
  induction S generalizing back with
  | nil =>
    exact ⟨[back], [], rfl, by simp, proper_cons.mpr ⟨hb, by simp, proper_nil⟩, by simp, by simp⟩
  | cons sp S ih =>
    obtain ⟨hsp, hS'⟩ := List.pairwise_cons.mp hS.order
    obtain ⟨hblo, hlo'⟩ := List.forall_mem_cons.mp hlo
    rcases hS.shape sp List.mem_cons_self with hz | hne
    · have hall : ∀ s ∈ sp :: S, s.hi = 0 :=
        List.forall_mem_cons.mpr ⟨hz, fun s hs => (hsp s hs).2 hz⟩
      obtain ⟨Z, hZ, hz'⟩ := @mergeFrom_zero _ back hall
      refine ⟨[back], Z, hZ, hz', proper_cons.mpr ⟨hb, by simp, proper_nil⟩, by simp, fun x => ?_⟩
      simp only [covers_cons (C := []), covers_nil, or_false, not_covers_of_zero hall]
    · unfold mergeFrom
      split_ifs with hle
      · obtain ⟨D, Z, hDZ, hZ, hD, hDlo, hcov⟩ :=
          @ih { back with hi := max back.hi sp.hi } hS.tail
            (by dsimp only; omega) (fun s hs => by have := (hsp s hs).1; dsimp only; omega)
        refine ⟨D, Z, hDZ, hZ, hD, hDlo, fun x => ?_⟩
        rw [hcov x, covers_cons, ← or_assoc]
        have hunion : ({ back with hi := max back.hi sp.hi } : Span).Has x ↔
            back.Has x ∨ sp.Has x := by
          simp only [Ivl.Has]
          omega
        rw [hunion]
      · obtain ⟨D, Z, hDZ, hZ, hD, hDlo, hcov⟩ := @ih sp hS.tail hne
          (fun s hs => (hsp s hs).1)
        refine ⟨back :: D, Z, by rw [hDZ]; rfl, hZ, proper_cons.mpr ⟨hb, ?_, hD⟩, ?_, fun x => ?_⟩
        · intro d hd
          have := hDlo d hd
          omega
        · refine List.forall_mem_cons.mpr ⟨le_rfl, fun d hd => ?_⟩
          have := hDlo d hd
          omega
        · rw [covers_cons, hcov x, covers_cons]

theorem mergeAdjacent_spec (hS : Rounded S) :
    ∃ D Z, mergeAdjacent S = D ++ Z ∧ (∀ z ∈ Z, z.hi = 0) ∧ Proper D ∧
      ∀ x, Covers D x ↔ Covers S x := by
  cases S with
  | nil => exact ⟨[], [], rfl, by simp, proper_nil, by simp⟩
  | cons sp S =>
    have hsp := (List.pairwise_cons.mp hS.order).1
    rcases hS.shape sp List.mem_cons_self with hz | hne
    · have hall : ∀ s ∈ sp :: S, s.hi = 0 :=
        List.forall_mem_cons.mpr ⟨hz, fun s hs => (hsp s hs).2 hz⟩
      obtain ⟨Z, hZ, hz'⟩ := @mergeFrom_zero _ sp (List.forall_mem_cons.mp hall).2
      refine ⟨[], sp :: Z, hZ, List.forall_mem_cons.mpr ⟨hz, hz'⟩, proper_nil, fun x => ?_⟩
      simp only [covers_nil, not_covers_of_zero hall]
    · obtain ⟨D, Z, hDZ, hZ, hD, -, hcov⟩ :=
        mergeFrom_spec hS.tail hne (fun s hs => (hsp s hs).1)
      exact ⟨D, Z, hDZ, hZ, hD, fun x => by rw [hcov x, covers_cons]⟩

/-! ## Clipping -/

variable {existing : List Region} {r : Region} {p : Span} {C : List Span}

theorem clipOne_spec (hr : r.base + r.len < 2 ^ 64) (hp : p.lo < p.hi) :
    Proper (clipOne r p) ∧ ∀ x, Covers (clipOne r p) x ↔ p.Has x ∧ ¬ r.Contains x := by
  unfold clipOne
  dsimp only
  rw [Nat.mod_eq_of_lt hr]
  split_ifs with hout h1 h2 h2
  · refine ⟨proper_cons.mpr ⟨hp, by simp, proper_nil⟩, fun x => ?_⟩
    simp only [covers_cons, covers_nil, or_false, Ivl.Has, Region.Contains]
    omega
  · refine ⟨proper_cons.mpr ⟨h1, ?_, proper_cons.mpr ⟨h2, by simp, proper_nil⟩⟩, fun x => ?_⟩
    · simp
    · simp only [List.singleton_append, covers_cons, covers_nil, or_false, Ivl.Has,
        Region.Contains]
      omega
  · refine ⟨proper_cons.mpr ⟨h1, by simp, proper_nil⟩, fun x => ?_⟩
    simp only [List.append_nil, covers_cons, covers_nil, or_false, Ivl.Has, Region.Contains]
    omega
  · refine ⟨proper_cons.mpr ⟨h2, by simp, proper_nil⟩, fun x => ?_⟩
    simp only [List.nil_append, covers_cons, covers_nil, or_false, Ivl.Has, Region.Contains]
    omega
  · refine ⟨proper_nil, fun x => ?_⟩
    simp only [List.nil_append, covers_nil, Ivl.Has, Region.Contains, false_iff]
    omega

/-- What covers only points of an interval lies inside it. -/
theorem inside_of_covers (hC : Proper C) (h : ∀ x, Covers C x → p.Has x) :
    ∀ q ∈ C, p.lo ≤ q.lo ∧ q.hi ≤ p.hi := by
  intro q hq
  have hne := hC.nonempty q hq
  have h1 := (h q.lo ⟨q, hq, le_rfl, hne⟩).1
  have h2 := (h (q.hi - 1) ⟨q, hq, by omega, by omega⟩).2
  exact ⟨h1, by omega⟩

theorem clip_fold (hlt : ∀ e ∈ existing, e.base + e.len < 2 ^ 64) (hC : Proper C) :
    Proper (existing.foldl (fun pieces r => pieces.flatMap (clipOne r)) C) ∧
      ∀ x, Covers (existing.foldl (fun pieces r => pieces.flatMap (clipOne r)) C) x ↔
        Covers C x ∧ ¬ InRegions existing x := by
  induction existing generalizing C with
  | nil => exact ⟨hC, fun x => by simp [InRegions]⟩
  | cons e existing ih =>
    obtain ⟨he, hlt'⟩ := List.forall_mem_cons.mp hlt
    have hone : ∀ q ∈ C, _ := fun q hq => clipOne_spec he (hC.nonempty q hq)
    have hin : ∀ q ∈ C, ∀ s ∈ clipOne e q, q.lo ≤ s.lo ∧ s.hi ≤ q.hi := fun q hq =>
      inside_of_covers (hone q hq).1 fun x hx => (((hone q hq).2 x).mp hx).1
    obtain ⟨hP, hcov⟩ := ih hlt' (hC.flatMap (fun q hq => (hone q hq).1) hin)
    refine ⟨hP, fun x => ?_⟩
    have hstep : Covers (C.flatMap (clipOne e)) x ↔ Covers C x ∧ ¬ e.Contains x := by
      rw [covers_flatMap]
      constructor
      · rintro ⟨q, hq, hx⟩
        have := ((hone q hq).2 x).mp hx
        exact ⟨⟨q, hq, this.1⟩, this.2⟩
      · rintro ⟨⟨q, hq, hx⟩, hne⟩
        exact ⟨q, hq, ((hone q hq).2 x).mpr ⟨hx, hne⟩⟩
    have hregions : InRegions (e :: existing) x ↔ e.Contains x ∨ InRegions existing x := by
      simp [InRegions]
    rw [List.foldl_cons, hcov x, hstep, hregions, not_or, and_assoc]

theorem clipExisting_zero (h : p.hi = 0) : clipExisting p existing = [p] := by
  unfold clipExisting
  induction existing with
  | nil => rfl
  | cons e existing ih =>
    have hone : [p].flatMap (clipOne e) = [p] := by simp [clipOne, h]
    rw [List.foldl_cons, hone]
    exact ih

/-- The pieces left of the merged spans. -/
def clipAll (existing : List Region) (spans : List Span) : List Span :=
  spans.flatMap fun sp => (clipExisting sp existing).filter fun p => p.lo < p.hi

theorem clipAll_spec (hlt : ∀ e ∈ existing, e.base + e.len < 2 ^ 64) (hS : Rounded S) :
    Proper (clipAll existing (mergeAdjacent S)) ∧
      ∀ x, Covers (clipAll existing (mergeAdjacent S)) x ↔
        Covers S x ∧ ¬ InRegions existing x := by
  obtain ⟨D, Z, hDZ, hZ, hD, hcov⟩ := mergeAdjacent_spec hS
  have hzero : clipAll existing Z = [] := by
    rw [clipAll, List.flatMap_eq_nil_iff]
    intro z hz
    rw [clipExisting_zero (hZ z hz), List.filter_eq_nil_iff]
    simp [hZ z hz]
  have hsplit : clipAll existing (mergeAdjacent S) = clipAll existing D := by
    rw [hDZ, clipAll, List.flatMap_append]
    exact (congrArg (_ ++ ·) hzero).trans (List.append_nil _)
  rw [hsplit]
  have hpiece : ∀ d ∈ D, Proper (clipExisting d existing) ∧
      ∀ x, Covers (clipExisting d existing) x ↔ d.Has x ∧ ¬ InRegions existing x := by
    intro d hd
    have := clip_fold (C := [d]) hlt
      (proper_cons.mpr ⟨hD.nonempty d hd, by simp, proper_nil⟩)
    refine ⟨this.1, fun x => ?_⟩
    simpa [clipExisting] using this.2 x
  -- no piece is empty, so the filter keeps all
  have hfilter : ∀ d ∈ D, (clipExisting d existing).filter (fun p => p.lo < p.hi) =
      clipExisting d existing := by
    intro d hd
    rw [List.filter_eq_self]
    intro q hq
    exact decide_eq_true ((hpiece d hd).1.nonempty q hq)
  constructor
  · apply hD.flatMap
    · intro d hd
      rw [hfilter d hd]
      exact (hpiece d hd).1
    · intro d hd
      rw [hfilter d hd]
      exact inside_of_covers (hpiece d hd).1 fun x hx => (((hpiece d hd).2 x).mp hx).1
  · intro x
    rw [← hcov x, clipAll, covers_flatMap]
    constructor
    · rintro ⟨d, hd, hx⟩
      rw [hfilter d hd] at hx
      have := ((hpiece d hd).2 x).mp hx
      exact ⟨⟨d, hd, this.1⟩, this.2⟩
    · rintro ⟨⟨d, hd, hx⟩, hno⟩
      refine ⟨d, hd, ?_⟩
      rw [hfilter d hd]
      exact ((hpiece d hd).2 x).mpr ⟨hx, hno⟩

/-! ## The cap -/

/-- The scan has seen `pre`; `best` is its first smallest gap. -/
theorem bestFrom_spec {gs pre rest : List Ivl} {i best bestGap : ℕ} (hgs : gs = pre ++ rest)
    (hi : i = pre.length) (hasc : gs.Pairwise fun g h => g.lo < h.lo)
    (hlen : ∀ g ∈ gs, g.hi - g.lo < 2 ^ 64 - 1) (hne : gs ≠ [])
    (hbest : (pre = [] ∧ bestGap = 2 ^ 64 - 1) ∨ ∃ m, gs[best]? = some m ∧ m ∈ pre ∧
      m.hi - m.lo = bestGap ∧ ∀ h ∈ pre, h ≠ m → Before m h) :
    ∃ m, gs[bestFrom i best bestGap rest]? = some m ∧ ∀ h ∈ gs, h ≠ m → Before m h := by
  induction rest generalizing pre i best bestGap with
  | nil =>
    obtain rfl : gs = pre := by simpa using hgs
    rcases hbest with ⟨hpre, -⟩ | ⟨m, hm, -, -, hfirst⟩
    · exact absurd hpre hne
    · exact ⟨m, hm, hfirst⟩
  | cons g rest ih =>
    have hgs' : gs = (pre ++ [g]) ++ rest := by simp [hgs]
    have hg : g ∈ gs := by simp [hgs]
    have hgi : gs[i]? = some g := by simp [hgs, hi]
    have hafter : ∀ h ∈ pre, h.lo < g.lo := by
      intro h hh
      rw [hgs] at hasc
      exact (List.pairwise_append.mp hasc).2.2 h hh g List.mem_cons_self
    have hlong := hlen g hg
    unfold bestFrom
    split_ifs with hlt
    · refine ih hgs' (by simp [hi]) (.inr ⟨g, hgi, by simp, rfl, fun h hh hne' => ?_⟩)
      rcases hbest with ⟨rfl, -⟩ | ⟨m, -, -, hmlen, hfirst⟩
      · exact absurd (by simpa using hh) hne'
      · rcases List.mem_append.mp hh with hh | hh
        · by_cases hm : h = m
          · subst hm
            exact .inl (by omega)
          · have := hfirst h hh hm
            unfold Before at this
            exact .inl (by omega)
        · exact absurd (by simpa using hh) hne'
    · refine ih hgs' (by simp [hi]) (.inr ?_)
      rcases hbest with ⟨-, hb⟩ | ⟨m, hm, hmem, hmlen, hfirst⟩
      · omega
      · refine ⟨m, hm, List.mem_append_left _ hmem, hmlen, fun h hh hne' => ?_⟩
        rcases List.mem_append.mp hh with hh | hh
        · exact hfirst h hh hne'
        · obtain rfl : h = g := by simpa using hh
          have := hafter m hmem
          unfold Before
          omega

theorem picksFirst_bestGapAt : PicksFirst bestGapAt (2 ^ 64 - 1) := by
  intro C hC hN hlen
  have hbound : ∀ g ∈ gaps C, g.hi < 2 ^ 64 - 1 := by
    clear hlen
    induction C using gaps.induct with
    | case1 p q C ih =>
      have hqC := (proper_cons.mp hC).2.2
      have hq := (proper_cons.mp hqC).1
      have hqN := hN q (by simp)
      refine List.forall_mem_cons.mpr ⟨by dsimp only; omega, ih hqC ?_⟩
      exact fun s hs => hN s (List.mem_cons_of_mem p hs)
    | case2 C h =>
      cases C with
      | nil => simp [gaps]
      | cons p C =>
        cases C with
        | nil => simp [gaps]
        | cons q C => exact absurd rfl (h p q C)
  have hne : gaps C ≠ [] := by
    intro hnil
    have := length_gaps (C := C)
    rw [hnil, List.length_nil] at this
    omega
  exact @bestFrom_spec _ [] _ _ _ _ rfl rfl (gaps_ascend hC)
    (fun g hg => by have := hbound g hg; omega) hne (.inl ⟨rfl, rfl⟩)

/-! ## All the spans -/

variable {addrs : List (BitVec 64)}

namespace Grouped

/-- Clusters with later ends come later. -/
theorem far (h : Grouped obs f G) {g g' : Ivl} (hg : g ∈ G) (hg' : g' ∈ G) (hlt : g.hi < g'.hi) :
    Far g g' := by
  have hfwd : G.Pairwise fun a b => a.hi < b.hi → Far a b := by
    refine h.apart.imp ?_
    exact fun hab _ => hab
  have hbwd : G.Pairwise fun a b => b.hi < a.hi → Far b a := by
    refine h.apart.imp_of_mem fun {a b} _ hb hab hba => ?_
    have h1 := hab.1
    have h2 := (h.ends b hb).2.2
    omega
  refine List.Pairwise.forall_of_forall_of_flip (R := fun a b => a.hi < b.hi → Far a b)
    (fun a _ haa => absurd haa (lt_irrefl _)) hfwd ?_ hg hg' hlt
  exact hbwd

/-- What is kept lies below everything that is lost. -/
theorem extent_lt_lost {a : ℕ} (h : Grouped obs f G) (hf : ∀ c, obs c → f ≤ c)
    (hx : Extent obs x) (hlost : Lost obs a) (ha : obs a) : x < a := by
  obtain ⟨g, hg, hlow, -, hxg⟩ := (h.extent_iff hf).mp hx
  obtain ⟨g', hg', h1, h2⟩ := h.all a ha (hf a ha)
  have hhigh := (h.lost_iff hg' ha h1 h2).mp hlost
  have hfar := h.far hg hg' (by omega)
  unfold Far at hfar
  simp only [pageFloor, kPageSize, kObservedSpanGap, lastPage] at *
  omega

/-- Rounded out, the clusters are in order, and those that reach the last page end at zero. -/
theorem rounded (h : Grouped obs f G) (hlt : ∀ c, obs c → c < 2 ^ 64) :
    Rounded ((G.map spanOf).map roundOut) := by
  have hround : ∀ g ∈ G, roundOut (spanOf g) = _ := fun g hg =>
    roundOut_spanOf (hlt g.hi (h.ends g hg).2.1)
  rw [List.map_map]
  constructor
  · rw [List.pairwise_map]
    refine h.apart.imp_of_mem fun {g g'} hg hg' hfar => ?_
    have hle := (h.ends g hg).2.2
    have hle' := (h.ends g' hg').2.2
    have hfar1 := hfar.1
    simp only [Function.comp, hround g hg, hround g' hg']
    refine ⟨pageFloor_mono (by omega), fun hz => ?_⟩
    have hlow : ¬ g.hi < lastPage := by
      intro hc
      rw [if_pos hc] at hz
      simp [kPageSize] at hz
    rw [if_neg (by omega)]
  · intro s hs
    obtain ⟨g, hg, rfl⟩ := List.mem_map.mp hs
    have hle := pageFloor_mono (h.ends g hg).2.2
    simp only [Function.comp, hround g hg]
    split_ifs
    · right
      simp only [kPageSize]
      omega
    · exact .inl rfl

theorem covers_rounded (h : Grouped obs f G) (hf : ∀ c, obs c → f ≤ c)
    (hlt : ∀ c, obs c → c < 2 ^ 64) :
    Covers ((G.map spanOf).map roundOut) x ↔ Extent obs x := by
  have hround : ∀ g ∈ G, roundOut (spanOf g) = _ := fun g hg =>
    roundOut_spanOf (hlt g.hi (h.ends g hg).2.1)
  rw [h.extent_iff hf, List.map_map]
  constructor
  · rintro ⟨s, hs, hx⟩
    obtain ⟨g, hg, rfl⟩ := List.mem_map.mp hs
    rw [Function.comp, hround g hg] at hx
    by_cases hlow : g.hi < lastPage
    · rw [if_pos hlow] at hx
      exact ⟨g, hg, hlow, hx.1, hx.2⟩
    · rw [if_neg hlow] at hx
      exact absurd hx.2 (Nat.not_lt_zero x)
  · rintro ⟨g, hg, hlow, h1, h2⟩
    refine ⟨_, List.mem_map.mpr ⟨g, hg, rfl⟩, ?_⟩
    rw [Function.comp, hround g hg, if_pos hlow]
    exact ⟨h1, h2⟩

end Grouped

theorem mem_sorted_iff {c : ℕ} :
    c ∈ unique ((addrs.map BitVec.toNat).insertionSort (· ≤ ·)) ↔ Observed addrs c := by
  rw [mem_unique, List.mem_insertionSort]
  simp [Observed]

/-- The clusters of the observed addresses. -/
theorem exists_grouped {a : ℕ}
    (h : unique ((addrs.map BitVec.toNat).insertionSort (· ≤ ·)) = a :: l) :
    Grouped (Observed addrs) a (groups a a l) ∧ (∀ c, Observed addrs c → a ≤ c) ∧
      cluster ⟨a, (a + 1) % 2 ^ 64⟩ l = (groups a a l).map spanOf := by
  have hmem : ∀ c, c ∈ a :: l ↔ Observed addrs c := by
    intro c
    rw [← h, mem_sorted_iff]
  have hasc : (a :: l).Pairwise (· < ·) := by
    rw [← h]
    exact unique_ascending (List.pairwise_insertionSort _ _)
  have hfirst : ∀ c, Observed addrs c → a ≤ c := by
    intro c hc
    rcases List.mem_cons.mp ((hmem c).mpr hc) with rfl | hc
    · exact le_rfl
    · exact ((List.pairwise_cons.mp hasc).1 c hc).le
  have ha := (hmem a).mp List.mem_cons_self
  refine ⟨grouped_groups hasc ?_ ?_ ha ha le_rfl ?_, hfirst, cluster_eq hasc ?_⟩
  · exact fun c hc => (hmem c).mp (List.mem_cons_of_mem a hc)
  · intro c hc
    rcases List.mem_cons.mp ((hmem c).mpr hc) with rfl | hc
    · exact .inl le_rfl
    · exact .inr hc
  · intro c _ h1 h2
    obtain rfl : c = a := le_antisymm h2 h1
    exact Relation.ReflTransGen.refl
  · intro c hc
    obtain ⟨v, -, rfl⟩ := (hmem c).mp hc
    exact v.isLt

theorem observed_lt {c : ℕ} (h : Observed addrs c) : c < 2 ^ 64 := by
  obtain ⟨v, -, rfl⟩ := h
  exact v.isLt

theorem lost_observed {a : ℕ} (h : Lost obs a) : obs a := by
  cases h with
  | top ha _ => exact ha
  | link hl _ => exact hl.left

/-- Before the cap the spans cover the free part. -/
theorem observedSpans_eq (hlt : ∀ e ∈ existing, e.base + e.len < 2 ^ 64) : ∃ C,
    Proper C ∧ (∀ x, Covers C x ↔ Free addrs existing x) ∧
    observedSpans addrs existing = closeGaps bestGapAt kObservedSpanCap C.length C := by
  unfold observedSpans
  split
  · next hnil =>
    have hno : ∀ c, ¬ Observed addrs c := by
      intro c hc
      rw [← mem_sorted_iff, hnil] at hc
      cases hc
    refine ⟨[], proper_nil, fun x => ?_, rfl⟩
    simp only [covers_nil, false_iff]
    rintro ⟨⟨a, -, ha, -⟩, -⟩
    exact hno a ha.1
  · next a l hcons =>
    obtain ⟨hG, hfirst, hcl⟩ := exists_grouped hcons
    obtain ⟨hC, hcov⟩ := clipAll_spec hlt (hG.rounded fun c hc => observed_lt hc)
    refine ⟨_, hC, fun x => ?_, ?_⟩
    · rw [hcov x, hG.covers_rounded hfirst fun c hc => observed_lt hc]
      rfl
    · dsimp only
      rw [hcl]
      rfl

/-- A free address is below the last page and below everything lost. -/
theorem free_lt (h : Free addrs existing x) :
    x < lastPage ∧ ∀ a, Lost (Observed addrs) a → x < a := by
  obtain ⟨⟨a, b, ha, hb, hab, h1, h2⟩, -⟩ := h
  have hx : Extent (Observed addrs) x := ⟨a, b, ha, hb, hab, h1, h2⟩
  have hlow : b < lastPage := by
    by_contra hc
    exact hb.2 (.top hb.1 (by omega))
  refine ⟨?_, fun c hc => ?_⟩
  · simp only [pageFloor, kPageSize, lastPage] at *
    omega
  · cases hs : unique ((addrs.map BitVec.toNat).insertionSort (· ≤ ·)) with
    | nil =>
      have hobs := mem_sorted_iff.mpr ha.1
      rw [hs] at hobs
      cases hobs
    | cons s l =>
      obtain ⟨hG, hfirst, -⟩ := exists_grouped hs
      exact hG.extent_lt_lost hfirst hx hc (lost_observed hc)

/-- An observed address that is not lost lies in its own page. -/
theorem Kept.free {a : ℕ} (h : Kept (Observed addrs) a) (hin : ¬ InRegions existing a) :
    Free addrs existing a := by
  have hfloor : pageFloor a ≤ a := Nat.div_mul_le_self _ _
  have hceil : a < pageFloor a + kPageSize := by
    simp only [pageFloor, kPageSize]
    omega
  exact ⟨⟨a, a, h, h, .inl rfl, hfloor, hceil⟩, hin⟩

theorem contains_observedDataSpans :
    (∃ r ∈ observedDataSpans addrs existing, r.Contains x) ↔
      Covers (observedSpans addrs existing) x := by
  constructor
  · rintro ⟨r, hr, h1, h2⟩
    obtain ⟨p, hp, rfl⟩ := List.mem_map.mp hr
    dsimp only at h1 h2
    exact ⟨p, hp, h1, by omega⟩
  · rintro ⟨p, hp, h1, h2⟩
    exact ⟨_, List.mem_map.mpr ⟨p, hp, rfl⟩, h1, by dsimp only; omega⟩

/-- Proper spans before the map to regions are nonempty and ascending after it. -/
theorem observedDataSpans_proper (h : Proper (observedSpans addrs existing)) :
    (∀ r ∈ observedDataSpans addrs existing, 0 < r.len) ∧
      (observedDataSpans addrs existing).Pairwise fun r r' => r.base + r.len ≤ r'.base := by
  constructor
  · intro r hr
    obtain ⟨p, hp, rfl⟩ := List.mem_map.mp hr
    have := h.nonempty p hp
    dsimp only
    omega
  · rw [observedDataSpans, List.pairwise_map]
    refine h.apart.imp_of_mem fun {p q} hp _ hpq => ?_
    have := h.nonempty p hp
    dsimp only
    omega

/-- A gap of the free part that holds a byte of a region. -/
def Occupied (addrs : List (BitVec 64)) (existing : List Region) (g : Ivl) : Prop :=
  Gap (Free addrs existing) g ∧ ∃ x, g.Has x ∧ InRegions existing x

/-- The gaps of the free part after `g`, by length and then by position. -/
def after (addrs : List (BitVec 64)) (existing : List Region) (g : Ivl) : Set Ivl :=
  {h | Gap (Free addrs existing) h ∧ Before g h}

/-- The spans cover the free part and its gaps that are closed to keep the cap. -/
theorem covers_observedSpans (hlt : ∀ e ∈ existing, e.base + e.len < 2 ^ 64) :
    Proper (observedSpans addrs existing) ∧
      ∀ x, Covers (observedSpans addrs existing) x ↔
        Free addrs existing x ∨ ∃ g, Gap (Free addrs existing) g ∧
          kObservedSpanCap ≤ (after addrs existing g).ncard + 1 ∧ g.Has x := by
  obtain ⟨C, hC, hfree, hspans⟩ := @observedSpans_eq _ addrs hlt
  have hN : ∀ p ∈ C, p.hi ≤ 2 ^ 64 - 1 := by
    intro p hp
    have hne := hC.nonempty p hp
    have := (free_lt ((hfree (p.hi - 1)).mp ⟨p, hp, by omega, by omega⟩)).1
    simp only [lastPage, kPageSize] at this
    omega
  obtain ⟨hR, hcov⟩ := @closeGaps_spec _ kObservedSpanCap _ _ picksFirst_bestGapAt
    (by simp [kObservedSpanCap]) C.length hC hN (by omega)
  rw [← hspans] at hR hcov
  have hFree : Covers C = Free addrs existing := funext fun x => propext (hfree x)
  have hlater : ∀ g : Ivl, g.lo < g.hi → later C g = (after addrs existing g).ncard := by
    intro g hg
    rw [later_eq_ncard hC hg, hFree]
    rfl
  have hgap : ∀ g, Gap (Free addrs existing) g ↔ g ∈ gaps C ∧ g.lo < g.hi := by
    intro g
    rw [← hFree]
    exact gap_iff hC
  refine ⟨hR, fun x => ?_⟩
  rw [hcov x, hfree x]
  refine or_congr_right (exists_congr fun g => ?_)
  constructor
  · rintro ⟨hg, hclosed, hx⟩
    have hne : g.lo < g.hi := hx.1.trans_lt hx.2
    rw [hlater g hne] at hclosed
    exact ⟨(hgap g).mpr ⟨hg, hne⟩, hclosed, hx⟩
  · rintro ⟨hg, hclosed, hx⟩
    rw [← hlater g hg.nonempty] at hclosed
    exact ⟨((hgap g).mp hg).1, hclosed, hx⟩

/-- The spans are as they should be exactly when what is lost lies in the regions and no gap
with a byte of a region is closed to keep the cap. -/
theorem observed_data_spans_iff (addrs : List (BitVec 64)) (existing : List Region)
    (hlt : ∀ e ∈ existing, e.base + e.len < 2 ^ 64) :
    SpansOk addrs existing (observedDataSpans addrs existing) ↔
      (∀ a, Lost (Observed addrs) a → InRegions existing a) ∧
      ∀ g, Occupied addrs existing g →
        (after addrs existing g).ncard + 2 ≤ kObservedSpanCap := by
  obtain ⟨hR, hcov⟩ := @covers_observedSpans _ addrs hlt
  constructor
  · intro hok
    constructor
    · intro a ha
      obtain ⟨v, hv, rfl⟩ := lost_observed ha
      rcases hok.covers v hv with hin | hin
      · exact hin
      · exfalso
        rcases (hcov _).mp (contains_observedDataSpans.mp hin) with hx | ⟨g, hg, -, hx⟩
        · exact lt_irrefl _ ((free_lt hx).2 _ ha)
        · have := (free_lt hg.above).2 _ ha
          exact absurd hx.2 (by omega)
    · rintro g ⟨hg, x, hx, e, he, hex⟩
      by_contra hc
      have hclosed : kObservedSpanCap ≤ (after addrs existing g).ncard + 1 := by omega
      obtain ⟨r, hr, hrx⟩ :=
        contains_observedDataSpans.mpr ((hcov x).mpr (.inr ⟨g, hg, hclosed, hx⟩))
      exact hok.clear r hr e he x ⟨hrx, hex⟩
  · rintro ⟨hlost, hocc⟩
    obtain ⟨hpos, hasc⟩ := observedDataSpans_proper hR
    refine ⟨hpos, hasc, ?_, ?_⟩
    · rintro r hr e he x ⟨hrx, hex⟩
      have hx := (hcov x).mp (contains_observedDataSpans.mp ⟨r, hr, hrx⟩)
      rcases hx with hx | ⟨g, hg, hclosed, hx⟩
      · exact hx.2 ⟨e, he, hex⟩
      · have := hocc g ⟨hg, x, hx, e, he, hex⟩
        omega
    · intro v hv
      by_cases hin : InRegions existing v.toNat
      · exact .inl hin
      · have hkept : Kept (Observed addrs) v.toNat := ⟨⟨v, hv, rfl⟩, fun hl => hin (hlost _ hl)⟩
        exact .inr (contains_observedDataSpans.mpr ((hcov _).mpr (.inl (hkept.free hin))))

theorem observed_data_spans_one : (∀ e ∈ [(⟨8192, 16⟩ : Region)], e.base + e.len < 2 ^ 64) ∧
    (SpansOk [5, 8200] [⟨8192, 16⟩] (observedDataSpans [5, 8200] [⟨8192, 16⟩]) ↔
      (∀ a, Lost (Observed [5, 8200]) a → InRegions [⟨8192, 16⟩] a) ∧
      ∀ g, Occupied [5, 8200] [⟨8192, 16⟩] g →
        (after [5, 8200] [⟨8192, 16⟩] g).ncard + 2 ≤ kObservedSpanCap) :=
  ⟨by decide, observed_data_spans_iff [5, 8200] [⟨8192, 16⟩] (by decide)⟩

/-- The span of an address in the last page rounds out to nothing. -/
theorem observed_data_spans_top :
    ¬ SpansOk [18446744073709551615] [] (observedDataSpans [18446744073709551615] []) := by
  intro hok
  have hnil : observedDataSpans [18446744073709551615] [] = [] := by decide
  rcases hok.covers _ List.mem_cons_self with ⟨e, he, -⟩ | ⟨r, hr, -⟩
  · cases he
  · rw [hnil] at hr
    cases hr

end AsmTest.Space
