import AsmTest.Lib.Forest
import AsmTest.Lib.RunningTotals

/-!
# The process tree (desktop/src/live/inspect.cpp)

The rows of the process pane: every process of a snapshot under its parent, collapsed as the
operator left it, with the threads of a process under a row of their own. Depths and order are
those of the whole snapshot; a row that is not drawn still counts as an ancestor.
-/

namespace AsmTest.Inspect

open AsmTest.Lib

structure ProcRow where
  pid : ℤ
  ppid : ℤ
  /-- The thread ids, the leader's first -/
  threads : List ℤ

inductive ProcParent where
  | none | shown | hidden | unknown
  deriving DecidableEq

inductive ProcNode where
  | process | threadGroup | thread
  deriving DecidableEq

structure ProcTreeRow where
  kind : ProcNode := .process
  /-- The process, into the snapshot -/
  index : ℕ
  threadAt : ℕ := 0
  depth : ℕ
  parent : ProcParent := .none
  lastSibling : Bool := true
  expandable : Bool := false
  expanded : Bool := false
  nodeId : ℤ := 0
  pid : ℤ
  tid : ℤ := 0
  deriving DecidableEq

structure ProcTreeExpansion where
  opened : Finset ℤ
  showAllProcesses : Bool := false

/-- An element of the stack of the pre-order walk -/
structure Frame where
  kind : ProcNode
  node : ℕ
  threadAt : ℕ
  depth : ℕ
  blocked : Bool
  last : Bool

section Parents

variable (rows : List ProcRow)

def rowAt (i : ℕ) : ProcRow := rows.getD i ⟨0, 0, []⟩

/-- The first row of a pid -/
def byPid (pid : ℤ) : Option ℕ := rows.findIdx? fun r => r.pid = pid

def namedParent (i : ℕ) : Option ℕ :=
  if (rowAt rows i).ppid ≤ 0 ∨ (rowAt rows i).ppid = (rowAt rows i).pid then none
  else (byPid rows (rowAt rows i).ppid).filter fun j => j ≠ i

/-- The steps up from a row, as many as `fuel` -/
def climb : ℕ → ℕ → ℕ
  | 0, _ => 0
  | fuel + 1, i =>
    match namedParent rows i with
    | none => 0
    | some p => climb fuel p + 1

/-- A chain longer than the snapshot -/
def cut (i : ℕ) : Bool := rows.length < climb rows (rows.length + 1) i

def parentOf (i : ℕ) : Option ℕ := if cut rows i then none else namedParent rows i

def pidKey (descending : Bool) (i : ℕ) : ℤ :=
  if descending then -(rowAt rows i).pid else (rowAt rows i).pid

end Parents

section Layout

variable (rows : List ProcRow) (visible : List Bool) (exp : ProcTreeExpansion)
variable {descending : Bool} (S : SortBy (pidKey rows descending))

/-- A short mask hides. -/
def vis (i : ℕ) : Bool := visible.getD i false

def isOpen (id : ℤ) : Bool := decide (id ∈ exp.opened)

def kidsOf (p : ℕ) : List ℕ :=
  S.run ((List.range rows.length).filter fun i => parentOf rows i = some p)

def roots : List ℕ := S.run ((List.range rows.length).filter fun i => parentOf rows i = none)

def lastVisible (group : List ℕ) : Option ℕ := group.reverse.find? (vis visible)

def isLast (i : ℕ) : Bool :=
  (roots rows S :: (List.range rows.length).map (kidsOf rows S)).any fun group =>
    lastVisible visible group = some i

/-- What is said about the parent, whatever the nesting made of it -/
def parentKind (i : ℕ) : ProcParent :=
  if (rowAt rows i).ppid ≤ 0 ∨ (rowAt rows i).ppid = (rowAt rows i).pid then .none
  else
    match byPid rows (rowAt rows i).ppid with
    | none => .unknown
    | some j => if vis visible j then .shown else .hidden

def pre : List ℕ := Forest.walk (fun i => [i]) (kidsOf rows S) rows.length (roots rows S)

/-- One node of the reverse sweep -/
def markFrontier (node : ℕ) (frontier : ℕ → Bool) : ℕ → Bool :=
  if (kidsOf rows S node).any fun c => vis visible c || frontier c then
    Function.update frontier node true
  else frontier

/-- Would opening a process reveal a process? -/
def frontier : ℕ → Bool := (pre rows S).foldr (markFrontier rows visible S) fun _ => false

def hasGroup (i : ℕ) : Bool := 1 < (rowAt rows i).threads.length

def drawRow (f : Frame) : List ProcTreeRow :=
  let pid := (rowAt rows f.node).pid
  match f.kind with
  | .thread =>
    [{ kind := .thread, index := f.node, threadAt := f.threadAt, depth := f.depth,
       parent := .shown, lastSibling := f.last, pid := pid,
       tid := (rowAt rows f.node).threads.getD f.threadAt 0 }]
  | .threadGroup =>
    [{ kind := .threadGroup, index := f.node, depth := f.depth, parent := .shown,
       lastSibling := f.last, expandable := true, expanded := isOpen exp (-pid),
       nodeId := -pid, pid := pid }]
  | .process =>
    if vis visible f.node && !f.blocked then
      [{ index := f.node, depth := f.depth, parent := parentKind rows visible f.node,
         lastSibling := isLast rows visible S f.node,
         expandable := frontier rows visible S f.node || hasGroup rows f.node,
         expanded := isOpen exp pid, nodeId := pid, pid := pid }]
    else []

/-- A process that is drawn and closed hides what is below it. -/
def closes (i : ℕ) : Bool :=
  !exp.showAllProcesses && vis visible i && !isOpen exp (rowAt rows i).pid

/-- What goes on the stack: the threads before the child processes -/
def drawNext (f : Frame) : List Frame :=
  let pid := (rowAt rows f.node).pid
  match f.kind with
  | .thread => []
  | .threadGroup =>
    let threads := (rowAt rows f.node).threads
    if isOpen exp (-pid) then
      (List.range threads.length).map fun j =>
        ⟨.thread, f.node, j, f.depth + 1, false, decide (j + 1 = threads.length)⟩
    else []
  | .process =>
    let kids := kidsOf rows S f.node
    (if (vis visible f.node && !f.blocked) && hasGroup rows f.node && isOpen exp pid then
      [⟨.threadGroup, f.node, 0, f.depth + 1, false, (lastVisible visible kids).isNone⟩]
    else []) ++
      kids.map fun c => ⟨.process, c, 0, f.depth + 1,
        f.blocked || closes rows visible exp f.node, decide (lastVisible visible kids = some c)⟩

def procTreeLayout : List ProcTreeRow :=
  Forest.walk (drawRow rows visible exp S) (drawNext rows visible exp S)
    (2 * rows.length + (rows.map fun r => r.threads.length).sum)
    ((roots rows S).map fun i => ⟨.process, i, 0, 0, false, false⟩)

/-- Every id that can be opened, for "Expand all" -/
def procTreeAllNodes : List ℤ :=
  rows.flatMap fun r => r.pid :: if 1 < r.threads.length then [-r.pid] else []

end Layout

section Cut

variable {rows : List ProcRow} {i p k : ℕ}

theorem lt_of_namedParent (h : namedParent rows i = some p) :
    i < rows.length ∧ p < rows.length ∧ p ≠ i := by
  unfold namedParent at h
  split_ifs at h with hp
  obtain ⟨hfind, hne⟩ := Option.filter_eq_some_iff.1 h
  refine ⟨?_, (List.findIdx?_eq_some_iff_getElem.1 hfind).1, by simpa using hne⟩
  by_contra hi
  rw [rowAt, List.getD_eq_getElem?_getD, List.getElem?_eq_none (not_lt.1 hi)] at hp
  exact hp (.inl le_rfl)

theorem lt_of_parentOf (h : parentOf rows i = some p) : i < rows.length ∧ p < rows.length := by
  unfold parentOf at h
  split_ifs at h
  exact ⟨(lt_of_namedParent h).1, (lt_of_namedParent h).2.1⟩

theorem climb_of_none (h : namedParent rows i = none) : climb rows k i = 0 := by
  cases k with
  | zero => rfl
  | succ k => rw [climb, h]

theorem climb_of_some (h : namedParent rows i = some p) :
    climb rows (k + 1) i = climb rows k p + 1 := by
  rw [climb, h]

theorem climb_le : climb rows k i ≤ k := by
  induction k generalizing i with
  | zero => exact le_rfl
  | succ k ih =>
    cases h : namedParent rows i with
    | none =>
      rw [climb_of_none h]
      exact Nat.zero_le _
    | some p =>
      rw [climb_of_some h]
      exact Nat.succ_le_succ ih

/-- A chain that has ended does not go on. -/
theorem climb_stable (h : climb rows k i < k) {m : ℕ} (hm : k ≤ m) :
    climb rows m i = climb rows k i := by
  -- both go through the same rows, and the shorter one ends
  induction k generalizing i m with
  | zero => exact absurd h (Nat.not_lt_zero _)
  | succ k ih =>
    obtain ⟨m, rfl⟩ : ∃ j, m = j + 1 := ⟨m - 1, by omega⟩
    cases hp : namedParent rows i with
    | none => rw [climb_of_none hp, climb_of_none hp]
    | some p =>
      rw [climb_of_some hp] at h ⊢
      rw [climb_of_some hp, ih (by omega) (by omega)]

theorem climb_mono {m : ℕ} (h : k ≤ m) : climb rows k i ≤ climb rows m i := by
  rcases lt_or_eq_of_le (@climb_le rows i k) with hlt | heq
  · exact (climb_stable hlt h).ge
  · induction k generalizing i m with
    | zero => exact Nat.zero_le _
    | succ k ih =>
      obtain ⟨m, rfl⟩ : ∃ j, m = j + 1 := ⟨m - 1, by omega⟩
      cases hp : namedParent rows i with
      | none =>
        rw [climb_of_none hp]
        exact Nat.zero_le _
      | some p =>
        rw [climb_of_some hp] at heq ⊢
        rw [climb_of_some hp]
        exact Nat.succ_le_succ (ih (by omega) (by omega))

/-- The rows of a chain that ends are different rows. -/
theorem exists_chain (hi : i < rows.length) (h : climb rows k i < k) :
    ∃ l : List ℕ, l.length = climb rows k i + 1 ∧ l.Nodup ∧
      ∀ x ∈ l, x < rows.length ∧ climb rows k x ≤ climb rows k i := by
  induction k generalizing i with
  | zero => exact absurd h (Nat.not_lt_zero _)
  | succ k ih =>
    cases hp : namedParent rows i with
    | none =>
      refine ⟨[i], by rw [climb_of_none hp]; rfl, List.nodup_singleton i, fun x hx => ?_⟩
      rw [List.mem_singleton.1 hx]
      exact ⟨hi, le_rfl⟩
    | some p =>
      rw [climb_of_some hp] at h ⊢
      have hlt : climb rows k p < k := by omega
      obtain ⟨l, hlen, hnodup, hall⟩ := ih (lt_of_namedParent hp).2.1 hlt
      have hnext : ∀ x ∈ l, climb rows (k + 1) x ≤ climb rows k p := fun x hx => by
        rw [climb_stable (by have := (hall x hx).2; omega) (Nat.le_succ k)]
        exact (hall x hx).2
      refine ⟨i :: l, by rw [List.length_cons, hlen], List.nodup_cons.2 ⟨fun hil => ?_, hnodup⟩,
        fun x hx => ?_⟩
      · -- the row itself is one step further from the end
        have hle := hnext i hil
        rw [climb_of_some hp] at hle
        omega
      · rcases List.mem_cons.1 hx with rfl | hx
        · exact ⟨hi, by rw [climb_of_some hp]⟩
        · exact ⟨(hall x hx).1, (hnext x hx).trans (Nat.le_succ _)⟩

/-- Only a chain that never ends is cut. -/
theorem cut_iff (hi : i < rows.length) : cut rows i = true ↔ ∀ k, climb rows k i = k := by
  rw [cut, decide_eq_true_eq]
  constructor
  · intro h k
    by_contra hk
    have hlt : climb rows k i < k := lt_of_le_of_ne climb_le hk
    obtain ⟨l, hlen, hnodup, hall⟩ := exists_chain hi hlt
    have hle := (hnodup.subperm fun x hx => List.mem_range.2 (hall x hx).1).length_le
    rw [List.length_range, hlen] at hle
    have hend := climb_stable hlt (le_max_left k (rows.length + 1))
    have hmax := @climb_mono rows i _ _ (le_max_right k (rows.length + 1))
    omega
  · intro h
    rw [h]
    exact Nat.lt_succ_self _

/-- What hangs below a cut row is cut as well, so each parent that is kept is one step nearer. -/
theorem climb_parentOf (h : parentOf rows i = some p) :
    cut rows p = false ∧ climb rows (rows.length + 1) i = climb rows (rows.length + 1) p + 1 := by
  unfold parentOf at h
  split_ifs at h with hcut
  rw [cut, decide_eq_true_eq, climb_of_some h] at hcut
  have hlt : climb rows rows.length p < rows.length := by omega
  have hstep := climb_stable hlt (Nat.le_succ _)
  rw [climb_of_some h, cut, hstep]
  exact ⟨decide_eq_false (by omega), rfl⟩

def depthOf (rows : List ProcRow) (i : ℕ) : ℕ :=
  if cut rows i then 0 else climb rows (rows.length + 1) i

variable {descending : Bool} (S : SortBy (pidKey rows descending))

theorem mem_kidsOf {c : ℕ} : c ∈ kidsOf rows S p ↔ parentOf rows c = some p := by
  rw [kidsOf, (S.perm _).mem_iff, List.mem_filter, List.mem_range, decide_eq_true_eq]
  exact ⟨And.right, fun h => ⟨(lt_of_parentOf h).1, h⟩⟩

theorem mem_roots : i ∈ roots rows S ↔ i < rows.length ∧ parentOf rows i = none := by
  rw [roots, (S.perm _).mem_iff, List.mem_filter, List.mem_range, decide_eq_true_eq]

theorem nodup_sorted (q : ℕ → Bool) : (S.run ((List.range rows.length).filter q)).Nodup :=
  (S.perm _).nodup_iff.2 (List.nodup_range.filter _)

/-- The snapshot as a forest -/
def procForest (S : SortBy (pidKey rows descending)) : Forest ℕ where
  parent := parentOf rows
  kids := kidsOf rows S
  depth := depthOf rows
  bound := rows.length + 1
  mem_kids := mem_kidsOf S
  nodup_kids _ := nodup_sorted S _
  depth_root {c} h := by
    unfold depthOf
    unfold parentOf at h
    split_ifs at h ⊢
    · rfl
    · exact climb_of_none h
  depth_kid {p c} h := by
    obtain ⟨hp, hclimb⟩ := climb_parentOf h
    unfold parentOf at h
    unfold depthOf
    split_ifs at h with hc
    rw [if_neg hc, if_neg (by simp [hp]), hclimb]
  depth_le c := by
    unfold depthOf
    split_ifs
    · exact Nat.zero_le _
    · exact climb_le

end Cut

section Order

variable {rows : List ProcRow} {descending : Bool} (S : SortBy (pidKey rows descending)) {i : ℕ}

/-- The whole snapshot, parents first and siblings by pid -/
def order : List ℕ := (roots rows S).flatMap (procForest S).preorder

/-- No row is over one that is listed before it. -/
theorem pairwise_order : (order S).Pairwise fun i j => ¬(procForest S).Over j i := by
  refine Forest.pairwise_flatMap_preorder (nodup_sorted S _) ?_
    fun a _ => (procForest S).pairwise_preorder a
  intro a _ b hb hover
  exact (Forest.over_root ((mem_roots S).1 hb).2).1 hover

/-- Of two rows with one parent the one that is listed first comes first by pid. -/
theorem siblings_order : (order S).Pairwise fun i j =>
    parentOf rows i = parentOf rows j → pidKey rows descending i ≤ pidKey rows descending j := by
  refine @Forest.siblings_flatMap_preorder _ (procForest S) _ _ (nodup_sorted S _) ?_ (S.sorted _)
    fun a _ => Forest.siblings_preorder (fun p => S.sorted _) a
  intro a _ b hb hover
  exact (Forest.over_root ((mem_roots S).1 hb).2).1 hover

theorem nodup_order : (order S).Nodup := by
  refine (pairwise_order S).imp ?_
  rintro a _ h rfl
  exact h .refl

/-- Every row is listed. -/
theorem mem_order : i ∈ order S ↔ i < rows.length := by
  constructor
  · intro hi
    obtain ⟨r, hr, hir⟩ := List.mem_flatMap.1 hi
    rcases Relation.ReflTransGen.cases_head (Forest.mem_preorder.1 hir) with rfl | ⟨p, hp, -⟩
    · exact ((mem_roots S).1 hr).1
    · exact (lt_of_parentOf hp).1
  · induction i using (procForest S).from_roots with
    | hroot i hi =>
      intro hlt
      exact List.mem_flatMap.2 ⟨i, (mem_roots S).2 ⟨hlt, hi⟩, Forest.mem_preorder.2 .refl⟩
    | hkid i p hp ih =>
      intro _
      obtain ⟨r, hr, hpr⟩ := List.mem_flatMap.1 (ih (lt_of_parentOf hp).2)
      refine List.mem_flatMap.2 ⟨r, hr, Forest.mem_preorder.2 ?_⟩
      exact .head hp (Forest.mem_preorder.1 hpr)

theorem order_perm : (order S).Perm (List.range rows.length) :=
  (List.perm_ext_iff_of_nodup (nodup_order S) List.nodup_range).2 fun _ =>
    (mem_order S).trans List.mem_range.symm

theorem size_kids (i : ℕ) :
    Forest.size (kidsOf rows S) (procForest S).rank i = ((procForest S).preorder i).length := by
  rw [Forest.size, Forest.expand_out, List.length_flatMap]
  simp [Forest.preorder, procForest]

/-- The first walk lists the rows in this order. -/
theorem pre_eq : pre rows S = order S := by
  refine Forest.walk_eq (fun a b hb => (procForest S).rank_lt a b hb) ?_
  have hlen := (order_perm S).length_eq
  rw [order, List.length_flatMap, List.length_range] at hlen
  rw [← hlen]
  exact (congrArg (fun f => ((roots rows S).map f).sum) (funext (size_kids S))).le

end Order

section Frontier

variable {rows : List ProcRow} (visible : List Bool) {descending : Bool}
variable (S : SortBy (pidKey rows descending)) {i c : ℕ}

/-- The reverse sweep over a list in which all kids stand behind their parents -/
theorem foldr_markFrontier {l : List ℕ} (hl : l.Pairwise fun i j => ¬(procForest S).Over j i)
    (hclosed : ∀ a ∈ l, ∀ c ∈ kidsOf rows S a, c ∈ l) :
    ∀ i, l.foldr (markFrontier rows visible S) (fun _ => false) i = true ↔
      i ∈ l ∧ ∃ c ∈ kidsOf rows S i, vis visible c = true ∨
        l.foldr (markFrontier rows visible S) (fun _ => false) c = true := by
  -- in the reverse sweep the kids are done before their parent
  induction l with
  | nil => simp
  | cons a l ih =>
    obtain ⟨hhead, htail⟩ := List.pairwise_cons.1 hl
    have ha : a ∉ l := fun h => hhead a h .refl
    have hne : ∀ b ∈ a :: l, ∀ c ∈ kidsOf rows S b, c ≠ a := by
      rintro b hb c hc rfl
      rcases List.mem_cons.1 hb with rfl | hb
      · have hdepth := (procForest S).depth_kid ((procForest S).mem_kids.1 hc)
        omega
      · exact hhead b hb (.single ((procForest S).mem_kids.1 hc))
    have hl' := ih htail fun b hb c hc =>
      (List.mem_cons.1 (hclosed b (List.mem_cons_of_mem a hb) c hc)).resolve_left
        (hne b (List.mem_cons_of_mem a hb) c hc)
    have hsame : ∀ b, b ≠ a → (a :: l).foldr (markFrontier rows visible S) (fun _ => false) b =
        l.foldr (markFrontier rows visible S) (fun _ => false) b := by
      intro b hb
      rw [List.foldr_cons, markFrontier]
      split_ifs
      · exact Function.update_of_ne hb _ _
      · rfl
    -- the kids of what is listed have their marks already
    have hkids : ∀ b ∈ a :: l, (∃ c ∈ kidsOf rows S b, vis visible c = true ∨
        (a :: l).foldr (markFrontier rows visible S) (fun _ => false) c = true) ↔
          ∃ c ∈ kidsOf rows S b, vis visible c = true ∨
            l.foldr (markFrontier rows visible S) (fun _ => false) c = true := by
      intro b hb
      refine exists_congr fun c => and_congr_right fun hc => ?_
      rw [hsame c (hne b hb c hc)]
    intro i
    by_cases hi : i = a
    · subst hi
      rw [hkids i List.mem_cons_self, List.foldr_cons, markFrontier]
      have hfalse : l.foldr (markFrontier rows visible S) (fun _ => false) i = false := by
        rw [← Bool.not_eq_true, hl']
        exact fun h => ha h.1
      split_ifs with hany
      · simpa using hany
      · simpa [hfalse] using hany
    · rw [hsame i hi, hl']
      by_cases hil : i ∈ l
      · rw [hkids i (List.mem_cons_of_mem a hil)]
        simp [hil]
      · simp [hil, hi]

/-- A process has something to reveal exactly when a visible one is below it. -/
theorem frontier_iff : ∀ i, frontier rows visible S i = true ↔
    ∃ d, i ∈ (procForest S).above d ∧ vis visible d = true := by
  have hstep : ∀ i, frontier rows visible S i = true ↔
      ∃ c ∈ kidsOf rows S i, vis visible c = true ∨ frontier rows visible S c = true := by
    intro i
    unfold frontier
    rw [pre_eq, foldr_markFrontier visible S (pairwise_order S)]
    · refine and_iff_right_of_imp ?_
      rintro ⟨c, hc, -⟩
      exact (mem_order S).2 (lt_of_parentOf ((procForest S).mem_kids.1 hc)).2
    · intro a _ c hc
      exact (mem_order S).2 (lt_of_parentOf ((procForest S).mem_kids.1 hc)).1
  intro i
  induction i using (procForest S).from_kids with
  | h i ih =>
    rw [hstep]
    constructor
    · rintro ⟨c, hc, hvis | hfrontier⟩
      · exact ⟨c, Forest.mem_above_iff_kid.2 ⟨c, hc, .refl⟩, hvis⟩
      · obtain ⟨d, hcd, hvis⟩ := (ih c hc).1 hfrontier
        obtain ⟨p, hp, hover⟩ := Forest.mem_above_iff.1 hcd
        exact ⟨d, Forest.mem_above_iff_kid.2 ⟨c, hc, .head hp hover⟩, hvis⟩
    · rintro ⟨d, hid, hvis⟩
      obtain ⟨c, hc, hcd⟩ := Forest.mem_above_iff_kid.1 hid
      rcases Relation.ReflTransGen.cases_head hcd with rfl | ⟨p, hp, hover⟩
      · exact ⟨d, hc, .inl hvis⟩
      · exact ⟨c, hc, .inr ((ih c hc).2 ⟨d, Forest.mem_above_iff.2 ⟨p, hp, hover⟩, hvis⟩)⟩

end Frontier

section Draw

variable (rows : List ProcRow) (visible : List Bool) (exp : ProcTreeExpansion)
variable {descending : Bool} (S : SortBy (pidKey rows descending))

/-- Is a row above it that is drawn and closed? -/
def blocked (i : ℕ) : Bool := ((procForest S).above i).any (closes rows visible exp)

def shown (i : ℕ) : Bool := vis visible i && !blocked rows visible exp S i

def procRow (i : ℕ) : ProcTreeRow :=
  { index := i, depth := ((procForest S).above i).length, parent := parentKind rows visible i,
    lastSibling := isLast rows visible S i,
    expandable := frontier rows visible S i || hasGroup rows i,
    expanded := isOpen exp (rowAt rows i).pid, nodeId := (rowAt rows i).pid,
    pid := (rowAt rows i).pid }

/-- Under an open process with several threads: their row, and they themselves when it is open -/
def threadRows (i : ℕ) : List ProcTreeRow :=
  let pid := (rowAt rows i).pid
  let threads := (rowAt rows i).threads
  let depth := ((procForest S).above i).length
  if hasGroup rows i && isOpen exp pid then
    { kind := .threadGroup, index := i, depth := depth + 1, parent := .shown,
      lastSibling := (lastVisible visible (kidsOf rows S i)).isNone, expandable := true,
      expanded := isOpen exp (-pid), nodeId := -pid, pid := pid } ::
    if isOpen exp (-pid) then
      (List.range threads.length).map fun j =>
        { kind := .thread, index := i, threadAt := j, depth := depth + 2, parent := .shown,
          lastSibling := decide (j + 1 = threads.length), pid := pid, tid := threads.getD j 0 }
    else []
  else []

def rowsOf (i : ℕ) : List ProcTreeRow :=
  if shown rows visible exp S i then
    procRow rows visible exp S i :: threadRows rows visible exp S i
  else []

def frameRank (f : Frame) : ℕ :=
  match f.kind with
  | .thread => 0
  | .threadGroup => 1
  | .process => (procForest S).rank f.node + 2

variable {rows visible exp S}

theorem frameRank_lt : ∀ f, ∀ g ∈ drawNext rows visible exp S f,
    frameRank rows S g < frameRank rows S f := by
  intro f g hg
  unfold drawNext at hg
  unfold frameRank
  cases hkind : f.kind with
  | thread => simp [hkind] at hg
  | threadGroup =>
    simp only [hkind] at hg
    split_ifs at hg with hopen
    · obtain ⟨j, -, rfl⟩ := List.mem_map.1 hg
      exact Nat.one_pos
    · cases hg
  | process =>
    simp only [hkind] at hg
    rcases List.mem_append.1 hg with hg | hg
    · split_ifs at hg
      · rw [List.mem_singleton.1 hg]
        exact Nat.le_add_left _ _
      · cases hg
    · obtain ⟨c, hc, rfl⟩ := List.mem_map.1 hg
      exact Nat.add_lt_add_right ((procForest S).rank_lt f.node c hc) 2

theorem blocked_kid {i p : ℕ} (h : parentOf rows i = some p) :
    blocked rows visible exp S i = (blocked rows visible exp S p || closes rows visible exp p) := by
  rw [blocked, Forest.above_kid (F := procForest S) h, List.any_cons, Bool.or_comm, ← blocked]

/-- The rows written for the frame of the threads of a process -/
theorem expand_group {i d : ℕ} {b : Bool} :
    Forest.expand (drawRow rows visible exp S) (drawNext rows visible exp S)
      (frameRank rows S ⟨.threadGroup, i, 0, d, false, b⟩) ⟨.threadGroup, i, 0, d, false, b⟩ =
    { kind := .threadGroup, index := i, depth := d, parent := .shown, lastSibling := b,
      expandable := true, expanded := isOpen exp (-(rowAt rows i).pid),
      nodeId := -(rowAt rows i).pid, pid := (rowAt rows i).pid } ::
    if isOpen exp (-(rowAt rows i).pid) then
      (List.range (rowAt rows i).threads.length).map fun j =>
        { kind := .thread, index := i, threadAt := j, depth := d + 1, parent := .shown,
          lastSibling := decide (j + 1 = (rowAt rows i).threads.length),
          pid := (rowAt rows i).pid, tid := (rowAt rows i).threads.getD j 0 }
    else [] := by
  rw [Forest.expand_eq frameRank_lt]
  simp only [drawRow, drawNext]
  split_ifs
  · rw [List.flatMap_map, List.map_eq_flatMap]
    rfl
  · rfl

/-- What is written for a process and what is below it -/
theorem expand_process (i : ℕ) : ∀ l : Bool,
    Forest.expand (drawRow rows visible exp S) (drawNext rows visible exp S)
      (frameRank rows S ⟨.process, i, 0, (procForest S).depth i, blocked rows visible exp S i, l⟩)
      ⟨.process, i, 0, (procForest S).depth i, blocked rows visible exp S i, l⟩ =
    ((procForest S).preorder i).flatMap (rowsOf rows visible exp S) := by
  induction i using (procForest S).from_kids with
  | h i ih =>
    intro l
    have hkids : (((procForest S).kids i).map fun c : ℕ => (⟨.process, c, 0,
        (procForest S).depth i + 1, blocked rows visible exp S i || closes rows visible exp i,
        decide (lastVisible visible (kidsOf rows S i) = some c)⟩ : Frame)).flatMap
          (fun f => Forest.expand (drawRow rows visible exp S) (drawNext rows visible exp S)
            (frameRank rows S f) f) =
        (((procForest S).kids i).flatMap (procForest S).preorder).flatMap
          (rowsOf rows visible exp S) := by
      rw [List.flatMap_map, List.flatMap_assoc]
      refine List.flatMap_congr fun c hc => ?_
      have hp := (procForest S).mem_kids.1 hc
      rw [← ih c hc (decide (lastVisible visible (kidsOf rows S i) = some c)),
        (procForest S).depth_kid hp, blocked_kid hp]
    rw [Forest.expand_eq frameRank_lt, Forest.preorder_eq, List.flatMap_cons, ← hkids]
    simp only [drawNext]
    rw [List.flatMap_append, ← List.append_assoc]
    refine congrArg (· ++ _) ?_
    -- the process and its threads
    simp only [drawRow, rowsOf, shown, procRow, threadRows, Forest.length_above]
    by_cases hshown : (vis visible i && !blocked rows visible exp S i) = true
    · by_cases hgroup : (hasGroup rows i && isOpen exp (rowAt rows i).pid) = true
      · simp only [hshown, hgroup, Bool.and_assoc, if_true, Bool.and_self, List.flatMap_cons,
          List.flatMap_nil, List.append_nil]
        rw [expand_group]
        rfl
      · simp only [hshown, hgroup, if_true, if_false, Bool.true_and, Bool.false_eq_true,
          List.flatMap_nil, List.append_nil]
    · simp only [hshown, if_false, Bool.false_and, Bool.false_eq_true, List.flatMap_nil,
        List.append_nil]

theorem size_group {i d : ℕ} {b : Bool} :
    Forest.size (drawNext rows visible exp S) (frameRank rows S) ⟨.threadGroup, i, 0, d, false, b⟩ ≤
      1 + (rowAt rows i).threads.length := by
  have hthread : ∀ j e l, Forest.size (drawNext rows visible exp S) (frameRank rows S)
      ⟨.thread, i, j, e, false, l⟩ = 1 := fun _ _ _ => rfl
  rw [Forest.size_eq frameRank_lt]
  simp only [drawNext]
  split_ifs
  · simp [hthread, Function.comp_def]
  · simp

theorem size_process (i : ℕ) : ∀ (d : ℕ) (b l : Bool),
    Forest.size (drawNext rows visible exp S) (frameRank rows S) ⟨.process, i, 0, d, b, l⟩ ≤
      (((procForest S).preorder i).map fun j => 2 + (rowAt rows j).threads.length).sum := by
  induction i using (procForest S).from_kids with
  | h i ih =>
    intro d b l
    rw [Forest.size_eq frameRank_lt, Forest.preorder_eq, List.map_cons, List.sum_cons,
      List.flatMap_def, List.map_flatten, List.sum_flatten, List.map_map, List.map_map]
    simp only [drawNext]
    rw [List.map_append, List.sum_append, List.map_map]
    have hkids := List.sum_le_sum fun c hc => ih c hc (d + 1)
      (b || closes rows visible exp i) (decide (lastVisible visible (kidsOf rows S i) = some c))
    have hgroup := @size_group rows visible exp _ S i (d + 1)
      (lastVisible visible (kidsOf rows S i)).isNone
    have hfirst : ((if ((vis visible i && !b) && hasGroup rows i &&
        isOpen exp (rowAt rows i).pid) = true then
          [(⟨.threadGroup, i, 0, d + 1, false,
            (lastVisible visible (kidsOf rows S i)).isNone⟩ : Frame)]
        else []).map (Forest.size (drawNext rows visible exp S) (frameRank rows S))).sum ≤
          1 + (rowAt rows i).threads.length := by
      split_ifs
      · simpa using hgroup
      · exact Nat.zero_le _
    calc _ ≤ 1 + ((1 + (rowAt rows i).threads.length) + _) :=
          Nat.add_le_add_left (Nat.add_le_add hfirst hkids) 1
      _ = _ := by
        rw [← Nat.add_assoc, ← Nat.add_assoc]
        rfl

theorem blocked_root {i : ℕ} (h : parentOf rows i = none) :
    blocked rows visible exp S i = false := by
  rw [blocked, Forest.above_root (F := procForest S) h]
  rfl

theorem shown_iff {i : ℕ} : shown rows visible exp S i = true ↔ vis visible i = true ∧
    ∀ a ∈ (procForest S).above i, vis visible a = true →
      exp.showAllProcesses = true ∨ (rowAt rows a).pid ∈ exp.opened := by
  rw [shown, Bool.and_eq_true, Bool.not_eq_true', blocked, List.any_eq_false]
  refine and_congr_right fun _ => forall₂_congr fun a _ => ?_
  cases hall : exp.showAllProcesses <;> cases hvis : vis visible a <;>
    simp [closes, isOpen, hall, hvis]

theorem layout_eq : procTreeLayout rows visible exp S =
    (order S).flatMap (rowsOf rows visible exp S) := by
  have hfuel : (((roots rows S).map fun i => (⟨.process, i, 0, 0, false, false⟩ : Frame)).map
      (Forest.size (drawNext rows visible exp S) (frameRank rows S))).sum ≤
        2 * rows.length + (rows.map fun r => r.threads.length).sum := by
    have hrows : (List.range rows.length).map (fun j => 2 + (rowAt rows j).threads.length) =
        rows.map fun r => 2 + r.threads.length := by
      apply List.ext_getElem
      · simp
      · intro j h h'
        have hj : j < rows.length := by simpa using h
        simp [rowAt, List.getD_eq_getElem?_getD, List.getElem?_eq_getElem hj]
    have hsum : 2 * rows.length + (rows.map fun r => r.threads.length).sum =
        ((order S).map fun j => 2 + (rowAt rows j).threads.length).sum := by
      rw [((order_perm S).map _).sum_eq, hrows, List.sum_map_add, List.map_const',
        List.sum_replicate, smul_eq_mul, Nat.mul_comm]
    rw [hsum, order, List.flatMap_def, List.map_flatten, List.sum_flatten, List.map_map,
      List.map_map, List.map_map]
    exact List.sum_le_sum fun r _ => size_process r 0 false false
  rw [procTreeLayout, Forest.walk_eq frameRank_lt hfuel, List.flatMap_map, order,
    List.flatMap_assoc]
  refine List.flatMap_congr fun r hr => ?_
  have hroot := ((mem_roots S).1 hr).2
  rw [← expand_process r false, blocked_root hroot, (procForest S).depth_root hroot]

/-- The pane lists each process of the snapshot at most once, with its threads, in an order that
depends neither on what is visible nor on what is open: parents before children, siblings by pid. A
process is there exactly when it is visible and no visible process above it is closed, and its depth
counts all that is above it. Only what has no parent in the snapshot, or a chain of parents that
never ends, is at the top. -/
theorem tree_layout (rows : List ProcRow) (visible : List Bool) (exp : ProcTreeExpansion)
    (descending : Bool) (S : SortBy (pidKey rows descending)) :
    procTreeLayout rows visible exp S = (order S).flatMap (fun i =>
      if vis visible i = true ∧ ∀ a ∈ (procForest S).above i, vis visible a = true →
          exp.showAllProcesses = true ∨ (rowAt rows a).pid ∈ exp.opened then
        procRow rows visible exp S i :: threadRows rows visible exp S i
      else []) ∧
    (order S).Perm (List.range rows.length) ∧
    ((order S).Pairwise fun i j => ¬(procForest S).Over j i) ∧
    ((order S).Pairwise fun i j => (procForest S).parent i = (procForest S).parent j →
      pidKey rows descending i ≤ pidKey rows descending j) ∧
    ∀ i < rows.length, (procForest S).parent i = none ↔
      namedParent rows i = none ∨ ∀ k, climb rows k i = k := by
  refine ⟨?_, order_perm S, pairwise_order S, siblings_order S, fun i hi => ?_⟩
  · rw [layout_eq]
    exact List.flatMap_congr fun i _ => if_congr shown_iff rfl rfl
  · rw [← cut_iff hi]
    change parentOf rows i = none ↔ _
    unfold parentOf
    split_ifs with hcut
    · simp [hcut]
    · simp [hcut]

/-- A shell with two threads under the first process, and its child, all of them visible -/
def shellTree (exp : ProcTreeExpansion) : List ProcTreeRow :=
  let rows := [⟨1, 0, [1]⟩, ⟨10, 1, [10, 11]⟩, ⟨20, 10, [20]⟩]
  procTreeLayout rows [true, true, true] exp (SortBy.stable (pidKey rows false))

example : (shellTree ⟨{1, 10, -10}, false⟩).map (fun r => (r.pid, r.tid, r.depth)) =
    [(1, 0, 0), (10, 0, 1), (10, 0, 2), (10, 10, 3), (10, 11, 3), (20, 0, 2)] := by
  decide +kernel

end Draw

section Expander

variable (rows : List ProcRow) (visible : List Bool) (exp : ProcTreeExpansion)
variable {descending : Bool} (S : SortBy (pidKey rows descending))

/-- What a row is, whatever is said in it -/
def ProcTreeRow.key (r : ProcTreeRow) : ProcNode × ℕ × ℕ := (r.kind, r.index, r.threadAt)

def ProcTreeExpansion.openNode (exp : ProcTreeExpansion) (id : ℤ) : ProcTreeExpansion :=
  { exp with opened := insert id exp.opened }

/-- The rows that the pane has -/
def Drawn : ProcNode × ℕ × ℕ → Prop
  | (.process, i, t) => i < rows.length ∧ shown rows visible exp S i = true ∧ t = 0
  | (.threadGroup, i, t) => i < rows.length ∧ shown rows visible exp S i = true ∧
      hasGroup rows i = true ∧ (rowAt rows i).pid ∈ exp.opened ∧ t = 0
  | (.thread, i, t) => i < rows.length ∧ shown rows visible exp S i = true ∧
      hasGroup rows i = true ∧ (rowAt rows i).pid ∈ exp.opened ∧
      -(rowAt rows i).pid ∈ exp.opened ∧ t < (rowAt rows i).threads.length

variable {rows visible exp S}

theorem mem_layout {r : ProcTreeRow} : r ∈ procTreeLayout rows visible exp S ↔
    ∃ i < rows.length, shown rows visible exp S i = true ∧
      (r = procRow rows visible exp S i ∨ r ∈ threadRows rows visible exp S i) := by
  rw [layout_eq, List.mem_flatMap]
  refine exists_congr fun i => and_congr (mem_order S) ?_
  rw [rowsOf]
  split_ifs with hshown
  · simp [hshown]
  · simp [hshown]

theorem mem_threadRows {r : ProcTreeRow} {i : ℕ} (h : r ∈ threadRows rows visible exp S i) :
    hasGroup rows i = true ∧ (rowAt rows i).pid ∈ exp.opened ∧ r.index = i ∧
      (r.kind = .threadGroup ∧ r.threadAt = 0 ∧ r.expandable = true ∧
          r.nodeId = -(rowAt rows i).pid ∧ (r.expanded = true ↔ -(rowAt rows i).pid ∈ exp.opened) ∨
        r.kind = .thread ∧ r.threadAt < (rowAt rows i).threads.length ∧ r.expandable = false ∧
          r.nodeId = 0 ∧ -(rowAt rows i).pid ∈ exp.opened) := by
  simp only [threadRows] at h
  split_ifs at h with hgroup hopen
  · rw [Bool.and_eq_true, isOpen, decide_eq_true_eq] at hgroup
    rcases List.mem_cons.1 h with rfl | h
    · exact ⟨hgroup.1, hgroup.2, rfl, .inl ⟨rfl, rfl, rfl, rfl, decide_eq_true_iff⟩⟩
    · obtain ⟨j, hj, rfl⟩ := List.mem_map.1 h
      exact ⟨hgroup.1, hgroup.2, rfl, .inr ⟨rfl, List.mem_range.1 hj, rfl, rfl,
        of_decide_eq_true hopen⟩⟩
  · rw [Bool.and_eq_true, isOpen, decide_eq_true_eq] at hgroup
    obtain rfl := List.mem_singleton.1 h
    exact ⟨hgroup.1, hgroup.2, rfl, .inl ⟨rfl, rfl, rfl, rfl, decide_eq_true_iff⟩⟩
  · cases h

theorem exists_row_iff (key : ProcNode × ℕ × ℕ) :
    (∃ r ∈ procTreeLayout rows visible exp S, r.key = key) ↔ Drawn rows visible exp S key := by
  constructor
  · rintro ⟨r, hr, rfl⟩
    obtain ⟨i, hi, hshown, rfl | hr⟩ := mem_layout.1 hr
    · exact ⟨hi, hshown, rfl⟩
    · obtain ⟨hgroup, hopen, rfl, ⟨hkind, hat, -⟩ | ⟨hkind, hat, -, -, hopen'⟩⟩ := mem_threadRows hr
      · rw [ProcTreeRow.key, hkind]
        exact ⟨hi, hshown, hgroup, hopen, hat⟩
      · rw [ProcTreeRow.key, hkind]
        exact ⟨hi, hshown, hgroup, hopen, hopen', hat⟩
  · obtain ⟨kind, i, t⟩ := key
    cases kind with
    | process =>
      rintro ⟨hi, hshown, rfl⟩
      exact ⟨_, mem_layout.2 ⟨i, hi, hshown, .inl rfl⟩, rfl⟩
    | threadGroup =>
      rintro ⟨hi, hshown, hgroup, hopen, rfl⟩
      have hrows : (hasGroup rows i && isOpen exp (rowAt rows i).pid) = true := by
        simp [hgroup, isOpen, hopen]
      have hrow : ∃ r ∈ threadRows rows visible exp S i, r.key = (.threadGroup, i, 0) := by
        simp only [threadRows, hrows, if_true]
        exact ⟨_, List.mem_cons_self, rfl⟩
      obtain ⟨r, hr, hkey⟩ := hrow
      exact ⟨r, mem_layout.2 ⟨i, hi, hshown, .inr hr⟩, hkey⟩
    | thread =>
      rintro ⟨hi, hshown, hgroup, hopen, hopen', ht⟩
      have hrows : (hasGroup rows i && isOpen exp (rowAt rows i).pid) = true := by
        simp [hgroup, isOpen, hopen]
      have hthreads : isOpen exp (-(rowAt rows i).pid) = true := decide_eq_true hopen'
      have hrow : ∃ r ∈ threadRows rows visible exp S i, r.key = (.thread, i, t) := by
        simp only [threadRows, hrows, hthreads, if_true]
        exact ⟨_, List.mem_cons_of_mem _ (List.mem_map.2 ⟨t, List.mem_range.2 ht, rfl⟩), rfl⟩
      obtain ⟨r, hr, hkey⟩ := hrow
      exact ⟨r, mem_layout.2 ⟨i, hi, hshown, .inr hr⟩, hkey⟩

theorem shown_openNode {i : ℕ} (id : ℤ) (h : shown rows visible exp S i = true) :
    shown rows visible (exp.openNode id) S i = true := by
  rw [shown_iff] at h ⊢
  refine ⟨h.1, fun a ha hvis => (h.2 a ha hvis).imp_right fun hopen => ?_⟩
  exact Finset.mem_insert_of_mem hopen

/-- Opening a node keeps every row. -/
theorem Drawn.openNode {key : ProcNode × ℕ × ℕ} (id : ℤ) (h : Drawn rows visible exp S key) :
    Drawn rows visible (exp.openNode id) S key := by
  have hmem : ∀ {x : ℤ}, x ∈ exp.opened → x ∈ (exp.openNode id).opened := Finset.mem_insert_of_mem
  obtain ⟨kind, i, t⟩ := key
  cases kind with
  | process => exact ⟨h.1, shown_openNode id h.2.1, h.2.2⟩
  | threadGroup =>
    obtain ⟨hi, hshown, hgroup, hopen, ht⟩ := h
    exact ⟨hi, shown_openNode id hshown, hgroup, hmem hopen, ht⟩
  | thread =>
    obtain ⟨hi, hshown, hgroup, hopen, hopen', ht⟩ := h
    exact ⟨hi, shown_openNode id hshown, hgroup, hmem hopen, hmem hopen', ht⟩

/-- What a new row owes to the node that was opened: it is a process below it, or of its threads. -/
theorem new_row {id : ℤ} {key : ProcNode × ℕ × ℕ}
    (h : Drawn rows visible (exp.openNode id) S key) (hnew : ¬Drawn rows visible exp S key) :
    (∃ a ∈ (procForest S).above key.2.1, vis visible key.2.1 = true ∧ (rowAt rows a).pid = id) ∨
      key.2.1 < rows.length ∧ hasGroup rows key.2.1 = true ∧
        ((rowAt rows key.2.1).pid = id ∨ -(rowAt rows key.2.1).pid = id) := by
  have hmem : ∀ {x : ℤ}, x ∈ (exp.openNode id).opened → x = id ∨ x ∈ exp.opened :=
    Finset.mem_insert.1
  obtain ⟨kind, i, t⟩ := key
  have hnext : i < rows.length ∧ shown rows visible (exp.openNode id) S i = true := by
    cases kind <;> exact ⟨h.1, h.2.1⟩
  by_cases hshown : shown rows visible exp S i = true
  · refine .inr ⟨hnext.1, ?_⟩
    cases kind with
    | process => exact absurd ⟨h.1, hshown, h.2.2⟩ hnew
    | threadGroup =>
      obtain ⟨hi, -, hgroup, hopen, ht⟩ := h
      refine ⟨hgroup, .inl ((hmem hopen).resolve_right fun hold => hnew ?_)⟩
      exact ⟨hi, hshown, hgroup, hold, ht⟩
    | thread =>
      obtain ⟨hi, -, hgroup, hopen, hopen', ht⟩ := h
      refine ⟨hgroup, ?_⟩
      rcases hmem hopen with hid | hold
      · exact .inl hid
      · refine .inr ((hmem hopen').resolve_right fun hold' => hnew ?_)
        exact ⟨hi, hshown, hgroup, hold, hold', ht⟩
  · -- a closed row above it was opened
    have hsh := hnext.2
    rw [shown_iff] at hshown hsh
    obtain ⟨a, ha, hvis, hclosed⟩ : ∃ a ∈ (procForest S).above i, vis visible a = true ∧
        ¬(exp.showAllProcesses = true ∨ (rowAt rows a).pid ∈ exp.opened) := by
      by_contra hnone
      refine hshown ⟨hsh.1, fun a ha hvis => ?_⟩
      by_contra hclosed
      exact hnone ⟨a, ha, hvis, hclosed⟩
    refine .inl ⟨a, ha, hsh.1, ?_⟩
    rcases hsh.2 a ha hvis with hall | hopen
    · exact absurd (.inl hall) hclosed
    · exact (hmem hopen).resolve_right fun hold => hclosed (.inr hold)

theorem lt_of_mem_above {a i : ℕ} (h : a ∈ (procForest S).above i) :
    a < rows.length ∧ i < rows.length := by
  obtain ⟨b, hb, hover⟩ := Forest.mem_above_iff_kid.1 h
  obtain ⟨p, hp, -⟩ := Forest.mem_above_iff.1 h
  exact ⟨(lt_of_parentOf ((procForest S).mem_kids.1 hb)).2, (lt_of_parentOf hp).1⟩

theorem eq_of_pid (hdistinct : (rows.map ProcRow.pid).Nodup) {i j : ℕ} (hi : i < rows.length)
    (hj : j < rows.length) (h : (rowAt rows i).pid = (rowAt rows j).pid) : i = j := by
  have hget : ∀ {k : ℕ} (hk : k < (rows.map ProcRow.pid).length), (rowAt rows k).pid =
      (rows.map ProcRow.pid)[k] := fun {k} hk => by
    rw [List.length_map] at hk
    simp [rowAt, List.getD_eq_getElem?_getD, List.getElem?_eq_getElem hk]
  rw [← List.length_map (f := ProcRow.pid)] at hi hj
  rw [hget hi, hget hj] at h
  exact hdistinct.getElem_inj_iff.1 h

/-- The topmost visible process below a closed one comes when it is opened. -/
theorem exists_revealed {i d : ℕ} (hshown : shown rows visible exp S i = true)
    (hid : i ∈ (procForest S).above d) (hvis : vis visible d = true) :
    ∃ e, i ∈ (procForest S).above e ∧
      shown rows visible (exp.openNode (rowAt rows i).pid) S e = true := by
  induction hdepth : (procForest S).depth d using Nat.strong_induction_on generalizing d with
  | _ m ih =>
    by_cases hbetween : ∃ a ∈ (procForest S).above d, i ∈ (procForest S).above a ∧
        vis visible a = true
    · obtain ⟨a, ha, hia, hvis'⟩ := hbetween
      exact ih _ (hdepth ▸ Forest.above_depth_lt ha) hia hvis' rfl
    · refine ⟨d, hid, shown_iff.2 ⟨hvis, fun a ha hvis' => ?_⟩⟩
      rcases Forest.over_total (Forest.over_iff.2 (.inr ha)) (Forest.over_iff.2 (.inr hid)) with
        hai | hia
      · rcases Forest.over_iff.1 hai with rfl | hai
        · exact .inr (Finset.mem_insert_self _ _)
        · exact ((shown_iff.1 hshown).2 a hai hvis').imp_right Finset.mem_insert_of_mem
      · rcases Forest.over_iff.1 hia with rfl | hia
        · exact .inr (Finset.mem_insert_self _ _)
        · exact absurd ⟨a, ha, hia, hvis'⟩ hbetween

theorem map_key_threadRows (i : ℕ) : (threadRows rows visible exp S i).map ProcTreeRow.key =
    if hasGroup rows i = true ∧ (rowAt rows i).pid ∈ exp.opened then
      (.threadGroup, i, 0) ::
        if -(rowAt rows i).pid ∈ exp.opened then
          (List.range (rowAt rows i).threads.length).map fun j => (.thread, i, j)
        else []
    else [] := by
  simp only [threadRows, isOpen, Bool.and_eq_true, decide_eq_true_eq]
  split_ifs
  · simp [ProcTreeRow.key, Function.comp_def]
  · simp [ProcTreeRow.key]
  · rfl

theorem sublist_openNode (id : ℤ) :
    ((procTreeLayout rows visible exp S).map ProcTreeRow.key).Sublist
      ((procTreeLayout rows visible (exp.openNode id) S).map ProcTreeRow.key) := by
  have hmem : ∀ {x : ℤ}, x ∈ exp.opened → x ∈ (exp.openNode id).opened := Finset.mem_insert_of_mem
  rw [layout_eq, layout_eq, List.map_flatMap, List.map_flatMap]
  refine List.Sublist.flatMap_right _ fun i _ => ?_
  by_cases hshown : shown rows visible exp S i = true
  · rw [rowsOf, rowsOf, if_pos hshown, if_pos (shown_openNode id hshown), List.map_cons,
      List.map_cons, map_key_threadRows, map_key_threadRows]
    refine List.Sublist.cons_cons _ ?_
    by_cases hgroup : hasGroup rows i = true ∧ (rowAt rows i).pid ∈ exp.opened
    · rw [if_pos hgroup, if_pos (hgroup.imp_right hmem)]
      refine List.Sublist.cons_cons _ ?_
      by_cases hopen : -(rowAt rows i).pid ∈ exp.opened
      · rw [if_pos hopen, if_pos (hmem hopen)]
      · rw [if_neg hopen]
        exact List.nil_sublist _
    · rw [if_neg hgroup]
      exact List.nil_sublist _
  · rw [rowsOf, if_neg hshown]
    exact List.nil_sublist _

theorem mem_procTreeAllNodes {i : ℕ} (hi : i < rows.length) :
    (rowAt rows i).pid ∈ procTreeAllNodes rows ∧
      (hasGroup rows i = true → -(rowAt rows i).pid ∈ procTreeAllNodes rows) := by
  have hmem : rowAt rows i ∈ rows := by
    rw [rowAt, List.getD_eq_getElem?_getD, List.getElem?_eq_getElem hi]
    exact List.getElem_mem hi
  refine ⟨List.mem_flatMap.2 ⟨_, hmem, List.mem_cons_self⟩, fun hgroup => ?_⟩
  refine List.mem_flatMap.2 ⟨_, hmem, List.mem_cons_of_mem _ ?_⟩
  rw [if_pos (of_decide_eq_true hgroup)]
  exact List.mem_singleton_self _

/-- After "Expand all" nothing that is visible is left out. -/
theorem expand_all (h : ∀ id ∈ procTreeAllNodes rows, id ∈ exp.opened) :
    (procTreeLayout rows visible exp S).map ProcTreeRow.key = (order S).flatMap fun i =>
      if vis visible i = true then
        (.process, i, 0) ::
          if hasGroup rows i = true then
            (.threadGroup, i, 0) ::
              (List.range (rowAt rows i).threads.length).map fun j => (.thread, i, j)
          else []
      else [] := by
  rw [layout_eq, List.map_flatMap]
  refine List.flatMap_congr fun i hi => ?_
  obtain ⟨hpid, hgroup⟩ := mem_procTreeAllNodes ((mem_order S).1 hi)
  have hshown : shown rows visible exp S i = true ↔ vis visible i = true := by
    rw [shown_iff]
    refine and_iff_left fun a ha _ => .inr (h _ (mem_procTreeAllNodes ?_).1)
    exact (lt_of_mem_above ha).1
  rw [rowsOf]
  by_cases hvis : vis visible i = true
  · rw [if_pos (hshown.2 hvis), if_pos hvis, List.map_cons, map_key_threadRows]
    by_cases hthreads : hasGroup rows i = true
    · simp [procRow, ProcTreeRow.key, hthreads, h _ hpid, h _ (hgroup hthreads)]
    · simp [procRow, ProcTreeRow.key, hthreads]
  · rw [if_neg fun hs => hvis (hshown.1 hs), if_neg hvis]
    rfl

/-- Opening a node keeps the rows of the pane in their order. A closed row offers to be opened
exactly when that brings a row which was not there. -/
theorem expander_honest (rows : List ProcRow) (visible : List Bool) (exp : ProcTreeExpansion)
    (descending : Bool) (S : SortBy (pidKey rows descending)) (hpos : ∀ r ∈ rows, 0 < r.pid)
    (hdistinct : (rows.map ProcRow.pid).Nodup) (hall : exp.showAllProcesses = false)
    (r : ProcTreeRow) (hr : r ∈ procTreeLayout rows visible exp S) (hclosed : r.expanded = false) :
    ((procTreeLayout rows visible exp S).map ProcTreeRow.key).Sublist
        ((procTreeLayout rows visible (exp.openNode r.nodeId) S).map ProcTreeRow.key) ∧
      (r.expandable = true ↔ ∃ r' ∈ procTreeLayout rows visible (exp.openNode r.nodeId) S,
        ∀ r'' ∈ procTreeLayout rows visible exp S, r''.key ≠ r'.key) := by
  refine ⟨sublist_openNode r.nodeId, ?_⟩
  have hnew : (∃ r' ∈ procTreeLayout rows visible (exp.openNode r.nodeId) S,
      ∀ r'' ∈ procTreeLayout rows visible exp S, r''.key ≠ r'.key) ↔
        ∃ key, Drawn rows visible (exp.openNode r.nodeId) S key ∧
          ¬Drawn rows visible exp S key := by
    constructor
    · rintro ⟨r', hr', hne⟩
      refine ⟨r'.key, (exists_row_iff _).1 ⟨r', hr', rfl⟩, fun hold => ?_⟩
      obtain ⟨r'', hr'', hkey⟩ := (exists_row_iff _).2 hold
      exact hne r'' hr'' hkey
    · rintro ⟨key, hdrawn, hnot⟩
      obtain ⟨r', hr', rfl⟩ := (exists_row_iff key).2 hdrawn
      exact ⟨r', hr', fun r'' hr'' hkey => hnot ((exists_row_iff _).1 ⟨r'', hr'', hkey⟩)⟩
  rw [hnew]
  have hpid : ∀ {i : ℕ}, i < rows.length → 0 < (rowAt rows i).pid := by
    intro i hi
    rw [rowAt, List.getD_eq_getElem?_getD, List.getElem?_eq_getElem hi]
    exact hpos _ (List.getElem_mem hi)
  obtain ⟨i, hi, hshown, rfl | hr⟩ := mem_layout.1 hr
  · -- a process
    have hopen : (rowAt rows i).pid ∉ exp.opened := of_decide_eq_false hclosed
    change (frontier rows visible S i || hasGroup rows i) = true ↔
      ∃ key, Drawn rows visible (exp.openNode (rowAt rows i).pid) S key ∧ _
    rw [Bool.or_eq_true]
    constructor
    · rintro (hfrontier | hgroup)
      · obtain ⟨d, hid, hvis⟩ := (frontier_iff visible S i).1 hfrontier
        obtain ⟨e, hie, hrevealed⟩ := exists_revealed hshown hid hvis
        refine ⟨(.process, e, 0), ⟨(lt_of_mem_above hie).2, hrevealed, rfl⟩, fun hold => ?_⟩
        rcases (shown_iff.1 hold.2.1).2 i hie (shown_iff.1 hshown).1 with h | h
        · simp [hall] at h
        · exact hopen h
      · exact ⟨(.threadGroup, i, 0), ⟨hi, shown_openNode _ hshown, hgroup,
          Finset.mem_insert_self _ _, rfl⟩, fun hold => hopen hold.2.2.2.1⟩
    · rintro ⟨key, hdrawn, hnot⟩
      rcases new_row hdrawn hnot with ⟨a, ha, hvis, hid⟩ | ⟨hlt, hgroup, hid | hid⟩
      · obtain rfl := eq_of_pid hdistinct (lt_of_mem_above ha).1 hi hid
        exact .inl ((frontier_iff visible S a).2 ⟨_, ha, hvis⟩)
      · obtain rfl := eq_of_pid hdistinct hlt hi hid
        exact .inr hgroup
      · have hpos' := hpid hlt
        have hpos'' := hpid hi
        omega
  · obtain ⟨hgroup, hopen, -, ⟨-, -, hexpandable, hid, hexpanded⟩ | ⟨-, -, hexpandable, hid, -⟩⟩ :=
      mem_threadRows hr
    · -- the row of the threads
      rw [hid]
      have hopen' : -(rowAt rows i).pid ∉ exp.opened := fun h => by simp [hexpanded.2 h] at hclosed
      refine iff_of_true hexpandable ⟨(.thread, i, 0), ⟨hi, shown_openNode _ hshown, hgroup,
        Finset.mem_insert_of_mem hopen, Finset.mem_insert_self _ _, ?_⟩,
        fun hold => hopen' hold.2.2.2.2.1⟩
      have hlen : 1 < (rowAt rows i).threads.length := of_decide_eq_true hgroup
      omega
    · -- a thread
      rw [hid, hexpandable]
      refine iff_of_false Bool.false_ne_true ?_
      rintro ⟨key, hdrawn, hnot⟩
      rcases new_row hdrawn hnot with ⟨a, ha, -, hzero⟩ | ⟨hlt, -, hzero | hzero⟩
      · have hpos' := hpid (lt_of_mem_above ha).1
        omega
      · have hpos' := hpid hlt
        omega
      · have hpos' := hpid hlt
        omega

/-- The shell is there and closed. -/
theorem expander_honest_shell : ∃ r ∈ shellTree ⟨{1}, false⟩, r.pid = 10 ∧
    ((shellTree ⟨{1}, false⟩).map ProcTreeRow.key).Sublist
        ((shellTree (ProcTreeExpansion.openNode ⟨{1}, false⟩ r.nodeId)).map ProcTreeRow.key) ∧
      (r.expandable = true ↔
        ∃ r' ∈ shellTree (ProcTreeExpansion.openNode ⟨{1}, false⟩ r.nodeId),
          ∀ r'' ∈ shellTree ⟨{1}, false⟩, r''.key ≠ r'.key) := by
  have hshell : ∃ r ∈ shellTree ⟨{1}, false⟩, r.pid = 10 ∧ r.expanded = false := by
    decide +kernel
  obtain ⟨r, hr, hpid, hclosed⟩ := hshell
  exact ⟨r, hr, hpid, expander_honest _ _ _ _ _ (by decide) (by decide) rfl r hr hclosed⟩

end Expander

end AsmTest.Inspect
