import Mathlib.Data.BitVec
import Mathlib.Data.List.Sort
import Mathlib.Tactic

/-!
# Ranking the regions for `--auto`

`asmspy_autoregion_rank` sums the sampled entry edges by the symbol they enter and sorts the sums;
`asmspy_autoregion_rank_ip` does so with sampled addresses. Both keep their table in the caller's
output array.
-/

namespace AsmTest.AutoRegion

section Source

structure SampleEdge where
  toAddr : BitVec 64
  count : BitVec 64
  isReturn : BitVec 32
deriving DecidableEq, Repr

structure IpHit where
  ip : BitVec 64
  count : BitVec 64
deriving DecidableEq, Repr

/-- What the resolver answers; a string is `none` for a null pointer. -/
structure AutoSym where
  start : BitVec 64
  size : BitVec 64
  name : Option (List UInt8)
  moduleName : Option (List UInt8)
deriving DecidableEq, Repr

structure AutoCand where
  addr : BitVec 64
  size : BitVec 64
  name : Option (List UInt8)
  moduleName : Option (List UInt8)
  arrivals : BitVec 64
  sites : BitVec 32
  firstUs : BitVec 64
deriving DecidableEq, Repr

/-- A search for a part of the string; without a pattern everything matches. -/
def arMatch (hay needle : Option (List UInt8)) : Bool :=
  match needle with
  | none => true
  | some [] => true
  | some needle =>
    match hay with
    | none => false
    | some hay => decide (needle <:+: hay)

/-- The symbol an edge arrives at the entry of -/
def entryOf (resolve : BitVec 64 → Option AutoSym) (moduleFilter : Option (List UInt8))
    (e : SampleEdge) : Option AutoSym :=
  if e.isReturn ≠ 0 then none
  else match resolve e.toAddr with
    | none => none
    | some sym =>
      if e.toAddr ≠ sym.start then none
      else if sym.size = 0 then none
      else if arMatch sym.moduleName moduleFilter = false then none
      else some sym

/-- The symbol an address lies in; `start + size` may wrap. -/
def residentOf (resolve : BitVec 64 → Option AutoSym) (moduleFilter : Option (List UInt8))
    (hit : IpHit) : Option AutoSym :=
  match resolve hit.ip with
  | none => none
  | some sym =>
    if sym.size = 0 then none
    -- a resolver may answer a gap between symbols with a neighbour
    else if hit.ip < sym.start ∨ sym.start + sym.size ≤ hit.ip then none
    else if arMatch sym.moduleName moduleFilter = false then none
    else some sym

/-- The caller's array: the rows that are filled, and the slots behind them -/
structure Table where
  rows : List AutoCand
  spare : List AutoCand

def AutoCand.add (count : BitVec 64) (row : AutoCand) : AutoCand :=
  { row with arrivals := row.arrivals + count, sites := row.sites + 1 }

/-- Fold into the row of that address; `none` when there is no such row. -/
def fold (start count : BitVec 64) : List AutoCand → Option (List AutoCand)
  | [] => none
  | row :: rows =>
    if row.addr = start then some (row.add count :: rows)
    else (fold start count rows).map (row :: ·)

/-- A new row; `first_us` is not written. -/
def AutoCand.fill (slot : AutoCand) (sym : AutoSym) (count : BitVec 64) : AutoCand :=
  { slot with
    addr := sym.start, size := sym.size, name := sym.name, moduleName := sym.moduleName,
    arrivals := count, sites := 1 }

def arrive (t : Table) (x : AutoSym × BitVec 64) : Table :=
  match fold x.1.start x.2 t.rows with
  | some rows => { t with rows }
  | none =>
    match t.spare with
    | [] => t
    | slot :: spare => ⟨t.rows ++ [slot.fill x.1 x.2], spare⟩

/-- Does the row `p` go behind `key`? -/
def behind (p key : AutoCand) : Prop :=
  p.arrivals < key.arrivals ∨ p.arrivals = key.arrivals ∧ key.addr < p.addr

instance (p key : AutoCand) : Decidable (behind p key) :=
  inferInstanceAs (Decidable (_ ∨ _))

/-- The inner loop of the insertion sort; the rows before `key` are listed from the nearest on. -/
def sift (key : AutoCand) : List AutoCand → List AutoCand
  | [] => [key]
  | p :: before => if behind p key then p :: sift key before else key :: p :: before

def insertionSort (rows : List AutoCand) : List AutoCand :=
  (rows.foldl (fun before key => sift key before) []).reverse

/-- The rows left in `out`, which has room for `out_cap` of them. An argument is `none` for a null
pointer. -/
def autoregionRank (edges : Option (List SampleEdge))
    (resolve : Option (BitVec 64 → Option AutoSym)) (moduleFilter : Option (List UInt8))
    (out : Option (List AutoCand)) : List AutoCand :=
  match edges, resolve, out with
  | some edges, some resolve, some out =>
    if out.length = 0 then []
    else insertionSort (edges.foldl (fun t e =>
      match entryOf resolve moduleFilter e with
      | none => t
      | some sym => arrive t (sym, e.count)) ⟨[], out⟩).rows
  | _, _, _ => []

def autoregionRankIp (hits : Option (List IpHit)) (resolve : Option (BitVec 64 → Option AutoSym))
    (moduleFilter : Option (List UInt8)) (out : Option (List AutoCand)) : List AutoCand :=
  match hits, resolve, out with
  | some hits, some resolve, some out =>
    if out.length = 0 then []
    else insertionSort (hits.foldl (fun t hit =>
      match residentOf resolve moduleFilter hit with
      | none => t
      | some sym => arrive t (sym, hit.count)) ⟨[], out⟩).rows
  | _, _, _ => []

end Source

section Rows

/-- The sum of what arrives at an address, as the 64 bits of a row hold it -/
def arrivalsAt (l : List (AutoSym × BitVec 64)) (a : BitVec 64) : BitVec 64 :=
  ((l.filter fun x => x.1.start = a).map Prod.snd).sum

def sitesAt (l : List (AutoSym × BitVec 64)) (a : BitVec 64) : BitVec 32 :=
  BitVec.ofNat 32 (l.filter fun x => x.1.start = a).length

/-- The row of a symbol in a slot -/
def rowOf (l : List (AutoSym × BitVec 64)) (sym : AutoSym) (slot : AutoCand) : AutoCand :=
  ⟨sym.start, sym.size, sym.name, sym.moduleName, arrivalsAt l sym.start, sitesAt l sym.start,
    slot.firstUs⟩

/-- The symbols in the order they first arrive in -/
def symsOf (l : List (AutoSym × BitVec 64)) : List AutoSym :=
  l.foldl (fun acc x => if x.1.start ∈ acc.map AutoSym.start then acc else acc ++ [x.1]) []

variable {l : List (AutoSym × BitVec 64)} {x : AutoSym × BitVec 64}

lemma symsOf_append_singleton (l : List (AutoSym × BitVec 64)) (x : AutoSym × BitVec 64) :
    symsOf (l ++ [x]) =
      if x.1.start ∈ (symsOf l).map AutoSym.start then symsOf l else symsOf l ++ [x.1] := by
  rw [symsOf, List.foldl_append]
  rfl

lemma mem_starts {a : BitVec 64} :
    a ∈ (symsOf l).map AutoSym.start ↔ ∃ x ∈ l, x.1.start = a := by
  -- the rows grow at their end, so the induction is from there
  induction l using List.reverseRecOn with
  | nil => simp [symsOf]
  | append_singleton l x ih =>
    rw [symsOf_append_singleton]
    have hsplit : (∃ y ∈ l ++ [x], y.1.start = a) ↔ (∃ y ∈ l, y.1.start = a) ∨ x.1.start = a := by
      simp [or_and_right, exists_or]
    rw [hsplit, ← ih]
    split_ifs with hx
    · exact ⟨Or.inl, fun h => h.elim id fun h => h ▸ hx⟩
    · rw [List.map_append, List.mem_append, List.map_singleton, List.mem_singleton, eq_comm]

lemma nodup_starts (l : List (AutoSym × BitVec 64)) : ((symsOf l).map AutoSym.start).Nodup := by
  induction l using List.reverseRecOn with
  | nil => exact List.nodup_nil
  | append_singleton l x ih =>
    rw [symsOf_append_singleton]
    split_ifs with hx
    · exact ih
    · rw [List.map_append]
      exact ih.append (List.nodup_singleton _) (List.disjoint_singleton.2 hx)

lemma mem_symsOf_of_mem {sym : AutoSym} (h : sym ∈ symsOf l) : ∃ x ∈ l, x.1 = sym := by
  induction l using List.reverseRecOn with
  | nil => cases h
  | append_singleton l x ih =>
    rw [symsOf_append_singleton] at h
    split_ifs at h with hx
    · obtain ⟨y, hy, rfl⟩ := ih h
      exact ⟨y, List.mem_append_left _ hy, rfl⟩
    · rcases List.mem_append.1 h with h | h
      · obtain ⟨y, hy, rfl⟩ := ih h
        exact ⟨y, List.mem_append_left _ hy, rfl⟩
      · exact ⟨x, List.mem_append_right _ (List.mem_singleton_self x),
          (List.mem_singleton.1 h).symm⟩

lemma length_symsOf_le (l : List (AutoSym × BitVec 64)) : (symsOf l).length ≤ l.length := by
  induction l using List.reverseRecOn with
  | nil => exact le_rfl
  | append_singleton l x ih =>
    rw [symsOf_append_singleton, List.length_append]
    split_ifs
    · omega
    · rw [List.length_append, List.length_singleton, List.length_singleton]
      omega

lemma fold_eq_none {start count : BitVec 64} {rows : List AutoCand}
    (h : start ∉ rows.map AutoCand.addr) : fold start count rows = none := by
  induction rows with
  | nil => rfl
  | cons row rows ih =>
    rw [List.map_cons, List.mem_cons, not_or] at h
    rw [fold, if_neg (Ne.symm h.1), ih h.2]
    rfl

/-- Of the rows, which have an address each, one is changed. -/
lemma fold_eq_some {start count : BitVec 64} {rows : List AutoCand}
    (hnd : (rows.map AutoCand.addr).Nodup) (h : start ∈ rows.map AutoCand.addr) :
    fold start count rows = some (rows.map fun r => if r.addr = start then r.add count else r) := by
  -- no later row has the address of one that was changed
  induction rows with
  | nil => cases h
  | cons row rows ih =>
    rw [List.map_cons, List.nodup_cons] at hnd
    rw [fold, List.map_cons]
    by_cases hrow : row.addr = start
    · have hrest : rows.map (fun r => if r.addr = start then r.add count else r) = rows := by
        refine (List.map_congr_left fun r hr => if_neg fun hs => hnd.1 ?_).trans (List.map_id' rows)
        rw [hrow, ← hs]
        exact List.mem_map_of_mem hr
      rw [if_pos hrow, if_pos hrow, hrest]
    · rw [List.map_cons, List.mem_cons] at h
      rw [if_neg hrow, if_neg hrow, ih hnd.2 (h.resolve_left (Ne.symm hrow))]
      rfl

lemma filter_append_singleton (l : List (AutoSym × BitVec 64)) (x : AutoSym × BitVec 64)
    (a : BitVec 64) :
    (l ++ [x]).filter (fun y => y.1.start = a) =
      l.filter (fun y => y.1.start = a) ++ if a = x.1.start then [x] else [] := by
  rw [List.filter_append]
  congr 1
  by_cases h : a = x.1.start
  · rw [if_pos h, List.filter_cons_of_pos (by simp [h]), List.filter_nil]
  · rw [if_neg h, List.filter_cons_of_neg (by simpa using Ne.symm h), List.filter_nil]

lemma rowOf_append_singleton (l : List (AutoSym × BitVec 64)) (x : AutoSym × BitVec 64)
    (sym : AutoSym) (slot : AutoCand) :
    rowOf (l ++ [x]) sym slot =
      if sym.start = x.1.start then (rowOf l sym slot).add x.2 else rowOf l sym slot := by
  simp only [rowOf, arrivalsAt, sitesAt, AutoCand.add, filter_append_singleton]
  split_ifs
  · rw [List.map_append, List.sum_append, List.length_append, BitVec.ofNat_add]
    simp
  · rw [List.append_nil]

lemma rowOf_new (h : x.1.start ∉ (symsOf l).map AutoSym.start) (slot : AutoCand) :
    rowOf (l ++ [x]) x.1 slot = slot.fill x.1 x.2 := by
  have hnone : l.filter (fun y => y.1.start = x.1.start) = [] := by
    rw [List.filter_eq_nil_iff]
    intro y hy hyx
    exact h (mem_starts.2 ⟨y, hy, of_decide_eq_true hyx⟩)
  simp [rowOf, arrivalsAt, sitesAt, AutoCand.fill, hnone]

lemma addr_zipWith_rowOf {out : List AutoCand} (h : (symsOf l).length ≤ out.length)
    (l' : List (AutoSym × BitVec 64)) :
    ((symsOf l).zipWith (rowOf l') out).map AutoCand.addr = (symsOf l).map AutoSym.start := by
  rw [List.map_zipWith]
  apply List.ext_getElem
  · simpa using h
  · intro i h1 h2
    simp [rowOf]

/-- The table after the whole input, when no symbol was dropped -/
lemma foldl_arrive {out : List AutoCand} (h : (symsOf l).length ≤ out.length) :
    l.foldl arrive ⟨[], out⟩ =
      ⟨(symsOf l).zipWith (rowOf l) out, out.drop (symsOf l).length⟩ := by
  -- a sample either falls into the row of its symbol or takes the next slot
  induction l using List.reverseRecOn with
  | nil => rfl
  | append_singleton l x ih =>
    rw [symsOf_append_singleton] at h ⊢
    rw [List.foldl_append, List.foldl_cons, List.foldl_nil]
    split_ifs at h ⊢ with hx
    · rw [ih h, arrive]
      dsimp only
      have haddr := addr_zipWith_rowOf h l
      rw [fold_eq_some (by rw [haddr]; exact nodup_starts l) (by rw [haddr]; exact hx)]
      dsimp only
      rw [List.map_zipWith]
      congr 2
      funext sym slot
      rw [rowOf_append_singleton]
      rfl
    · rw [List.length_append, List.length_singleton] at h
      have hlt : (symsOf l).length < out.length := h
      rw [ih hlt.le, arrive]
      dsimp only
      rw [fold_eq_none (by rw [addr_zipWith_rowOf hlt.le]; exact hx),
        List.drop_eq_getElem_cons hlt]
      dsimp only
      rw [List.length_append, List.length_singleton, ← rowOf_new hx]
      congr 1
      -- the symbols before are not those of `x`
      apply List.ext_getElem
      · simp only [List.length_append, List.length_zipWith, List.length_singleton]
        omega
      · intro i h1 h2
        rw [List.getElem_zipWith, List.getElem_append, List.getElem_append]
        have hlen : ((symsOf l).zipWith (rowOf l) out).length = (symsOf l).length := by
          rw [List.length_zipWith]
          omega
        by_cases hi : i < (symsOf l).length
        · rw [dif_pos (hlen ▸ hi), dif_pos hi, List.getElem_zipWith, rowOf_append_singleton, if_neg]
          intro hs
          exact hx (hs ▸ List.mem_map_of_mem (List.getElem_mem hi))
        · have hin : i = (symsOf l).length := by
            rw [List.length_zipWith, List.length_append, List.length_singleton] at h2
            omega
          subst hin
          rw [dif_neg (hlen ▸ lt_irrefl _), dif_neg (lt_irrefl _)]
          simp

end Rows

section Order

lemma behind_iff {p key : AutoCand} :
    behind p key ↔ p.arrivals.toNat < key.arrivals.toNat ∨
      p.arrivals.toNat = key.arrivals.toNat ∧ key.addr.toNat < p.addr.toNat := by
  rw [behind, BitVec.lt_def, BitVec.lt_def, ← BitVec.toNat_inj]

instance : Std.Total fun key p => ¬ behind p key where
  total a b := by
    rw [behind_iff, behind_iff]
    omega

instance : IsTrans AutoCand fun key p => ¬ behind p key where
  trans a b c := by
    rw [behind_iff, behind_iff, behind_iff]
    omega

instance : Std.Asymm fun r s => behind s r where
  asymm a b := by
    rw [behind_iff, behind_iff]
    omega

lemma sift_eq (key : AutoCand) (before : List AutoCand) :
    sift key before = before.orderedInsert (fun key p => ¬ behind p key) key := by
  induction before with
  | nil => rfl
  | cons p before ih =>
    rw [sift, List.orderedInsert, ih]
    by_cases h : behind p key
    · rw [if_pos h, if_neg (not_not.2 h)]
    · rw [if_neg h, if_pos h]

lemma insertionSort_eq (rows : List AutoCand) :
    insertionSort rows =
      (rows.reverse.insertionSort fun key p => ¬ behind p key).reverse := by
  rw [insertionSort, ← List.foldr_reverse, List.insertionSort]
  congr 2
  funext key before
  exact sift_eq key before

lemma insertionSort_perm (rows : List AutoCand) : (insertionSort rows).Perm rows := by
  rw [insertionSort_eq]
  exact (List.reverse_perm _).trans ((List.perm_insertionSort _ _).trans (List.reverse_perm _))

/-- Rows of different addresses are ordered strictly. -/
lemma insertionSort_sorted {rows : List AutoCand} (h : (rows.map AutoCand.addr).Nodup) :
    (insertionSort rows).Pairwise fun r s => behind s r := by
  have hsorted : (insertionSort rows).Pairwise fun r s => ¬ behind r s := by
    rw [insertionSort_eq, List.pairwise_reverse]
    exact List.pairwise_insertionSort _ _
  have hne : (insertionSort rows).Pairwise fun r s => r.addr ≠ s.addr := by
    rw [← List.pairwise_map]
    exact ((insertionSort_perm rows).map AutoCand.addr).nodup_iff.2 h
  refine hsorted.imp₂ (fun r s hrs haddr => ?_) hne
  rw [behind_iff] at hrs ⊢
  have := mt BitVec.toNat_inj.1 haddr
  omega

/-- and so in one way only. -/
lemma insertionSort_congr {rows rows' : List AutoCand} (h : (rows.map AutoCand.addr).Nodup)
    (hp : rows'.Perm rows) : insertionSort rows' = insertionSort rows := by
  have h' : (rows'.map AutoCand.addr).Nodup := (hp.map AutoCand.addr).nodup_iff.2 h
  apply List.Perm.eq_of_pairwise' (insertionSort_sorted h') (insertionSort_sorted h)
  exact (insertionSort_perm rows').trans (hp.trans (insertionSort_perm rows).symm)

end Order

section Ranking

def AutoCand.sym (row : AutoCand) : AutoSym :=
  ⟨row.addr, row.size, row.name, row.moduleName⟩

/-- What arrives at an address, counted without a bound -/
def totalAt (l : List (AutoSym × BitVec 64)) (a : BitVec 64) : ℕ :=
  ((l.filter fun x => x.1.start = a).map fun x => x.2.toNat).sum

/-- One row for each symbol that is arrived at, with the sum of its counts, in strict order -/
structure Ranked (l : List (AutoSym × BitVec 64)) (rows : List AutoCand) : Prop where
  once : (rows.map AutoCand.addr).Nodup
  symbols : ∀ sym, sym ∈ rows.map AutoCand.sym ↔ sym ∈ l.map Prod.fst
  arrivals : ∀ row ∈ rows, row.arrivals.toNat = totalAt l row.addr
  sorted : rows.Pairwise fun r s =>
    s.arrivals < r.arrivals ∨ s.arrivals = r.arrivals ∧ r.addr < s.addr

/-- A start address stands for one symbol. -/
def Consistent (l : List (AutoSym × BitVec 64)) : Prop :=
  ∀ x ∈ l, ∀ y ∈ l, x.1.start = y.1.start → x.1 = y.1

/-- The symbols that are arrived at -/
def symbolCount (l : List (AutoSym × BitVec 64)) : ℕ :=
  (l.map fun x => x.1.start).dedup.length

def rankRows (l : List (AutoSym × BitVec 64)) (out : List AutoCand) : List AutoCand :=
  insertionSort (l.foldl arrive ⟨[], out⟩).rows

variable {l l' : List (AutoSym × BitVec 64)} {out : List AutoCand}

lemma toNat_arrivalsAt (l : List (AutoSym × BitVec 64)) (a : BitVec 64) :
    (arrivalsAt l a).toNat = totalAt l a % 2 ^ 64 := by
  rw [arrivalsAt, totalAt]
  induction l.filter fun x => x.1.start = a with
  | nil => rfl
  | cons x l ih =>
    rw [List.map_cons, List.sum_cons, BitVec.toNat_add, ih, List.map_cons, List.sum_cons,
      Nat.add_mod_mod]

lemma symbolCount_eq (l : List (AutoSym × BitVec 64)) : symbolCount l = (symsOf l).length := by
  rw [symbolCount, ← List.length_map AutoSym.start]
  apply List.Perm.length_eq
  rw [List.perm_ext_iff_of_nodup (List.nodup_dedup _) (nodup_starts l)]
  intro a
  rw [List.mem_dedup, mem_starts, List.mem_map]

lemma mem_symsOf (hc : Consistent l) {sym : AutoSym} : sym ∈ symsOf l ↔ sym ∈ l.map Prod.fst := by
  constructor
  · intro h
    obtain ⟨x, hx, rfl⟩ := mem_symsOf_of_mem h
    exact List.mem_map_of_mem hx
  · intro h
    obtain ⟨x, hx, rfl⟩ := List.mem_map.1 h
    obtain ⟨sym, hsym, hstart⟩ := List.mem_map.1 (mem_starts.2 ⟨x, hx, rfl⟩)
    obtain ⟨y, hy, rfl⟩ := mem_symsOf_of_mem hsym
    rwa [← hc y hy x hx hstart]

lemma rows_eq (h : l.length ≤ out.length) :
    (l.foldl arrive ⟨[], out⟩).rows = (symsOf l).zipWith (rowOf l) out := by
  rw [foldl_arrive ((length_symsOf_le l).trans h)]

lemma nodup_rows (h : l.length ≤ out.length) :
    ((l.foldl arrive ⟨[], out⟩).rows.map AutoCand.addr).Nodup := by
  rw [rows_eq h, addr_zipWith_rowOf ((length_symsOf_le l).trans h)]
  exact nodup_starts l

lemma mem_rows {row : AutoCand} (h : row ∈ (symsOf l).zipWith (rowOf l) out) :
    ∃ sym ∈ symsOf l, ∃ slot ∈ out, row = rowOf l sym slot := by
  obtain ⟨i, hi, rfl⟩ := List.mem_iff_getElem.1 h
  rw [List.length_zipWith] at hi
  rw [List.getElem_zipWith]
  exact ⟨_, List.getElem_mem (by omega), _, List.getElem_mem (by omega), rfl⟩

/-- The ranking is the one asked for just when no sum leaves its 64 bits. -/
lemma ranked_iff (hc : Consistent l) (h : l.length ≤ out.length) :
    Ranked l (rankRows l out) ↔ ∀ a, totalAt l a < 2 ^ 64 := by
  have hperm : (rankRows l out).Perm ((symsOf l).zipWith (rowOf l) out) := by
    rw [← rows_eq h]
    exact insertionSort_perm _
  have hlen := (length_symsOf_le l).trans h
  have hsyms : ((symsOf l).zipWith (rowOf l) out).map AutoCand.sym = symsOf l := by
    rw [List.map_zipWith]
    apply List.ext_getElem
    · simpa using hlen
    · intro i h1 h2
      simp [rowOf, AutoCand.sym]
  constructor
  · intro hr a
    by_cases hl : ∃ x ∈ l, x.1.start = a
    · rw [← mem_starts, ← addr_zipWith_rowOf hlen l, ← (hperm.map _).mem_iff] at hl
      obtain ⟨row, hrow, rfl⟩ := List.mem_map.1 hl
      rw [← hr.arrivals row hrow]
      exact BitVec.isLt _
    · have hnil : l.filter (fun x => x.1.start = a) = [] := by
        rw [List.filter_eq_nil_iff]
        exact fun x hx hxa => hl ⟨x, hx, of_decide_eq_true hxa⟩
      rw [totalAt, hnil]
      exact Nat.two_pow_pos 64
  · intro ht
    refine ⟨?_, fun sym => ?_, fun row hrow => ?_, insertionSort_sorted (nodup_rows h)⟩
    · rw [(hperm.map _).nodup_iff, addr_zipWith_rowOf hlen]
      exact nodup_starts l
    · rw [(hperm.map _).mem_iff, hsyms, mem_symsOf hc]
    · obtain ⟨sym, -, slot, -, rfl⟩ := mem_rows (hperm.mem_iff.1 hrow)
      exact (toNat_arrivalsAt l sym.start).trans (Nat.mod_eq_of_lt (ht sym.start))

/-- The samples of a row are counted in 32 bits. -/
lemma toNat_sites (h : l.length ≤ out.length) {row : AutoCand} (hrow : row ∈ rankRows l out) :
    row.sites.toNat = l.countP (fun x => x.1.start = row.addr) % 2 ^ 32 := by
  rw [rankRows, (insertionSort_perm _).mem_iff, rows_eq h] at hrow
  obtain ⟨sym, -, slot, -, rfl⟩ := mem_rows hrow
  rw [List.countP_eq_length_filter]
  exact BitVec.toNat_ofNat ..

/-- The slots the rows go to hold one value of `first_us`. -/
def SameFirstUs (n : ℕ) (out : List AutoCand) : Prop :=
  ∀ slot ∈ out.take n, ∀ slot' ∈ out.take n, slot.firstUs = slot'.firstUs

lemma Consistent.perm (hc : Consistent l) (hp : l'.Perm l) : Consistent l' :=
  fun x hx y hy => hc x (hp.mem_iff.1 hx) y (hp.mem_iff.1 hy)

lemma rowOf_perm (hp : l'.Perm l) : rowOf l' = rowOf l := by
  funext sym slot
  have hf := hp.filter fun x => x.1.start = sym.start
  rw [rowOf, rowOf, arrivalsAt, arrivalsAt, sitesAt, sitesAt, (hf.map Prod.snd).sum_eq,
    hf.length_eq]

lemma symsOf_perm (hc : Consistent l) (hp : l'.Perm l) : (symsOf l').Perm (symsOf l) := by
  rw [List.perm_ext_iff_of_nodup (nodup_starts l').of_map (nodup_starts l).of_map]
  intro sym
  rw [mem_symsOf hc, mem_symsOf (hc.perm hp), (hp.map Prod.fst).mem_iff]

lemma zipWith_rowOf_eq {syms : List AutoSym} (hsame : SameFirstUs syms.length out)
    (hlen : syms.length ≤ out.length) {slot : AutoCand} (hslot : slot ∈ out.take syms.length) :
    syms.zipWith (rowOf l) out = syms.map fun sym => rowOf l sym slot := by
  apply List.ext_getElem
  · simpa using hlen
  · intro i h1 h2
    rw [List.getElem_zipWith, List.getElem_map, rowOf, rowOf]
    rw [List.length_map] at h2
    have hmem : out[i] ∈ out.take syms.length := by
      rw [List.mem_take_iff_getElem]
      exact ⟨i, by omega, rfl⟩
    rw [hsame _ hmem _ hslot]

lemma rankRows_perm (hc : Consistent l) (h : l.length ≤ out.length)
    (hsame : SameFirstUs (symbolCount l) out) (hp : l'.Perm l) :
    rankRows l' out = rankRows l out := by
  have hlen := (length_symsOf_le l).trans h
  have hsyms := symsOf_perm hc hp
  rw [symbolCount_eq] at hsame
  apply insertionSort_congr (nodup_rows h)
  rw [rows_eq h, rows_eq (hp.length_eq ▸ h), rowOf_perm hp]
  by_cases hn : (symsOf l).length = 0
  · rw [List.length_eq_zero_iff] at hn
    rw [hn] at hsyms ⊢
    rw [List.perm_nil.1 hsyms]
  · have hpos : 0 < out.length := by omega
    have hslot : out[0] ∈ out.take (symsOf l).length := by
      rw [List.mem_take_iff_getElem]
      exact ⟨0, by omega, rfl⟩
    rw [zipWith_rowOf_eq hsame hlen hslot, zipWith_rowOf_eq (hsyms.length_eq ▸ hsame)
      (hsyms.length_eq ▸ hlen) (hsyms.length_eq ▸ hslot)]
    exact hsyms.map _

lemma symsOf_cons (x : AutoSym × BitVec 64) (t : List (AutoSym × BitVec 64)) :
    ∃ rest, symsOf (x :: t) = x.1 :: rest := by
  have hkeep : ∀ (t : List (AutoSym × BitVec 64)) acc, ∃ rest,
      t.foldl (fun acc x => if x.1.start ∈ acc.map AutoSym.start then acc else acc ++ [x.1]) acc =
        acc ++ rest := by
    intro t
    induction t with
    | nil => exact fun acc => ⟨[], (List.append_nil acc).symm⟩
    | cons y t ih =>
      intro acc
      rw [List.foldl_cons]
      split_ifs
      · exact ih acc
      · obtain ⟨rest, hrest⟩ := ih (acc ++ [y.1])
        exact ⟨y.1 :: rest, by rw [hrest, List.append_assoc, List.singleton_append]⟩
  obtain ⟨rest, hrest⟩ := hkeep t [x.1]
  exact ⟨rest, hrest⟩

/-- An arrival that comes first puts its symbol in the first slot. -/
lemma firstUs_eq_of_first {x : AutoSym × BitVec 64} {t : List (AutoSym × BitVec 64)}
    (hp : (x :: t).Perm l) {slot : AutoCand} (h : l.length ≤ (slot :: out).length)
    (heq : rankRows (x :: t) (slot :: out) = rankRows l (slot :: out)) {j : ℕ} {sym : AutoSym}
    (hj : (symsOf l)[j]? = some sym) (hx : sym.start = x.1.start) {slot' : AutoCand}
    (hslot : (slot :: out)[j]? = some slot') : slot'.firstUs = slot.firstUs := by
  obtain ⟨rest, hrest⟩ := symsOf_cons x t
  have hmem : rowOf (x :: t) x.1 slot ∈ rankRows (x :: t) (slot :: out) := by
    rw [rankRows, (insertionSort_perm _).mem_iff, rows_eq (hp.length_eq ▸ h), hrest,
      List.zipWith_cons_cons]
    exact List.mem_cons_self
  rw [heq, rankRows, (insertionSort_perm _).mem_iff, rows_eq h] at hmem
  obtain ⟨i, hi⟩ := List.mem_iff_getElem?.1 hmem
  rw [List.getElem?_zipWith_eq_some] at hi
  obtain ⟨sym', s, hsym', hs, hrow⟩ := hi
  have hij : i = j := by
    have hstart : ((symsOf l).map AutoSym.start)[i]? = ((symsOf l).map AutoSym.start)[j]? := by
      rw [List.getElem?_map, List.getElem?_map, hsym', hj, Option.map_some, Option.map_some, hx]
      exact congrArg (some ∘ AutoCand.addr) hrow
    refine (List.getElem?_inj ?_ (nodup_starts l)).1 hstart
    rw [List.length_map]
    exact (List.getElem?_eq_some_iff.1 hsym').1
  rw [hij, hslot] at hs
  cases hs
  have hfirst := congrArg AutoCand.firstUs hrow
  exact hfirst

end Ranking

section Exact

variable {resolve : BitVec 64 → Option AutoSym} {moduleFilter : Option (List UInt8)}

/-- The symbols the edges arrive at, with the counts -/
def entryArrivals (resolve : BitVec 64 → Option AutoSym) (moduleFilter : Option (List UInt8))
    (edges : List SampleEdge) : List (AutoSym × BitVec 64) :=
  edges.filterMap fun e => (entryOf resolve moduleFilter e).map fun sym => (sym, e.count)

/-- Both functions, for samples of either kind -/
lemma rankRows_filterMap {A : Type} (f : A → Option AutoSym) (count : A → BitVec 64) (l : List A)
    (out : List AutoCand) :
    (if out.length = 0 then [] else insertionSort (l.foldl (fun t a =>
      match f a with
      | none => t
      | some sym => arrive t (sym, count a)) ⟨[], out⟩).rows) =
    rankRows (l.filterMap fun a => (f a).map fun sym => (sym, count a)) out := by
  have hfold : ∀ t : Table, l.foldl (fun t a =>
      match f a with
      | none => t
      | some sym => arrive t (sym, count a)) t =
      (l.filterMap fun a => (f a).map fun sym => (sym, count a)).foldl arrive t := by
    induction l with
    | nil => exact fun t => rfl
    | cons a l ih =>
      intro t
      rw [List.foldl_cons, ih]
      cases hf : f a with
      | none => rw [List.filterMap_cons_none (by rw [hf]; rfl)]
      | some sym => rw [List.filterMap_cons_some (by rw [hf]; rfl), List.foldl_cons]
  rw [hfold, rankRows]
  split_ifs with hout
  · rw [List.length_eq_zero_iff.1 hout]
    have hnone : ∀ m : List (AutoSym × BitVec 64), m.foldl arrive ⟨[], []⟩ = ⟨[], []⟩ := by
      intro m
      induction m with
      | nil => rfl
      | cons x m ih => exact ih
    rw [hnone]
    rfl
  · rfl

lemma autoregionRank_eq (edges : List SampleEdge) (out : List AutoCand) :
    autoregionRank (some edges) (some resolve) moduleFilter (some out) =
      rankRows (entryArrivals resolve moduleFilter edges) out :=
  rankRows_filterMap (entryOf resolve moduleFilter) SampleEdge.count edges out

/-- What two samples of the same kind may do to the ranking -/
lemma rank_iff {A : Type} [DecidableEq A] (g : A → Option (AutoSym × BitVec 64)) {samples : List A}
    {out : List AutoCand} (hc : Consistent (samples.filterMap g))
    (hcap : samples.length ≤ out.length) :
    (Ranked (samples.filterMap g) (rankRows (samples.filterMap g) out) ∧
      ∀ samples' : List A, samples'.Perm samples →
        rankRows (samples'.filterMap g) out = rankRows (samples.filterMap g) out) ↔
    (∀ a, totalAt (samples.filterMap g) a < 2 ^ 64) ∧
      SameFirstUs (symbolCount (samples.filterMap g)) out := by
  have hlen : (samples.filterMap g).length ≤ out.length :=
    (List.length_filterMap_le g samples).trans hcap
  rw [ranked_iff hc hlen]
  refine and_congr_right fun _ => ⟨fun hperm => ?_, fun hsame samples' hp => ?_⟩
  · rw [symbolCount_eq]
    cases out with
    | nil => exact fun slot hslot => by simp at hslot
    | cons slot out =>
      -- every slot is compared with the first
      have hfirst : ∀ s ∈ (slot :: out).take (symsOf (samples.filterMap g)).length,
          s.firstUs = slot.firstUs := by
        intro s hs
        obtain ⟨j, hj⟩ := List.mem_iff_getElem?.1 hs
        rw [List.getElem?_take] at hj
        split_ifs at hj with hlt
        obtain ⟨x, hx, hxsym⟩ := mem_symsOf_of_mem (List.getElem_mem hlt)
        obtain ⟨e, he, hge⟩ := List.mem_filterMap.1 hx
        have hp := (List.perm_cons_erase he).symm
        have hl : (e :: samples.erase e).filterMap g = x :: (samples.erase e).filterMap g :=
          List.filterMap_cons_some hge
        have heq := hperm _ hp
        rw [hl] at heq
        exact firstUs_eq_of_first (hl ▸ hp.filterMap g) hlen heq (List.getElem?_eq_getElem hlt)
          (by rw [hxsym]) hj
      exact fun s hs s' hs' => (hfirst s hs).trans (hfirst s' hs').symm
  · exact rankRows_perm hc hlen hsame (hp.filterMap g)

lemma start_of_entryOf {e : SampleEdge} {sym : AutoSym}
    (h : entryOf resolve moduleFilter e = some sym) : resolve sym.start = some sym := by
  rw [entryOf] at h
  split_ifs at h
  cases hr : resolve e.toAddr with
  | none =>
    rw [hr] at h
    cases h
  | some sym' =>
    rw [hr] at h
    dsimp only at h
    split_ifs at h with hstart
    cases h
    rwa [← not_not.1 hstart]

/-- The ranking of the entry edges is exact and does not depend on their order just when no
symbol's sum leaves 64 bits and the slots it fills held one value of `first_us`. -/
theorem autoregion_rank_exact_iff (edges : List SampleEdge)
    (resolve : BitVec 64 → Option AutoSym) (moduleFilter : Option (List UInt8))
    (out : List AutoCand) (hcap : edges.length ≤ out.length) :
    (Ranked (entryArrivals resolve moduleFilter edges)
        (autoregionRank (some edges) (some resolve) moduleFilter (some out)) ∧
      ∀ edges' : List SampleEdge, edges'.Perm edges →
        autoregionRank (some edges') (some resolve) moduleFilter (some out) =
          autoregionRank (some edges) (some resolve) moduleFilter (some out)) ↔
    (∀ a, totalAt (entryArrivals resolve moduleFilter edges) a < 2 ^ 64) ∧
      SameFirstUs (symbolCount (entryArrivals resolve moduleFilter edges)) out := by
  simp only [autoregionRank_eq]
  refine rank_iff _ ?_ hcap
  intro x hx y hy hxy
  obtain ⟨e, -, he⟩ := List.mem_filterMap.1 hx
  obtain ⟨e', -, he'⟩ := List.mem_filterMap.1 hy
  obtain ⟨sym, hsym, rfl⟩ := Option.map_eq_some_iff.1 he
  obtain ⟨sym', hsym', rfl⟩ := Option.map_eq_some_iff.1 he'
  have h := start_of_entryOf hsym
  have h' := start_of_entryOf hsym'
  dsimp only at hxy ⊢
  rw [hxy] at h
  exact Option.some.inj (h.symm.trans h')

/-- A function at `0x1000` and one at `0x2000` -/
def twoFunctions (a : BitVec 64) : Option AutoSym :=
  if a = 0x1000 then some ⟨0x1000, 0x20, none, none⟩
  else if a = 0x2000 then some ⟨0x2000, 0x20, none, none⟩
  else none

def emptySlot : AutoCand := ⟨0, 0, none, none, 0, 0, 0⟩

/-- Three calls, of one function twice -/
theorem autoregion_rank_three_calls :
    let edges : List SampleEdge := [⟨0x2000, 1, 0⟩, ⟨0x1000, 1, 0⟩, ⟨0x2000, 1, 0⟩]
    let out := List.replicate 3 emptySlot
    autoregionRank (some edges) (some twoFunctions) none (some out) =
      [⟨0x2000, 0x20, none, none, 2, 2, 0⟩, ⟨0x1000, 0x20, none, none, 1, 1, 0⟩] ∧
    ((Ranked (entryArrivals twoFunctions none edges)
        (autoregionRank (some edges) (some twoFunctions) none (some out)) ∧
      ∀ edges' : List SampleEdge, edges'.Perm edges →
        autoregionRank (some edges') (some twoFunctions) none (some out) =
          autoregionRank (some edges) (some twoFunctions) none (some out)) ↔
    (∀ a, totalAt (entryArrivals twoFunctions none edges) a < 2 ^ 64) ∧
      SameFirstUs (symbolCount (entryArrivals twoFunctions none edges)) out) :=
  ⟨by decide +kernel, autoregion_rank_exact_iff _ twoFunctions none _ (by decide)⟩

/-- Two edges with `2 ^ 63` arrivals each: their sum is 0. -/
theorem autoregion_rank_sum_wraps :
    let edges : List SampleEdge := [⟨0x1000, 1 <<< 63, 0⟩, ⟨0x1000, 1 <<< 63, 0⟩]
    let out := List.replicate 2 emptySlot
    ¬ (Ranked (entryArrivals twoFunctions none edges)
        (autoregionRank (some edges) (some twoFunctions) none (some out)) ∧
      ∀ edges' : List SampleEdge, edges'.Perm edges →
        autoregionRank (some edges') (some twoFunctions) none (some out) =
          autoregionRank (some edges) (some twoFunctions) none (some out)) := by
  rintro edges out ⟨hranked, -⟩
  have hrows : autoregionRank (some edges) (some twoFunctions) none (some out) =
      [⟨0x1000, 0x20, none, none, 0, 2, 0⟩] := by decide +kernel
  have hsum := hranked.arrivals ⟨0x1000, 0x20, none, none, 0, 2, 0⟩ (by
    rw [hrows]
    exact List.mem_singleton_self _)
  have htotal : totalAt (entryArrivals twoFunctions none edges) 0x1000 = 2 ^ 64 := by
    decide +kernel
  rw [htotal] at hsum
  exact absurd hsum (by decide)

def residentArrivals (resolve : BitVec 64 → Option AutoSym) (moduleFilter : Option (List UInt8))
    (hits : List IpHit) : List (AutoSym × BitVec 64) :=
  hits.filterMap fun hit => (residentOf resolve moduleFilter hit).map fun sym => (sym, hit.count)

lemma resolve_of_residentOf {hit : IpHit} {sym : AutoSym}
    (h : residentOf resolve moduleFilter hit = some sym) : resolve hit.ip = some sym := by
  rw [residentOf] at h
  cases hr : resolve hit.ip with
  | none =>
    rw [hr] at h
    cases h
  | some sym' =>
    rw [hr] at h
    dsimp only at h
    split_ifs at h
    exact h

/-- So is the ranking of the sampled addresses, if the resolver knows one symbol for a start
address; a row has the number of its samples in any case. -/
theorem autoregionRankIp_exact_iff (hits : List IpHit) (out : List AutoCand)
    (hfun : ∀ a b sym sym', resolve a = some sym → resolve b = some sym' →
      sym.start = sym'.start → sym = sym')
    (hcap : hits.length ≤ out.length) :
    (∀ row ∈ autoregionRankIp (some hits) (some resolve) moduleFilter (some out),
      row.sites.toNat = (residentArrivals resolve moduleFilter hits).countP
        (fun x => x.1.start = row.addr) % 2 ^ 32) ∧
    ((Ranked (residentArrivals resolve moduleFilter hits)
        (autoregionRankIp (some hits) (some resolve) moduleFilter (some out)) ∧
      ∀ hits' : List IpHit, hits'.Perm hits →
        autoregionRankIp (some hits') (some resolve) moduleFilter (some out) =
          autoregionRankIp (some hits) (some resolve) moduleFilter (some out)) ↔
    (∀ a, totalAt (residentArrivals resolve moduleFilter hits) a < 2 ^ 64) ∧
      SameFirstUs (symbolCount (residentArrivals resolve moduleFilter hits)) out) := by
  have heq : ∀ hits : List IpHit,
      autoregionRankIp (some hits) (some resolve) moduleFilter (some out) =
        rankRows (residentArrivals resolve moduleFilter hits) out :=
    fun hits => rankRows_filterMap (residentOf resolve moduleFilter) IpHit.count hits out
  simp only [heq]
  have hlen : (residentArrivals resolve moduleFilter hits).length ≤ out.length :=
    (List.length_filterMap_le _ hits).trans hcap
  refine ⟨fun row hrow => toNat_sites hlen hrow, rank_iff _ ?_ hcap⟩
  intro x hx y hy hxy
  obtain ⟨e, -, he⟩ := List.mem_filterMap.1 hx
  obtain ⟨e', -, he'⟩ := List.mem_filterMap.1 hy
  obtain ⟨sym, hsym, rfl⟩ := Option.map_eq_some_iff.1 he
  obtain ⟨sym', hsym', rfl⟩ := Option.map_eq_some_iff.1 he'
  exact hfun _ _ sym sym' (resolve_of_residentOf hsym) (resolve_of_residentOf hsym') hxy

/-- A function at `0x1000`, and one from `0x2000` on -/
def residencySym (a : BitVec 64) : Option AutoSym :=
  if 0x2000 ≤ a then some ⟨0x2000, 0x20, none, none⟩ else some ⟨0x1000, 0x20, none, none⟩

/-- Three addresses, two of them in one function -/
theorem autoregionRankIp_exact_iff_residency :
    let hits : List IpHit := [⟨0x2004, 3⟩, ⟨0x1000, 1⟩, ⟨0x2010, 2⟩]
    let rows := autoregionRankIp (some hits) (some residencySym) none
      (some (List.replicate 3 emptySlot))
    rows = [⟨0x2000, 0x20, none, none, 5, 2, 0⟩, ⟨0x1000, 0x20, none, none, 1, 1, 0⟩] ∧
      Ranked (residentArrivals residencySym none hits) rows ∧
      ∀ hits' : List IpHit, hits'.Perm hits →
        autoregionRankIp (some hits') (some residencySym) none
          (some (List.replicate 3 emptySlot)) = rows := by
  intro hits rows
  have hfun : ∀ a b sym sym', residencySym a = some sym → residencySym b = some sym' →
      sym.start = sym'.start → sym = sym' := by
    intro a b sym sym' ha hb hstart
    simp only [residencySym] at ha hb
    split at ha <;> split at hb <;> cases ha <;> cases hb
    · rfl
    · exact absurd hstart (by decide)
    · exact absurd hstart (by decide)
    · rfl
  refine ⟨by decide +kernel, ((autoregionRankIp_exact_iff hits (List.replicate 3 emptySlot) hfun
    (by decide)).2).mpr ⟨fun a => ?_, ?_⟩⟩
  · have hle : totalAt (residentArrivals residencySym none hits) a ≤
        ((residentArrivals residencySym none hits).map fun x => x.2.toNat).sum :=
      (List.filter_sublist.map _).sum_le_sum fun _ _ => Nat.zero_le _
    exact hle.trans_lt (by decide +kernel)
  · intro slot hslot slot' hslot'
    rw [List.eq_of_mem_replicate (List.mem_of_mem_take hslot),
      List.eq_of_mem_replicate (List.mem_of_mem_take hslot')]

end Exact

end AsmTest.AutoRegion
