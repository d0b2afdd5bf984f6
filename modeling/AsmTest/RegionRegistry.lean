import AsmTest.Lib.CStr
import Mathlib.Data.BitVec
import Mathlib.Data.List.Dedup
import Mathlib.Tactic

/-!
# The region registry

`asmtest_hwtrace_register_region` keeps up to 32 named regions; a name that has a slot already has
its region refreshed there. The name is copied into 64 bytes.
-/

namespace AsmTest.Registry

section Source

/-- What a registration sets of a region; null pointers are zero. -/
structure Info where
  base : BitVec 64
  len : BitVec 64
  trace : BitVec 64
deriving DecidableEq, Repr

/-- `hw_region_t` -/
structure Region where
  name : CStr
  used : Bool
  info : Info
  armTid : ℤ
deriving DecidableEq

inductive Rc
  | ok
  | estate
  | einval
  | efull
deriving DecidableEq, Repr

/-- `g_inited` and the first `g_nregions` slots of `g_regions` -/
structure State where
  inited : Bool := false
  regions : List Region := []
deriving DecidableEq

def maxRegions : ℕ := 32

/-- `sizeof r->name` -/
def nameSize : ℕ := 64

/-- The reset of the registry by `asmtest_hwtrace_init` -/
def init : State := { inited := true }

/-- The test of `find_region_unlocked` -/
def named (name : CStr) (r : Region) : Bool := r.used && r.name = name

/-- `find_region` -/
def findRegion (s : State) (name : CStr) : Option Region := s.regions.find? (named name)

/-- The arguments of `asmtest_hwtrace_register_region` -/
structure Call where
  name : Option CStr
  info : Info
deriving DecidableEq

/-- What the argument check lets through -/
def Call.accepted (c : Call) : Option (CStr × Info) :=
  if c.info.base = 0 ∨ c.info.len = 0 ∨ c.info.trace = 0 then none
  else c.name.map fun name => (name, c.info)

/-- The registration of checked arguments -/
def refreshOrAppend (s : State) (name : CStr) (info : Info) : Rc × State :=
  match s.regions.findIdx? (named name) with
  | some i => (.ok, { s with regions := s.regions.modify i fun r => { r with info } })
  | none =>
    if s.regions.length ≥ maxRegions then (.efull, s)
    else (.ok, { s with
      regions := s.regions ++ [⟨name.take (nameSize - 1), true, info, 0⟩] })

/-- `asmtest_hwtrace_register_region` -/
def registerRegion (s : State) (c : Call) : Rc × State :=
  if s.inited = false then (.estate, s)
  else match c.accepted with
    | none => (.einval, s)
    | some (name, info) => refreshOrAppend s name info

/-- The state after `calls` -/
def run (calls : List Call) : State := calls.foldl (fun s c => (registerRegion s c).2) init

end Source

section Spec

/-- The registrations that the arguments allow, in order -/
def registrations (calls : List Call) : List (CStr × Info) := calls.filterMap Call.accepted

def names (calls : List Call) : List CStr := ((registrations calls).map Prod.fst).dedup

def latest (calls : List Call) (name : CStr) : Option Info :=
  (registrations calls).reverse.lookup name

/-- The registry is the map of the latest registrations. -/
structure IsMap (calls : List Call) (s : State) : Prop where
  slots : s.regions.length = (names calls).length
  find : ∀ name, (findRegion s name).map Region.info = latest calls name

end Spec

section Lookup

variable {name : CStr} {info : Info} {regions : List Region} {regs : List (CStr × Info)}

lemma named_iff {r : Region} : named name r = true ↔ r.used = true ∧ r.name = name := by
  rw [named, Bool.and_eq_true, decide_eq_true_eq]

/-- The refresh of the first region of a name is seen under that name only. -/
lemma find_modify {i : ℕ} (h : regions.findIdx? (named name) = some i) (name' : CStr) :
    (((regions.modify i fun r => { r with info }).find? (named name')).map Region.info) =
      if name' = name then some info else (regions.find? (named name')).map Region.info := by
  induction regions generalizing i with
  | nil => cases h
  | cons r regions ih =>
    rw [List.findIdx?_cons] at h
    by_cases hr : named name r = true
    · rw [if_pos hr] at h
      obtain rfl := Option.some.inj h
      rw [List.modify_zero_cons]
      by_cases hname : name' = name
      · subst hname
        rw [List.find?_cons_of_pos (by exact hr), if_pos rfl]
        rfl
      · have hr' : ¬ named name' r = true := fun h' =>
          hname ((named_iff.mp h').2.symm.trans (named_iff.mp hr).2)
        rw [List.find?_cons_of_neg (by exact hr'), List.find?_cons_of_neg hr', if_neg hname]
    · rw [if_neg hr] at h
      obtain ⟨j, hj, rfl⟩ := Option.map_eq_some_iff.mp h
      rw [List.modify_succ_cons]
      by_cases hr' : named name' r = true
      · have hname : name' ≠ name := by
          rintro rfl
          exact hr hr'
        rw [List.find?_cons_of_pos hr', List.find?_cons_of_pos hr', if_neg hname]
      · rw [List.find?_cons_of_neg hr', List.find?_cons_of_neg hr']
        exact ih hj

lemma lookup_snoc (name' : CStr) : (regs ++ [(name, info)]).reverse.lookup name' =
    if name' = name then some info else regs.reverse.lookup name' := by
  rw [List.reverse_append, List.reverse_singleton, List.singleton_append, List.lookup_cons]
  by_cases h : name' = name
  · subst h
    rw [if_pos rfl, BEq.rfl]
  · rw [if_neg h, beq_false_of_ne h]

lemma lookup_isSome_iff : (regs.reverse.lookup name).isSome = true ↔ name ∈ regs.map Prod.fst := by
  rw [List.lookup_isSome_iff]
  simp

lemma length_dedup_snoc : ((regs ++ [(name, info)]).map Prod.fst).dedup.length =
    (regs.map Prod.fst).dedup.length + if name ∈ regs.map Prod.fst then 0 else 1 := by
  rw [← List.card_toFinset, ← List.card_toFinset, List.map_append, List.toFinset_append,
    Finset.union_comm]
  change (insert name (regs.map Prod.fst).toFinset).card = _
  split_ifs with h
  · rw [Finset.insert_eq_of_mem (List.mem_toFinset.mpr h), Nat.add_zero]
  · rw [Finset.card_insert_of_notMem fun hm => h (List.mem_toFinset.mp hm)]

end Lookup

section Run

variable {s : State} {c : Call} {calls : List Call} {regs : List (CStr × Info)}

/-- The regions are those of the registrations `regs`. -/
structure Holds (regs : List (CStr × Info)) (s : State) : Prop where
  inited : s.inited = true
  slots : s.regions.length = (regs.map Prod.fst).dedup.length
  find : ∀ name, (findRegion s name).map Region.info = regs.reverse.lookup name

/-- A registration of a name that fits is found under exactly that name. -/
lemma Holds.register (h : Holds regs s) {name : CStr} {info : Info}
    (hfit : name.length < nameSize)
    (hroom : ((regs ++ [(name, info)]).map Prod.fst).dedup.length ≤ maxRegions) :
    Holds (regs ++ [(name, info)]) (refreshOrAppend s name info).2 := by
  have hfind := h.find name
  have hmem := @lookup_isSome_iff name regs
  rw [length_dedup_snoc, ← h.slots] at hroom
  unfold refreshOrAppend
  cases hidx : s.regions.findIdx? (named name) with
  | some i =>
    have hin : name ∈ regs.map Prod.fst := by
      rw [← hmem, ← hfind, Option.isSome_map, findRegion, List.find?_isSome]
      obtain ⟨hi, htrue, -⟩ := List.findIdx?_eq_some_iff_getElem.mp hidx
      exact ⟨_, List.getElem_mem hi, htrue⟩
    refine ⟨h.inited, ?_, fun name' => ?_⟩
    · rw [length_dedup_snoc, if_pos hin, ← h.slots]
      exact List.length_modify _ _ _
    · rw [lookup_snoc, ← h.find name']
      exact find_modify hidx name'
  | none =>
    have hnone : findRegion s name = none := by
      rw [findRegion, List.find?_eq_none]
      intro r hr htrue
      exact Bool.eq_false_iff.mp (List.findIdx?_eq_none_iff.mp hidx r hr) htrue
    have hout : name ∉ regs.map Prod.fst := by
      rw [← hmem, ← hfind, hnone]
      exact Bool.false_ne_true
    rw [if_neg hout] at hroom
    have hlt : ¬ s.regions.length ≥ maxRegions := by omega
    dsimp only
    rw [if_neg hlt, CStr.take_of_length_le (Nat.le_sub_one_of_lt hfit)]
    refine ⟨h.inited, ?_, fun name' => ?_⟩
    · rw [length_dedup_snoc, if_neg hout, ← h.slots, List.length_append, List.length_singleton]
    · rw [lookup_snoc, findRegion, List.find?_append]
      by_cases hname : name' = name
      · subst hname
        rw [findRegion] at hnone
        rw [hnone, if_pos rfl]
        simp [named]
      · rw [if_neg hname, ← h.find name', findRegion]
        simp [named, Ne.symm hname]

lemma registrations_append (calls : List Call) (c : Call) :
    registrations (calls ++ [c]) = registrations calls ++ c.accepted.toList := by
  rw [registrations, List.filterMap_append]
  cases h : c.accepted <;> simp [registrations, h]

lemma run_append (calls : List Call) (c : Call) :
    run (calls ++ [c]) = (registerRegion (run calls) c).2 := by
  rw [run, List.foldl_append]
  rfl

lemma names_length_le (regs : List (CStr × Info)) (p : CStr × Info) :
    (regs.map Prod.fst).dedup.length ≤ ((regs ++ [p]).map Prod.fst).dedup.length := by
  rw [length_dedup_snoc]
  exact Nat.le_add_right _ _

/-- With names that fit, the registry after a run is that of the registrations. -/
lemma run_holds (calls : List Call) (hroom : (names calls).length ≤ maxRegions)
    (hfit : ∀ p ∈ registrations calls, p.1.length < nameSize) :
    Holds (registrations calls) (run calls) := by
  induction calls using List.reverseRecOn with
  | nil => exact ⟨rfl, rfl, fun _ => rfl⟩
  | append_singleton calls c ih =>
    rw [run_append, registerRegion]
    rw [names] at hroom
    rw [registrations_append] at hroom hfit ⊢
    cases hacc : c.accepted with
    | none =>
      rw [hacc, Option.toList_none, List.append_nil] at hroom hfit
      rw [Option.toList_none, List.append_nil]
      have hs := ih hroom hfit
      rw [if_neg (by simp [hs.inited])]
      exact hs
    | some p =>
      rw [hacc, Option.toList_some] at hroom hfit
      rw [Option.toList_some]
      have hs := ih ((names_length_le _ p).trans hroom)
        fun q hq => hfit q (List.mem_append_left _ hq)
      rw [if_neg (by simp [hs.inited])]
      exact hs.register (hfit p (List.mem_append_right _ List.mem_cons_self)) hroom

/-- What is stored of a name is shorter than its field. -/
lemma run_names_fit (calls : List Call) : ∀ r ∈ (run calls).regions, r.name.length < nameSize := by
  induction calls using List.reverseRecOn with
  | nil => simp [run, init]
  | append_singleton calls c ih =>
    rw [run_append, registerRegion]
    split_ifs
    · exact ih
    · cases c.accepted with
      | none => exact ih
      | some p =>
        dsimp only [refreshOrAppend]
        split
        · intro r hr
          obtain ⟨j, hj, rfl⟩ := List.mem_iff_getElem.mp hr
          have hj' : j < (run calls).regions.length := by simpa using hj
          have hold := ih _ (List.getElem_mem hj')
          rw [List.getElem_modify]
          split_ifs
          · exact hold
          · exact hold
        · split_ifs
          · exact ih
          · intro r hr
            rcases List.mem_append.mp hr with hr | hr
            · exact ih r hr
            · rw [List.mem_singleton.mp hr]
              exact Nat.lt_succ_of_le CStr.length_take_le

/-- With at most 32 names the registry is the map of the latest registrations exactly when every
name fits its field. -/
theorem region_registry_iff (calls : List Call) (hroom : (names calls).length ≤ maxRegions) :
    IsMap calls (run calls) ↔ ∀ p ∈ registrations calls, p.1.length < nameSize := by
  constructor
  · intro hmap p hp
    by_contra hlong
    -- no stored name is as long as this one
    have hnone : findRegion (run calls) p.1 = none := by
      rw [findRegion, List.find?_eq_none]
      intro r hr htrue
      have := run_names_fit calls r hr
      rw [(named_iff.mp htrue).2] at this
      exact hlong this
    have hsome : (latest calls p.1).isSome = true :=
      lookup_isSome_iff.mpr (List.mem_map_of_mem hp)
    rw [← hmap.find p.1, hnone] at hsome
    exact Bool.false_ne_true hsome
  · intro hfit
    have hs := run_holds calls hroom hfit
    exact ⟨hs.slots, hs.find⟩

lemma shortName_noNul : 0 ∉ [(97 : UInt8)] := by decide

def shortName : CStr := ⟨[97], shortName_noNul⟩

/-- A region that is registered twice -/
def twoCalls : List Call := [⟨some shortName, ⟨1, 2, 3⟩⟩, ⟨some shortName, ⟨4, 5, 6⟩⟩]

theorem region_registry_two : (names twoCalls).length ≤ maxRegions ∧
    (IsMap twoCalls (run twoCalls) ↔ ∀ p ∈ registrations twoCalls, p.1.length < nameSize) :=
  ⟨by decide, region_registry_iff twoCalls (by decide)⟩

/-- A call with a name of 64 bytes -/
def longCall : Call := ⟨some ⟨List.replicate 64 97, by decide⟩, ⟨1, 2, 3⟩⟩

/-- A name of 64 bytes is not found, and takes a slot again at the next call. -/
theorem region_registry_long_name : (names [longCall, longCall]).length ≤ maxRegions ∧
    ¬ IsMap [longCall, longCall] (run [longCall, longCall]) := by
  refine ⟨by decide, fun hmap => ?_⟩
  have hslots : (run [longCall, longCall]).regions.length = 1 := hmap.slots
  revert hslots
  decide

end Run

end AsmTest.Registry
