import AsmTest.PtraceSample

/-!
# What the sampler owes its target

The log of calls says what was done to the target: which task stopped last and why, whose
address space each task is in, which words were planted and whether a byte of ours may still
be in the text. The rule says what a call may do after such a log, and the invariant ties
the table of the sampler to its log.
-/

namespace AsmTest.PtraceSample

open Interaction

abbrev PsEvent := Event Ans
abbrev PsLog := Log Ans
abbrev PsEnv := Env Ans
abbrev PsWorld := World Ans Ctx

/-! ### Reading the log -/

def stopOf : PsEvent → Option (Tid × ℕ × ℕ)
  | ⟨.wait, .stopped w sig event⟩ => some (w, sig, event)
  | _ => none

/-- Calls that leave every task in the stop it is in. -/
def keepsStops (e : PsEvent) : Bool :=
  match e.call with
  | .peek .. | .poke .. | .regs _ | .setPc .. | .siginfo _ | .eventMsg _ | .tgid _ => true
  | _ => false

/-- The stop that was reported last, if nothing has ended a stop since. -/
def lastStop : PsLog → Option (Tid × ℕ × ℕ)
  | [] => none
  | e :: l =>
    match stopOf e with
    | some s => some s
    | none => if keepsStops e then lastStop l else none

/-- The calls since that stop. -/
def sinceStop (l : PsLog) : PsLog := l.takeWhile keepsStops

def tgidAnswer : PsEvent → Option (Tid × Option ℕ)
  | ⟨.tgid tid, g⟩ => some (tid, g)
  | _ => none

/-- The kind of a task by the last answer about it. -/
def kindOf (pid : Tid) : PsLog → Tid → Kind
  | [], tid => if tid = pid then .own else .unknown
  | e :: l, tid =>
    match tgidAnswer e with
    | some (t, g) => if t = tid ∧ tid ≠ pid then kindOfTgid pid g else kindOf pid l tid
    | none => kindOf pid l tid

/-- A word of ours that went into the text, with the word it took the place of. -/
def plantOf : PsEvent → Option (Addr × ℕ)
  | ⟨.poke (.plant o) _ a _, true⟩ => some (a, o)
  | _ => none

def plants (l : PsLog) : List (Addr × ℕ) := l.filterMap plantOf

/-- The address planted last, or 0. -/
def trapAt (l : PsLog) : Addr := ((plants l).headD (0, 0)).1

/-- Calls after which no byte of ours is at an address, as the task sees it. -/
def cleanOf : PsEvent → Option (Tid × Addr)
  | ⟨.poke .restore tid a _, true⟩ => some (tid, a)
  | ⟨.peek tid a, .unmapped⟩ => some (tid, a)
  | ⟨.peek tid a, .word w⟩ => if w % 256 ≠ 0xcc then some (tid, a) else none
  | _ => none

/-- The address at which a byte of ours may be in the text of the target. Only what a task
of the target shows counts, and nothing is ever mapped at 0. -/
def armedNow (pid : Tid) : PsLog → Option Addr
  | [] => none
  | e :: l =>
    match plantOf e, cleanOf e with
    | some (a, _), _ => if a = 0 then armedNow pid l else some a
    | none, some (tid, a) =>
      if kindOf pid l tid = .own ∧ armedNow pid l = some a then none else armedNow pid l
    | none, none => armedNow pid l

def seenOf : PsEvent → Option Tid
  | ⟨.seize tid, .ok⟩ => some tid
  | ⟨.wait, .stopped w _ _⟩ => some w
  | ⟨.eventMsg _, some child⟩ => some child
  | _ => none

/-- The tasks that the sampler has met. -/
def seen (l : PsLog) : List Tid := l.filterMap seenOf

/-- More tasks than the table has slots. -/
def Full (l : PsLog) : Prop := tableSlots < (seen l).dedup.length

/-- Calls that make a task traced, or end that. -/
def heldOf : PsEvent → Option (Tid × Bool)
  | ⟨.seize tid, .ok⟩ => some (tid, true)
  | ⟨.wait, .stopped w _ _⟩ => some (w, true)
  | ⟨.wait, .gone w⟩ => some (w, false)
  | ⟨.detach tid _, true⟩ => some (tid, false)
  | _ => none

/-- Is the task still attached to the sampler? -/
def held : PsLog → Tid → Bool
  | [], _ => false
  | e :: l, tid =>
    match heldOf e with
    | some (t, b) => if t = tid then b else held l tid
    | none => held l tid

/-! ### The rule -/

/-- A signal may be given to a task: it is the signal of the stop that was reported last, and
a SIGTRAP is one that the target made itself, away from the byte of ours. -/
structure Justified (pid : Tid) (l : PsLog) (tid : Tid) (sig : ℕ) : Prop where
  stop : lastStop l = some (tid, sig, 0)
  own : sig = sigTrap → kindOf pid l tid = .own
  code : sig = sigTrap → ∃ code, appCode code = true ∧ ⟨.siginfo tid, code⟩ ∈ sinceStop l
  away : sig = sigTrap → trapAt l ≠ 0 →
    ∃ pc, pc ≠ (trapAt l + 1) % wrapAddr ∧ ⟨.regs tid, some pc⟩ ∈ sinceStop l

/-- The tasks whose pending signal may wait: another process, which is released with it, and
one that the table has no slot for. -/
def Exempt (pid : Tid) (l : PsLog) (tid : Tid) : Prop :=
  kindOf pid l tid = .foreign ∨ Full l

/-- What a call may do after the calls before it. -/
structure Rule (env : PsEnv) (pid : Tid) (e : PsEvent) (l : PsLog) : Prop where
  answer : e.ans = env l e.call
  inject : ∀ tid sig, e.call = .cont tid sig ∨ e.call = .detach tid sig → sig ≠ 0 →
    Justified pid l tid sig
  redeliver : ∀ tid sig, lastStop l = some (tid, sig, 0) → sig ≠ sigTrap →
    keepsStops e = true ∨ e.call = .cont tid sig ∨ Exempt pid l tid
  plant : ∀ o tid a word, e.call = .poke (.plant o) tid a word →
    kindOf pid l tid = .own ∧ armedNow pid l = none ∧ word = trapWord o ∧
      ∃ l', l = ⟨.peek tid a, .word o⟩ :: l'
  restore : ∀ tid a word, e.call = .poke .restore tid a word → (a, word) ∈ plants l ∧
    ∃ cur l', l = ⟨.peek tid a, .word cur⟩ :: l' ∧ cur % 256 = 0xcc

/-- The calls that the rule says nothing about, apart from signals that wait. -/
def plain : Call → Bool
  | .poke .. => false
  | .cont _ sig | .detach _ sig => sig == 0
  | _ => true

/-- No signal waits for its task. -/
def Quiet (pid : Tid) (l : PsLog) : Prop :=
  ∀ tid sig, lastStop l = some (tid, sig, 0) → sig ≠ sigTrap → Exempt pid l tid

/-! ### The invariant -/

def Ctx.tids (c : Ctx) : List Tid := c.t.map Thr.tid

/-- The table and the trap as the log tells them. Every task that is attached is in the
table, `x` apart. -/
structure Inv (env : PsEnv) (pid : Tid) (x : Option Tid) (w : PsWorld) : Prop where
  obeys : Obeys (Rule env pid) w.log
  pid_eq : w.ctx.pid = pid
  nodup : w.ctx.tids.Nodup
  kinds : ∀ e ∈ w.ctx.t, kindOf pid w.log e.tid = e.kind
  known : ∀ e ∈ w.ctx.t, e.tid ∈ seen w.log
  copies : ∀ e ∈ w.ctx.t, e.copiedBp ≠ 0 → (e.copiedBp, e.copiedOrig) ∈ plants w.log
  last : (w.ctx.armedBp, w.ctx.armedOrig) = (plants w.log).headD (0, 0)
  base : w.ctx.bpBase ≠ 0 → w.ctx.bpBase = w.ctx.armedBp ∧ w.ctx.bpOrig = w.ctx.armedOrig
  armed : ∀ a, armedNow pid w.log = some a → w.ctx.bpPlanted = true ∧ w.ctx.bpBase = a
  holding : ∀ tid, held w.log tid = true → x = some tid ∨ Full w.log ∨ tid ∈ w.ctx.tids

/-- The fields that no handling of a stop changes. -/
def Ctx.keep (c : Ctx) : Ctx := { c with t := [], covered := false, bpArrived := false }

/-- The sampler between two operations. -/
structure Calm (env : PsEnv) (pid : Tid) (k : Ctx) (w : PsWorld) : Prop where
  inv : Inv env pid none w
  quiet : Quiet pid w.log
  keep : w.ctx.keep = k

/-! ### One more call -/

section Push

variable {env : PsEnv} {pid tid : Tid} {e : PsEvent} {l : PsLog} {x : Option Tid}
  {c : Ctx} {w : PsWorld}

theorem kindOf_cons (h : tgidAnswer e = none) : kindOf pid (e :: l) = kindOf pid l := by
  funext tid
  simp [kindOf, h]

theorem plants_cons (h : plantOf e = none) : plants (e :: l) = plants l := by
  simp [plants, h]

theorem mem_plants_cons {p : Addr × ℕ} (h : p ∈ plants l) : p ∈ plants (e :: l) := by
  cases hp : plantOf e with
  | none => simpa [plants, hp] using h
  | some q => simpa [plants, hp] using Or.inr h

theorem mem_seen_cons (h : tid ∈ seen l) : tid ∈ seen (e :: l) := by
  cases hp : seenOf e with
  | none => simpa [seen, hp] using h
  | some q => simpa [seen, hp] using Or.inr h

theorem Full.cons (h : Full l) : Full (e :: l) := by
  apply h.trans_le
  apply ((List.nodup_dedup _).subperm _).length_le
  intro t ht
  exact List.mem_dedup.2 (mem_seen_cons (List.mem_dedup.1 ht))

/-- Without a planting a byte of ours is at most where it was. -/
theorem armedNow_cons {a : Addr} (hp : plantOf e = none) (h : armedNow pid (e :: l) = some a) :
    armedNow pid l = some a := by
  simp only [armedNow, hp] at h
  cases hc : cleanOf e with
  | none => simpa [hc] using h
  | some q =>
    simp only [hc] at h
    split at h
    · simp at h
    · exact h

theorem lastStop_cons (hs : stopOf e = none) :
    lastStop (e :: l) = if keepsStops e then lastStop l else none := by
  simp [lastStop, hs]

/-- A plain call may come whenever no signal waits. -/
theorem rule_plain {call : Call} (hc : plain call = true)
    (hq : keepsStops ⟨call, env l call⟩ = true ∨ Quiet pid l) :
    Rule env pid ⟨call, env l call⟩ l where
  answer := rfl
  inject tid sig h hs := by
    rcases h with h | h
    all_goals simp only at h; subst h; simp [plain] at hc; exact absurd hc hs
  redeliver tid sig h hs := by
    rcases hq with hq | hq
    · exact .inl hq
    · exact .inr (.inr (hq tid sig h hs))
  plant o tid a word h := by
    simp only at h
    simp [h, plain] at hc
  restore tid a word h := by
    simp only at h
    simp [h, plain] at hc

/-- The calls that tell the invariant nothing: no answer about a task, no planting, no task
that becomes attached. -/
structure Silent (e : PsEvent) : Prop where
  tgid : tgidAnswer e = none
  plant : plantOf e = none
  held : ∀ t b, heldOf e = some (t, b) → b = false

/-- One more call that is no answer about a task and no planting. A task that it makes
attached is the new exception. -/
theorem Inv.cons {y : Option Tid} (h : Inv env pid x ⟨c, l⟩) (hr : Rule env pid e l)
    (ht : tgidAnswer e = none) (hp : plantOf e = none) (hxy : ∀ t, x = some t → y = some t)
    (hh : ∀ t, heldOf e = some (t, true) → y = some t) : Inv env pid y ⟨c, e :: l⟩ where
  obeys := ⟨hr, h.obeys⟩
  pid_eq := h.pid_eq
  nodup := h.nodup
  kinds := by simpa only [kindOf_cons ht] using h.kinds
  known f hf := mem_seen_cons (h.known f hf)
  copies := by simpa only [plants_cons hp] using h.copies
  last := by simpa only [plants_cons hp] using h.last
  base := h.base
  armed a ha := h.armed a (armedNow_cons hp ha)
  holding t htl := by
    have hl : y = some t ∨ held l t = true := by
      cases he : heldOf e with
      | none => exact .inr (by simpa [held, he] using htl)
      | some p =>
        by_cases hpt : p.1 = t
        · have hb : p.2 = true := by simpa [held, he, hpt] using htl
          exact .inl (hh t (by rw [he, ← hpt, ← hb]))
        · exact .inr (by simpa [held, he, hpt] using htl)
    rcases hl with hl | hl
    · exact .inl hl
    · rcases h.holding t hl with h | h | h
      · exact .inl (hxy t h)
      · exact .inr (.inl h.cons)
      · exact .inr (.inr h)

theorem Inv.push (h : Inv env pid x ⟨c, l⟩) (hr : Rule env pid e l) (hs : Silent e) :
    Inv env pid x ⟨c, e :: l⟩ :=
  h.cons hr hs.tgid hs.plant (fun _ ht => ht) fun t ht => absurd (hs.held t true ht) (by simp)

theorem Quiet.push (h : Quiet pid l) (hs : Silent e) (he : stopOf e = none) :
    Quiet pid (e :: l) := by
  intro tid sig hl hne
  rw [lastStop_cons he] at hl
  split at hl
  · rcases h tid sig hl hne with h | h
    · exact .inl (by rwa [kindOf_cons hs.tgid])
    · exact .inr h.cons
  · simp at hl

/-- A call that is not made to a stopped task ends what was pending. -/
theorem quiet_cons (he : stopOf e = none) (hk : keepsStops e = false) : Quiet pid (e :: l) := by
  intro tid sig hl
  simp [lastStop_cons he, hk] at hl

/-- When a task was met that a full table does not have, too many were met. -/
theorem Inv.full (h : Inv env pid x w) (hn : tid ∉ w.ctx.tids) (hk : tid ∈ seen w.log)
    (ht : tableSlots ≤ w.ctx.t.length) : Full w.log := by
  have hlen : w.ctx.t.length = w.ctx.tids.length := by simp [Ctx.tids]
  rw [hlen] at ht
  have hsub : (tid :: w.ctx.tids).length ≤ (seen w.log).dedup.length := by
    apply ((h.nodup.cons hn).subperm _).length_le
    rw [List.cons_subset]
    refine ⟨List.mem_dedup.2 hk, fun t htm => ?_⟩
    obtain ⟨e, he, rfl⟩ := List.mem_map.1 htm
    exact List.mem_dedup.2 (h.known e he)
  exact (Nat.lt_succ_of_le ht).trans_le hsub

/-- Another table may stand for the old one when its entries do and no task is lost. -/
theorem Inv.table {c' : Ctx} (h : Inv env pid x ⟨c, l⟩) (hk : c'.keep = c.keep)
    (hn : c'.tids.Nodup)
    (ht : ∀ e ∈ c'.t, ∃ f ∈ c.t, e.tid = f.tid ∧ e.kind = f.kind ∧ e.copiedBp = f.copiedBp ∧
      e.copiedOrig = f.copiedOrig)
    (hh : ∀ t, held l t = true → x = some t ∨ Full l ∨ t ∈ c'.tids) :
    Inv env pid x ⟨c', l⟩ := by
  have hkeep := hk
  simp only [Ctx.keep, Ctx.mk.injEq] at hkeep
  obtain ⟨hpid, -, -, -, -, -, hbase, hplanted, horig, -, harmed, harmedo, -⟩ := hkeep
  refine ⟨h.obeys, hpid.trans h.pid_eq, hn, ?_, ?_, ?_, ?_, ?_, ?_, hh⟩
  · intro e he
    obtain ⟨f, hf, h1, h2, -, -⟩ := ht e he
    rw [h1, h2]
    exact h.kinds f hf
  · intro e he
    obtain ⟨f, hf, h1, -, -, -⟩ := ht e he
    rw [h1]
    exact h.known f hf
  · intro e he hc
    obtain ⟨f, hf, -, -, h3, h4⟩ := ht e he
    rw [h3] at hc
    rw [h3, h4]
    exact h.copies f hf hc
  · rw [harmed, harmedo]
    exact h.last
  · rw [hbase, horig, harmed, harmedo]
    exact h.base
  · intro a ha
    rw [hplanted, hbase]
    exact h.armed a ha

end Push

/-! ### The table -/

section Table

variable {env : PsEnv} {pid tid : Tid} {l : PsLog} {x : Option Tid} {c : Ctx} {e : Thr}

theorem Ctx.mem_of_find (h : c.find tid = some e) : e ∈ c.t ∧ e.tid = tid := by
  refine ⟨List.mem_of_find?_eq_some h, ?_⟩
  simpa using List.find?_some h

theorem Ctx.find_isSome : (c.find tid).isSome = true ↔ tid ∈ c.tids := by
  simp [Ctx.find, Ctx.tids]

theorem Ctx.not_mem_of_find_none (h : c.find tid = none) : tid ∉ c.tids := by
  intro hm
  have := Ctx.find_isSome.2 hm
  simp [h] at this

theorem Ctx.tids_put {f : Thr → Thr} (hf : ∀ e, (f e).tid = e.tid) :
    (c.put tid f).tids = c.tids := by
  apply List.ext_getElem?
  intro i
  simp only [Ctx.tids, Ctx.put, List.getElem?_map, List.getElem?_modify]
  cases c.t[i]? with
  | none => simp
  | some e => simp only [Option.map_some]; split <;> simp [hf]

theorem Ctx.mem_tids_put {f : Thr → Thr} {t : Tid} (hf : ∀ e, (f e).tid = e.tid)
    (h : t ∈ c.tids) : t ∈ (c.put tid f).tids := by
  rwa [Ctx.tids_put hf]

theorem Ctx.mem_put {f : Thr → Thr} (h : e ∈ (c.put tid f).t) :
    ∃ g ∈ c.t, e = g ∨ e = f g := by
  obtain ⟨i, hi⟩ := List.mem_iff_getElem?.1 h
  simp only [Ctx.put, List.getElem?_modify, Option.map_eq_map, Option.map_eq_some_iff] at hi
  obtain ⟨g, hg, he⟩ := hi
  refine ⟨g, List.mem_of_getElem? hg, ?_⟩
  split at he
  · exact .inr he.symm
  · exact .inl he.symm

/-- The task that was the exception is in the table, or there was no room for it. -/
theorem Inv.settle (h : Inv env pid (some tid) ⟨c, l⟩) (hm : Full l ∨ tid ∈ c.tids) :
    Inv env pid none ⟨c, l⟩ where
  obeys := h.obeys
  pid_eq := h.pid_eq
  nodup := h.nodup
  kinds := h.kinds
  known := h.known
  copies := h.copies
  last := h.last
  base := h.base
  armed := h.armed
  holding t ht := by
    rcases h.holding t ht with h | h
    · rw [← Option.some_inj.1 h]
      exact .inr hm
    · exact .inr h

/-- A change of the context that the invariant does not see. -/
theorem Inv.same {c' : Ctx} (h : Inv env pid x ⟨c, l⟩) (hk : c'.keep = c.keep)
    (ht : c'.t = c.t) : Inv env pid x ⟨c', l⟩ := by
  have htids : c'.tids = c.tids := congrArg (List.map Thr.tid) ht
  apply h.table hk
  · rw [htids]
    exact h.nodup
  · rw [ht]
    exact fun e he => ⟨e, he, rfl, rfl, rfl, rfl⟩
  · rw [htids]
    exact h.holding

/-- A write to an entry that leaves its name, kind and copy. -/
theorem Inv.put {f : Thr → Thr} (h : Inv env pid x ⟨c, l⟩)
    (hf : ∀ e, (f e).tid = e.tid ∧ (f e).kind = e.kind ∧ (f e).copiedBp = e.copiedBp ∧
      (f e).copiedOrig = e.copiedOrig) : Inv env pid x ⟨c.put tid f, l⟩ := by
  have ht : (c.put tid f).tids = c.tids := Ctx.tids_put fun e => (hf e).1
  have hk : (c.put tid f).keep = c.keep := rfl
  apply h.table hk
  · rw [ht]
    exact h.nodup
  · intro e he
    obtain ⟨g, hg, rfl | rfl⟩ := Ctx.mem_put he
    · exact ⟨e, hg, rfl, rfl, rfl, rfl⟩
    · exact ⟨g, hg, hf g⟩
  · rw [ht]
    exact h.holding

theorem Inv.setStopped {b : Bool} (h : Inv env pid x ⟨c, l⟩) :
    Inv env pid x ⟨c.setStopped tid b, l⟩ :=
  h.put fun _ => ⟨rfl, rfl, rfl, rfl⟩

/-- The last entry in the place of the one that goes is that one erased, in another order. -/
theorem set_dropLast_perm {α : Type} (ts : List α) (last : α) {i : ℕ} (hi : i < ts.length + 1) :
    ((ts ++ [last]).set i last).dropLast.Perm ((ts ++ [last]).eraseIdx i) := by
  rcases Nat.lt_or_ge i ts.length with h | h
  · rw [List.set_append_left _ _ h, List.dropLast_concat, List.eraseIdx_append_of_lt_length h]
    apply (List.set_perm_cons_eraseIdx h last).trans
    apply (List.perm_append_singleton last _).symm
  · obtain rfl : i = ts.length := by omega
    rw [List.set_append_right _ _ le_rfl, List.eraseIdx_append_of_length_le le_rfl]
    simp

theorem Ctx.del_perm : (c.del tid).t.Perm (c.t.eraseP fun e => e.tid == tid) := by
  cases hf : c.find tid with
  | none =>
    have hn : ∀ e ∈ c.t, ¬ (e.tid == tid) = true := by simpa [Ctx.find] using hf
    simp only [Ctx.del, hf]
    rw [List.eraseP_of_forall_not hn]
  | some e =>
    obtain ⟨he, het⟩ := Ctx.mem_of_find hf
    have hx : ∃ e ∈ c.t, (e.tid == tid) = true := ⟨e, he, by simp [het]⟩
    have hlt := List.findIdx_lt_length_of_exists hx
    rw [List.eraseP_eq_eraseIdx, List.findIdx?_eq_some_of_exists hx]
    rcases List.eq_nil_or_concat c.t with h | ⟨ts, last, h⟩
    · simp [h] at he
    · rw [List.concat_eq_append] at h
      have hl : c.t.getLast? = some last := by simp [h]
      simp only [Ctx.del, hf, hl]
      rw [h] at hlt ⊢
      exact set_dropLast_perm ts last (by simpa using hlt)

theorem Ctx.mem_del (h : e ∈ (c.del tid).t) : e ∈ c.t :=
  List.mem_of_mem_eraseP (Ctx.del_perm.subset h)

theorem Ctx.mem_tids_del {t : Tid} (h : t ∈ c.tids) (hne : t ≠ tid) : t ∈ (c.del tid).tids := by
  obtain ⟨e, he, rfl⟩ := List.mem_map.1 h
  apply List.mem_map_of_mem
  apply Ctx.del_perm.symm.subset
  exact (List.mem_eraseP_of_neg (by simpa using hne)).2 he

theorem Ctx.nodup_del (h : c.tids.Nodup) : (c.del tid).tids.Nodup := by
  have hperm : (c.del tid).t.Perm (c.t.eraseP fun e => e.tid == tid) := Ctx.del_perm
  apply (hperm.map Thr.tid).nodup_iff.2
  exact h.sublist ((List.eraseP_sublist).map Thr.tid)

/-- A task leaves the table when it is no longer attached. -/
theorem Inv.del (h : Inv env pid x ⟨c, l⟩) (hd : held l tid = false ∨ Full l) :
    Inv env pid x ⟨c.del tid, l⟩ := by
  have hk : (c.del tid).keep = c.keep := by
    simp only [Ctx.del]
    split <;> rfl
  apply h.table hk (Ctx.nodup_del h.nodup)
  · intro e he
    exact ⟨e, Ctx.mem_del he, rfl, rfl, rfl, rfl⟩
  · intro t ht
    rcases h.holding t ht with h | h | h
    · exact .inl h
    · exact .inr (.inl h)
    · by_cases htt : t = tid
      · subst htt
        rcases hd with hd | hd
        · simp [hd] at ht
        · exact .inr (.inl hd)
      · exact .inr (.inr (Ctx.mem_tids_del h htt))

end Table

end AsmTest.PtraceSample
