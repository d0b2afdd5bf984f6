import AsmTest.Lib.Endian
import AsmTest.PtraceRun

/-!
# What a run of the sampler does to its target

The signals that reach the target are its own and none is kept from it; its text is written
where it was read just before; over a kernel that tells the truth the text is at every moment
what it was, but for one byte, and it is what it was when the sampler answers that the target
is clean.
-/

namespace AsmTest.PtraceSample

open Interaction

variable {env : PsEnv} {pid tid sig fuel perUs windowUs : ℕ} {e : PsEvent} {l : PsLog}
  {expand : List Addr → List Addr}

/-- The log of a whole run. -/
def runLog (env : PsEnv) (pid fuel perUs windowUs : ℕ) (expand : List Addr → List Addr) : PsLog :=
  (ptraceSample fuel perUs windowUs expand env (start pid)).2.log

theorem runLog_obeys (env : PsEnv) (pid fuel perUs windowUs : ℕ) (expand : List Addr → List Addr) :
    Obeys (Rule env pid) (runLog env pid fuel perUs windowUs expand) :=
  (ptraceSample_returned env pid fuel perUs windowUs expand).obeys

/-! ### Signals -/

theorem lastStop_split {event : ℕ} (h : lastStop l = some (tid, sig, event)) :
    ∃ rest, l = sinceStop l ++ ⟨.wait, .stopped tid sig event⟩ :: rest := by
  induction l with
  | nil => simp [lastStop] at h
  | cons e l ih =>
    cases hs : stopOf e with
    | some s =>
      simp only [lastStop, hs, Option.some.injEq] at h
      subst h
      rcases e with ⟨call, a⟩
      cases call with
      | wait =>
        cases a with
        | stopped w s ev =>
          simp only [stopOf, Option.some.injEq, Prod.mk.injEq] at hs
          obtain ⟨rfl, rfl, rfl⟩ := hs
          exact ⟨l, rfl⟩
        | _ => simp [stopOf] at hs
      | _ => simp [stopOf] at hs
    | none =>
      rw [lastStop_cons hs] at h
      split at h
      · rename_i hk
        obtain ⟨rest, hl⟩ := ih h
        refine ⟨rest, ?_⟩
        rw [sinceStop, List.takeWhile_cons_of_pos hk, List.cons_append, ← sinceStop, ← hl]
      · simp at h

theorem keepsStops_of_sinceStop (h : e ∈ sinceStop l) : keepsStops e = true :=
  List.all_eq_true.1 List.all_takeWhile e h

/-- Every signal that a resume or a detach delivers is the one of the stop that the task is
in. A SIGTRAP is delivered to tasks of the target alone, when its code was read in that stop
and is one of the traps that a program makes itself, and the program counter was read too and
is not behind the byte planted last. -/
def SignalsOwn (pid : Tid) (log : PsLog) : Prop :=
  ∀ post e pre tid sig, log = post ++ e :: pre →
    e.call = .cont tid sig ∨ e.call = .detach tid sig → sig ≠ 0 →
    ∃ mid rest, pre = mid ++ ⟨.wait, .stopped tid sig 0⟩ :: rest ∧
      (∀ f ∈ mid, keepsStops f = true) ∧
      (sig = sigTrap → kindOf pid pre tid = .own ∧
        (∃ code, appCode code = true ∧ ⟨.siginfo tid, code⟩ ∈ mid) ∧
        (trapAt pre ≠ 0 → ∃ pc, pc ≠ (trapAt pre + 1) % wrapAddr ∧ ⟨.regs tid, some pc⟩ ∈ mid))

theorem signals_own (env : PsEnv) (pid fuel perUs windowUs : ℕ)
    (expand : List Addr → List Addr) :
    SignalsOwn pid (runLog env pid fuel perUs windowUs expand) := by
  intro post e pre tid sig hlog hcall hsig
  have hobeys := runLog_obeys env pid fuel perUs windowUs expand
  rw [hlog] at hobeys
  have hj := hobeys.at.inject tid sig hcall hsig
  obtain ⟨rest, hrest⟩ := lastStop_split hj.stop
  refine ⟨sinceStop pre, rest, hrest, fun f hf => keepsStops_of_sinceStop hf, fun hs => ?_⟩
  exact ⟨hj.own hs, hj.code hs, hj.away hs⟩

/-- After a stop for a signal other than SIGTRAP nothing is resumed before the task is, with
that signal, unless the task is known to be one of another process by then or more tasks were
met than the table has slots. -/
def SignalsDelivered (pid : Tid) (log : PsLog) : Prop :=
  ∀ post pre tid sig, log = post ++ ⟨.wait, .stopped tid sig 0⟩ :: pre → sig ≠ sigTrap →
    ∃ later mid, post = later ++ mid ∧ (∀ f ∈ mid, keepsStops f = true) ∧
      (Exempt pid (mid ++ ⟨.wait, .stopped tid sig 0⟩ :: pre) tid ∨
        ∃ later' ok, later = later' ++ [⟨.cont tid sig, ok⟩])

theorem lastStop_append {mid pre : PsLog} {event : ℕ} (hm : ∀ f ∈ mid, keepsStops f = true) :
    lastStop (mid ++ ⟨.wait, .stopped tid sig event⟩ :: pre) = some (tid, sig, event) := by
  induction mid with
  | nil => rfl
  | cons f mid ih =>
    have hf := hm f (by simp)
    have hs : stopOf f = none := by
      rcases f with ⟨call, a⟩
      cases call with
      | wait => simp [keepsStops] at hf
      | _ => rfl
    rw [List.cons_append, lastStop_cons hs, if_pos hf]
    exact ih fun g hg => hm g (by simp [hg])

/-- The calls after the stop are walked from the oldest on, as long as they leave it. -/
theorem delivered_from {pre : PsLog} (hsig : sig ≠ sigTrap) (post : PsLog) : ∀ mid,
    (∀ f ∈ mid, keepsStops f = true) →
    Obeys (Rule env pid) (post ++ (mid ++ ⟨.wait, .stopped tid sig 0⟩ :: pre)) →
    Quiet pid (post ++ (mid ++ ⟨.wait, .stopped tid sig 0⟩ :: pre)) →
    ∃ later mid', post ++ mid = later ++ mid' ∧ (∀ f ∈ mid', keepsStops f = true) ∧
      (Exempt pid (mid' ++ ⟨.wait, .stopped tid sig 0⟩ :: pre) tid ∨
        ∃ later' ok, later = later' ++ [⟨.cont tid sig, ok⟩]) := by
  induction post using List.reverseRecOn with
  | nil =>
    intro mid hm _ hq
    exact ⟨[], mid, rfl, hm, .inl (hq tid sig (lastStop_append hm) hsig)⟩
  | append_singleton post f ih =>
    intro mid hm hobeys hq
    rw [List.append_assoc] at hobeys hq
    have hrule : Rule env pid f (mid ++ ⟨.wait, .stopped tid sig 0⟩ :: pre) := hobeys.at
    rcases hrule.redeliver tid sig (lastStop_append hm) hsig with hk | hc | hx
    · have hm' : ∀ g ∈ f :: mid, keepsStops g = true := by simpa [hk] using hm
      obtain ⟨later, mid', heq, hres⟩ := ih (f :: mid) hm' hobeys hq
      exact ⟨later, mid', by rw [← heq]; simp, hres⟩
    · obtain ⟨call, ok⟩ := f
      simp only at hc
      subst hc
      exact ⟨post ++ [⟨.cont tid sig, ok⟩], mid, rfl, hm, .inr ⟨post, ok, rfl⟩⟩
    · exact ⟨post ++ [f], mid, rfl, hm, .inl hx⟩

theorem signals_delivered (env : PsEnv) (pid fuel perUs windowUs : ℕ)
    (expand : List Addr → List Addr) :
    SignalsDelivered pid (runLog env pid fuel perUs windowUs expand) := by
  intro post pre tid sig hlog hsig
  have hdone := ptraceSample_returned env pid fuel perUs windowUs expand
  have hobeys := hdone.obeys
  have hquiet := hdone.quiet
  rw [runLog] at hlog
  rw [hlog] at hobeys hquiet
  simpa using delivered_from hsig post [] (by simp) hobeys hquiet

/-! ### The text -/

/-- Every write of text follows the read of the word that it takes the place of. A trap byte
is planted through a task of the target, into the word that was read, when no byte of ours
can still be in; a word is put back only over a trap byte, at an address that was planted, and
is the one that was there before. -/
def WritesGuarded (pid : Tid) (log : PsLog) : Prop :=
  ∀ post e pre why tid a word, log = post ++ e :: pre → e.call = .poke why tid a word →
    ∃ cur pre', pre = ⟨.peek tid a, .word cur⟩ :: pre' ∧
      match why with
      | .plant o => cur = o ∧ word = trapWord o ∧ kindOf pid pre tid = .own ∧
          armedNow pid pre = none
      | .restore => cur % 256 = 0xcc ∧ (a, word) ∈ plants pre

theorem writes_guarded (env : PsEnv) (pid fuel perUs windowUs : ℕ)
    (expand : List Addr → List Addr) :
    WritesGuarded pid (runLog env pid fuel perUs windowUs expand) := by
  intro post e pre why tid a word hlog hcall
  have hobeys := runLog_obeys env pid fuel perUs windowUs expand
  rw [hlog] at hobeys
  cases why with
  | plant o =>
    obtain ⟨hown, hn, hw, pre', hpre⟩ := hobeys.at.plant o tid a word hcall
    exact ⟨o, pre', hpre, rfl, hw, hown, hn⟩
  | restore =>
    obtain ⟨hmem, cur, pre', hpre, hcc⟩ := hobeys.at.restore tid a word hcall
    exact ⟨cur, pre', hpre, hcc, hmem⟩

/-! ### A kernel that tells the truth -/

/-- A program in memory: its bytes, where it is mapped, and the tasks that share it. -/
structure Target where
  mem : Addr → UInt8
  mapped : Addr → Bool
  home : Tid → Bool

def wordAt (m : ℕ → UInt8) (a : ℕ) : ℕ :=
  Endian.ofLe (List.ofFn fun i : Fin 8 => m (a + i))

def writeWord (m : ℕ → UInt8) (a w : ℕ) : ℕ → UInt8 := fun b =>
  if a ≤ b ∧ b < a + 8 then (Endian.leBytes 8 w).getD (b - a) 0 else m b

def pokeOf : PsEvent → Option (Tid × Addr × ℕ)
  | ⟨.poke _ tid a w, true⟩ => some (tid, a, w)
  | _ => none

/-- The text of the target after the calls: only the writes of the sampler change it. -/
def textAfter (T : Target) : PsLog → Addr → UInt8
  | [] => T.mem
  | e :: l =>
    match pokeOf e with
    | some (tid, a, w) => if T.home tid then writeWord (textAfter T l) a w else textAfter T l
    | none => textAfter T l

/-- The tasks in the thread group of the target share its memory, and a peek through a task
that shares it gives the text as it is, or says that nothing is mapped there. -/
structure Faithful (env : PsEnv) (pid : Tid) (T : Target) : Prop where
  leader : T.home pid = true
  group : ∀ l tid, env l (.tgid tid) = some pid → T.home tid = true
  peek : ∀ l tid a w, T.home tid = true → env l (.peek tid a) = .word w →
    w = wordAt (textAfter T l) a ∧ T.mapped a = true
  unmapped : ∀ l tid a, T.home tid = true → env l (.peek tid a) = .unmapped → T.mapped a = false
  zero : T.mapped 0 = false

section Words

variable {m : ℕ → UInt8} {a b : ℕ}

theorem leBytes_wordAt : Endian.leBytes 8 (wordAt m a) = List.ofFn fun i : Fin 8 => m (a + i) := by
  have h := Endian.leBytes_ofLe (List.ofFn fun i : Fin 8 => m (a + i))
  rwa [List.length_ofFn] at h

/-- A word of one text written into another. -/
theorem writeWord_wordAt (m m' : ℕ → UInt8) (a : ℕ) : writeWord m a (wordAt m' a) =
    fun b => if a ≤ b ∧ b < a + 8 then m' b else m b := by
  funext b
  unfold writeWord
  split
  · rename_i hb
    have hlt : b - a < 8 := by omega
    have hab : a + (b - a) = b := by omega
    rw [leBytes_wordAt, List.getD_eq_getElem?_getD, List.getElem?_ofFn, dif_pos hlt]
    simp [hab]
  · rfl

theorem wordAt_mod : wordAt m a % 256 = (m a).toNat := by
  have h := (m a).toNat_lt
  simp only [wordAt, List.ofFn_succ, Endian.ofLe, Fin.val_zero, Nat.add_zero]
  omega

/-- The word with the trap byte is the word of the text with it. -/
theorem trapWord_wordAt : trapWord (wordAt m a) = wordAt (Function.update m a 0xcc) a := by
  have h := (m a).toNat_lt
  have hne : ∀ i : Fin 7, a + (i.succ : ℕ) ≠ a := by simp
  simp only [wordAt, List.ofFn_succ (n := 7), Endian.ofLe, Fin.val_zero, Nat.add_zero,
    Function.update_self, Function.update_of_ne (hne _), trapWord]
  have hcc : (0xcc : UInt8).toNat = 0xcc := rfl
  omega

theorem writeWord_trap : writeWord m a (trapWord (wordAt m a)) = Function.update m a 0xcc := by
  rw [trapWord_wordAt, writeWord_wordAt]
  funext b
  by_cases hb : b = a
  · simp [hb]
  · simp [Function.update_of_ne hb]

/-- The original word put back takes the trap byte out, or changes nothing. -/
theorem writeWord_restore : writeWord m a (wordAt m a) = m := by
  rw [writeWord_wordAt]
  simp

theorem writeWord_restore_update : writeWord (Function.update m b 0xcc) a (wordAt m a) = m ∨
    b ≠ a ∧ writeWord (Function.update m b 0xcc) a (wordAt m a) = Function.update m b 0xcc := by
  rw [writeWord_wordAt]
  by_cases hb : a ≤ b ∧ b < a + 8
  · left
    funext c
    by_cases hc : c = b
    · simp [hc, hb]
    · simp [Function.update_of_ne hc]
  · refine .inr ⟨by omega, ?_⟩
    funext c
    split
    · rename_i hc
      rw [Function.update_of_ne]
      rintro rfl
      exact hb hc
    · rfl

end Words

section Truth

variable {T : Target} {a : Addr}

theorem Faithful.home_of_own (h : Faithful env pid T) (hl : Obeys (Rule env pid) l)
    (hk : kindOf pid l tid = .own) : T.home tid = true := by
  induction l with
  | nil =>
    have : tid = pid := by simpa [kindOf] using hk
    exact this ▸ h.leader
  | cons e l ih =>
    cases ht : tgidAnswer e with
    | none =>
      rw [kindOf_cons ht] at hk
      exact ih hl.2 hk
    | some p =>
      obtain ⟨t, g⟩ := p
      simp only [kindOf, ht] at hk
      split at hk
      · rename_i heq
        obtain ⟨rfl, -⟩ := heq
        rcases e with ⟨call, ans⟩
        have hans := hl.1.answer
        cases call with
        | tgid u =>
          simp only [tgidAnswer, Option.some.injEq, Prod.mk.injEq] at ht
          obtain ⟨rfl, rfl⟩ := ht
          cases ans with
          | none => simp [kindOfTgid] at hk
          | some g =>
            have hg : g = pid := by
              by_contra hne
              simp [kindOfTgid, hne] at hk
            exact h.group l u (by rw [← hg]; exact hans.symm)
        | _ => simp [tgidAnswer] at ht
      · exact ih hl.2 hk

theorem armedNow_mem (h : armedNow pid l = some a) : ∃ o, (a, o) ∈ plants l := by
  induction l with
  | nil => simp [armedNow] at h
  | cons e l ih =>
    cases hp : plantOf e with
    | none =>
      rw [plants_cons hp]
      exact ih (armedNow_cons hp h)
    | some p =>
      simp only [armedNow, hp] at h
      split at h
      · obtain ⟨o, ho⟩ := ih h
        exact ⟨o, mem_plants_cons ho⟩
      · rw [← Option.some_inj.1 h]
        exact ⟨p.2, by simp [plants, hp]⟩

/-- The text is the original one, up to the byte that may be in, and what was planted took the
place of original words. -/
structure TextOk (pid : Tid) (T : Target) (l : PsLog) : Prop where
  text : textAfter T l = T.mem ∨
    ∃ a, armedNow pid l = some a ∧ textAfter T l = Function.update T.mem a 0xcc
  words : ∀ p ∈ plants l, p.2 = wordAt T.mem p.1 ∧ T.mapped p.1 = true

/-- A call that writes no text and shows nothing of it. -/
theorem TextOk.quiet (h : TextOk pid T l) (hp : plantOf e = none) (hc : cleanOf e = none)
    (hw : pokeOf e = none) : TextOk pid T (e :: l) where
  text := by simpa only [textAfter, hw, armedNow, hp, hc] using h.text
  words := by simpa only [plants_cons hp] using h.words

/-- A word that was seen through a task that shares the text, without a byte of ours in it. -/
theorem TextOk.seen (h : TextOk pid T l) (hp : plantOf e = none) (hw : pokeOf e = none)
    (hc : cleanOf e = some (tid, a)) (hhome : kindOf pid l tid = .own →
      armedNow pid l = some a → textAfter T l ≠ Function.update T.mem a 0xcc) :
    TextOk pid T (e :: l) where
  text := by
    simp only [textAfter, hw, armedNow, hp, hc]
    rcases h.text with ht | ⟨b, hb, ht⟩
    · exact .inl ht
    · refine .inr ⟨b, ?_, ht⟩
      rw [if_neg]
      · exact hb
      · rintro ⟨hown, ha⟩
        have hab : a = b := Option.some_inj.1 (ha.symm.trans hb)
        exact hhome hown ha (hab ▸ ht)
  words := by simpa only [plants_cons hp] using h.words

theorem TextOk.peek {ans : Peek} (hf : Faithful env pid T) (hl : Obeys (Rule env pid) l)
    (hans : ans = env l (.peek tid a)) (h : TextOk pid T l) :
    TextOk pid T (⟨.peek tid a, ans⟩ :: l) := by
  cases ans with
  | failed => exact h.quiet rfl rfl rfl
  | unmapped =>
    apply h.seen rfl rfl rfl
    intro hown ha _
    -- what was planted is mapped
    obtain ⟨o, ho⟩ := armedNow_mem ha
    have hno := hf.unmapped l tid a (hf.home_of_own hl hown) hans.symm
    simp [(h.words _ ho).2] at hno
  | word w =>
    by_cases hcc : w % 256 = 0xcc
    · exact h.quiet rfl (if_neg (not_not.2 hcc)) rfl
    · have hc : cleanOf ⟨.peek tid a, .word w⟩ = some (tid, a) := if_pos hcc
      apply h.seen rfl rfl hc
      intro hown _ ht
      obtain ⟨hw, -⟩ := hf.peek l tid a w (hf.home_of_own hl hown) hans.symm
      apply hcc
      rw [hw, wordAt_mod, ht, Function.update_self]
      rfl

theorem TextOk.plant {o : ℕ} (hf : Faithful env pid T)
    (hl : Obeys (Rule env pid) (⟨.poke (.plant o) tid a (trapWord o), true⟩ :: l))
    (h : TextOk pid T l) : TextOk pid T (⟨.poke (.plant o) tid a (trapWord o), true⟩ :: l) := by
  obtain ⟨hown, hn, -, l', rfl⟩ := hl.1.plant o tid a _ rfl
  have hhome := hf.home_of_own hl.2 hown
  obtain ⟨ho, hmap⟩ := hf.peek l' tid a o hhome hl.2.1.answer.symm
  have htext : textAfter T l' = T.mem := by
    rcases h.text with ht | ⟨b, hb, -⟩
    · exact ht
    · simp [hn] at hb
  rw [htext] at ho
  have h0 : a ≠ 0 := by
    rintro rfl
    simp [hf.zero] at hmap
  refine ⟨.inr ⟨a, by simp [armedNow, plantOf, h0], ?_⟩, ?_⟩
  · simp only [textAfter, pokeOf, hhome, if_true, htext, ho]
    exact writeWord_trap
  · intro p hp
    rcases List.mem_cons.1 hp with rfl | hp
    · exact ⟨ho, hmap⟩
    · exact h.words p hp

theorem TextOk.restore {word : ℕ} (hf : Faithful env pid T)
    (hl : Obeys (Rule env pid) (⟨.poke .restore tid a word, true⟩ :: l)) (h : TextOk pid T l) :
    TextOk pid T (⟨.poke .restore tid a word, true⟩ :: l) := by
  obtain ⟨hmem, -⟩ := hl.1.restore tid a word rfl
  have hword : word = wordAt T.mem a := (h.words _ hmem).1
  subst hword
  refine ⟨?_, h.words⟩
  cases hhome : T.home tid with
  | false =>
    -- another memory: nothing changes, and the task is not one of the target
    have hown : kindOf pid l tid ≠ .own := fun hk => by
      simp [hf.home_of_own hl.2 hk] at hhome
    simpa [textAfter, pokeOf, hhome, armedNow, plantOf, cleanOf, hown] using h.text
  | true =>
    simp only [textAfter, pokeOf, hhome, if_true]
    rcases h.text with ht | ⟨b, hb, ht⟩
    · rw [ht]
      exact .inl writeWord_restore
    · rw [ht]
      rcases writeWord_restore_update (m := T.mem) (a := a) (b := b) with hr | ⟨hne, hr⟩
      · exact .inl hr
      · exact .inr ⟨b, by simp [armedNow, plantOf, cleanOf, hb, hne], hr⟩

/-- The text along a log that keeps the rule. -/
theorem textOk (hf : Faithful env pid T) (hl : Obeys (Rule env pid) l) : TextOk pid T l := by
  induction l with
  | nil => exact ⟨.inl rfl, by simp [plants]⟩
  | cons e l ih =>
    have h := ih hl.2
    obtain ⟨call, ans⟩ := e
    cases call with
    | peek tid a => exact h.peek hf hl.2 hl.1.answer
    | poke why tid a word =>
      cases why with
      | plant o =>
        obtain ⟨-, -, rfl, -⟩ := hl.1.plant o tid a word rfl
        cases ans with
        | true => exact h.plant hf hl
        | false => exact h.quiet rfl rfl rfl
      | restore =>
        cases ans with
        | true => exact h.restore hf hl
        | false => exact h.quiet rfl rfl rfl
    | _ => exact h.quiet rfl rfl rfl

end Truth

/-! ### A target of one task -/

/-- A program of nops from the second page on, with one task. -/
def nops : Target where
  mem := fun _ => 0x90
  mapped := fun a => decide (4096 ≤ a)
  home := fun tid => tid == 7

/-- Was the task interrupted since its last stop? -/
def interrupted : PsLog → Bool
  | [] => false
  | ⟨.interrupt _, _⟩ :: _ => true
  | e :: l => if (stopOf e).isSome then false else interrupted l

/-- The kernel of that program: the task stops when it is interrupted and never at 4096. -/
def oneTask : PsEnv := fun l call =>
  match call with
  | .peek _ a => if 4096 ≤ a then .word (wordAt (textAfter nops l) a) else .unmapped
  | .poke .. | .setPc .. | .cont .. | .listen _ | .detach .. | .interrupt _ | .step _
  | .executing _ => true
  | .regs _ => some 8192
  | .siginfo _ => some siKernel
  | .eventMsg _ => none
  | .tgid tid => some (if tid = 7 then 7 else 0)
  | .seize _ => .ok
  | .wait => if interrupted l then .stopped 7 sigTrap eventStop else .nothing
  | .now => l.length
  | .nap => ()
  | .tasks => some [7]

theorem oneTask_faithful : Faithful oneTask 7 nops where
  leader := rfl
  group l tid h := by
    simp only [oneTask, Option.some.injEq] at h
    by_cases ht : tid = 7
    · simp [nops, ht]
    · simp [ht] at h
  peek l tid a w _ h := by
    simp only [oneTask] at h
    split at h
    · rename_i ha
      simp only [Peek.word.injEq] at h
      exact ⟨h.symm, by simpa [nops] using ha⟩
    · simp at h
  unmapped l tid a _ h := by
    simp only [oneTask] at h
    split at h
    · simp at h
    · rename_i ha
      simpa [nops] using ha
  zero := by simp [nops]

/-- At every moment of a run over a kernel that tells the truth the text of the target is the
original one, or differs from it in the one byte of an address that was planted. -/
theorem text_during (env : PsEnv) (pid fuel perUs windowUs : ℕ)
    (expand : List Addr → List Addr) (T : Target) (hf : Faithful env pid T) :
    ∀ post pre, runLog env pid fuel perUs windowUs expand = post ++ pre →
      textAfter T pre = T.mem ∨ ∃ a o, (a, o) ∈ plants pre ∧
        textAfter T pre = Function.update T.mem a 0xcc := by
  intro post pre hlog
  have hobeys := runLog_obeys env pid fuel perUs windowUs expand
  rw [hlog] at hobeys
  rcases (textOk hf hobeys.of_append).text with ht | ⟨a, ha, ht⟩
  · exact .inl ht
  · obtain ⟨o, ho⟩ := armedNow_mem ha
    exact .inr ⟨a, o, ho, ht⟩

/-- Once the breakpoint is in -/
theorem text_during_oneTask :
    let log := runLog oneTask 7 20 20 20 fun _ => [4096]
    textAfter nops (log.drop 20) 4096 = 0xcc ∧
      (textAfter nops (log.drop 20) = nops.mem ∨ ∃ a o, (a, o) ∈ plants (log.drop 20) ∧
        textAfter nops (log.drop 20) = Function.update nops.mem a 0xcc) :=
  ⟨by decide +kernel, text_during oneTask 7 20 20 20 (fun _ => [4096]) nops oneTask_faithful _ _
    (List.take_append_drop 20 _).symm⟩

/-- When the sampler answers that the target is clean, its text is the original one, or every
task of it, all of them seized, had gone before the teardown; and no task is left attached,
unless more were met than the table has slots. -/
theorem clean_handback (env : PsEnv) (pid fuel perUs windowUs : ℕ)
    (expand : List Addr → List Addr) (T : Target) (hf : Faithful env pid T)
    (hclean : (ptraceSample fuel perUs windowUs expand env (start pid)).1.2 = true) :
    let body := (psBody fuel perUs windowUs expand env (start pid)).2
    let log := runLog env pid fuel perUs windowUs expand
    (textAfter T log = T.mem ∨ body.ctx.covered = true ∧ body.ctx.t = []) ∧
      ∀ tid, held log tid = true → Full log := by
  have hdone := ptraceSample_returned env pid fuel perUs windowUs expand
  refine ⟨?_, hdone.free hclean⟩
  rcases hdone.text hclean with hgone | hn
  · exact .inr hgone
  · rcases (textOk hf hdone.obeys).text with ht | ⟨a, ha, -⟩
    · exact .inl ht
    · simp [hn] at ha

theorem clean_handback_oneTask :
    let body := (psBody 20 20 20 (fun _ => [4096]) oneTask (start 7)).2
    let log := runLog oneTask 7 20 20 20 fun _ => [4096]
    (textAfter nops log = nops.mem ∨ body.ctx.covered = true ∧ body.ctx.t = []) ∧
      ∀ tid, held log tid = true → Full log :=
  clean_handback oneTask 7 20 20 20 (fun _ => [4096]) nops oneTask_faithful (by decide)

end AsmTest.PtraceSample
