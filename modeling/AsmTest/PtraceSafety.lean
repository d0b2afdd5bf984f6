import AsmTest.PtraceRules

/-!
# The sampler keeps the rule

One triple for each operation, from the single calls up to the whole run. The pump and the
handling of a stop call each other; the fuel of the pump is what the induction is on.
-/

namespace AsmTest.PtraceSample

open Interaction

section Reads

/-- Calls to a stopped task that read, or put a word back. -/
def reads (e : PsEvent) : Bool :=
  match e.call with
  | .peek .. | .poke .restore .. | .regs _ | .setPc .. | .siginfo _ => true
  | _ => false

variable {e : PsEvent} {l : PsLog} {pid tid : Tid}

theorem silent_of_reads (h : reads e = true) : Silent e := by
  rcases e with ⟨call, a⟩
  cases call with
  | poke why =>
    cases why with
    | plant o => simp [reads] at h
    | restore => exact ⟨rfl, rfl, by simp [heldOf]⟩
  | peek | regs | setPc | siginfo => exact ⟨rfl, rfl, by simp [heldOf]⟩
  | _ => simp [reads] at h

theorem stopOf_of_reads (h : reads e = true) : stopOf e = none := by
  rcases e with ⟨call, a⟩
  cases call with
  | wait => simp [reads] at h
  | _ => rfl

theorem keepsStops_of_reads (h : reads e = true) : keepsStops e = true := by
  rcases e with ⟨call, a⟩
  cases call with
  | peek | poke | regs | setPc | siginfo => rfl
  | _ => simp [reads] at h

/-- From one world to another by reads alone. -/
structure From (w₀ w : PsWorld) : Prop where
  ctx : w.ctx = w₀.ctx
  log : ∃ mid, w.log = mid ++ w₀.log ∧ ∀ e ∈ mid, reads e = true

variable {w₀ w w₁ : PsWorld}

theorem From.refl : From w w := ⟨rfl, [], by simp⟩

theorem From.trans (h : From w₀ w₁) (h' : From w₁ w) : From w₀ w := by
  obtain ⟨m, hm, hr⟩ := h.log
  obtain ⟨m', hm', hr'⟩ := h'.log
  refine ⟨h'.ctx.trans h.ctx, m' ++ m, by rw [hm', hm, List.append_assoc], ?_⟩
  intro e he
  rcases List.mem_append.1 he with he | he
  · exact hr' e he
  · exact hr e he

theorem From.push (h : From w₀ w) (he : reads e = true) :
    From w₀ { w with log := e :: w.log } := by
  obtain ⟨m, hm, hr⟩ := h.log
  exact ⟨h.ctx, e :: m, by simp [hm], by simpa [he] using hr⟩

/-- What reads leave as it is, they leave as it is all together. -/
theorem From.same {α : Type} {f : PsLog → α} (h : From w₀ w)
    (hf : ∀ e l, reads e = true → f (e :: l) = f l) : f w.log = f w₀.log := by
  obtain ⟨m, hm, hr⟩ := h.log
  rw [hm]
  clear hm
  induction m with
  | nil => rfl
  | cons e m ih =>
    rw [List.cons_append, hf e _ (hr e (by simp))]
    exact ih fun e' he' => hr e' (by simp [he'])

theorem From.lastStop (h : From w₀ w) : lastStop w.log = lastStop w₀.log :=
  h.same fun e l he => by simp [lastStop_cons (stopOf_of_reads he), keepsStops_of_reads he]

theorem From.kindOf (h : From w₀ w) : kindOf pid w.log = kindOf pid w₀.log :=
  h.same fun _ _ he => kindOf_cons (silent_of_reads he).tgid

theorem From.plants (h : From w₀ w) : plants w.log = plants w₀.log :=
  h.same fun _ _ he => plants_cons (silent_of_reads he).plant

theorem From.sinceStop (h : From w₀ w) (he : e ∈ sinceStop w₀.log) : e ∈ sinceStop w.log := by
  obtain ⟨m, hm, hr⟩ := h.log
  rw [hm]
  clear hm
  induction m with
  | nil => exact he
  | cons f m ih =>
    have hf := keepsStops_of_reads (hr f (by simp))
    have ih := ih fun e' he' => hr e' (by simp [he'])
    simp [PtraceSample.sinceStop, hf]
    exact .inr ih

theorem From.quiet (h : From w₀ w) (hq : Quiet pid w₀.log) : Quiet pid w.log := by
  obtain ⟨m, hm, hr⟩ := h.log
  rw [hm]
  clear hm
  induction m with
  | nil => exact hq
  | cons e m ih =>
    have he := hr e (by simp)
    exact (ih fun e' he' => hr e' (by simp [he'])).push (silent_of_reads he) (stopOf_of_reads he)

end Reads

/-! ### The trap byte -/

section Byte

variable {env : PsEnv} {pid tid : Tid} {x : Option Tid} {w₀ : PsWorld} {base : Addr} {orig : ℕ}

/-- The invariant, reached by reads. -/
def Near (env : PsEnv) (pid : Tid) (x : Option Tid) (w₀ : PsWorld) : Assn Ans Ctx :=
  fun w => Inv env pid x w ∧ From w₀ w

theorem near_of {P : Assn Ans Ctx} {α : Type} {m : Ps α} {Q : α → Assn Ans Ctx}
    (h : ∀ w, P w → Inv env pid x w)
    (hm : ∀ w₁, P w₁ → Triple env (Near env pid x w₁) m Q) : Triple env P m Q := by
  apply triple_at
  intro w₁ hw
  apply triple_pre (hm w₁ hw)
  rintro w rfl
  exact ⟨h w hw, .refl⟩

/-- A read, with itself on the log. -/
theorem triple_read {call : Call} (hc : plain call = true)
    (hr : ∀ a, reads ⟨call, a⟩ = true) :
    Triple env (Near env pid x w₀) (Interaction.call call)
      fun a w => Near env pid x w₀ w ∧ ∃ l, w.log = ⟨call, a⟩ :: l ∧
        kindOf pid l = kindOf pid w₀.log ∧ plants l = plants w₀.log := by
  apply triple_call
  intro w hw
  have he := hr (env w.log call)
  have hrule : Rule env pid ⟨call, env w.log call⟩ w.log :=
    rule_plain hc (.inl (keepsStops_of_reads he))
  refine ⟨⟨hw.1.push hrule (silent_of_reads he), hw.2.push he⟩, _, rfl, ?_, ?_⟩
  · exact hw.2.kindOf
  · exact hw.2.plants

theorem armedNow_clean {e : PsEvent} {l : PsLog} {a : Addr} (hp : plantOf e = none)
    (hc : cleanOf e = some (tid, a)) (hk : kindOf pid l tid = .own) :
    armedNow pid (e :: l) ≠ some a := by
  simp only [armedNow, hp, hc, hk, true_and]
  split
  · simp
  · assumption

/-- Whoever restores reads first, and afterwards nothing of ours is at the address if the
task is one of the target. -/
theorem psRestoreCopy_spec (hb : base ≠ 0 → (base, orig) ∈ plants w₀.log) :
    Triple env (Near env pid x w₀) (psRestoreCopy tid base orig) fun ok w =>
      Near env pid x w₀ w ∧ (ok = true → base ≠ 0 → kindOf pid w₀.log tid = .own →
        armedNow pid w.log ≠ some base) := by
  unfold psRestoreCopy
  apply triple_ite
  · intro h0
    exact triple_pure true fun w hw => ⟨hw, fun _ h => absurd h0 h⟩
  · intro h0
    refine triple_bind (triple_read rfl fun _ => rfl) fun a => ?_
    cases a with
    | unmapped =>
      apply triple_pure
      rintro w ⟨hw, l, hl, hk, -⟩
      refine ⟨hw, fun _ _ hown => ?_⟩
      rw [hl]
      exact armedNow_clean rfl rfl (by rw [hk]; exact hown)
    | failed => exact triple_pure false fun w hw => ⟨hw.1, by simp⟩
    | word cur =>
      apply triple_ite
      · intro hcc
        apply triple_pure
        rintro w ⟨hw, l, hl, hk, -⟩
        refine ⟨hw, fun _ _ hown => ?_⟩
        rw [hl]
        apply armedNow_clean rfl
        · exact if_pos hcc
        · rw [hk]
          exact hown
      · intro hcc
        apply triple_call
        rintro w ⟨hw, l, hl, hk, hp⟩
        -- the read that allows the write is the last call
        have hrule : Rule env pid ⟨.poke .restore tid base orig,
            env w.log (.poke .restore tid base orig)⟩ w.log := by
          refine ⟨rfl, by simp, fun _ _ _ _ => .inl rfl, by simp, ?_⟩
          intro t a word hcall
          simp only [Call.poke.injEq, true_and] at hcall
          obtain ⟨rfl, rfl, rfl⟩ := hcall
          exact ⟨by rw [hw.2.plants]; exact hb h0, cur, l, hl, by simpa using hcc⟩
        refine ⟨⟨hw.1.push hrule (silent_of_reads rfl), hw.2.push rfl⟩, fun hok _ hown => ?_⟩
        rw [hok]
        apply armedNow_clean rfl rfl
        rw [hw.2.kindOf]
        exact hown

/-- The part of the last lemma that a caller with a base of its own needs. -/
theorem psRestoreCopy_near (hb : base ≠ 0 → (base, orig) ∈ plants w₀.log) :
    Triple env (Near env pid x w₀) (psRestoreCopy tid base orig)
      fun _ => Near env pid x w₀ :=
  triple_post (psRestoreCopy_spec hb) fun _ _ h => h.1

theorem psTrapWhere_spec : Triple env (Near env pid x w₀) (psTrapWhere tid base) fun r w =>
    Near env pid x w₀ w ∧ (r = some false → base ≠ 0 →
      ∃ pc, pc ≠ (base + 1) % wrapAddr ∧ ⟨.regs tid, some pc⟩ ∈ sinceStop w.log) := by
  unfold psTrapWhere
  apply triple_ite
  · intro h0
    exact triple_pure _ fun w hw => ⟨hw, fun _ h => absurd h0 h⟩
  · intro h0
    refine triple_bind (triple_read rfl fun _ => rfl) fun a => ?_
    cases a with
    | none => exact triple_pure _ fun w hw => ⟨hw.1, by simp⟩
    | some pc =>
      apply triple_pure
      rintro w ⟨hw, l, hl, -, -⟩
      refine ⟨hw, fun hr _ => ⟨pc, by simpa using hr, ?_⟩⟩
      rw [hl]
      exact List.mem_cons_self

theorem psRewind_spec :
    Triple env (Near env pid x w₀) (psRewind tid base) fun _ => Near env pid x w₀ := by
  unfold psRewind
  apply triple_ite
  · intro _
    exact triple_pure _ fun _ hw => hw
  · intro _
    refine triple_bind (triple_read rfl fun _ => rfl) fun a => ?_
    cases a with
    | none => exact triple_pure _ fun _ hw => hw.1
    | some pc =>
      apply triple_ite
      · intro _
        exact triple_pure _ fun _ hw => hw.1
      · intro _
        apply triple_pre _ fun w hw => hw.1
        exact triple_post (triple_read rfl fun _ => rfl) fun _ _ h => h.1

end Byte

/-! ### The reason of a stop -/

section Classify

variable {env : PsEnv} {pid tid sig event : ℕ} {x : Option Tid} {w w₀ : PsWorld}
  {why : Reason} {l : PsLog}

/-- What the reason says about the stop. -/
structure Classified (tid sig event : ℕ) (why : Reason) (l : PsLog) : Prop where
  signal : why = .signal ↔ event = 0 ∧ sig ≠ sigTrap
  trap : why = .appTrap → event = 0 ∧ sig = sigTrap
  code : why = .appTrap → ∃ code, appCode code = true ∧ ⟨.siginfo tid, code⟩ ∈ sinceStop l
  away : why = .appTrap → trapAt l ≠ 0 →
    ∃ pc, pc ≠ (trapAt l + 1) % wrapAddr ∧ ⟨.regs tid, some pc⟩ ∈ sinceStop l

theorem Inv.trapAddr (h : Inv env pid x w) : w.ctx.trapAddr = trapAt w.log := by
  have hl : w.ctx.armedBp = trapAt w.log := congrArg Prod.fst h.last
  unfold Ctx.trapAddr
  split
  · rename_i hb
    rw [(h.base hb).1, hl]
  · exact hl

/-- The trap that the sampler would restore is one that it planted. -/
theorem Inv.trap_mem (h : Inv env pid x w) (h0 : w.ctx.trapAddr ≠ 0) :
    (w.ctx.trapAddr, w.ctx.trapOrig) ∈ plants w.log := by
  have ho : w.ctx.trapOrig = w.ctx.armedOrig := by
    unfold Ctx.trapOrig
    split
    · rename_i hb
      exact (h.base hb).2
    · rfl
  have ha : w.ctx.trapAddr = w.ctx.armedBp := by
    rw [h.trapAddr]
    exact (congrArg Prod.fst h.last).symm
  rw [ha] at h0
  have hl := h.last
  rw [ha, ho, hl]
  cases hp : plants w.log with
  | nil =>
    rw [hp] at hl
    exact absurd (congrArg Prod.fst hl) h0
  | cons p ps => simp

theorem psTrapOrigin_spec : Triple env (Near env pid x w₀) (psTrapOrigin tid) fun why w =>
    Near env pid x w₀ w ∧ (why = .appTrap ∨ why = .strayTrap) ∧
      (why = .appTrap → ∃ code, appCode code = true ∧ ⟨.siginfo tid, code⟩ ∈ sinceStop w.log) := by
  have hread : Triple env (Near env pid x w₀) (psSigtrapIsApp tid) fun b w =>
      Near env pid x w₀ w ∧ (b = true →
        ∃ code, appCode code = true ∧ ⟨.siginfo tid, code⟩ ∈ sinceStop w.log) := by
    refine triple_bind (triple_read rfl fun _ => rfl) fun code => ?_
    apply triple_pure
    rintro w ⟨hw, l, hl, -, -⟩
    refine ⟨hw, fun hb => ⟨code, hb, ?_⟩⟩
    rw [hl]
    exact List.mem_cons_self
  refine triple_bind hread fun b => ?_
  apply triple_ite
  · intro hb
    exact triple_pure _ fun w hw => ⟨hw.1, .inl rfl, fun _ => hw.2 hb⟩
  · intro _
    exact triple_pure _ fun w hw => ⟨hw.1, .inr rfl, by simp⟩

theorem psClassifyTrap_spec : Triple env (Near env pid x w₀) (psClassifyTrap tid) fun why w =>
    Near env pid x w₀ w ∧ Classified tid sigTrap 0 why w.log := by
  -- a reason that is neither the signal nor the trap of the target says nothing
  have hother : ∀ {why : Reason} {l}, why ≠ .signal → why ≠ .appTrap →
      Classified tid sigTrap 0 why l := fun h h' =>
    ⟨by simp [h], fun e => absurd e h', fun e => absurd e h', fun e => absurd e h'⟩
  refine triple_bind triple_ctx fun c => ?_
  apply near_of fun w h => h.1.1
  rintro w₁ ⟨hw₁, rfl⟩
  have hback : ∀ w, Near env pid x w₁ w → Near env pid x w₀ w := fun w h =>
    ⟨h.1, hw₁.2.trans h.2⟩
  have htrap : ∀ w, From w₁ w → trapAt w.log = w₁.ctx.trapAddr := fun w h => by
    rw [hw₁.1.trapAddr, trapAt, trapAt, h.plants]
  apply triple_ite
  · intro _
    exact triple_pure _ fun w hw => ⟨hback w hw, hother (by simp) (by simp)⟩
  · intro _
    apply triple_ite
    · intro h0
      apply triple_post psTrapOrigin_spec
      rintro why w ⟨hw, hwhy, hcode⟩
      refine ⟨hback w hw, ⟨?_, fun _ => ⟨rfl, rfl⟩, hcode, fun _ hne => ?_⟩⟩
      · rcases hwhy with rfl | rfl <;> simp
      · exact absurd ((htrap w hw.2).trans h0) hne
    · intro h0
      refine triple_bind psTrapWhere_spec fun r => ?_
      match r with
      | none => exact triple_pure _ fun w hw => ⟨hback w hw.1, hother (by simp) (by simp)⟩
      | some true => exact triple_pure _ fun w hw => ⟨hback w hw.1, hother (by simp) (by simp)⟩
      | some false =>
        apply near_of fun w h => h.1.1
        rintro w₂ ⟨hw₂, hregs⟩
        obtain ⟨pc, hpc, hmem⟩ := hregs rfl h0
        apply triple_post psTrapOrigin_spec
        rintro why w ⟨hw, hwhy, hcode⟩
        have hfrom := hw₂.2.trans hw.2
        refine ⟨hback w ⟨hw.1, hfrom⟩, ⟨?_, fun _ => ⟨rfl, rfl⟩, hcode, fun _ _ => ⟨pc, ?_, ?_⟩⟩⟩
        · rcases hwhy with rfl | rfl <;> simp
        · rwa [htrap w hfrom]
        · exact hw.2.sinceStop hmem

theorem psClassify_spec : Triple env (Near env pid x w₀) (psClassify tid sig event)
    fun why w => Near env pid x w₀ w ∧ Classified tid sig event why w.log := by
  have hpure : ∀ {why : Reason}, (why = .signal ↔ event = 0 ∧ sig ≠ sigTrap) → why ≠ .appTrap →
      Triple env (Near env pid x w₀) (pure why)
        fun why w => Near env pid x w₀ w ∧ Classified tid sig event why w.log := fun h h' =>
    triple_pure _ fun w hw => ⟨hw, h, fun e => absurd e h', fun e => absurd e h',
      fun e => absurd e h'⟩
  unfold psClassify
  refine triple_ite (fun h => hpure ?_ (by simp)) fun h1 => ?_
  · simp [h, eventClone]
  refine triple_ite (fun h => hpure ?_ (by simp)) fun h2 => ?_
  · rcases h with h | h <;> simp [h, eventFork, eventVfork]
  refine triple_ite (fun h => ?_) fun h3 => ?_
  · split
    · exact hpure (by simp [h, eventStop]) (by simp)
    · exact hpure (by simp [h, eventStop]) (by simp)
  refine triple_ite (fun h => hpure (by simp [h]) (by simp)) fun h4 => ?_
  refine triple_ite (fun h => hpure ?_ (by simp)) fun h5 => ?_
  · simp only [ne_eq, not_not] at h4
    simp [h4, h]
  · simp only [ne_eq, not_not] at h4 h5
    rw [h4, h5]
    exact psClassifyTrap_spec

end Classify

/-! ### The calm sampler -/

section Calls

variable {env : PsEnv} {pid tid sig : ℕ} {x : Option Tid} {k c : Ctx} {w : PsWorld} {l : PsLog}

/-- Calls that are no wait and ask nothing about a new task. -/
def idle : Call → Bool
  | .listen _ | .interrupt _ | .step _ | .now | .nap | .tasks | .executing _ | .regs _ => true
  | .cont _ sig | .detach _ sig => sig == 0
  | _ => false

theorem plain_of_idle {call : Call} (h : idle call = true) : plain call = true := by
  cases call with
  | poke => simp [idle] at h
  | cont | detach => exact h
  | _ => rfl

theorem silent_of_idle {call : Call} (h : idle call = true) (a : Ans call) :
    Silent ⟨call, a⟩ ∧ stopOf ⟨call, a⟩ = none := by
  cases call with
  | detach t s =>
    refine ⟨⟨rfl, rfl, ?_⟩, rfl⟩
    cases a <;> simp [heldOf]
  | listen | interrupt | step | now | nap | tasks | executing | regs | cont =>
    exact ⟨⟨rfl, rfl, by simp [heldOf]⟩, rfl⟩
  | _ => simp [idle] at h

theorem Calm.push {call : Call} (h : Calm env pid k ⟨c, l⟩) (hi : idle call = true) :
    Calm env pid k ⟨c, ⟨call, env l call⟩ :: l⟩ := by
  obtain ⟨hs, he⟩ := silent_of_idle hi (env l call)
  exact ⟨h.inv.push (rule_plain (plain_of_idle hi) (.inr h.quiet)) hs, h.quiet.push hs he, h.keep⟩

theorem calm_call {call : Call} (hi : idle call = true) :
    Triple env (Calm env pid k) (Interaction.call call) fun _ => Calm env pid k :=
  triple_call _ fun _ hw => Calm.push hw hi

theorem Calm.setStopped {b : Bool} (h : Calm env pid k w) :
    Calm env pid k { w with ctx := w.ctx.setStopped tid b } :=
  ⟨h.inv.setStopped, h.quiet, h.keep⟩

theorem Calm.same {c' : Ctx} (h : Calm env pid k ⟨c, l⟩) (hk : c'.keep = c.keep)
    (ht : c'.t = c.t) : Calm env pid k ⟨c', l⟩ :=
  ⟨h.inv.same hk ht, h.quiet, hk.trans h.keep⟩

theorem calm_uncover : Triple env (Calm env pid k) uncover fun _ => Calm env pid k :=
  triple_update fun _ hw => Calm.same hw rfl rfl

end Calls

/-! ### A new task -/

section Add

variable {env : PsEnv} {pid tid sig event : ℕ} {x : Option Tid} {k c : Ctx} {w : PsWorld}
  {l : PsLog} {s : Option (Tid × ℕ × ℕ)}

/-- The answer about a task that is not in the table yet. -/
theorem Inv.tgid (h : Inv env pid x ⟨c, l⟩) (hn : tid ∉ c.tids) :
    Inv env pid x ⟨c, ⟨.tgid tid, env l (.tgid tid)⟩ :: l⟩ where
  obeys := ⟨rule_plain rfl (.inl rfl), h.obeys⟩
  pid_eq := h.pid_eq
  nodup := h.nodup
  kinds e he := by
    have hne : tid ≠ e.tid := fun heq => hn (heq ▸ List.mem_map_of_mem he)
    simpa [kindOf, tgidAnswer, hne] using h.kinds e he
  known e he := mem_seen_cons (h.known e he)
  copies := h.copies
  last := h.last
  base := h.base
  armed a ha := h.armed a (armedNow_cons rfl ha)
  holding t ht := by
    rcases h.holding t ht with h | h | h
    · exact .inl h
    · exact .inr (.inl h.cons)
    · exact .inr (.inr h)

theorem Inv.enter {kind : Kind} (h : Inv env pid (some tid) ⟨c, l⟩) (hn : tid ∉ c.tids)
    (hs : tid ∈ seen l) (hk : kindOf pid l tid = kind) :
    Inv env pid none ⟨c.enter tid kind, l⟩ := by
  have htids : (c.enter tid kind).tids = c.tids ++ [tid] := by
    simp [Ctx.tids, Ctx.enter, newEntry]
  have hmem : ∀ e ∈ (c.enter tid kind).t, e ∈ c.t ∨ e = newEntry c tid kind := by
    intro e he
    simpa [Ctx.enter] using he
  refine ⟨h.obeys, h.pid_eq, ?_, ?_, ?_, ?_, h.last, h.base, h.armed, ?_⟩
  · rw [htids]
    exact h.nodup.append (List.nodup_singleton tid) (by simpa using hn)
  · intro e he
    rcases hmem e he with he | rfl
    · exact h.kinds e he
    · exact hk
  · intro e he
    rcases hmem e he with he | rfl
    · exact h.known e he
    · exact hs
  · intro e he hne
    rcases hmem e he with he | rfl
    · exact h.copies e he hne
    · -- the copy of a new entry is the byte planted last
      have hl := h.last
      simp only [newEntry] at hne ⊢
      split at hne
      · rename_i hc
        simp only [if_pos hc]
        cases hp : plants l with
        | nil => simp [hp] at hl; exact absurd hl.1 hne
        | cons p ps => simp [hp] at hl; simp [hl]
      · exact absurd rfl hne
  · intro t ht
    rw [htids]
    rcases h.holding t ht with h | h | h
    · simp [Option.some_inj.1 h]
    · exact .inr (.inl h)
    · simp [h]

/-- The sampler with the stop, or the seizing, of a task in hand. -/
structure Meeting (env : PsEnv) (pid tid : Tid) (k : Ctx) (s : Option (Tid × ℕ × ℕ))
    (w : PsWorld) : Prop where
  inv : Inv env pid (some tid) w
  known : tid ∈ seen w.log
  keep : w.ctx.keep = k
  last : lastStop w.log = s

/-- The same when the task is in the table, or the table has no room. -/
structure Met (env : PsEnv) (pid tid : Tid) (k : Ctx) (s : Option (Tid × ℕ × ℕ)) (b : Bool)
    (w : PsWorld) : Prop where
  inv : Inv env pid none w
  keep : w.ctx.keep = k
  last : lastStop w.log = s
  mem : b = true → tid ∈ w.ctx.tids
  full : b = false → Full w.log

theorem Meeting.met {b : Bool} (h : Meeting env pid tid k s w)
    (hm : b = true → tid ∈ w.ctx.tids) (hf : b = false → Full w.log) :
    Met env pid tid k s b w := by
  refine ⟨h.inv.settle ?_, h.keep, h.last, hm, hf⟩
  cases b with
  | true => exact .inr (hm rfl)
  | false => exact .inl (hf rfl)

/-- The entry of a task whose kind the log tells. -/
theorem Meeting.enter {kind : Kind} (h : Meeting env pid tid k s ⟨c, l⟩) (hn : tid ∉ c.tids)
    (hk : kindOf pid l tid = kind) : Met env pid tid k s true ⟨c.enter tid kind, l⟩ :=
  ⟨h.inv.enter hn h.known hk, h.keep, h.last, fun _ => by simp [Ctx.tids, Ctx.enter, newEntry],
    by simp⟩

theorem kindOf_pid : kindOf pid l pid = .own := by
  induction l with
  | nil => simp [kindOf]
  | cons e l ih =>
    rw [kindOf]
    split
    · simpa using ih
    · exact ih

theorem psAdd_spec : Triple env (Meeting env pid tid k s) (psAdd tid)
    fun b => Met env pid tid k s b := by
  refine triple_bind triple_ctx fun c => ?_
  refine triple_ite (fun hf => ?_) fun hf => ?_
  · apply triple_pure
    rintro w ⟨hw, rfl⟩
    exact hw.met (fun _ => Ctx.find_isSome.1 hf) (by simp)
  have hnot : ∀ {c' : Ctx}, c'.t = c.t → tid ∉ c'.tids := by
    intro c' ht hm
    rw [Ctx.tids, ht] at hm
    exact hf (Ctx.find_isSome.2 hm)
  -- the coverage is all that the first update can change
  have hcover : Triple env (fun w => Meeting env pid tid k s w ∧ w.ctx = c)
      (update fun c => if c.cap ≤ c.t.length then { c with covered := false } else c)
      fun _ w => Meeting env pid tid k s w ∧ w.ctx.t = c.t ∧ w.ctx.pid = c.pid := by
    apply triple_update
    rintro w ⟨hw, rfl⟩
    split
    · exact ⟨⟨hw.inv.same rfl rfl, hw.known, hw.keep, hw.last⟩, rfl, rfl⟩
    · exact ⟨hw, rfl, rfl⟩
  refine triple_bind hcover fun _ => ?_
  refine triple_ite (fun hfull => ?_) fun _ => ?_
  · apply triple_pure
    rintro w ⟨hw, ht, -⟩
    exact hw.met (by simp) fun _ => hw.inv.full (hnot ht) hw.known (by rwa [ht])
  refine triple_ite (fun hpid => ?_) fun hpid => ?_
  · refine triple_bind (triple_update fun w hw => ?_) fun _ => triple_pure _ fun w hw => hw
    obtain ⟨hw, ht, hc⟩ := hw
    apply hw.enter (hnot ht)
    rw [hpid, ← hc, hw.inv.pid_eq]
    exact kindOf_pid
  · have hask : Triple env (fun w => Meeting env pid tid k s w ∧ w.ctx.t = c.t ∧ w.ctx.pid = c.pid)
        (tgidOf tid) fun g w => Meeting env pid tid k s w ∧ w.ctx.t = c.t ∧
          kindOf pid w.log tid = kindOfTgid pid g := by
      apply triple_call
      rintro w ⟨hw, ht, hc⟩
      refine ⟨⟨hw.inv.tgid (hnot ht), mem_seen_cons hw.known, hw.keep, ?_⟩, ht, ?_⟩
      · rw [← hw.last]
        rfl
      · have hp : c.pid = pid := hc.symm.trans hw.inv.pid_eq
        rw [hp] at hpid
        simp [kindOf, tgidAnswer, hpid]
    refine triple_bind hask fun g => ?_
    refine triple_bind (triple_update fun w hw => ?_) fun _ => triple_pure _ fun w hw => hw
    apply hw.1.enter (hnot hw.2.1)
    rw [hw.1.inv.pid_eq]
    exact hw.2.2

end Add

/-! ### The acts -/

section Acts

variable {env : PsEnv} {pid tid sig event : ℕ} {x : Option Tid} {k c : Ctx} {w : PsWorld}
  {l : PsLog} {s : Option (Tid × ℕ × ℕ)} {ensure : Tid → Ps Bool} {why : Reason} {act : Act}
  {kind : Kind} {e : Thr}

/-- The rule for a CONT or a DETACH. -/
theorem rule_verb {call : Call} (hcall : call = .cont tid sig ∨ call = .detach tid sig)
    (hs : sig ≠ 0 → Justified pid l tid sig)
    (hq : Quiet pid l ∨ call = .cont tid sig ∧ Justified pid l tid sig) :
    Rule env pid ⟨call, env l call⟩ l where
  answer := rfl
  inject t s h hne := by
    have hts : t = tid ∧ s = sig := by
      rcases hcall with rfl | rfl <;> rcases h with h | h <;> simp_all
    rw [hts.2] at hne
    rw [hts.1, hts.2]
    exact hs hne
  redeliver t s h hne := by
    rcases hq with hq | ⟨rfl, hj⟩
    · exact .inr (.inr (hq t s h hne))
    · have heq := hj.stop.symm.trans h
      simp only [Option.some.injEq, Prod.mk.injEq, and_true] at heq
      exact .inr (.inl (by rw [heq.1, heq.2]))
  plant o t a word h := by rcases hcall with rfl | rfl <;> simp at h
  restore t a word h := by rcases hcall with rfl | rfl <;> simp at h

/-- A task is resumed without a signal when none waits, or with its own. -/
theorem psCont_spec : Triple env
    (fun w => Inv env pid none w ∧ w.ctx.keep = k ∧
      (sig = 0 ∧ Quiet pid w.log ∨ Justified pid w.log tid sig))
    (psCont tid sig) fun _ => Calm env pid k := by
  have hcont : Triple env (fun w => Inv env pid none w ∧ w.ctx.keep = k ∧
      (sig = 0 ∧ Quiet pid w.log ∨ Justified pid w.log tid sig))
      (cont tid sig) fun _ => Calm env pid k := by
    apply triple_call
    rintro w ⟨hi, hk, hj⟩
    have hrule : Rule env pid ⟨.cont tid sig, env w.log (.cont tid sig)⟩ w.log := by
      apply rule_verb (.inl rfl)
      · intro hne
        rcases hj with ⟨h0, -⟩ | hj
        · exact absurd h0 hne
        · exact hj
      · rcases hj with ⟨-, hq⟩ | hj
        · exact .inl hq
        · exact .inr ⟨rfl, hj⟩
    exact ⟨hi.push hrule ⟨rfl, rfl, by simp [heldOf]⟩, quiet_cons rfl rfl, hk⟩
  refine triple_bind hcont fun ok => triple_ite (fun _ => ?_) fun _ => ?_
  · exact triple_update fun w hw => hw.setStopped
  · exact triple_pure _ fun w hw => hw

theorem psCont_calm : Triple env (Calm env pid k) (psCont tid 0) fun _ => Calm env pid k :=
  triple_pre psCont_spec fun _ hw => ⟨hw.inv, hw.keep, .inl ⟨rfl, hw.quiet⟩⟩

theorem Inv.not_held (h : Inv env pid none w) (hf : w.ctx.find tid = none) :
    held w.log tid = false ∨ Full w.log := by
  cases hh : held w.log tid with
  | false => exact .inl rfl
  | true =>
    rcases h.holding tid hh with h | h | h
    · simp at h
    · exact .inr h
    · exact absurd h (Ctx.not_mem_of_find_none hf)

/-- A task that was detached is no longer attached, or the table had no room for it. -/
theorem psDetachOne_spec (hens : ∀ t, Triple env (Calm env pid k) (ensure t)
    fun _ => Calm env pid k) (n : ℕ) : Triple env
    (fun w => Calm env pid k w ∧ (sig ≠ 0 → Justified pid w.log tid sig))
    (psDetachOne ensure tid n sig) fun b w => Calm env pid k w ∧
      (b = true → held w.log tid = false ∨ Full w.log) := by
  induction n generalizing sig with
  | zero => exact triple_pure _ fun w hw => ⟨hw.1, by simp⟩
  | succ n ih =>
    have hdetach : Triple env
        (fun w => Calm env pid k w ∧ (sig ≠ 0 → Justified pid w.log tid sig)) (detach tid sig)
        fun b w => Calm env pid k w ∧ (b = true → held w.log tid = false) := by
      apply triple_call
      rintro w ⟨hw, hj⟩
      have hs : Silent ⟨.detach tid sig, env w.log (.detach tid sig)⟩ := by
        refine ⟨rfl, rfl, ?_⟩
        cases env w.log (.detach tid sig) <;> simp [heldOf]
      refine ⟨⟨hw.inv.push (rule_verb (.inr rfl) hj (.inl hw.quiet)) hs,
        quiet_cons rfl rfl, hw.keep⟩, fun hb => ?_⟩
      rw [hb]
      simp [held, heldOf]
    refine triple_bind hdetach fun b => triple_ite (fun hb => ?_) fun _ => ?_
    · exact triple_pure _ fun w hw => ⟨hw.1, fun _ => .inl (hw.2 hb)⟩
    refine triple_bind (triple_pre (hens tid) fun w hw => hw.1) fun b => ?_
    refine triple_ite (fun _ => ?_) fun _ => ?_
    · exact triple_pre ih fun w hw => ⟨hw, by simp⟩
    · refine triple_bind triple_ctx fun c => triple_pure _ ?_
      rintro w ⟨hw, rfl⟩
      exact ⟨hw, fun hn => hw.inv.not_held (Option.isNone_iff_eq_none.1 hn)⟩

/-- No signal that would have to be delivered is pending. -/
def Settled (s : Option (Tid × ℕ × ℕ)) : Prop :=
  ∀ tid sig, s = some (tid, sig, 0) → sig = sigTrap

theorem Settled.quiet (h : Settled (lastStop l)) : Quiet pid l :=
  fun tid sig hl hne => absurd (h tid sig hl) hne

theorem psFollow_spec (hs : Settled s) : Triple env
    (fun w => Inv env pid none w ∧ w.ctx.keep = k ∧ lastStop w.log = s) (psFollow tid)
    fun _ => Calm env pid k := by
  have hcalm : ∀ w : PsWorld, Inv env pid none w ∧ w.ctx.keep = k ∧ lastStop w.log = s →
      Calm env pid k w := fun w hw => ⟨hw.1, (hw.2.2 ▸ hs : Settled _).quiet, hw.2.1⟩
  have hask : Triple env (fun w => Inv env pid none w ∧ w.ctx.keep = k ∧ lastStop w.log = s)
      (eventMsg tid) fun a w => (Inv env pid none w ∧ w.ctx.keep = k ∧ lastStop w.log = s) ∧
        ∀ child, a = some child → Meeting env pid child k s w := by
    apply triple_call
    rintro w ⟨hi, hk, hl⟩
    have hrule : Rule env pid ⟨.eventMsg tid, env w.log (.eventMsg tid)⟩ w.log :=
      rule_plain rfl (.inl rfl)
    refine ⟨⟨hi.push hrule ⟨rfl, rfl, by simp [heldOf]⟩, hk, hl⟩, ?_⟩
    intro child hc
    refine ⟨hi.cons hrule rfl rfl (by simp) (by simp [heldOf]), ?_, hk, hl⟩
    simp only [hc, PtraceSample.seen, List.filterMap_cons, seenOf]
    exact List.mem_cons_self
  refine triple_bind hask fun a => ?_
  cases a with
  | none => exact triple_pure _ fun w hw => hcalm w hw.1
  | some child =>
    refine triple_ite (fun _ => triple_pure _ fun w hw => hcalm w hw.1) fun _ => ?_
    refine triple_bind (triple_pre psAdd_spec fun w hw => hw.2 child rfl) fun b => ?_
    refine triple_ite (fun _ => ?_) fun _ => ?_
    · exact triple_pure _ fun w hw => hcalm w ⟨hw.inv, hw.keep, hw.last⟩
    · refine triple_update fun w hw => ?_
      exact Calm.same (hcalm w ⟨hw.inv, hw.keep, hw.last⟩) rfl rfl

theorem Calm.near (h : Calm env pid k w) {w' : PsWorld} (hn : Near env pid none w w') :
    Calm env pid k w' :=
  ⟨hn.1, hn.2.quiet h.quiet, by rw [hn.2.ctx]; exact h.keep⟩

/-- Reads leave the sampler calm. -/
theorem calm_near {α : Type} {m : Ps α} (hm : ∀ w, Calm env pid k w →
    Triple env (Near env pid none w) m fun _ => Near env pid none w) :
    Triple env (Calm env pid k) m fun _ => Calm env pid k :=
  near_of (fun _ hw => hw.inv) fun w hw => triple_post (hm w hw) fun _ _ h => hw.near h

theorem calm_rewind {base : Addr} :
    Triple env (Calm env pid k) (psRewind tid base) fun _ => Calm env pid k :=
  calm_near fun _ _ => psRewind_spec

/-- A signal stays justified while the task is read. -/
theorem Justified.near {w' : PsWorld} (h : Justified pid w.log tid sig) (hf : From w w') :
    Justified pid w'.log tid sig where
  stop := hf.lastStop.trans h.stop
  own hs := by rw [hf.kindOf]; exact h.own hs
  code hs := by
    obtain ⟨code, hc, hm⟩ := h.code hs
    exact ⟨code, hc, hf.sinceStop hm⟩
  away hs h0 := by
    have ht : trapAt w'.log = trapAt w.log := by rw [trapAt, trapAt, hf.plants]
    rw [ht] at h0 ⊢
    obtain ⟨pc, hp, hm⟩ := h.away hs h0
    exact ⟨pc, hp, hf.sinceStop hm⟩

theorem psRelease_spec (hens : ∀ t, Triple env (Calm env pid k) (ensure t)
    fun _ => Calm env pid k) : Triple env
    (fun w => Calm env pid k w ∧ (sig ≠ 0 → Justified pid w.log tid sig))
    (psRelease ensure tid sig) fun _ => Calm env pid k := by
  refine triple_bind triple_ctx fun c => ?_
  cases hf : c.find tid with
  | none => exact triple_pure _ fun w hw => hw.1.1
  | some e =>
    obtain ⟨he, -⟩ := Ctx.mem_of_find hf
    apply near_of fun w hw => hw.1.1.inv
    rintro w₁ ⟨⟨hw₁, hj⟩, rfl⟩
    refine triple_bind (psRestoreCopy_near (hw₁.inv.copies e he)) fun ok => ?_
    refine triple_ite (fun _ => ?_) fun _ => triple_pure _ fun w hw => hw₁.near hw
    refine triple_bind psRewind_spec fun _ => ?_
    refine triple_bind (triple_pre (psDetachOne_spec hens detachTries) fun w hw =>
      ⟨hw₁.near hw, fun hne => (hj hne).near hw.2⟩) fun gone => ?_
    refine triple_ite (fun hg => triple_update ?_) fun _ => triple_update ?_
    · rintro w ⟨hw, hn⟩
      refine ⟨hw.inv.del (hn hg), hw.quiet, ?_⟩
      rw [← hw.keep]
      simp only [Ctx.del]
      split <;> rfl
    · exact fun w hw => hw.1.setStopped

/-- What an act needs of the stop that it answers. -/
structure Granted (pid tid sig : ℕ) (act : Act) (l : PsLog) : Prop where
  signal : act = .resumeSignal → Justified pid l tid sig
  release : act = .releaseSignal → Justified pid l tid sig
  quiet : act ≠ .resumeSignal → Quiet pid l
  settled : act = .followChild → Settled (lastStop l)
  own : act = .collect → kindOf pid l tid = .own

/-- The answer of a handled stop: an arrival is a task of the target. -/
def Handled (env : PsEnv) (pid : Tid) (k : Ctx) (ev : Ev) : Assn Ans Ctx :=
  fun w => Calm env pid k w ∧ ∀ t, ev = .arrived t → kindOf pid w.log t = .own

theorem handled_pure {ev : Ev} (h : ∀ t, ev ≠ .arrived t) :
    Triple env (Calm env pid k) (pure ev) (Handled env pid k) :=
  triple_pure _ fun _ hw => ⟨hw, fun t ht => absurd ht (h t)⟩

theorem psPerform_spec {hold : Tid} (hens : ∀ t, Triple env (Calm env pid k) (ensure t)
    fun _ => Calm env pid k) : Triple env
    (fun w => Inv env pid none w ∧ w.ctx.keep = k ∧ Granted pid tid sig act w.log)
    (psPerform ensure tid sig act hold) (Handled env pid k) := by
  have hcalm : act ≠ .resumeSignal → ∀ w : PsWorld,
      Inv env pid none w ∧ w.ctx.keep = k ∧ Granted pid tid sig act w.log → Calm env pid k w :=
    fun h w hw => ⟨hw.1, hw.2.2.quiet h, hw.2.1⟩
  have hnone : Triple env (Calm env pid k) (pure Ev.none) (Handled env pid k) :=
    handled_pure (by simp)
  -- the end of the acts that resume the task when it could be rewound
  have hresume : ∀ base, Triple env (Calm env pid k)
      (psRewind tid base >>= fun ok => if ok = true then psCont tid 0 >>= fun _ => pure Ev.none
        else pure Ev.none) (Handled env pid k) := fun base =>
    triple_bind calm_rewind fun _ => triple_ite (fun _ => triple_bind psCont_calm fun _ => hnone)
      fun _ => hnone
  cases act with
  | hold =>
    apply triple_pre _ (hcalm (by simp))
    exact handled_pure (by split <;> simp)
  | resumeQuiet =>
    apply triple_pre _ (hcalm (by simp))
    exact triple_bind psCont_calm fun _ => hnone
  | resumeSignal =>
    refine triple_bind (triple_pre psCont_spec ?_) fun _ => hnone
    exact fun w hw => ⟨hw.1, hw.2.1, .inr (hw.2.2.signal rfl)⟩
  | rewindResume =>
    apply triple_pre _ (hcalm (by simp))
    exact triple_bind triple_ctx fun c => triple_pre (hresume _) fun w hw => hw.1
  | collect =>
    refine triple_bind triple_ctx fun c => ?_
    apply near_of fun w hw => hw.1.1
    rintro w₁ ⟨hw₁, rfl⟩
    have hc := hcalm (by simp) w₁ hw₁
    refine triple_bind psRewind_spec fun ok => ?_
    refine triple_ite (fun _ => ?_) fun _ => triple_pre hnone fun w hw => hc.near hw
    refine triple_bind (triple_update fun w hw => ?_) fun _ => triple_pure _ fun w hw => hw
    refine ⟨Calm.same (hc.near hw) rfl rfl, ?_⟩
    intro t ht
    rw [← (Ev.arrived.injEq ..).mp ht, hw.2.kindOf]
    exact hw₁.2.2.own rfl
  | clearAndResume =>
    apply triple_pre _ (hcalm (by simp))
    refine triple_bind triple_ctx fun c => ?_
    apply near_of fun w hw => hw.1.inv
    rintro w₁ ⟨hw₁, rfl⟩
    refine triple_bind (psRestoreCopy_near hw₁.inv.trap_mem) fun _ => ?_
    exact triple_pre (hresume _) fun w hw => hw₁.near hw
  | followChild =>
    have hfollow : Triple env (fun w => Inv env pid none w ∧ w.ctx.keep = k ∧
        Granted pid tid sig .followChild w.log) (psFollow tid) fun _ => Calm env pid k := by
      apply triple_at
      intro w₁ hw₁
      apply triple_pre (psFollow_spec (hw₁.2.2.settled rfl))
      rintro w rfl
      exact ⟨hw₁.1, hw₁.2.1, rfl⟩
    exact triple_bind hfollow fun _ => triple_bind psCont_calm fun _ => hnone
  | listen =>
    apply triple_pre _ (hcalm (by simp))
    refine triple_bind triple_ctx fun c => ?_
    apply triple_pre _ fun w hw => hw.1
    refine triple_ite (fun _ => hnone) fun _ => ?_
    refine triple_bind (calm_call rfl) fun _ => triple_ite (fun _ => ?_) fun _ => ?_
    · refine triple_bind (triple_update fun w hw => ?_) fun _ => hnone
      exact ⟨hw.inv.put fun _ => ⟨rfl, rfl, rfl, rfl⟩, hw.quiet, hw.keep⟩
    · exact triple_bind psCont_calm fun _ => hnone
  | release =>
    refine triple_bind (triple_pre (psRelease_spec hens) fun w hw => ?_) fun _ => hnone
    exact ⟨hcalm (by simp) w hw, by simp⟩
  | releaseSignal =>
    refine triple_bind (triple_pre (psRelease_spec hens) fun w hw => ?_) fun _ => hnone
    exact ⟨hcalm (by simp) w hw, fun _ => hw.2.2.release rfl⟩

end Acts

/-! ### A stop -/

section Stop

variable {env : PsEnv} {pid tid sig event : ℕ} {k c : Ctx} {w : PsWorld} {l : PsLog}
  {ensure : Tid → Ps Bool} {why : Reason} {act : Act} {kind : Kind} {e : Thr}
  {tearing isHold collecting : Bool}

/-- The cells of the table in which a signal is delivered on a resume. -/
theorem psDecide_resumeSignal
    (h : psDecide kind why tearing isHold collecting = .resumeSignal) :
    why = .signal ∧ kind ≠ .foreign ∨ why = .appTrap ∧ kind = .own := by
  cases kind <;> cases why <;> simp_all [psDecide] <;> split at h <;> simp at h

theorem psDecide_releaseSignal
    (h : psDecide kind why tearing isHold collecting = .releaseSignal) :
    why = .signal ∧ kind = .foreign := by
  cases kind <;> cases why <;> simp_all [psDecide] <;> split at h <;> simp at h

theorem psDecide_collect (h : psDecide kind why tearing isHold collecting = .collect) :
    kind = .own := by
  cases kind <;> cases why <;> simp_all [psDecide] <;> split at h <;> simp at h

theorem psDecide_follow (h : psDecide kind why tearing isHold collecting = .followChild) :
    why ≠ .signal := by
  cases kind <;> cases why <;> simp_all [psDecide]

/-- A signal is delivered at once, unless the task is one of another process. -/
theorem psDecide_signal :
    psDecide kind .signal tearing isHold collecting = .resumeSignal ∨ kind = .foreign := by
  cases kind <;> simp [psDecide]

theorem Classified.settled (h : Classified tid sig event why l)
    (hl : lastStop l = some (tid, sig, event)) (hne : why ≠ .signal) : Settled (lastStop l) := by
  intro t s hts
  rw [hl] at hts
  simp only [Option.some.injEq, Prod.mk.injEq] at hts
  obtain ⟨-, rfl, rfl⟩ := hts
  by_contra hs
  exact hne (h.signal.2 ⟨rfl, hs⟩)

/-- The act that the table decides on is granted by what the sampler has read. -/
theorem Classified.granted (h : Classified tid sig event why l)
    (hl : lastStop l = some (tid, sig, event)) (hk : kindOf pid l tid = kind) :
    Granted pid tid sig (psDecide kind why tearing isHold collecting) l := by
  have hjust : why = .signal → Justified pid l tid sig := by
    intro hwhy
    obtain ⟨rfl, hs⟩ := h.signal.1 hwhy
    exact ⟨hl, fun e => absurd e hs, fun e => absurd e hs, fun e => absurd e hs⟩
  refine ⟨fun ha => ?_, fun ha => hjust (psDecide_releaseSignal ha).1, fun ha => ?_,
    fun ha => h.settled hl (psDecide_follow ha), fun ha => by rw [hk, psDecide_collect ha]⟩
  · rcases psDecide_resumeSignal ha with ⟨hwhy, -⟩ | ⟨hwhy, hown⟩
    · exact hjust hwhy
    · obtain ⟨rfl, -⟩ := h.trap hwhy
      exact ⟨hl, fun _ => by rw [hk, hown], fun _ => h.code hwhy, fun _ => h.away hwhy⟩
  · by_cases hwhy : why = .signal
    · subst hwhy
      have hdec : psDecide kind .signal tearing isHold collecting = .resumeSignal ∨
          kind = .foreign := psDecide_signal
      rcases hdec with hd | hd
      · exact absurd hd ha
      · intro t s hts _
        rw [hl] at hts
        simp only [Option.some.injEq, Prod.mk.injEq] at hts
        rw [← hts.1]
        exact .inl (hk.trans hd)
    · exact (h.settled hl hwhy).quiet

theorem psReleaseUntabled_spec : Triple env (fun w => Calm env pid k w ∧ Full w.log)
    (psReleaseUntabled tid) fun _ => Calm env pid k := by
  refine triple_bind triple_ctx fun c => ?_
  apply near_of fun w hw => hw.1.1.inv
  rintro w₁ ⟨⟨hw₁, -⟩, rfl⟩
  refine triple_bind (psRestoreCopy_near hw₁.inv.trap_mem) fun _ => ?_
  refine triple_bind psRewind_spec fun _ => ?_
  refine triple_bind (triple_pre (calm_call rfl) fun w hw => hw₁.near hw) fun _ => ?_
  exact triple_pure _ fun w hw => hw

theorem psDispatch_spec {hold : Tid} (hens : ∀ t, Triple env (Calm env pid k) (ensure t)
    fun _ => Calm env pid k) : Triple env (Meeting env pid tid k (some (tid, sig, event)))
    (psDispatch ensure tid sig event hold collecting) (Handled env pid k) := by
  have hnone : Triple env (Calm env pid k) (pure Ev.none) (Handled env pid k) :=
    handled_pure (by simp)
  refine triple_bind psAdd_spec fun added => triple_ite (fun hb => ?_) fun hb => ?_
  · have hput : Triple env (Met env pid tid k (some (tid, sig, event)) added)
        (update fun c => c.put tid fun e => { e with stopped := true, listening := false })
        fun _ => Met env pid tid k (some (tid, sig, event)) true := by
      refine triple_update fun w hw => ?_
      refine ⟨hw.inv.put fun _ => ⟨rfl, rfl, rfl, rfl⟩, hw.keep, hw.last, fun _ => ?_, by simp⟩
      exact Ctx.mem_tids_put (fun _ => rfl) (hw.mem hb)
    refine triple_bind hput fun _ => ?_
    apply near_of fun w hw => hw.inv
    intro w₁ hw₁
    refine triple_bind psClassify_spec fun why => triple_bind triple_ctx fun c => ?_
    cases hf : c.find tid with
    | none =>
      -- the task is in the table, so this cannot be
      apply triple_pure
      rintro w ⟨⟨hw, -⟩, rfl⟩
      rw [hw.2.ctx] at hf
      exact absurd (hw₁.mem rfl) (Ctx.not_mem_of_find_none hf)
    | some e =>
      apply triple_pre (psPerform_spec hens)
      rintro w ⟨⟨hw, hclass⟩, rfl⟩
      obtain ⟨he, rfl⟩ := Ctx.mem_of_find hf
      refine ⟨hw.1, by rw [hw.2.ctx]; exact hw₁.keep, ?_⟩
      exact hclass.granted (hw.2.lastStop.trans hw₁.last) (hw.1.kinds e he)
  · have hfull : ∀ w, Met env pid tid k (some (tid, sig, event)) added w →
        Calm env pid k w ∧ Full w.log := by
      intro w hw
      have hF := hw.full (by simpa using hb)
      exact ⟨⟨hw.inv, fun _ _ _ _ => .inr hF, hw.keep⟩, hF⟩
    exact triple_bind (triple_pre psReleaseUntabled_spec hfull) fun _ => hnone

end Stop

/-! ### The pump -/

section Pump

variable {env : PsEnv} {pid tid sig event : ℕ} {k c : Ctx} {w : PsWorld}
  {ensure : Tid → Ps Bool} {pump : Tid → Ps Unit}

/-- What a wait brings. -/
def Waited (env : PsEnv) (pid : Tid) (k : Ctx) (a : Wait) (w : PsWorld) : Prop :=
  match a with
  | .stopped t sig event => Meeting env pid t k (some (t, sig, event)) w
  | .gone t => Calm env pid k w ∧ held w.log t = false
  | _ => Calm env pid k w

theorem wait_spec : Triple env (Calm env pid k) wait (Waited env pid k) := by
  apply triple_call
  intro w hw
  have hrule : Rule env pid ⟨.wait, env w.log .wait⟩ w.log := rule_plain rfl (.inr hw.quiet)
  cases ha : env w.log .wait with
  | stopped t sig event =>
    rw [ha] at hrule
    refine ⟨hw.inv.cons hrule rfl rfl (by simp) (by simp [heldOf]), ?_, hw.keep, rfl⟩
    simp only [seen, List.filterMap_cons, seenOf]
    exact List.mem_cons_self
  | gone t =>
    rw [ha] at hrule
    refine ⟨⟨hw.inv.push hrule ⟨rfl, rfl, by simp [heldOf]⟩, quiet_cons rfl rfl, hw.keep⟩, ?_⟩
    simp [held, heldOf]
  | other t | nothing | intr | failed =>
    rw [ha] at hrule
    exact ⟨hw.inv.push hrule ⟨rfl, rfl, by simp [heldOf]⟩, quiet_cons rfl rfl, hw.keep⟩

theorem Calm.del (h : Calm env pid k w) (hn : held w.log tid = false ∨ Full w.log) :
    Calm env pid k { w with ctx := w.ctx.del tid } := by
  refine ⟨h.inv.del hn, h.quiet, ?_⟩
  rw [← h.keep]
  simp only [Ctx.del]
  split <;> rfl

theorem psGone_spec {hold : Tid} :
    Triple env (fun w => Calm env pid k w ∧ held w.log tid = false) (psGone tid hold)
      fun _ => Calm env pid k := by
  have hdel : Triple env (fun w => Calm env pid k w ∧ held w.log tid = false)
      (update fun c => c.del tid) fun _ => Calm env pid k :=
    triple_update fun w hw => hw.1.del (.inl hw.2)
  exact triple_bind hdel fun _ => triple_bind triple_ctx fun c => triple_pure _ fun w hw => hw.1

theorem ensureLoop_spec (hp : ∀ t, Triple env (Calm env pid k) (pump t) fun _ => Calm env pid k)
    {t0 budget : ℕ} (n : ℕ) : Triple env (Calm env pid k) (ensureLoop pump tid t0 budget n)
    fun _ => Calm env pid k := by
  have hpure : ∀ b : Bool, Triple env (Calm env pid k) (pure b) fun _ => Calm env pid k :=
    fun b => triple_pure b fun _ hw => hw
  induction n with
  | zero => exact hpure false
  | succ n ih =>
    refine triple_bind (calm_call rfl) fun t => triple_ite (fun _ => hpure false) fun _ => ?_
    refine triple_bind (hp tid) fun _ => triple_bind triple_ctx fun c => ?_
    apply triple_pre _ fun w hw => hw.1
    cases c.find tid with
    | none => exact hpure false
    | some e =>
      refine triple_ite (fun _ => hpure true) fun _ => ?_
      exact triple_bind (calm_call rfl) fun _ => ih

theorem psEnsureStopped_spec
    (hp : ∀ t, Triple env (Calm env pid k) (pump t) fun _ => Calm env pid k) {fuel budget : ℕ} :
    Triple env (Calm env pid k) (psEnsureStopped pump fuel budget tid)
      fun _ => Calm env pid k := by
  have hpure : ∀ b : Bool, Triple env (Calm env pid k) (pure b) fun _ => Calm env pid k :=
    fun b => triple_pure b fun _ hw => hw
  refine triple_bind triple_ctx fun c => ?_
  apply triple_pre _ fun w hw => hw.1
  cases c.find tid with
  | none => exact hpure false
  | some e =>
    refine triple_ite (fun _ => hpure true) fun _ => triple_ite (fun _ => hpure false) fun _ => ?_
    refine triple_bind (calm_call rfl) fun _ => triple_bind (calm_call rfl) fun t => ?_
    exact ensureLoop_spec hp fuel

/-- The pump keeps the sampler calm; what it is still owed is an induction on the fuel, which
the waits inside a release share. -/
theorem pumpLoop_spec (fuel : ℕ) : ∀ t0 hold budget spin collecting,
    Triple env (Calm env pid k) (pumpLoop fuel t0 hold budget spin collecting)
      (Handled env pid k) := by
  have hpure : ∀ {ev : Ev}, (∀ t, ev ≠ .arrived t) →
      Triple env (Calm env pid k) (pure ev) (Handled env pid k) := handled_pure
  induction fuel with
  | zero => exact fun _ _ _ _ _ => hpure (by simp)
  | succ fuel ih =>
    intro t0 hold budget spin collecting
    have hmore := ih t0 hold budget spin collecting
    refine triple_bind (calm_call rfl) fun t => triple_ite (fun _ => hpure (by simp)) fun _ => ?_
    refine triple_bind wait_spec fun a => ?_
    cases a with
    | stopped w sig event =>
      have hens : ∀ t, Triple env (Calm env pid k) (psEnsureStopped (fun tid => do
          let t ← now
          let _ ← pumpLoop fuel t tid intrUs spinUs false
          pure ()) fuel stopForever t) fun _ => Calm env pid k := by
        intro t
        refine psEnsureStopped_spec fun tid => ?_
        refine triple_bind (calm_call rfl) fun t => ?_
        exact triple_bind (ih t tid intrUs spinUs false) fun _ => triple_pure () fun w hw => hw.1
      refine triple_bind (psDispatch_spec hens) fun ev => ?_
      cases ev with
      | arrived x => exact triple_pure _ fun w hw => hw
      | stopped =>
        refine triple_ite (fun _ => ?_) fun _ => ?_
        · exact triple_pre (hpure (by simp)) fun w hw => hw.1
        · exact triple_pre hmore fun w hw => hw.1
      | none | gone => exact triple_pre hmore fun w hw => hw.1
    | gone w =>
      exact triple_bind psGone_spec fun b => triple_ite (fun _ => hpure (by simp)) fun _ => hmore
    | failed => exact hpure (by simp)
    | nothing =>
      refine triple_ite (fun _ => ?_) fun _ => hmore
      exact triple_bind (calm_call rfl) fun _ => hmore
    | other w => exact hmore
    | intr => exact hmore

end Pump

end AsmTest.PtraceSample
