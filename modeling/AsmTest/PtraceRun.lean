import AsmTest.PtraceSafety

/-!
# Whole runs of the sampler

The walks over the table, the armed window of a candidate and the teardown, each from a calm
sampler to a calm one. What changes between two of them is the trap alone.
-/

namespace AsmTest.PtraceSample

open Interaction

variable {env : PsEnv} {pid tid sig event fuel budget : ℕ} {k c : Ctx} {w : PsWorld}
  {l : PsLog} {base addr : Addr}

/-! ### The walks -/

theorem calm_pure {α : Type} (a : α) :
    Triple env (Calm env pid k) (pure a) fun _ => Calm env pid k :=
  triple_pure a fun _ hw => hw

theorem calm_ctx : Triple env (Calm env pid k) ctx fun _ => Calm env pid k :=
  triple_post triple_ctx fun _ _ h => h.1

theorem psPump_spec {hold spin : ℕ} {collecting : Bool} :
    Triple env (Calm env pid k) (psPump fuel hold budget spin collecting) (Handled env pid k) :=
  triple_bind (calm_call rfl) fun t => pumpLoop_spec fuel t hold budget spin collecting

theorem calm_pump {hold spin : ℕ} {collecting : Bool} : Triple env (Calm env pid k)
    (psPump fuel hold budget spin collecting) fun _ => Calm env pid k :=
  triple_post psPump_spec fun _ _ h => h.1

theorem calm_ensure :
    Triple env (Calm env pid k) (psEnsure fuel budget tid) fun _ => Calm env pid k :=
  psEnsureStopped_spec fun _ => triple_bind calm_pump fun _ => calm_pure ()

theorem calm_stopRound {bounded : Bool} {t0 : ℕ} (tids : List Tid) :
    Triple env (Calm env pid k) (stopRound fuel bounded t0 budget tids)
      fun _ => Calm env pid k := by
  have hleft : Triple env (Calm env pid k) (budgetLeft bounded t0 budget)
      fun _ => Calm env pid k :=
    triple_ite (fun _ => triple_bind (calm_call rfl) fun _ => calm_pure _) fun _ => calm_pure _
  induction tids with
  | nil => exact calm_pure true
  | cons tid tids ih =>
    refine triple_bind hleft fun left => triple_ite (fun _ => calm_pure false) fun _ => ?_
    exact triple_bind calm_ensure fun _ => ih

theorem calm_stopAll : Triple env (Calm env pid k) (psStopAll fuel budget)
    fun _ => Calm env pid k := by
  have hrounds : ∀ bounded t0 n, Triple env (Calm env pid k)
      (stopRounds fuel bounded t0 budget n) fun _ => Calm env pid k := by
    intro bounded t0 n
    induction n with
    | zero => exact calm_pure ()
    | succ n ih =>
      refine triple_bind calm_ctx fun c => triple_ite (fun _ => calm_pure ()) fun _ => ?_
      refine triple_bind (calm_stopRound _) fun b => ?_
      exact triple_ite (fun _ => ih) fun _ => calm_pure ()
  exact triple_bind (calm_call rfl) fun t0 => hrounds _ t0 2

theorem calm_drain (n : ℕ) :
    Triple env (Calm env pid k) (psDrain fuel n) fun _ => Calm env pid k := by
  induction n with
  | zero => exact calm_pure ()
  | succ n ih =>
    refine triple_bind wait_spec fun a => ?_
    cases a with
    | stopped w sig event =>
      refine triple_bind (psDispatch_spec fun _ => calm_ensure) fun _ => ?_
      exact triple_pre ih fun w hw => hw.1
    | gone w => exact triple_bind psGone_spec fun _ => ih
    | other w => exact ih
    | nothing | intr | failed => exact calm_pure ()

theorem calm_resumeAll : Triple env (Calm env pid k) psResumeAll fun _ => Calm env pid k :=
  triple_bind calm_ctx fun _ => triple_each fun _ _ => psCont_calm

/-! ### The byte in and out -/

theorem armedNow_ne_zero {a : Addr} (h : armedNow pid l = some a) : a ≠ 0 := by
  induction l with
  | nil => simp [armedNow] at h
  | cons e l ih =>
    cases hp : plantOf e with
    | none => exact ih (armedNow_cons hp h)
    | some p =>
      simp only [armedNow, hp] at h
      split at h
      · exact ih h
      · rename_i h0
        rw [← Option.some_inj.1 h]
        exact h0

theorem Inv.armedNow_none {x : Option Tid} (h : Inv env pid x w)
    (hp : w.ctx.bpPlanted = false ∨ w.ctx.bpBase = 0) : armedNow pid w.log = none := by
  cases ha : armedNow pid w.log with
  | none => rfl
  | some a =>
    obtain ⟨h1, h2⟩ := h.armed a ha
    rcases hp with hp | hp
    · simp [hp] at h1
    · exact absurd (h2.symm.trans hp) (armedNow_ne_zero ha)

/-- Another context may stand for the old one when it has the same table and knows of every
byte of ours that may be in the text. -/
theorem Calm.recast (h : Calm env pid k ⟨c, l⟩) (c' : Ctx) (ht : c'.t = c.t)
    (hpid : c'.pid = c.pid) (hlast : c'.armedBp = c.armedBp ∧ c'.armedOrig = c.armedOrig)
    (hbase : c'.bpBase = 0 ∨ c'.bpBase = c.bpBase ∧ c'.bpOrig = c.bpOrig)
    (harmed : ∀ a, armedNow pid l = some a → c'.bpPlanted = true ∧ c'.bpBase = a) :
    Calm env pid c'.keep ⟨c', l⟩ := by
  have htids : c'.tids = c.tids := congrArg (List.map Thr.tid) ht
  refine ⟨⟨h.inv.obeys, hpid.trans h.inv.pid_eq, ?_, ?_, ?_, ?_, ?_, ?_, harmed, ?_⟩, h.quiet, rfl⟩
  · rw [htids]
    exact h.inv.nodup
  · rw [ht]
    exact h.inv.kinds
  · rw [ht]
    exact h.inv.known
  · rw [ht]
    exact h.inv.copies
  · rw [hlast.1, hlast.2]
    exact h.inv.last
  · intro h0
    rcases hbase with hb | hb
    · exact absurd hb h0
    · rw [hb.1] at h0
      rw [hb.1, hb.2, hlast.1, hlast.2]
      exact h.inv.base h0
  · rw [htids]
    exact h.inv.holding

/-- A change of the context outside the table and the trap. -/
theorem Calm.aside (h : Calm env pid k w) (f : Ctx → Ctx) (hk : ∀ c, (f c.keep) = (f c).keep)
    (hf : ∀ c, (f c).t = c.t ∧ (f c).pid = c.pid ∧ (f c).armedBp = c.armedBp ∧
      (f c).armedOrig = c.armedOrig ∧ (f c).bpBase = c.bpBase ∧ (f c).bpOrig = c.bpOrig ∧
      (f c).bpPlanted = c.bpPlanted) : Calm env pid (f k) { w with ctx := f w.ctx } := by
  obtain ⟨ht, hpid, ha, hao, hb, hbo, hp⟩ := hf w.ctx
  rw [← h.keep, hk]
  apply h.recast _ ht hpid ⟨ha, hao⟩ (.inr ⟨hb, hbo⟩)
  rw [hp, hb]
  exact h.inv.armed

theorem Calm.unplant (h : Calm env pid k w) (hn : armedNow pid w.log = none) :
    Calm env pid { k with bpPlanted := false }
      { w with ctx := { w.ctx with bpPlanted := false } } := by
  rw [← h.keep]
  apply h.recast { w.ctx with bpPlanted := false } rfl rfl ⟨rfl, rfl⟩ (.inr ⟨rfl, rfl⟩)
  simp [hn]

/-- The word to put back at the base is the one that was there. -/
theorem Calm.base_mem (h : Calm env pid k w) (h0 : w.ctx.bpBase ≠ 0) :
    (w.ctx.bpBase, w.ctx.bpOrig) ∈ plants w.log := by
  have hm := h.inv.trap_mem (by simp [Ctx.trapAddr, h0])
  simpa [Ctx.trapAddr, Ctx.trapOrig, h0] using hm

theorem Near.armedNow_none {x : Option Tid} {w₀ : PsWorld} (h : Near env pid x w₀ w)
    (hn : w₀.ctx.bpBase ≠ 0 → armedNow pid w.log ≠ some w₀.ctx.bpBase) :
    armedNow pid w.log = none := by
  cases ha : armedNow pid w.log with
  | none => rfl
  | some a =>
    obtain ⟨-, h2⟩ := h.1.armed a ha
    rw [h.2.ctx] at h2
    subst h2
    exact absurd ha (hn (armedNow_ne_zero ha))

theorem own_of_canPoke {e : Thr} (h : psCanPoke e = true) : e.kind = .own := by
  cases hk : e.kind <;> simp_all [psCanPoke, kindMayPoke]

/-- The byte goes out through a task of the target, or the sampler knows that it is in. -/
theorem psUnplant_spec : Triple env (Calm env pid k) psUnplant fun b =>
    Calm env pid (if b then { k with bpPlanted := false } else k) := by
  refine triple_bind triple_ctx fun c => triple_ite (fun hc => ?_) fun _ => ?_
  · apply triple_pure
    rintro w ⟨hw, rfl⟩
    have hk : ({ k with bpPlanted := false } : Ctx) = k := by
      rw [← hw.keep]
      simp only [Ctx.keep, hc]
    simpa [hk] using hw
  · apply near_of fun w hw => hw.1.inv
    rintro w₁ ⟨hw₁, rfl⟩
    have hout : ∀ e ∈ w₁.ctx.t.filter psCanPoke, Triple env (Near env pid none w₁)
        (psRestoreCopy e.tid w₁.ctx.bpBase w₁.ctx.bpOrig) fun b w =>
          if b then Near env pid none w₁ w ∧ armedNow pid w.log = none
          else Near env pid none w₁ w := by
      intro e he
      obtain ⟨het, hpoke⟩ := List.mem_filter.1 he
      have hown : kindOf pid w₁.log e.tid = .own := by
        rw [hw₁.inv.kinds e het]
        exact own_of_canPoke hpoke
      apply triple_post (psRestoreCopy_spec hw₁.base_mem)
      rintro b w ⟨hw, hclean⟩
      cases b with
      | true => exact ⟨hw, hw.armedNow_none fun h0 => hclean rfl h0 hown⟩
      | false => exact hw
    refine triple_bind (triple_firstOf hout) fun b => triple_ite (fun hb => ?_) fun hb => ?_
    · subst hb
      refine triple_bind (triple_update fun w hw => ?_) fun _ => triple_pure _ fun w hw => hw
      exact (hw₁.near hw.1).unplant hw.2
    · apply triple_pure
      intro w hw
      simp only [hb] at hw ⊢
      exact hw₁.near hw

/-- The context after a planting. -/
def Ctx.plant (c : Ctx) (base : Addr) (o : ℕ) : Ctx :=
  { c with bpBase := base, bpOrig := o, bpPlanted := true, armedBp := base, armedOrig := o }

theorem Calm.plant {o : ℕ} (h : Calm env pid k ⟨c, l⟩) (hn : armedNow pid l = none)
    (hr : Rule env pid ⟨.poke (.plant o) tid base (trapWord o), true⟩ l) :
    Calm env pid (k.plant base o)
      ⟨c.plant base o, ⟨.poke (.plant o) tid base (trapWord o), true⟩ :: l⟩ := by
  refine ⟨⟨⟨hr, h.inv.obeys⟩, h.inv.pid_eq, h.inv.nodup, ?_, ?_, ?_, rfl, ?_, ?_, ?_⟩, ?_, ?_⟩
  · exact h.inv.kinds
  · exact fun e he => mem_seen_cons (h.inv.known e he)
  · exact fun e he hc => mem_plants_cons (h.inv.copies e he hc)
  · exact fun _ => ⟨rfl, rfl⟩
  · intro a ha
    simp only [armedNow, plantOf] at ha
    split at ha
    · simp [hn] at ha
    · exact ⟨rfl, Option.some_inj.1 ha⟩
  · intro t ht
    rcases h.inv.holding t ht with h | h | h
    · simp at h
    · exact .inr (.inl h.cons)
    · exact .inr (.inr h)
  · intro t s hl hs
    rcases h.quiet t s hl hs with h | h
    · exact .inl h
    · exact .inr h.cons
  · rw [← h.keep]
    rfl

/-- The byte goes in through a task of the target, and only when none is in. -/
theorem psPlant_spec (hk : k.bpPlanted = false) : Triple env
    (fun w => Calm env pid k w ∧ kindOf pid w.log tid = .own) (psPlant tid base)
    fun b w => if b then ∃ o, Calm env pid (k.plant base o) w else Calm env pid k w := by
  apply near_of fun w hw => hw.1.inv
  rintro w₁ ⟨hw₁, hown⟩
  refine triple_bind (triple_read rfl fun _ => rfl) fun a => ?_
  cases a with
  | unmapped | failed => exact triple_pure _ fun w hw => by simpa using hw₁.near hw.1
  | word o =>
    -- the poke is allowed by the read before it and by what the sampler knows of its byte
    have hpoke : Triple env (fun w => Near env pid none w₁ w ∧
        ∃ l, w.log = ⟨.peek tid base, .word o⟩ :: l ∧ kindOf pid l = kindOf pid w₁.log ∧
          plants l = plants w₁.log) (poke (.plant o) tid base (trapWord o)) fun b w =>
        if b then Calm env pid (k.plant base o) { w with ctx := w.ctx.plant base o }
        else Calm env pid k w := by
      apply triple_call
      rintro w ⟨hw, l, hl, hkind, -⟩
      have hc := hw₁.near hw
      have hp : w.ctx.bpPlanted = false := by
        rw [← hc.keep] at hk
        exact hk
      have hn := hc.inv.armedNow_none (.inl hp)
      have hrule : Rule env pid ⟨.poke (.plant o) tid base (trapWord o),
          env w.log (.poke (.plant o) tid base (trapWord o))⟩ w.log := by
        refine ⟨rfl, by simp, fun _ _ _ _ => .inl rfl, ?_, by simp⟩
        intro o' t a word hcall
        simp only [Call.poke.injEq, Poke.plant.injEq] at hcall
        obtain ⟨rfl, rfl, rfl, rfl⟩ := hcall
        exact ⟨by rw [hw.2.kindOf]; exact hown, hn, rfl, l, hl⟩
      cases ha : env w.log (.poke (.plant o) tid base (trapWord o)) with
      | true =>
        rw [ha] at hrule
        simpa using hc.plant hn hrule
      | false =>
        rw [ha] at hrule
        have hs : Silent ⟨.poke (.plant o) tid base (trapWord o), false⟩ :=
          ⟨rfl, rfl, by simp [heldOf]⟩
        simpa using (⟨hc.inv.push hrule hs, hc.quiet.push hs rfl, hc.keep⟩ : Calm env pid k _)
    refine triple_bind hpoke fun b => triple_ite (fun hb => ?_) fun hb => ?_
    · refine triple_bind (triple_update fun w hw => ?_) fun _ => triple_pure _ fun w hw => hw
      simp only [hb, if_true] at hw ⊢
      exact ⟨o, hw⟩
    · apply triple_pure
      intro w hw
      simpa [hb] using hw

/-- After a disarm no byte of ours is in the text, or the sampler has noted that one is. -/
theorem psDisarm_spec : Triple env (Calm env pid k) (psDisarm fuel budget) fun b =>
    Calm env pid (if b then { k with bpPlanted := false, bpBase := 0 }
      else { k with leaked := true }) := by
  have htwice : Triple env (Calm env pid k) (psUnplantTwice fuel budget) fun b =>
      Calm env pid (if b then { k with bpPlanted := false } else k) := by
    refine triple_bind psUnplant_spec fun b => triple_ite (fun hb => ?_) fun hb => ?_
    · exact triple_pure _ fun w hw => by simpa [hb] using hw
    · simp only [hb]
      exact triple_bind calm_stopAll fun _ => psUnplant_spec
  refine triple_bind calm_stopAll fun _ => triple_bind htwice fun b => ?_
  refine triple_ite (fun hb => ?_) fun hb => ?_
  · simp only [hb, if_true]
    refine triple_bind (calm_drain drainMax) fun _ => triple_bind calm_ctx fun c => ?_
    refine triple_bind (triple_each fun e _ => ?_) fun _ => ?_
    · exact triple_bind calm_rewind fun _ => calm_pure ()
    · refine triple_bind (triple_update fun w hw => ?_) fun _ => triple_pure _ fun w hw => hw
      have hn := hw.inv.armedNow_none (.inl (congrArg Ctx.bpPlanted hw.keep))
      have hk := congrArg (fun c : Ctx => { c with bpBase := 0 }) hw.keep
      simp only [if_true, ← hk]
      exact hw.recast { w.ctx with bpBase := 0 } rfl rfl ⟨rfl, rfl⟩ (.inl rfl) (by simp [hn])
  · simp only [hb]
    refine triple_bind (triple_update fun w hw => ?_) fun _ => triple_pure _ fun w hw => hw
    exact hw.aside (fun c => { c with leaked := true }) (fun _ => rfl) fun _ => by simp

/-! ### Seizing and sampling -/

/-- What a PTRACE_SEIZE brings. -/
def Seized (env : PsEnv) (pid tid : Tid) (k : Ctx) (a : Seize) (w : PsWorld) : Prop :=
  match a with
  | .ok => Meeting env pid tid k none w
  | _ => Calm env pid k w

theorem seize_spec : Triple env (Calm env pid k) (seize tid) (Seized env pid tid k) := by
  apply triple_call
  intro w hw
  have hrule : Rule env pid ⟨.seize tid, env w.log (.seize tid)⟩ w.log :=
    rule_plain rfl (.inr hw.quiet)
  cases ha : env w.log (.seize tid) with
  | ok =>
    rw [ha] at hrule
    refine ⟨hw.inv.cons hrule rfl rfl (by simp) (by simp [heldOf]), ?_, hw.keep, rfl⟩
    simp only [seen, List.filterMap_cons, seenOf]
    exact List.mem_cons_self
  | gone | refused =>
    rw [ha] at hrule
    exact ⟨hw.inv.push hrule ⟨rfl, rfl, by simp [heldOf]⟩, quiet_cons rfl rfl, hw.keep⟩

theorem calm_seizePass (tids : List Tid) : ∀ added, Triple env (Calm env pid k)
    (seizePass tids added) fun _ => Calm env pid k := by
  induction tids with
  | nil => exact fun added => calm_pure added
  | cons tid tids ih =>
    intro added
    refine triple_bind calm_ctx fun c => triple_ite (fun _ => ih added) fun _ => ?_
    refine triple_ite (fun _ => triple_bind calm_uncover fun _ => ih added) fun _ => ?_
    refine triple_bind seize_spec fun a => ?_
    cases a with
    | gone => exact ih added
    | refused => exact triple_bind calm_uncover fun _ => ih added
    | ok =>
      have hcalm : ∀ b w, Met env pid tid k none b w → Calm env pid k w := fun b w hw =>
        ⟨hw.inv, by intro t s hl; simp [hw.last] at hl, hw.keep⟩
      refine triple_bind (triple_post psAdd_spec hcalm) fun b => ?_
      exact triple_ite (fun _ => ih _) fun _ => triple_bind calm_uncover fun _ => ih added

theorem calm_seizeAll : Triple env (Calm env pid k) psSeizeAll fun _ => Calm env pid k := by
  have hscan : ∀ n, Triple env (Calm env pid k) (seizeScan n) fun _ => Calm env pid k := by
    intro n
    induction n with
    | zero => exact calm_uncover
    | succ n ih =>
      refine triple_bind (calm_call rfl) fun a => ?_
      cases a with
      | none => exact calm_uncover
      | some tids =>
        refine triple_bind (calm_seizePass tids 0) fun added => ?_
        exact triple_ite (fun _ => calm_pure ()) fun _ => ih
  refine triple_bind (triple_update fun w hw => ?_) fun _ =>
    triple_bind (hscan seizePasses) fun _ => triple_bind calm_ctx fun _ => calm_pure _
  exact Calm.same hw rfl rfl

theorem calm_sampleNext {rr : ℕ} :
    Triple env (Calm env pid k) (sampleNext fuel rr) fun _ => Calm env pid k := by
  have hpick : ∀ es, Triple env (Calm env pid k) (pickExecuting es) fun _ => Calm env pid k := by
    intro es
    induction es with
    | nil => exact calm_pure none
    | cons p es ih =>
      obtain ⟨i, e⟩ := p
      refine triple_ite (fun _ => ih) fun _ => triple_bind (calm_call rfl) fun _ => ?_
      exact triple_ite (fun _ => calm_pure _) fun _ => ih
  have hone : ∀ tid, Triple env (Calm env pid k) (sampleOne fuel tid) fun _ => Calm env pid k := by
    intro tid
    refine triple_bind (calm_call rfl) fun _ => triple_bind calm_pump fun ev => ?_
    refine triple_ite (fun _ => ?_) fun _ => calm_pure _
    refine triple_bind (calm_call rfl) fun pc => ?_
    exact triple_bind psCont_calm fun _ => calm_pure _
  refine triple_bind calm_ctx fun c => triple_bind (hpick _) fun r => ?_
  cases r with
  | none => exact calm_pure _
  | some p => exact triple_bind (hone p.2) fun _ => calm_pure _

theorem calm_phase1 {tEnd : ℕ} (n : ℕ) : ∀ rr pcs, Triple env (Calm env pid k)
    (psPhase1 tEnd n rr pcs) fun _ => Calm env pid k := by
  have hrest : ∀ fuel tick, Triple env (Calm env pid k) (pumpRest fuel tick)
      fun _ => Calm env pid k := by
    intro fuel tick
    refine triple_bind (calm_call rfl) fun t => triple_ite (fun _ => ?_) fun _ => calm_pure ()
    exact triple_bind calm_pump fun _ => calm_pure ()
  induction n with
  | zero => exact fun rr pcs => calm_pure pcs
  | succ n ih =>
    intro rr pcs
    refine triple_bind (calm_call rfl) fun t => triple_bind calm_ctx fun c => ?_
    refine triple_ite (fun _ => calm_pure pcs) fun _ => ?_
    refine triple_bind (calm_call rfl) fun tick => triple_bind calm_sampleNext fun r => ?_
    exact triple_bind (hrest n tick) fun _ => ih _ _

/-! ### The armed window -/

/-- A calm sampler whose trap satisfies `p`. -/
def Rest (env : PsEnv) (pid : Tid) (p : Ctx → Prop) (w : PsWorld) : Prop :=
  ∃ k, p k ∧ Calm env pid k w

theorem triple_rest {α : Type} {p : Ctx → Prop} {m : Ps α} {Q : α → Assn Ans Ctx}
    (h : ∀ k, p k → Triple env (Calm env pid k) m Q) : Triple env (Rest env pid p) m Q :=
  triple_exists fun k => triple_of (fun _ hw => hw.1) fun hp =>
    triple_pre (h k hp) fun _ hw => hw.2

/-- A program that keeps the calm keeps what is known of the trap. -/
theorem rest_calm {α : Type} {p : Ctx → Prop} {m : Ps α}
    (h : ∀ k, Triple env (Calm env pid k) m fun _ => Calm env pid k) :
    Triple env (Rest env pid p) m fun _ => Rest env pid p :=
  triple_rest fun k hp => triple_post (h k) fun _ _ hw => ⟨k, hp, hw⟩

theorem stepOff_spec {who : Tid} {p : Ctx → Prop}
    (hp : ∀ k s, p k → p { k with stepping := s }) :
    Triple env (Rest env pid p) (stepOff fuel who) fun _ => Rest env pid p := by
  have hset : ∀ s, Triple env (Rest env pid p) (update fun c => { c with stepping := s })
      fun _ => Rest env pid p := by
    intro s
    apply triple_update
    rintro w ⟨k, hk, hw⟩
    exact ⟨_, hp k s hk, hw.aside (fun c => { c with stepping := s }) (fun _ => rfl)
      fun _ => by simp⟩
  refine triple_bind (hset who) fun _ => ?_
  refine triple_bind (rest_calm fun k => calm_call rfl) fun _ => triple_ite (fun _ => ?_)
    fun _ => hset 0
  refine triple_bind (rest_calm fun k => triple_update fun w hw => hw.setStopped) fun _ => ?_
  exact triple_bind (rest_calm fun k => calm_pump) fun _ => hset 0

/-- The byte is out, and its address is known. -/
def Out (addr : Addr) (k : Ctx) : Prop := k.bpBase = addr ∧ k.bpPlanted = false

theorem rearm_spec {who : Tid} : Triple env (Rest env pid (Out addr)) (rearm who addr)
    fun _ => Rest env pid fun k => k.bpBase = addr := by
  apply triple_rest
  intro k hk
  refine triple_bind triple_ctx fun c => ?_
  have hno : Triple env (fun w => Calm env pid k w ∧ w.ctx = c) (pure false)
      fun _ => Rest env pid fun k => k.bpBase = addr :=
    triple_pure _ fun w hw => ⟨k, hk.1, hw.1⟩
  cases hf : c.find who with
  | none => exact hno
  | some e =>
    refine triple_ite (fun hpoke => ?_) fun _ => hno
    apply triple_post (triple_pre (psPlant_spec hk.2) ?_)
    · intro b w hw
      cases b with
      | true =>
        obtain ⟨o, hw⟩ := hw
        exact ⟨_, rfl, hw⟩
      | false => exact ⟨k, hk.1, hw⟩
    · rintro w ⟨hw, rfl⟩
      obtain ⟨he, rfl⟩ := Ctx.mem_of_find hf
      refine ⟨hw, ?_⟩
      rw [hw.inv.kinds e he]
      exact own_of_canPoke hpoke

/-- The byte comes out through the task that arrived. -/
theorem restore_arrived {who : Tid} : Triple env
    (fun w => (Rest env pid (fun k => k.bpBase = addr) w ∧ kindOf pid w.log who = .own) ∧
      w.ctx = c) (psRestoreCopy who addr c.bpOrig)
    fun ok w => Rest env pid (fun k => k.bpBase = addr) w ∧
      (ok = true → armedNow pid w.log = none) := by
  apply near_of (fun w hw => by obtain ⟨⟨⟨k, -, hw⟩, -⟩, -⟩ := hw; exact hw.inv)
  rintro w₁ ⟨⟨⟨k, hk, hw₁⟩, hown⟩, rfl⟩
  have hb : w₁.ctx.bpBase = addr := by
    rw [← hw₁.keep] at hk
    exact hk
  subst hb
  apply triple_post (psRestoreCopy_spec hw₁.base_mem)
  rintro ok w ⟨hw, hclean⟩
  exact ⟨⟨k, hk, hw₁.near hw⟩, fun hok => hw.armedNow_none fun h0 => hclean hok h0 hown⟩

theorem arrivalLoop_spec {tEnd t0 : ℕ} (n : ℕ) : ∀ arrivals first,
    Triple env (Rest env pid fun k => k.bpBase = addr)
      (arrivalLoop fuel addr tEnd t0 n arrivals first)
      fun _ => Rest env pid fun k => k.bpBase = addr := by
  have hpure : ∀ r : ℕ × ℕ, Triple env (Rest env pid fun k => k.bpBase = addr) (pure r)
      fun _ => Rest env pid fun k => k.bpBase = addr := fun r => rest_calm fun k => calm_pure r
  induction n with
  | zero => exact fun arrivals first => hpure _
  | succ n ih =>
    intro arrivals first
    refine triple_ite (fun _ => hpure _) fun _ => ?_
    refine triple_bind (rest_calm fun k => calm_call rfl) fun t => ?_
    refine triple_ite (fun _ => hpure _) fun _ => ?_
    have hpump : Triple env (Rest env pid fun k => k.bpBase = addr)
        (psPump fuel 0 (tEnd - t) spinUs true) fun ev w =>
        Rest env pid (fun k => k.bpBase = addr) w ∧
          ∀ who, ev = .arrived who → kindOf pid w.log who = .own :=
      triple_rest fun k hk => triple_post psPump_spec fun ev w hw => ⟨⟨k, hk, hw.1⟩, hw.2⟩
    refine triple_bind hpump fun ev => ?_
    cases ev with
    | none | stopped | gone => exact triple_pre (hpure _) fun w hw => hw.1
    | arrived who =>
      have hfirst : Triple env (fun w => Rest env pid (fun k => k.bpBase = addr) w ∧
          ∀ x, Ev.arrived who = .arrived x → kindOf pid w.log x = .own) (firstUs arrivals t0 first)
          fun _ w => Rest env pid (fun k => k.bpBase = addr) w ∧
            kindOf pid w.log who = .own := by
        refine triple_ite (fun _ => ?_) fun _ => triple_pure _ fun w hw => ⟨hw.1, hw.2 who rfl⟩
        refine triple_bind (triple_call _ ?_) fun t => triple_pure _ fun w hw => hw
        rintro w ⟨⟨k, hk, hw⟩, hown⟩
        exact ⟨⟨k, hk, hw.push rfl⟩, hown who rfl⟩
      refine triple_bind hfirst fun first => triple_bind triple_ctx fun c => ?_
      refine triple_bind restore_arrived fun ok => triple_ite (fun hok => ?_) fun _ => ?_
      · have hout : Triple env (fun w => Rest env pid (fun k => k.bpBase = addr) w ∧
            (ok = true → armedNow pid w.log = none))
            (update fun c => { c with bpPlanted := false }) fun _ => Rest env pid (Out addr) := by
          apply triple_update
          rintro w ⟨⟨k, hk, hw⟩, hn⟩
          have hu := hw.unplant (hn hok)
          exact ⟨{ k with bpPlanted := false }, ⟨hk, rfl⟩, hu⟩
        have hcont : Triple env (Rest env pid fun k => k.bpBase = addr) (psCont who 0)
            fun _ => Rest env pid fun k => k.bpBase = addr := rest_calm fun k => psCont_calm
        refine triple_bind hout fun _ => triple_ite (fun _ => ?_) fun _ => ?_
        · refine triple_bind (stepOff_spec fun k s hk => hk) fun _ => ?_
          refine triple_bind rearm_spec fun b => triple_ite (fun _ => ?_) fun _ => hpure _
          exact triple_bind hcont fun _ => ih _ _
        · refine triple_pre (triple_bind hcont fun _ => ih _ _) ?_
          exact fun w ⟨k, hk, hw⟩ => ⟨k, hk.1, hw⟩
      · exact triple_pre (hpure _) fun w hw => hw.1

/-- The sampler arms nothing more, or no byte of ours is in. -/
def Ready (k : Ctx) : Prop := k.leaked = false → k.bpPlanted = false

theorem psPhase3One_spec : Triple env (Rest env pid fun k => k.bpPlanted = false)
    (psPhase3One fuel addr budget) fun _ => Rest env pid Ready := by
  have hdone : Triple env (Rest env pid fun k => k.bpPlanted = false)
      (psResumeAll >>= fun _ => pure ((0, 0) : ℕ × ℕ)) fun _ => Rest env pid Ready := by
    refine triple_bind (rest_calm fun k => calm_resumeAll) fun _ => triple_pure _ ?_
    exact fun w ⟨k, hk, hw⟩ => ⟨k, fun _ => hk, hw⟩
  have hwindow : ∀ t, Triple env (Rest env pid fun k => k.bpBase = addr)
      (armedWindow fuel addr (t + budget)) fun _ => Rest env pid Ready := by
    intro t
    refine triple_bind (rest_calm fun k => calm_call rfl) fun t0 => ?_
    refine triple_bind (rest_calm fun k => calm_resumeAll) fun _ => ?_
    refine triple_bind (arrivalLoop_spec (hitBudget + 1) 0 0) fun r => ?_
    have hdisarm : Triple env (Rest env pid fun k => k.bpBase = addr) (psDisarm fuel stopForever)
        fun _ => Rest env pid Ready := by
      refine triple_rest fun k _ => triple_post psDisarm_spec fun b w hw => ⟨_, ?_, hw⟩
      cases b with
      | true => exact fun _ => rfl
      | false => exact fun h => by simp at h
    refine triple_bind hdisarm fun _ => triple_bind (rest_calm fun k => calm_resumeAll) fun _ => ?_
    exact rest_calm fun k => calm_pure r
  refine triple_bind (rest_calm fun k => calm_call rfl) fun t => ?_
  refine triple_bind (rest_calm fun k => triple_update fun w hw => Calm.same hw rfl rfl) fun _ => ?_
  refine triple_bind (rest_calm fun k => calm_stopAll) fun _ => ?_
  apply triple_rest
  intro k hk
  refine triple_bind triple_ctx fun c => triple_ite (fun _ => ?_) fun _ => ?_
  · exact triple_pure _ fun w hw => ⟨k, fun _ => hk, hw.1⟩
  cases hf : c.t.find? psCanPoke with
  | none => exact triple_pre hdone fun w hw => ⟨k, hk, hw.1⟩
  | some e =>
    have hown : ∀ w, Calm env pid k w ∧ w.ctx = c →
        Calm env pid k w ∧ kindOf pid w.log e.tid = .own := by
      rintro w ⟨hw, rfl⟩
      refine ⟨hw, ?_⟩
      rw [hw.inv.kinds e (List.mem_of_find?_eq_some hf)]
      exact own_of_canPoke (List.find?_some hf)
    refine triple_bind (triple_pre (psPlant_spec hk) hown) fun b => triple_ite (fun hb => ?_)
      fun hb => ?_
    · refine triple_pre (hwindow t) fun w hw => ?_
      simp only [hb, if_true] at hw
      obtain ⟨o, hw⟩ := hw
      exact ⟨_, rfl, hw⟩
    · refine triple_pre hdone fun w hw => ⟨k, hk, ?_⟩
      simpa [hb] using hw

theorem confirmLoop_spec {tEnd : ℕ} (cands : List Addr) : ∀ nconf,
    Triple env (Rest env pid Ready) (confirmLoop fuel budget tEnd cands nconf)
      fun _ => Rest env pid Ready := by
  have hpure : ∀ r : List (Addr × ℕ × ℕ), Triple env (Rest env pid Ready) (pure r)
      fun _ => Rest env pid Ready := fun r => rest_calm fun k => calm_pure r
  induction cands with
  | nil => exact fun nconf => hpure []
  | cons a as ih =>
    intro nconf
    apply triple_rest
    intro k hk
    refine triple_bind triple_ctx fun c => triple_ite (fun _ => ?_) fun hgo => ?_
    · exact triple_pre (hpure _) fun w hw => ⟨k, hk, hw.1⟩
    · -- nothing has leaked, so no byte is in
      have hout : ∀ w, Calm env pid k w ∧ w.ctx = c →
          Rest env pid (fun k => k.bpPlanted = false) w := by
        rintro w ⟨hw, rfl⟩
        refine ⟨k, hk ?_, hw⟩
        rw [← hw.keep]
        have hgo := hgo
        simp only [not_or] at hgo
        exact Bool.eq_false_iff.2 hgo.2.1
      refine triple_pre ?_ hout
      refine triple_bind (rest_calm fun k => calm_call rfl) fun t => triple_ite (fun _ => ?_)
        fun _ => ?_
      · apply triple_pure
        rintro w ⟨k, hk, hw⟩
        exact ⟨k, fun _ => hk, hw⟩
      · refine triple_bind psPhase3One_spec fun r => triple_bind (ih _) fun rest => ?_
        exact rest_calm fun k => calm_pure _

theorem psBody_spec {windowUs : ℕ} {expand : List Addr → List Addr} :
    Triple env (Rest env pid Ready) (psBody fuel budget windowUs expand)
      fun _ => Rest env pid Ready := by
  have hpure : ∀ r : List (Addr × ℕ × ℕ), Triple env (Rest env pid Ready) (pure r)
      fun _ => Rest env pid Ready := fun r => rest_calm fun k => calm_pure r
  refine triple_bind (rest_calm fun k => calm_seizeAll) fun ok => triple_ite (fun _ => ?_)
    fun _ => hpure []
  refine triple_bind (rest_calm fun k => calm_call rfl) fun t => ?_
  refine triple_bind (rest_calm fun k => calm_phase1 fuel 0 []) fun pcs => ?_
  refine triple_bind (rest_calm fun k => calm_ctx) fun c => triple_ite (fun _ => ?_)
    fun _ => hpure []
  refine triple_bind (rest_calm fun k => calm_call rfl) fun t => ?_
  exact confirmLoop_spec (expand pcs) 0

/-! ### The teardown -/

theorem restoreCopies_spec {w₀ : PsWorld} (es : List Thr) (hc : ∀ e ∈ es, e.copiedBp ≠ 0 →
    (e.copiedBp, e.copiedOrig) ∈ plants w₀.log) : Triple env (Near env pid none w₀)
    (restoreCopies es) fun _ => Near env pid none w₀ := by
  have hpure : ∀ b : Bool, Triple env (Near env pid none w₀) (pure b)
      fun _ => Near env pid none w₀ := fun b => triple_pure b fun _ hw => hw
  induction es with
  | nil => exact hpure true
  | cons e es ih =>
    have hheld : Triple env (Near env pid none w₀) (restoreHeld e)
        fun _ => Near env pid none w₀ := by
      refine triple_ite (fun _ => hpure true) fun _ => ?_
      refine triple_bind (psRestoreCopy_near (hc e (by simp))) fun ok => ?_
      refine triple_ite (fun _ => ?_) fun _ => hpure false
      exact triple_bind psRewind_spec fun _ => hpure true
    refine triple_bind hheld fun ok => triple_bind triple_ctx fun c => ?_
    refine triple_bind (triple_pre psRewind_spec fun w hw => hw.1) fun _ => ?_
    exact triple_bind (ih fun e he => hc e (by simp [he])) fun _ => hpure _

theorem calm_detachEach (tids : List Tid) :
    Triple env (Calm env pid k) (detachEach fuel tids) fun _ => Calm env pid k := by
  induction tids with
  | nil => exact calm_pure _
  | cons tid tids ih =>
    have hdetach : Triple env (Calm env pid k)
        (psDetachOne (psEnsure fuel stopForever) tid detachTries 0) fun b w =>
        Calm env pid k w ∧ (b = true → held w.log tid = false ∨ Full w.log) :=
      triple_pre (psDetachOne_spec (fun _ => calm_ensure) detachTries) fun w hw => ⟨hw, by simp⟩
    refine triple_bind hdetach fun b => triple_ite (fun hb => ?_) fun _ => ?_
    · refine triple_bind triple_ctx fun c => ?_
      have hdel : Triple env (fun w => (Calm env pid k w ∧
          (b = true → held w.log tid = false ∨ Full w.log)) ∧ w.ctx = c)
          (update fun c => c.del tid) fun _ => Calm env pid k :=
        triple_update fun w hw => hw.1.1.del (hw.1.2 hb)
      exact triple_bind hdel fun _ => triple_bind ih fun r => calm_pure _
    · exact triple_pre (triple_bind ih fun r => calm_pure _) fun w hw => hw.1

theorem calm_detachLoop (n : ℕ) :
    Triple env (Calm env pid k) (detachLoop fuel n) fun _ => Calm env pid k := by
  induction n with
  | zero => exact calm_pure true
  | succ n ih =>
    refine triple_bind triple_ctx fun c => ?_
    have hcopies : Triple env (fun w => Calm env pid k w ∧ w.ctx = c) (restoreCopies c.t)
        fun _ => Calm env pid k := by
      apply near_of fun w hw => hw.1.inv
      rintro w₁ ⟨hw₁, rfl⟩
      exact triple_post (restoreCopies_spec _ hw₁.inv.copies) fun _ _ h => hw₁.near h
    refine triple_bind hcopies fun copies => triple_ite (fun _ => calm_pure _) fun _ => ?_
    refine triple_bind (calm_detachEach _) fun r => triple_bind calm_ctx fun c => ?_
    refine triple_ite (fun _ => calm_pure _) fun _ => ?_
    exact triple_bind calm_stopAll fun _ => triple_bind ih fun rest => calm_pure _

/-- The trap is out of the text, as far as the sampler has seen, when the disarm says so. -/
theorem disarmAll_spec : Triple env (Calm env pid k) (disarmAll fuel) fun b =>
    Rest env pid fun k => b = true → k.bpBase = 0 := by
  refine triple_bind triple_ctx fun c => triple_ite (fun h0 => ?_) fun _ => ?_
  · have hstop : Triple env (fun w => Calm env pid k w ∧ w.ctx = c) (psStopAll fuel stopForever)
        fun _ => Rest env pid fun k => k.bpBase = 0 := by
      apply triple_at
      rintro w₁ ⟨hw₁, rfl⟩
      refine triple_post (triple_pre calm_stopAll fun w hw => hw ▸ hw₁) fun _ w hw => ⟨k, ?_, hw⟩
      rw [← hw₁.keep]
      exact h0
    exact triple_bind hstop fun _ => triple_pure _ fun w ⟨k, hk, hw⟩ => ⟨k, fun _ => hk, hw⟩
  · refine triple_bind (triple_pre psDisarm_spec fun w hw => hw.1) fun b => ?_
    refine triple_ite (fun hb => ?_) fun _ => ?_
    · subst hb
      refine triple_bind calm_stopAll fun _ => triple_pure _ fun w hw => ⟨_, fun _ => rfl, hw⟩
    · exact triple_pure _ fun w hw => ⟨_, by simp, hw⟩

/-- What is known when the sampler returns: every call kept the rule, no signal waits, and an
answer that the target is clean means that no byte of ours is in its text, or that the target
was gone, and that nothing is left attached. -/
structure Returned (env : PsEnv) (pid : Tid) (gone : Prop) (clean : Bool) (w : PsWorld) :
    Prop where
  obeys : Obeys (Rule env pid) w.log
  quiet : Quiet pid w.log
  text : clean = true → gone ∨ armedNow pid w.log = none
  free : clean = true → ∀ tid, held w.log tid = true → Full w.log

theorem Calm.free (h : Calm env pid k w) (ht : w.ctx.t.length = 0) (tid : Tid)
    (hh : held w.log tid = true) : Full w.log := by
  rcases h.inv.holding tid hh with h | h | h
  · simp at h
  · exact h
  · simp [Ctx.tids, List.length_eq_zero_iff.1 ht] at h

theorem psDetachAll_spec {gone : Prop} : Triple env
    (fun w => Calm env pid k w ∧ (w.ctx.covered = true ∧ w.ctx.t = [] → gone))
    (psDetachAll fuel) (Returned env pid gone) := by
  have htear : Triple env
      (fun w => Calm env pid k w ∧ (w.ctx.covered = true ∧ w.ctx.t = [] → gone))
      (update fun c => { c with tearingDown := true }) fun _ w =>
        Calm env pid { k with tearingDown := true } w ∧
          (w.ctx.covered = true ∧ w.ctx.t = [] → gone) := by
    refine triple_update fun w hw => ⟨?_, hw.2⟩
    exact hw.1.aside (fun c => { c with tearingDown := true }) (fun _ => rfl) fun _ => by simp
  refine triple_bind htear fun _ => triple_bind triple_ctx fun c => triple_ite (fun h => ?_)
    fun _ => ?_
  · -- the target is gone, and the log is not touched any more
    refine triple_bind (triple_update (Q := fun _ => Returned env pid gone true) fun w hw => ?_)
      fun _ => triple_pure _ fun w hw => hw
    obtain ⟨⟨hw, hgone⟩, rfl⟩ := hw
    exact ⟨hw.inv.obeys, hw.quiet, fun _ => .inl (hgone ⟨h.1, List.length_eq_zero_iff.1 h.2⟩),
      fun _ => hw.free h.2⟩
  · refine triple_bind (triple_pre disarmAll_spec fun w hw => hw.1.1) fun b => ?_
    refine triple_bind (rest_calm fun k => calm_detachLoop detachPasses) fun d => ?_
    have hlast : Triple env (Rest env pid fun k => b = true → k.bpBase = 0)
        (update fun c => { c with bpBase := 0 }) fun _ w =>
          Returned env pid gone (b && d && w.ctx.t.length == 0) w := by
      apply triple_update
      rintro w ⟨k, hk, hw⟩
      refine ⟨hw.inv.obeys, hw.quiet, fun hc => .inr ?_, fun hc => ?_⟩
      · simp only [Bool.and_eq_true] at hc
        have hb := hk hc.1.1
        rw [← hw.keep] at hb
        exact hw.inv.armedNow_none (.inr hb)
      · simp only [Bool.and_eq_true, beq_iff_eq] at hc
        exact hw.free hc.2
    refine triple_bind hlast fun _ => triple_bind triple_ctx fun c => triple_pure _ ?_
    rintro w ⟨hw, rfl⟩
    exact hw

theorem start_rest (env : PsEnv) (pid : Tid) : Rest env pid Ready (start pid) := by
  refine ⟨(start pid).ctx.keep, fun _ => rfl, ⟨trivial, rfl, by simp [Ctx.tids, start],
    by simp [start], by simp [start], by simp [start], rfl, by simp [start], ?_, ?_⟩, ?_, rfl⟩
  · simp [armedNow, start]
  · simp [held, start]
  · simp [Quiet, lastStop, start]

/-- A run of the sampler, on any kernel and any target. -/
theorem ptraceSample_returned (env : PsEnv) (pid fuel perUs windowUs : ℕ)
    (expand : List Addr → List Addr) :
    let body := psBody fuel perUs windowUs expand env (start pid)
    let done := ptraceSample fuel perUs windowUs expand env (start pid)
    Returned env pid (body.2.ctx.covered = true ∧ body.2.ctx.t = []) done.1.2 done.2 := by
  have hspec : Triple env (Rest env pid Ready) (psBody fuel perUs windowUs expand)
      fun _ => Rest env pid Ready := psBody_spec
  obtain ⟨k, -, hbody⟩ := hspec.run _ (start_rest env pid)
  exact psDetachAll_spec.run _ ⟨hbody, id⟩

end AsmTest.PtraceSample
