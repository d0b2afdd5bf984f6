import AsmTest.Activation

/-!
# The shadow stack is exact

The handle's frames and edges are a book that only three operations write: opening a frame,
noting an instruction and adding an edge. A well-nested run of the loop performs on the book what
the tree of activations dictates, and that makes the frames and edges of the tree.
-/

namespace AsmTest.Descent

open Hwtrace (Trace)

/-- Frames and edges as a reader of the handle sees them. -/
structure Book where
  frames : List FrameView
  edges : List Edge
deriving DecidableEq, Repr

inductive Entry where
  | open (e : Extent) (depth : ℕ) (parent : Option ℕ)
  | note (idx off : ℕ)
  | edge (e : Edge)
deriving DecidableEq, Repr

def FrameView.add (offs : List ℕ) (v : FrameView) : FrameView :=
  { v with insns := v.insns ++ offs }

def Book.write (b : Book) : Entry → Book
  | .open e depth parent => { b with frames := b.frames ++ [⟨e.base, e.len, depth, parent, []⟩] }
  | .note idx off => { b with frames := b.frames.modify idx (FrameView.add [off]) }
  | .edge e => { b with edges := b.edges ++ [e] }

def Book.replay (b : Book) (log : List Entry) : Book := log.foldl Book.write b

@[simp] lemma Book.replay_nil (b : Book) : b.replay [] = b := rfl

@[simp] lemma Book.replay_cons (b : Book) (e : Entry) (log : List Entry) :
    b.replay (e :: log) = (b.write e).replay log := rfl

lemma Book.replay_append (b : Book) (l₁ l₂ : List Entry) :
    b.replay (l₁ ++ l₂) = (b.replay l₁).replay l₂ :=
  List.foldl_append

/-- What the activation that is frame `idx` writes, the next free frame being `next`. -/
def Activation.log (base depth idx next : ℕ) : Activation → List Entry
  | .cut => []
  | .ret s => [.note idx (s.pc - base)]
  | .insn s rest => .note idx (s.pc - base) :: rest.log base depth idx next
  | .call s e callee rest =>
    .note idx (s.pc - base) :: .open e (depth + 1) (some idx) ::
      (callee.log e.base (depth + 1) next (next + 1) ++
        rest.log base depth idx (next + 1 + callee.size))
  | .skip s entry _ rest =>
    .note idx (s.pc - base) :: .edge ⟨s.pc - base, entry.pc, depth, idx⟩ ::
      rest.log base depth idx next
  | .lost s entry _ =>
    [.note idx (s.pc - base), .edge ⟨s.pc - base, entry.pc, depth, idx⟩]

/-! ### The book of a tree -/

lemma FrameView.add_add (l₁ l₂ : List ℕ) (v : FrameView) :
    (v.add l₁).add l₂ = v.add (l₁ ++ l₂) := by
  simp [FrameView.add]

lemma modify_add_add (F : List FrameView) (i : ℕ) (l₁ l₂ : List ℕ) :
    (F.modify i (FrameView.add l₁)).modify i (FrameView.add l₂) =
      F.modify i (FrameView.add (l₁ ++ l₂)) := by
  rw [List.modify_modify_eq]
  congr 1
  funext v
  exact FrameView.add_add l₁ l₂ v

lemma modify_append_left {F G : List FrameView} {i : ℕ} (f : FrameView → FrameView)
    (h : i < F.length) : (F ++ G).modify i f = F.modify i f ++ G := by
  apply List.ext_getElem?
  intro j
  rw [List.getElem?_modify]
  by_cases hj : j < F.length
  · rw [List.getElem?_append_left hj, List.getElem?_append_left (by simpa using hj),
      List.getElem?_modify]
  · have hne : i ≠ j := by omega
    rw [List.getElem?_append_right (by omega), List.getElem?_append_right (by simpa using hj)]
    simp [hne]

lemma modify_append_last (F : List FrameView) (v : FrameView) (f : FrameView → FrameView) :
    (F ++ [v]).modify F.length f = F ++ [f v] := by
  induction F with
  | nil => rfl
  | cons w F ih => simpa using ih

namespace Activation

@[simp] lemma nested_length (a : Activation) (depth idx next : ℕ) :
    (a.nested depth idx next).length = a.size := by
  induction a generalizing depth idx next with
  | cut => rfl
  | ret s => rfl
  | insn s rest ih => exact ih depth idx next
  | call s e callee rest ihc ihr =>
    simp only [nested, size, List.length_cons, List.length_append, ihc, ihr]
    omega
  | skip s entry native rest ih => exact ih depth idx next
  | lost s entry native => rfl

/-- The log of an activation gives its frame the activation's own instructions, and then one
frame for each activation nested in it. -/
lemma replay_log (a : Activation) (base depth idx : ℕ) (b : Book) (hidx : idx < b.frames.length) :
    b.replay (a.log base depth idx b.frames.length) =
      ⟨b.frames.modify idx (FrameView.add (a.offsets base)) ++ a.nested depth idx b.frames.length,
        b.edges ++ a.edges base depth idx b.frames.length⟩ := by
  induction a generalizing base depth idx b with
  | cut =>
    have hid : FrameView.add [] = id := by
      funext v
      simp [FrameView.add]
    simp [log, offsets, nested, edges, hid]
  | ret s => simp [log, offsets, nested, edges, Book.write]
  | insn s rest ih =>
    have hlen : (b.write (.note idx (s.pc - base))).frames.length = b.frames.length := by
      simp [Book.write]
    have h := ih base depth idx (b.write (.note idx (s.pc - base))) (by rw [hlen]; exact hidx)
    rw [hlen] at h
    rw [log, Book.replay_cons, h]
    simp only [Book.write, modify_add_add, offsets, nested, edges, List.singleton_append]
  | call s e callee rest ihc ihr =>
    set F := b.frames.modify idx (FrameView.add [s.pc - base]) with hF
    have hFlen : F.length = b.frames.length := by simp [hF]
    -- the callee's frame is the last one when its own log starts
    have hc := ihc e.base (depth + 1) b.frames.length
      ⟨F ++ [⟨e.base, e.len, depth + 1, some idx, []⟩], b.edges⟩ (by simp [hFlen])
    have hlast := modify_append_last F ⟨e.base, e.len, depth + 1, some idx, []⟩
      (FrameView.add (callee.offsets e.base))
    rw [hFlen] at hlast
    simp only [List.length_append, List.length_singleton, hFlen, hlast] at hc
    have hr := ihr base depth idx
      ⟨F ++ [FrameView.add (callee.offsets e.base) ⟨e.base, e.len, depth + 1, some idx, []⟩] ++
          callee.nested (depth + 1) b.frames.length (b.frames.length + 1),
        b.edges ++ callee.edges e.base (depth + 1) b.frames.length (b.frames.length + 1)⟩
      (by simp [hFlen]; omega)
    simp only [List.length_append, List.length_singleton, hFlen, nested_length] at hr
    rw [log, Book.replay_cons, Book.replay_cons, Book.replay_append]
    simp only [Book.write]
    rw [← hF, hc, hr, List.append_assoc, modify_append_left _ (by omega), hF, modify_add_add]
    simp [offsets, nested, edges, FrameView.add]
  | skip s entry native rest ih =>
    have hlen : ((b.write (.note idx (s.pc - base))).write
        (.edge ⟨s.pc - base, entry.pc, depth, idx⟩)).frames.length = b.frames.length := by
      simp [Book.write]
    have h := ih base depth idx _ (hlen ▸ hidx)
    rw [hlen] at h
    rw [log, Book.replay_cons, Book.replay_cons, h]
    simp only [Book.write, modify_add_add, offsets, nested, edges, List.singleton_append,
      List.append_assoc]
  | lost s entry native => simp [log, offsets, nested, edges, Book.write]

end Activation

/-! ### The handle as a book -/

def Handle.book (d : Handle) : Book := ⟨d.frames.map Frame.view, d.edges⟩

@[simp] lemma book_markTruncated (d : Handle) : (markTruncated d).book = d.book := rfl

@[simp] lemma book_markDepthCapped (d : Handle) : (markDepthCapped d).book = d.book := rfl

@[simp] lemma book_addEdge (d : Handle) (e : Edge) : (addEdge d e).book = d.book.write (.edge e) :=
  rfl

@[simp] lemma book_frames_length (d : Handle) : d.book.frames.length = d.frames.length := by
  simp [Handle.book]

lemma book_frameRecord (d : Handle) (fi off insnLen : ℕ) :
    (frameRecord d fi off insnLen).2.book = d.book.write (.note fi off) := by
  unfold frameRecord
  cases hf : d.frames[fi]? with
  | none =>
    have hlen : d.frames.length ≤ fi := List.getElem?_eq_none_iff.mp hf
    simp only [Handle.book, Book.write]
    rw [List.modify_eq_self (by simpa using hlen)]
  | some f =>
    simp only [Handle.book, Book.write, Book.mk.injEq, and_true]
    apply List.ext_getElem?
    intro j
    rw [List.getElem?_map, List.getElem?_modify, List.getElem?_map, List.getElem?_set]
    by_cases hj : fi = j
    · subst hj
      obtain ⟨hlt, rfl⟩ := List.getElem?_eq_some_iff.mp hf
      simp [hlt, Frame.view, FrameView.add]
    · simp [hj]

/-- With room left, opening a frame gives it the next index. -/
lemma pushFrame_room {cfg : Config} {d : Handle} (h : d.book.frames.length < cfg.framesMax)
    (e : Extent) (depth : ℕ) (parent : Option ℕ) :
    ∃ d', pushFrame cfg d e depth parent = (some d.book.frames.length, d') ∧
      d'.book = d.book.write (.open e depth parent) := by
  rw [book_frames_length] at h ⊢
  refine ⟨_, if_pos h, ?_⟩
  simp [Handle.book, Book.write, Frame.view]

section Record

variable (cfg : Config) (m : Mach) (pc sp : ℕ)

@[simp] lemma descendRecord_book : (descendRecord cfg m pc sp).handle.book =
    m.handle.book.write (.note m.top.idx (pc - m.top.base)) :=
  book_frameRecord _ _ _ _

@[simp] lemma descendRecord_toSlot : (descendRecord cfg m pc sp).top.toSlot = m.top.toSlot := by
  simp only [descendRecord]
  split_ifs <;> rfl

@[simp] lemma descendRecord_below : (descendRecord cfg m pc sp).below = m.below := rfl

@[simp] lemma descendRecord_steps : (descendRecord cfg m pc sp).steps = m.steps := rfl

@[simp] lemma descendRecord_entered : (descendRecord cfg m pc sp).entered = m.entered := rfl

lemma descendRecord_lastWasRet : (descendRecord cfg m pc sp).top.lastWasRet =
    ((cfg.probe pc (m.top.base + m.top.len)).isRet &&
      (cfg.probe pc (m.top.base + m.top.len)).len != 0) := by
  simp only [descendRecord]
  split_ifs <;> rfl

variable {cfg m pc sp}

/-- A recorded call is pending. -/
lemma descendRecord_call (h : (cfg.probe pc (m.top.base + m.top.len)).isCall = true ∧
      (cfg.probe pc (m.top.base + m.top.len)).len ≠ 0) :
    (descendRecord cfg m pc sp).top.lastWasCall = true ∧
      (descendRecord cfg m pc sp).top.callSite = pc - m.top.base ∧
      (descendRecord cfg m pc sp).top.callLen = (cfg.probe pc (m.top.base + m.top.len)).len ∧
      (descendRecord cfg m pc sp).top.callSp = sp := by
  simp only [descendRecord]
  rw [if_pos h]
  exact ⟨rfl, rfl, rfl, rfl⟩

lemma descendRecord_not_call (h : ¬((cfg.probe pc (m.top.base + m.top.len)).isCall = true ∧
      (cfg.probe pc (m.top.base + m.top.len)).len ≠ 0)) :
    (descendRecord cfg m pc sp).top.lastWasCall = false := by
  simp only [descendRecord]
  rw [if_neg h]

end Record

/-! ### Rounds of the loop -/

/-- One round that goes on. -/
def Rounds (cfg : Config) (p q : Mach × List Stop) : Prop :=
  descendStep cfg p.1 p.2 = .cont q.1 q.2

def Reach (cfg : Config) : Mach × List Stop → Mach × List Stop → Prop :=
  Relation.ReflTransGen (Rounds cfg)

/-- The loop ends with result `r`. -/
def Ends (cfg : Config) (p : Mach × List Stop) (r : Result) : Prop :=
  ∃ q, Reach cfg p q ∧ descendStep cfg q.1 q.2 = .done r

lemma Reach.head {cfg : Config} {p q r : Mach × List Stop} (h : Rounds cfg p q)
    (hr : Reach cfg q r) : Reach cfg p r :=
  Relation.ReflTransGen.head h hr

lemma Ends.head {cfg : Config} {p q : Mach × List Stop} {r : Result} (h : Reach cfg p q)
    (hr : Ends cfg q r) : Ends cfg p r := by
  obtain ⟨z, hz, hdone⟩ := hr
  exact ⟨z, h.trans hz, hdone⟩

lemma runUntil_length {target : ℕ} {l rest : List Stop} {s : State}
    (h : runUntil target l = some (s, rest)) : rest.length < l.length := by
  induction l with
  | nil => cases h
  | cons x l ih =>
    cases x with
    | trap u =>
      rw [runUntil] at h
      split_ifs at h
      · cases h
        simp
      · have hlt := ih h
        simp only [List.length_cons]
        omega
    | signal fault =>
      have hlt := ih h
      simp only [List.length_cons]
      omega
    | appTrap =>
      have hlt := ih h
      simp only [List.length_cons]
      omega

lemma stepOver_length {cfg : Config} {m m' : Mach} {s : State} {l rest : List Stop}
    (h : stepOver cfg m s l = .cont m' rest) : rest.length ≤ l.length := by
  unfold stepOver at h
  dsimp only at h
  split at h
  · cases h
  · rename_i hrun
    cases h
    exact (runUntil_length hrun).le

lemma callOut_length {cfg : Config} {m m' : Mach} {s : State} {l rest : List Stop}
    (h : callOut cfg m s l = .cont m' rest) : rest.length ≤ l.length := by
  unfold callOut at h
  dsimp only at h
  generalize (if (_ || _) = true then _ else m) = m₁ at h
  split at h
  · exact stepOver_length h
  · split_ifs at h
    · split at h
      · cases h
        exact le_rfl
      · exact stepOver_length h
    · exact stepOver_length h

lemma descendLand_length {cfg : Config} {m m' : Mach} {s : State} {l rest : List Stop}
    (h : descendLand cfg m s l = .cont m' rest) : rest.length ≤ l.length := by
  unfold descendLand at h
  dsimp only at h
  split_ifs at h
  · cases h
    exact le_rfl
  · exact callOut_length h
  · unfold leave at h
    split_ifs at h
    split at h
    · cases h
    · cases h
      exact le_rfl

/-- A round uses up a stop. -/
lemma descendStep_length {cfg : Config} {m m' : Mach} {l rest : List Stop}
    (h : descendStep cfg m l = .cont m' rest) : rest.length < l.length := by
  unfold descendStep at h
  dsimp only at h
  split_ifs at h
  · cases h
  · split at h
    · cases h
    · split_ifs at h
      · cases h
      · cases h
        simp
    · cases h
    · split_ifs at h
      · cases h
        simp
      · have hle := descendLand_length h
        simp only [List.length_cons]
        omega

lemma descendLoop_of_ends {cfg : Config} {p : Mach × List Stop} {r : Result}
    (h : Ends cfg p r) (fuel : ℕ) (hfuel : p.2.length < fuel) :
    descendLoop cfg fuel p.1 p.2 = r := by
  obtain ⟨q, hpq, hdone⟩ := h
  induction hpq using Relation.ReflTransGen.head_induction_on generalizing fuel with
  | refl =>
    cases fuel with
    | zero => omega
    | succ fuel => simp [descendLoop, hdone]
  | head hstep _ ih =>
    cases fuel with
    | zero => omega
    | succ fuel =>
      have hlt := descendStep_length hstep
      rw [Rounds] at hstep
      rw [descendLoop, hstep]
      exact ih fuel (by omega)

/-! ### One round inside an activation -/

/-- The frame `k` over the frames `bs` is an activation at site `x`. -/
structure Fits (x : Site) (k : Slot) (bs : List DFrame) : Prop where
  extent : k.extent = x.region
  depth : k.depth = x.depth
  callers : bs.map (fun f => f.base) = x.callers
  spRet : ∀ sp ∈ x.bound, k.spRet = sp
  root : x.bound = none → bs = []

/-- The loop has frame `k` on top of `bs` and `n` steps behind it. -/
structure At (k : Slot) (bs : List DFrame) (n : ℕ) (m : Mach) : Prop where
  slot : m.top.toSlot = k
  below : m.below = bs
  steps : m.steps = n
  entered : m.entered = true

def Mach.tick (m : Mach) : Mach := { m with steps := m.steps + 1 }

section Round

variable {cfg : Config} {x : Site} {k : Slot} {bs : List DFrame} {n : ℕ} {m : Mach} {s : State}
  {rest : List Stop}

lemma At.tick (h : At k bs n m) : At k bs (n + 1) m.tick :=
  ⟨h.slot, h.below, congrArg (· + 1) h.steps, h.entered⟩

lemma At.record (h : At k bs n m) (pc sp : ℕ) : At k bs n (descendRecord cfg m pc sp) :=
  ⟨by rw [descendRecord_toSlot, h.slot], h.below, h.steps, h.entered⟩

lemma Fits.base (h : Fits x k bs) : k.base = x.region.base := congrArg Extent.base h.extent

lemma Fits.len (h : Fits x k bs) : k.len = x.region.len := congrArg Extent.len h.extent

/-- In an entered run under the step cap a trap is classified. -/
lemma descendStep_trap (h : At k bs n m) (hcap : n + 1 ≤ descendHardStepCap) :
    descendStep cfg m (.trap s :: rest) = descendLand cfg m.tick s rest := by
  have hent := h.entered
  have hsteps := h.steps
  unfold descendStep
  dsimp only
  rw [if_neg (by omega), if_neg (by simp [hent])]
  cases m
  subst hent
  rfl

/-- An instruction of the activation itself pops nothing. -/
lemma popFrames_own (hfit : Fits x k bs) (hat : At k bs n m) (hsp : ∀ sp ∈ x.bound, s.sp < sp) :
    popFrames s m.top m.below = (m.top, m.below) := by
  cases hb : m.below with
  | nil => rfl
  | cons g gs =>
    cases hbound : x.bound with
    | none =>
      have hnil := hfit.root hbound
      rw [← hat.below, hb] at hnil
      cases hnil
    | some sp =>
      have hret := hfit.spRet sp hbound
      have hlt := hsp sp hbound
      have htop : m.top.spRet = sp := by
        rw [← hret, ← hat.slot]
      rw [popFrames, if_neg (by omega), if_neg (by omega)]

lemma descendLand_own (hfit : Fits x k bs) (hat : At k bs n m)
    (hsp : ∀ sp ∈ x.bound, s.sp < sp) :
    descendLand cfg m s rest =
      if x.region.Contains s.pc then .cont (landInside cfg m s) rest
      else if m.top.lastWasCall = true ∧ m.top.callSite + m.top.callLen < x.region.len then
        callOut cfg m s rest
      else leave cfg m s rest := by
  have hext : m.top.extent = x.region := by
    rw [← hfit.extent, ← hat.slot]
  have hlen : m.top.len = x.region.len := congrArg Extent.len hext
  unfold descendLand
  rw [popFrames_own hfit hat hsp]
  dsimp only
  rw [hext, hlen]

/-- An instruction that follows one that is not a pending call is recorded. -/
lemma round_own (hfit : Fits x k bs) (hat : At k bs n m) (hown : Own x (n + 1) s)
    (hcall : m.top.lastWasCall = false) :
    Rounds cfg (m, .trap s :: rest) (descendRecord cfg m.tick s.pc s.sp, rest) := by
  obtain ⟨hin, hsp, hcap⟩ := hown
  have hnot : ¬(m.tick.top.lastWasCall = true ∧ s.pc ≠ m.tick.fallthru) := by
    rintro ⟨h, -⟩
    rw [show m.tick.top.lastWasCall = false from hcall] at h
    cases h
  rw [Rounds, descendStep_trap hat hcap, descendLand_own hfit hat.tick hsp, if_pos hin,
    landInside, if_neg hnot]

/-- The call at `s` is pending in the top frame. -/
structure Pends (cfg : Config) (x : Site) (s : State) (m : Mach) : Prop where
  call : m.top.lastWasCall = true
  site : m.top.callSite = s.pc - x.region.base
  len : m.top.callLen = (x.probe cfg s).len
  sp : m.top.callSp = s.sp

lemma pends_record (hfit : Fits x k bs) (hat : At k bs n m) (hcall : IsCall cfg x s) :
    Pends cfg x s (descendRecord cfg m s.pc s.sp) := by
  have hbase : m.top.base = x.region.base := by rw [← hfit.base, ← hat.slot]
  have hlen : m.top.len = x.region.len := by rw [← hfit.len, ← hat.slot]
  have hcall' : (cfg.probe s.pc (m.top.base + m.top.len)).isCall = true ∧
      (cfg.probe s.pc (m.top.base + m.top.len)).len ≠ 0 := by
    rw [hbase, hlen]
    exact hcall
  obtain ⟨h1, h2, h3, h4⟩ := @descendRecord_call cfg m s.pc s.sp hcall'
  exact ⟨h1, by rw [h2, hbase], by rw [h3, hbase, hlen]; rfl, h4⟩

lemma Pends.fallthru_eq (h : Pends cfg x s m) (hfit : Fits x k bs) (hat : At k bs n m)
    (hin : x.region.Contains s.pc) : m.fallthru = fallthru cfg x s := by
  have hbase : m.top.base = x.region.base := by rw [← hfit.base, ← hat.slot]
  have hle := hin.1
  rw [Mach.fallthru, h.site, h.len, hbase, fallthru]
  omega

/-- A pending call whose fall-through is in the region leaves it as a call-out. -/
lemma round_out {t : State} (hfit : Fits x k bs) (hat : At k bs n m) (hp : Pends cfg x s m)
    (hin : x.region.Contains s.pc) (hfall : FallsInside cfg x s)
    (hcap : n + 1 ≤ descendHardStepCap) (hsp : ∀ sp ∈ x.bound, t.sp < sp)
    (hout : ¬x.region.Contains t.pc) :
    descendStep cfg m (.trap t :: rest) = callOut cfg m.tick t rest := by
  have hlt : m.tick.top.callSite + m.tick.top.callLen < x.region.len := by
    have hle := hin.1
    have hf : s.pc + (x.probe cfg s).len < x.region.base + x.region.len := hfall
    rw [show m.tick.top.callSite = s.pc - x.region.base from hp.site,
      show m.tick.top.callLen = (x.probe cfg s).len from hp.len]
    omega
  rw [descendStep_trap hat hcap, descendLand_own hfit hat.tick hsp, if_neg hout,
    if_pos ⟨hp.call, hlt⟩]

/-- A call that is run over becomes an edge. -/
lemma callOut_skip {t : State} (hlevel : cfg.level ≠ .off) (hfit : Fits x k bs)
    (hat : At k bs n m) (hp : Pends cfg x s m) (hin : x.region.Contains s.pc)
    (hdec : descendDecide cfg n x.depth t.pc = (none, false)) :
    ∃ m', At k bs n m' ∧
      m'.handle.book = m.handle.book.write (.edge ⟨s.pc - x.region.base, t.pc, x.depth, k.idx⟩) ∧
      ∀ rest, callOut cfg m t rest =
        match runUntil (fallthru cfg x s) rest with
        | none => m'.abandon
        | some (r, rest) => .cont (descendRecord cfg m' (fallthru cfg x s) r.sp) rest := by
  have hdepth : m.top.depth = x.depth := by rw [← hfit.depth, ← hat.slot]
  have hidx : m.top.idx = k.idx := by rw [← hat.slot]
  refine ⟨{ m with handle := addEdge m.handle ⟨m.top.callSite, t.pc, m.top.depth, m.top.idx⟩ },
    ⟨hat.slot, hat.below, hat.steps, hat.entered⟩, ?_, fun rest => ?_⟩
  · rw [book_addEdge, hp.site, hdepth, hidx]
  · have hfalls : (Mach.fallthru { m with
        handle := addEdge m.handle ⟨m.top.callSite, t.pc, m.top.depth, m.top.idx⟩ }) =
        fallthru cfg x s := hp.fallthru_eq hfit hat hin
    have hdec' : descendDecide cfg m.steps m.top.depth t.pc = (none, false) := by
      rw [hat.steps, hdepth, hdec]
    rw [← hfalls]
    unfold callOut
    rw [hdec']
    simp only [Option.isSome_none, Bool.and_false, Bool.or_false, Bool.false_eq_true, if_false]
    unfold stepOver
    exact congrArg (fun m' : Mach =>
      match runUntil m'.fallthru rest with
      | none => m'.abandon
      | some (r, rest) => .cont (descendRecord cfg m' m'.fallthru r.sp) rest) (if_neg hlevel)

/-- A call that is descended opens a frame over the caller's, whose call is no longer pending. -/
lemma round_call {t : State} {e : Extent} (hfit : Fits x k bs) (hat : At k bs n m)
    (hp : Pends cfg x s m) (hin : x.region.Contains s.pc) (hfall : FallsInside cfg x s)
    (hcap : n + 1 ≤ descendHardStepCap) (hsp : ∀ sp ∈ x.bound, t.sp < sp)
    (hne : t.pc ≠ fallthru cfg x s) (hdesc : Descends cfg x (n + 1) t.pc e)
    (hroom : m.handle.book.frames.length < cfg.framesMax) :
    ∃ d, d.book = m.handle.book.write (.open e (x.depth + 1) (some k.idx)) ∧
      ∀ rest, Rounds cfg (m, .trap t :: rest)
        (descendRecord cfg (m.tick.push d m.handle.book.frames.length e (fallthru cfg x s))
          t.pc t.sp, rest) := by
  have hext : m.tick.top.extent = x.region := by rw [← hfit.extent, ← hat.slot]; rfl
  have hdepth : m.tick.top.depth = x.depth := by rw [← hfit.depth, ← hat.slot]; rfl
  have hidx : m.tick.top.idx = k.idx := by rw [← hat.slot]; rfl
  have hlen : m.tick.below.length = x.depth := by
    rw [Site.depth, ← hfit.callers, List.length_map, ← hat.below]
    rfl
  have hfalls : m.tick.fallthru = fallthru cfg x s := hp.fallthru_eq hfit hat hin
  obtain ⟨d, hpush, hbook⟩ := pushFrame_room hroom e (x.depth + 1) (some k.idx)
  refine ⟨d, hbook, fun rest => ?_⟩
  obtain ⟨hstack, hdesc⟩ := hdesc
  by_cases hsame : x.region.Contains t.pc
  · rw [if_pos hsame] at hdesc
    obtain ⟨rfl, hmax, hrec⟩ := hdesc
    have hcount : ((m.tick.top :: m.tick.below).filter
        fun f => decide (f.base = m.tick.top.base)).length < descendRecursionCap := by
      have hbase : m.tick.top.base = x.region.base := congrArg Extent.base hext
      have hbs : m.tick.below.map (fun f => f.base) = x.callers := by
        rw [← hfit.callers, ← hat.below]
        rfl
      calc ((m.tick.top :: m.tick.below).filter
              fun f => decide (f.base = m.tick.top.base)).length
          = ((m.tick.top :: m.tick.below).map (fun f => f.base)).count x.region.base := by
            rw [hbase, List.count_eq_length_filter, List.filter_map, List.length_map]
            rfl
        _ < descendRecursionCap := by
            rw [List.map_cons, hbs, hbase]
            exact hrec
    have hpend : m.tick.top.lastWasCall = true ∧ t.pc ≠ m.tick.fallthru :=
      ⟨hp.call, by rw [hfalls]; exact hne⟩
    rw [Rounds, descendStep_trap hat hcap, descendLand_own hfit hat.tick hsp, if_pos hsame,
      landInside, if_pos hpend, if_pos ⟨by omega, hcount, by omega⟩, hext, hdepth, hidx, hfalls]
    rw [show pushFrame cfg m.tick.handle x.region (x.depth + 1) (some k.idx) = _ from hpush]
  · rw [if_neg hsame] at hdesc
    obtain ⟨hdec, hbudget⟩ := hdesc
    have hpos : 0 < e.len := by
      have hc := descendDecide_contains hdec
      rw [Extent.Contains] at hc
      omega
    have hsteps : m.tick.steps = n + 1 := hat.tick.steps
    rw [Rounds, round_out hfit hat hp hin hfall hcap hsp hsame]
    unfold callOut
    rw [hsteps, hdepth, hdec]
    simp only [hbudget, decide_true, Bool.not_true, Bool.false_and, Bool.or_false,
      Bool.false_eq_true, if_false, true_and]
    rw [if_pos ⟨hpos, by omega⟩, hdepth, hidx, hfalls,
      show pushFrame cfg m.tick.handle e (x.depth + 1) (some k.idx) = _ from hpush]

/-- A return pops the callee's frame and records the instruction after the call. -/
lemma round_return {f : DFrame} {u : State} (hfit : Fits x f.toSlot bs)
    (hat : At k (f :: bs) n m) (hret : m.top.lastWasRet = true) (hpc : u.pc = k.retAddr)
    (hspRet : u.sp = k.spRet) (hcall : f.lastWasCall = false) (hown : Own x (n + 1) u) :
    Rounds cfg (m, .trap u :: rest)
      (descendRecord cfg { m.tick with top := f, below := bs } u.pc u.sp, rest) := by
  obtain ⟨hin, hsp, hcap⟩ := hown
  have hat' : At f.toSlot bs (n + 1) { m.tick with top := f, below := bs } :=
    ⟨rfl, rfl, hat.tick.steps, hat.entered⟩
  have hbelow : m.tick.below = f :: bs := hat.below
  have hpop : popFrames u m.tick.top m.tick.below = (f, bs) := by
    have htop1 : m.tick.top.spRet = k.spRet := by rw [← hat.slot]; rfl
    have htop2 : m.tick.top.retAddr = k.retAddr := by rw [← hat.slot]; rfl
    rw [hbelow, popFrames, if_neg (by omega),
      if_pos ⟨by rw [htop1, hspRet], by rw [htop2, hpc], hret⟩]
    exact popFrames_own hfit hat' hsp
  have hnot : ¬(f.lastWasCall = true ∧
      u.pc ≠ (Mach.fallthru { m.tick with top := f, below := bs })) := by
    rw [hcall]
    rintro ⟨h, -⟩
    cases h
  rw [Rounds, descendStep_trap hat hcap]
  unfold descendLand
  rw [hpop]
  dsimp only
  rw [show f.extent = x.region from hfit.extent, if_pos hin, landInside, if_neg hnot]

end Round

section Native

variable {target : ℕ} {native : List State} (h : ∀ u ∈ native, u.pc ≠ target)
include h

/-- The callee runs to its return address. -/
lemma runUntil_arrives {s : State} (hs : s.pc = target) (rest : List Stop) :
    runUntil target (native.map .trap ++ .trap s :: rest) = some (s, rest) := by
  induction native with
  | nil => simp [runUntil, hs]
  | cons u native ih =>
    obtain ⟨hu, hrest⟩ := List.forall_mem_cons.mp h
    rw [List.map_cons, List.cons_append, runUntil, if_neg hu]
    exact ih hrest

lemma runUntil_lost : runUntil target (native.map .trap) = none := by
  induction native with
  | nil => rfl
  | cons u native ih =>
    obtain ⟨hu, hrest⟩ := List.forall_mem_cons.mp h
    rw [List.map_cons, runUntil, if_neg hu]
    exact ih hrest

end Native

/-! ### A whole activation -/

lemma Activation.states_eq {a : Activation} {s : State} (h : a.head? = some s) :
    a.states = s :: a.states.tail := by
  cases a <;> simp [head?] at h <;> simp [states, h]

lemma Activation.exists_head {a : Activation} (h : a ≠ .cut) : ∃ s, a.head? = some s := by
  cases a <;> simp [head?] at h ⊢

lemma Activation.replay_log_length (a : Activation) (base depth idx : ℕ) (b : Book)
    (hidx : idx < b.frames.length) :
    (b.replay (a.log base depth idx b.frames.length)).frames.length = b.frames.length + a.size := by
  rw [a.replay_log base depth idx b hidx]
  simp

lemma Book.note_length (b : Book) (idx off : ℕ) :
    (b.write (.note idx off)).frames.length = b.frames.length := by
  simp [Book.write]

lemma WellNested.own {cfg : Config} {x : Site} {n : ℕ} {a : Activation} {s : State}
    (h : WellNested cfg x n a) (hs : a.head? = some s) : Own x n s := by
  cases a <;> simp only [Activation.head?, Option.some.injEq, reduceCtorEq] at hs <;> subst hs <;>
    exact h.1

/-- From `m`, which has recorded the first instruction of `a`, the loop gets through the rest of
`a` and leaves the book `b`: it stands at the return, or it has ended. -/
def Follows (cfg : Config) (a : Activation) (k : Slot) (bs : List DFrame) (n : ℕ) (m : Mach)
    (b : Book) : Prop :=
  (a.returned = true → ∃ m' j,
    (∀ after, Reach cfg (m, a.states.tail.map .trap ++ after) (m', after)) ∧ j + 1 = a.clock n ∧
      At k bs j m' ∧ m'.top.lastWasRet = true ∧ m'.top.lastWasCall = false ∧ m'.handle.book = b) ∧
  (a.returned = false → ∃ r, Ends cfg (m, a.states.tail.map .trap) r ∧ r.handle.book = b)

/-- What follows the rest of an activation follows the activation. -/
lemma Follows.of_rest {cfg : Config} {a rest : Activation} {k : Slot} {bs : List DFrame}
    {n n' : ℕ} {m m' : Mach} {b : Book} (h : Follows cfg rest k bs n' m' b)
    (hreach : ∀ l, Reach cfg (m, a.states.tail.map .trap ++ l)
      (m', rest.states.tail.map .trap ++ l))
    (hret : a.returned = rest.returned) (hclock : a.clock n = rest.clock n') :
    Follows cfg a k bs n m b := by
  constructor
  · intro hr
    obtain ⟨m'', j, hend, hj⟩ := h.1 (hret ▸ hr)
    rw [hclock]
    exact ⟨m'', j, fun after => (hreach after).trans (hend after), hj⟩
  · intro hr
    obtain ⟨r, hends, hbook⟩ := h.2 (hret ▸ hr)
    have hl := hreach []
    simp only [List.append_nil] at hl
    exact ⟨r, hends.head hl, hbook⟩

/-- A run that ends under observation leaves its book as it is. -/
lemma ends_exit (cfg : Config) (m : Mach) :
    ∃ r, Ends cfg (m, []) r ∧ r.handle.book = m.handle.book := by
  by_cases hcap : descendHardStepCap < m.steps + 1
  · exact ⟨_, ⟨_, .refl, if_pos hcap⟩, rfl⟩
  · exact ⟨_, ⟨_, .refl, if_neg hcap⟩, rfl⟩

section Follow

variable {cfg : Config} {x : Site} {k : Slot} {bs : List DFrame} {n : ℕ} {m : Mach} {s : State}

lemma record_book (hfit : Fits x k bs) (hat : At k bs n m) :
    (descendRecord cfg m s.pc s.sp).handle.book =
      m.handle.book.write (.note k.idx (s.pc - x.region.base)) := by
  rw [descendRecord_book, ← hfit.base, ← hat.slot]

lemma follows_ret (hfit : Fits x k bs) (hat : At k bs n m) (hret : IsRet cfg x s) :
    Follows cfg (.ret s) k bs n (descendRecord cfg m s.pc s.sp)
      (m.handle.book.replay ((Activation.ret s).log x.region.base x.depth k.idx
        m.handle.book.frames.length)) := by
  have hbase : m.top.base = x.region.base := by rw [← hfit.base, ← hat.slot]
  have hlen : m.top.len = x.region.len := by rw [← hfit.len, ← hat.slot]
  obtain ⟨hisRet, hisCall, hne⟩ := hret
  rw [Site.probe, ← hbase, ← hlen] at hisRet hisCall hne
  refine ⟨fun _ => ⟨_, n, fun _ => .refl, rfl, hat.record _ _, ?_, ?_, record_book hfit hat⟩, ?_⟩
  · simp [descendRecord_lastWasRet, hisRet, hne]
  · exact descendRecord_not_call (by simp [hisCall])
  · intro h
    cases h

lemma follows_cut (hfit : Fits x k bs) (hat : At k bs n m) :
    Follows cfg (.insn s .cut) k bs n (descendRecord cfg m s.pc s.sp)
      (m.handle.book.replay ((Activation.insn s .cut).log x.region.base x.depth k.idx
        m.handle.book.frames.length)) := by
  refine ⟨fun h => (Bool.false_ne_true h).elim, fun _ => ?_⟩
  obtain ⟨r, hends, hbook⟩ := ends_exit cfg (descendRecord cfg m s.pc s.sp)
  exact ⟨r, hends, by rw [hbook, record_book hfit hat]; rfl⟩

lemma follows_insn {rest : Activation} {u : State} {b : Book} (hfit : Fits x k bs)
    (hat : At k bs n m) (hcall : ¬IsCall cfg x s) (hu : rest.head? = some u)
    (hown : Own x (n + 1) u)
    (ih : Follows cfg rest k bs (n + 1)
      (descendRecord cfg (descendRecord cfg m s.pc s.sp).tick u.pc u.sp) b) :
    Follows cfg (.insn s rest) k bs n (descendRecord cfg m s.pc s.sp) b := by
  have hnot : (descendRecord cfg m s.pc s.sp).top.lastWasCall = false := by
    apply descendRecord_not_call
    rw [show m.top.base = x.region.base by rw [← hfit.base, ← hat.slot],
      show m.top.len = x.region.len by rw [← hfit.len, ← hat.slot]]
    exact hcall
  refine ih.of_rest (fun l => ?_) rfl rfl
  rw [Activation.states, List.tail_cons, Activation.states_eq hu, List.map_cons, List.cons_append]
  exact .head (round_own hfit (hat.record _ _) hown hnot) .refl

/-- The frame that a descended call at `s` opens. -/
def calleeSlot (cfg : Config) (x : Site) (s : State) (e : Extent) (idx : ℕ) : Slot :=
  ⟨idx, e.base, e.len, fallthru cfg x s, s.sp, x.depth + 1⟩

/-- The callee of a descended call sits over the caller, whose own frame waits below. -/
lemma fits_callee (hfit : Fits x k bs) {f : DFrame} (hf : f.toSlot = k) (s : State) (e : Extent)
    (idx : ℕ) : Fits (x.callee e s.sp) (calleeSlot cfg x s e idx) (f :: bs) := by
  refine ⟨rfl, rfl, ?_, ?_, ?_⟩
  · rw [List.map_cons, hfit.callers, Site.callee, ← hfit.base, ← hf]
  · intro sp hsp
    cases hsp
    rfl
  · intro h
    cases h

lemma at_push (hfit : Fits x k bs) (hat : At k bs n m) (hp : Pends cfg x s m) (d : Handle)
    (e : Extent) (idx : ℕ) :
    At (calleeSlot cfg x s e idx) ({ m.top with lastWasCall := false } :: bs) (n + 1)
      (m.tick.push d idx e (fallthru cfg x s)) := by
  have hdepth : m.top.depth = x.depth := by rw [← hfit.depth, ← hat.slot]
  refine ⟨?_, ?_, hat.tick.steps, hat.entered⟩
  · rw [calleeSlot, ← hp.sp, ← hdepth]
    rfl
  · rw [← hat.below]
    rfl

lemma follows_call {e : Extent} {callee rest : Activation} {t : State} {b : Book} (bc : Book)
    (hfit : Fits x k bs) (hat : At k bs n m) (hown : Own x n s) (hcall : IsCall cfg x s)
    (hfall : FallsInside cfg x s) (ht : callee.head? = some t) (hne : t.pc ≠ fallthru cfg x s)
    (hdesc : Descends cfg x (n + 1) t.pc e) (hownt : Own (x.callee e s.sp) (n + 1) t)
    (hroom : m.handle.book.frames.length < cfg.framesMax)
    (hret : callee.returned = true → ∃ u, rest.head? = some u ∧ u.pc = fallthru cfg x s ∧
      u.sp = s.sp ∧ Own x (callee.clock (n + 1)) u)
    (hcut : callee.returned = false → rest = .cut ∧ b = bc)
    (ihc : ∀ f m', f.toSlot = k →
      At (calleeSlot cfg x s e m.handle.book.frames.length) (f :: bs) (n + 1) m' →
      m'.handle.book = (m.handle.book.write (.note k.idx (s.pc - x.region.base))).write
        (.open e (x.depth + 1) (some k.idx)) →
      Follows cfg callee (calleeSlot cfg x s e m.handle.book.frames.length) (f :: bs) (n + 1)
        (descendRecord cfg m' t.pc t.sp) bc)
    (ihr : ∀ u m', rest.head? = some u → At k bs (callee.clock (n + 1)) m' →
      m'.handle.book = bc →
      Follows cfg rest k bs (callee.clock (n + 1)) (descendRecord cfg m' u.pc u.sp) b) :
    Follows cfg (.call s e callee rest) k bs n (descendRecord cfg m s.pc s.sp) b := by
  obtain ⟨hin, hsp, -⟩ := hown
  have hat₁ : At k bs n (descendRecord cfg m s.pc s.sp) := hat.record _ _
  have hp := pends_record hfit hat hcall
  have hbook := @record_book cfg _ _ _ _ _ s hfit hat
  have hlen : (descendRecord cfg m s.pc s.sp).handle.book.frames.length =
      m.handle.book.frames.length := by rw [hbook, Book.note_length]
  have hspt : ∀ sp ∈ x.bound, t.sp < sp := fun sp h => (hownt.2.1 s.sp rfl).trans (hsp sp h)
  set m₁ := descendRecord cfg m s.pc s.sp with hm₁
  set f : DFrame := { m₁.top with lastWasCall := false } with hf
  have hslot : f.toSlot = k := hat₁.slot
  have hstates : ∀ l, (Activation.call s e callee rest).states.tail.map Stop.trap ++ l =
      .trap t :: (callee.states.tail.map .trap ++ (rest.states.map .trap ++ l)) := by
    intro l
    rw [Activation.states, List.tail_cons, Activation.states_eq ht]
    simp
  -- the call opens a frame and the loop goes through the callee
  obtain ⟨d, hd, hopen⟩ := round_call hfit hat₁ hp hin hfall hownt.2.2 hspt hne hdesc
    (by rw [hlen]; exact hroom)
  rw [hlen] at hopen
  rw [hbook] at hd
  have hcallee := ihc f _ hslot (at_push hfit hat₁ hp d e _) hd
  cases hr : callee.returned with
  | false =>
    obtain ⟨rfl, rfl⟩ := hcut hr
    obtain ⟨r, hends, hrb⟩ := hcallee.2 hr
    refine ⟨fun h => ?_, fun _ => ⟨r, ?_, hrb⟩⟩
    · rw [Activation.returned, hr] at h
      cases h
    · rw [← List.append_nil (List.map _ _), hstates]
      simp only [Activation.states, List.map_nil, List.append_nil]
      exact hends.head (.head (hopen _) .refl)
  | true =>
    obtain ⟨u, hu, hupc, husp, hownu⟩ := hret hr
    obtain ⟨m₂, j, hreach, hj, hat₂, hwasRet, -, hb₂⟩ := hcallee.1 hr
    have hback : At k bs (callee.clock (n + 1)) { m₂.tick with top := f, below := bs } := by
      refine ⟨hslot, rfl, ?_, hat₂.entered⟩
      rw [← hj]
      exact congrArg (· + 1) hat₂.steps
    refine (ihr u _ hu hback hb₂).of_rest (fun l => ?_) (by simp [Activation.returned, hr]) rfl
    -- and back: the return pops the callee's frame
    rw [hstates, Activation.states_eq hu]
    rw [← hj] at hownu
    exact .head (hopen _) ((hreach _).trans
      (.head (round_return (hslot ▸ hfit) hat₂ hwasRet hupc husp rfl hownu) .refl))

/-- The round at the first state of a callee that is run over. -/
lemma round_skip {entry : State} (hlevel : cfg.level ≠ .off) (hfit : Fits x k bs)
    (hat : At k bs n m) (hown : Own x n s) (hcall : IsCall cfg x s) (hfall : FallsInside cfg x s)
    (hskip : StepsOver cfg x (n + 1) entry.pc) (hbelow : entry.sp < s.sp)
    (hcap : n + 1 ≤ descendHardStepCap) :
    ∃ m', At k bs (n + 1) m' ∧
      m'.handle.book = (m.handle.book.write (.note k.idx (s.pc - x.region.base))).write
        (.edge ⟨s.pc - x.region.base, entry.pc, x.depth, k.idx⟩) ∧
      ∀ rest, descendStep cfg (descendRecord cfg m s.pc s.sp) (.trap entry :: rest) =
        match runUntil (fallthru cfg x s) rest with
        | none => m'.abandon
        | some (r, rest) => .cont (descendRecord cfg m' (fallthru cfg x s) r.sp) rest := by
  obtain ⟨hin, hsp, -⟩ := hown
  have hat₁ : At k bs n (descendRecord cfg m s.pc s.sp) := hat.record _ _
  have hp := pends_record hfit hat hcall
  have hp' : Pends cfg x s (descendRecord cfg m s.pc s.sp).tick := ⟨hp.call, hp.site, hp.len, hp.sp⟩
  obtain ⟨m', hat', hbook, hout⟩ := callOut_skip hlevel hfit hat₁.tick hp' hin hskip.2
  refine ⟨m', hat', ?_, fun rest => ?_⟩
  · rw [hbook, ← record_book hfit hat]
    rfl
  · rw [round_out hfit hat₁ hp hin hfall hcap (fun sp h => hbelow.trans (hsp sp h)) hskip.1]
    exact hout rest

lemma follows_skip {entry u : State} {native : List State} {rest : Activation} {b : Book}
    (hlevel : cfg.level ≠ .off) (hfit : Fits x k bs) (hat : At k bs n m) (hown : Own x n s)
    (hcall : IsCall cfg x s) (hover : RunsOver cfg x (n + 1) s entry native)
    (hu : rest.head? = some u) (hpc : u.pc = fallthru cfg x s) (hownu : Own x (n + 1) u)
    (ih : ∀ m', At k bs (n + 1) m' →
      m'.handle.book = (m.handle.book.write (.note k.idx (s.pc - x.region.base))).write
        (.edge ⟨s.pc - x.region.base, entry.pc, x.depth, k.idx⟩) →
      Follows cfg rest k bs (n + 1) (descendRecord cfg m' u.pc u.sp) b) :
    Follows cfg (.skip s entry native rest) k bs n (descendRecord cfg m s.pc s.sp) b := by
  obtain ⟨hskip, hbelow, hnative⟩ := hover
  have hfall : FallsInside cfg x s := by
    rw [FallsInside, ← hpc]
    exact hownu.1.2
  obtain ⟨m', hat', hbook, hround⟩ :=
    round_skip hlevel hfit hat hown hcall hfall hskip hbelow hownu.2.2
  refine (ih m' hat' hbook).of_rest (fun l => ?_) rfl rfl
  have hrun := runUntil_arrives (List.forall_mem_cons.mp hnative).2 hpc
    (rest.states.tail.map .trap ++ l)
  have hstates : (Activation.skip s entry native rest).states.tail.map Stop.trap ++ l =
      .trap entry :: (native.map .trap ++ .trap u :: (rest.states.tail.map .trap ++ l)) := by
    rw [Activation.states, List.tail_cons, Activation.states_eq hu]
    simp
  rw [hstates]
  refine .head ?_ .refl
  rw [Rounds]
  dsimp only
  rw [hround, hrun, hpc]

lemma follows_lost {entry : State} {native : List State} (hlevel : cfg.level ≠ .off)
    (hfit : Fits x k bs) (hat : At k bs n m) (hown : Own x n s) (hcall : IsCall cfg x s)
    (hover : RunsOver cfg x (n + 1) s entry native) (hcap : n + 1 ≤ descendHardStepCap)
    (hfall : FallsInside cfg x s) :
    Follows cfg (.lost s entry native) k bs n (descendRecord cfg m s.pc s.sp)
      (m.handle.book.replay ((Activation.lost s entry native).log x.region.base x.depth k.idx
        m.handle.book.frames.length)) := by
  obtain ⟨hskip, hbelow, hnative⟩ := hover
  obtain ⟨m', -, hbook, hround⟩ :=
    round_skip hlevel hfit hat hown hcall hfall hskip hbelow hcap
  have hrun := runUntil_lost (List.forall_mem_cons.mp hnative).2
  refine ⟨fun h => (Bool.false_ne_true h).elim, fun _ =>
    ⟨⟨markTruncated m'.handle, m'.flat.map Trace.markTruncated, none, .etrace⟩,
      ⟨_, .refl, ?_⟩, hbook⟩⟩
  rw [Activation.states, List.tail_cons, List.map_cons]
  dsimp only
  rw [hround, hrun]
  rfl

/-- The loop follows every activation: by induction on what is left of it, one round of the loop
for each of its own instructions. -/
lemma follows (hlevel : cfg.level ≠ .off) (a : Activation) (hs : a.head? = some s)
    (hwell : WellNested cfg x n a) (hlost : LostInside cfg x a) (hfit : Fits x k bs)
    (hat : At k bs n m) (hidx : k.idx < m.handle.book.frames.length)
    (hroom : m.handle.book.frames.length + a.size ≤ cfg.framesMax) :
    Follows cfg a k bs n (descendRecord cfg m s.pc s.sp)
      (m.handle.book.replay (a.log x.region.base x.depth k.idx m.handle.book.frames.length)) := by
  induction a generalizing x k bs n m s with
  | cut => cases hs
  | ret s₁ =>
    cases hs
    exact follows_ret hfit hat hwell.2
  | insn s₁ rest ih =>
    cases hs
    obtain ⟨hown, hnot, hrest⟩ := hwell
    by_cases hcut : rest = .cut
    · subst hcut
      exact follows_cut hfit hat
    · obtain ⟨u, hu⟩ := Activation.exists_head hcut
      have hbook := @record_book cfg _ _ _ _ _ s₁ hfit hat
      have hlen : (descendRecord cfg m s₁.pc s₁.sp).tick.handle.book.frames.length =
          m.handle.book.frames.length := by
        rw [← Book.note_length m.handle.book k.idx (s₁.pc - x.region.base), ← hbook]
        rfl
      have hih := ih hu hrest hlost hfit (hat.record s₁.pc s₁.sp).tick (by rw [hlen]; exact hidx)
        (by rw [hlen]; exact hroom)
      rw [hlen, show (descendRecord cfg m s₁.pc s₁.sp).tick.handle.book = _ from hbook] at hih
      exact follows_insn hfit hat (hnot hcut) hu (hrest.own hu) hih
  | call s₁ e callee rest ihc ihr =>
    cases hs
    obtain ⟨hown, hcall, hfall, ⟨t, ht, hne, hdesc⟩, hc, hret, hcut, hr⟩ := hwell
    rw [Activation.size] at hroom
    -- the book when the callee's frame is opened, and when the callee is done
    obtain ⟨b₁, hb₁⟩ : ∃ b₁, b₁ = (m.handle.book.write (.note k.idx (s₁.pc - x.region.base))).write
      (.open e (x.depth + 1) (some k.idx)) := ⟨_, rfl⟩
    obtain ⟨b₂, hb₂⟩ : ∃ b₂, b₂ = b₁.replay (callee.log e.base (x.depth + 1)
      m.handle.book.frames.length (m.handle.book.frames.length + 1)) := ⟨_, rfl⟩
    have hopen : b₁.frames.length = m.handle.book.frames.length + 1 := by
      simp [hb₁, Book.write]
    have hdone : b₂.frames.length = m.handle.book.frames.length + 1 + callee.size := by
      have hlen := callee.replay_log_length e.base (x.depth + 1) m.handle.book.frames.length b₁
        (by omega)
      rw [hopen, ← hb₂] at hlen
      exact hlen
    have hlog : m.handle.book.replay ((Activation.call s₁ e callee rest).log x.region.base x.depth
          k.idx m.handle.book.frames.length) =
        b₂.replay (rest.log x.region.base x.depth k.idx
          (m.handle.book.frames.length + 1 + callee.size)) := by
      rw [Activation.log, Book.replay_cons, Book.replay_cons, Book.replay_append, hb₂, hb₁]
    rw [hlog]
    refine follows_call b₂ hfit hat hown hcall hfall ht hne hdesc (hc.own ht) (by omega) ?_ ?_
      (fun f m' hf hm' hbm' => ?_) (fun u m' hu hm' hbm' => ?_)
    · intro h
      obtain ⟨u, hu, hpc, hsp⟩ := hret h
      exact ⟨u, hu, hpc, hsp, hr.own hu⟩
    · intro h
      refine ⟨hcut h, ?_⟩
      rw [hcut h]
      rfl
    · have hlen : m'.handle.book.frames.length = m.handle.book.frames.length + 1 := by
        rw [hbm', ← hb₁, hopen]
      have hih := ihc ht hc hlost.1 (fits_callee hfit hf s₁ e _) hm'
        (by rw [hlen]; exact lt_add_one _) (by omega)
      rw [hlen, hbm', ← hb₁] at hih
      rw [hb₂]
      exact hih
    · have hlen : m'.handle.book.frames.length =
          m.handle.book.frames.length + 1 + callee.size := by
        rw [hbm', hdone]
      have hih := ihr hu hr hlost.2 hfit hm' (by omega) (by omega)
      rw [hlen, hbm'] at hih
      exact hih
  | skip s₁ entry native rest ih =>
    cases hs
    obtain ⟨hown, hcall, hover, ⟨u, hu, hpc, -⟩, hrest⟩ := hwell
    refine follows_skip hlevel hfit hat hown hcall hover hu hpc (hrest.own hu) fun m' hm' hbm' => ?_
    have hlen : m'.handle.book.frames.length = m.handle.book.frames.length := by
      rw [hbm']
      exact Book.note_length _ _ _
    have hih := ih hu hrest hlost hfit hm' (by rw [hlen]; exact hidx) (by rw [hlen]; exact hroom)
    rw [hlen, hbm'] at hih
    exact hih
  | lost s₁ entry native =>
    cases hs
    obtain ⟨hown, hcall, hover, hcap⟩ := hwell
    exact follows_lost hlevel hfit hat hown hcall hover hcap hlost

end Follow

/-! ### The whole run -/

/-- The root's frame and the handle that holds only it. -/
def rootSlot (cfg : Config) : Slot := ⟨0, cfg.root.base, cfg.root.len, 0, 0, 0⟩

def rootBook (cfg : Config) : Book := ⟨[⟨cfg.root.base, cfg.root.len, 0, none, []⟩], []⟩

lemma rootBook_replay (cfg : Config) (r : Run) :
    (rootBook cfg).replay (r.body.log cfg.root.base 0 0 1) = ⟨r.frames cfg, r.edges cfg⟩ := by
  have h := r.body.replay_log cfg.root.base 0 0 (rootBook cfg) Nat.one_pos
  refine h.trans ?_
  simp [rootBook, Run.frames, Run.edges, FrameView.add]

lemma fits_root (cfg : Config) : Fits (Run.site cfg) (rootSlot cfg) [] := by
  refine ⟨rfl, rfl, rfl, ?_, fun _ => rfl⟩
  intro sp h
  cases h

/-- States outside the routine pass before it is entered. -/
lemma reach_prelude {cfg : Config} {m : Mach} (hent : m.entered = false) {prelude : List State}
    (hout : ∀ s ∈ prelude, ¬cfg.root.Contains s.pc)
    (hcap : m.steps + prelude.length ≤ descendHardStepCap) (l : List Stop) :
    Reach cfg (m, prelude.map .trap ++ l) ({ m with steps := m.steps + prelude.length }, l) := by
  induction prelude generalizing m with
  | nil => exact .refl
  | cons s prelude ih =>
    obtain ⟨hs, hrest⟩ := List.forall_mem_cons.mp hout
    rw [List.length_cons] at hcap ⊢
    have hround : Rounds cfg (m, .trap s :: (prelude.map .trap ++ l))
        (m.tick, prelude.map .trap ++ l) := by
      rw [Rounds, descendStep]
      dsimp only
      rw [if_neg (by omega), if_pos ⟨hent, hs⟩]
      rfl
    have hih := ih (m := m.tick) hent hrest (by rw [Mach.tick]; dsimp only; omega)
    rw [show ({ m with steps := m.steps + (prelude.length + 1) } : Mach) =
      { m.tick with steps := m.tick.steps + prelude.length } by
        simp only [Mach.tick, Mach.mk.injEq, true_and, and_true]; omega]
    exact .head hround hih

/-- What `descend_core` starts its loop from. -/
lemma descendCore_eq {cfg : Config} (hroom : 0 < cfg.framesMax) (flat : Option Trace) (init : State)
    (stops : List Stop) :
    ∃ m₀ : Mach, m₀.top = DFrame.open (rootSlot cfg) ∧ m₀.below = [] ∧ m₀.steps = 0 ∧
      m₀.entered = false ∧ m₀.handle.book = rootBook cfg ∧
      descendCore cfg .new flat init stops = descendLoop cfg (stops.length + 1)
        (if cfg.root.Contains init.pc then
          { descendRecord cfg m₀ init.pc init.sp with entered := true } else m₀) stops := by
  have hroom' : (Handle.new).book.frames.length < cfg.framesMax := hroom
  obtain ⟨d, hpush, hd⟩ := pushFrame_room hroom' cfg.root 0 none
  refine ⟨⟨DFrame.open (rootSlot cfg), [], d, flat, 0, false⟩, rfl, rfl, rfl, rfl, hd, ?_⟩
  rw [descendCore, hpush]
  rfl

/-- The run enters the routine and records its first instruction in the root's frame. -/
lemma descendCore_enters {cfg : Config} {r : Run} (hr : r.Nested cfg) {s : State}
    (hs : r.body.head? = some s) (flat : Option Trace) {init : State} {stops : List State}
    (hstates : r.states = init :: stops) :
    ∃ m, At (rootSlot cfg) [] r.prelude.length m ∧ m.handle.book = rootBook cfg ∧
      ∀ res, Ends cfg (descendRecord cfg m s.pc s.sp,
          (r.body.states.tail ++ r.after).map .trap) res →
        descendCore cfg .new flat init (stops.map .trap) = res := by
  obtain ⟨hin, hsp, hcap⟩ := hr.body.own hs
  have hin' : cfg.root.Contains s.pc := hin
  obtain ⟨m₀, htop, hbelow, hsteps, hent, hbook, hcore⟩ := descendCore_eq
    (Nat.lt_of_lt_of_le (Nat.succ_pos _) hr.room) flat init (stops.map .trap)
  rw [Run.states, Activation.states_eq hs] at hstates
  cases hpre : r.prelude with
  | nil =>
    -- the tracee already stands at the first instruction
    rw [hpre] at hstates
    obtain ⟨rfl, rfl⟩ : init = s ∧ stops = r.body.states.tail ++ r.after := by
      simpa using hstates.symm
    refine ⟨{ m₀ with entered := true }, ⟨by rw [htop]; rfl, hbelow, hsteps, rfl⟩, hbook,
      fun res hres => ?_⟩
    rw [hcore, if_pos hin']
    exact descendLoop_of_ends hres _ (Nat.lt_succ_self _)
  | cons p ps =>
    have hout := hr.outside
    rw [hpre] at hstates hout hcap
    obtain ⟨rfl, rfl⟩ : init = p ∧ stops = ps ++ s :: (r.body.states.tail ++ r.after) := by
      simpa using hstates.symm
    obtain ⟨hp, hps⟩ := List.forall_mem_cons.mp hout
    rw [List.length_cons] at hcap
    refine ⟨{ m₀ with steps := ps.length + 1, entered := true },
      ⟨by rw [htop]; rfl, hbelow, rfl, rfl⟩, hbook, fun res hres => ?_⟩
    have hround : Rounds cfg
        ({ m₀ with steps := ps.length }, .trap s :: (r.body.states.tail ++ r.after).map .trap)
        (descendRecord cfg { m₀ with steps := ps.length + 1, entered := true } s.pc s.sp,
          (r.body.states.tail ++ r.after).map .trap) := by
      have hland := @descendLand_own cfg _ _ _ _ _ s ((r.body.states.tail ++ r.after).map .trap)
        (fits_root cfg) (show At (rootSlot cfg) [] (ps.length + 1)
          { m₀ with steps := ps.length + 1, entered := true } from
            ⟨by rw [htop]; rfl, hbelow, rfl, rfl⟩) hsp
      have hcall : m₀.top.lastWasCall = false := by rw [htop]; rfl
      rw [Rounds, descendStep]
      dsimp only
      rw [if_neg (by omega), if_neg (fun h => h.2 hin'), hland, if_pos hin, landInside,
        if_neg (fun h => Bool.false_ne_true (hcall.symm.trans h.1))]
    have hreach := reach_prelude hent hps (by omega)
      (.trap s :: (r.body.states.tail ++ r.after).map .trap)
    rw [hsteps, Nat.zero_add] at hreach
    have hends := (hres.head (.head hround .refl)).head hreach
    rw [hcore, if_neg hp, List.map_append, List.map_cons]
    exact descendLoop_of_ends hends _ (Nat.lt_succ_self _)

/-- The round after the root's return ends the descent. -/
lemma ends_root {cfg : Config} {n : ℕ} {m : Mach} (hat : At (rootSlot cfg) [] n m)
    (hcall : m.top.lastWasCall = false) {s : State} (hout : ¬(Run.site cfg).region.Contains s.pc)
    (rest : List Stop) : ∃ r, Ends cfg (m, .trap s :: rest) r ∧ r.handle.book = m.handle.book := by
  by_cases hcap : descendHardStepCap < m.steps + 1
  · exact ⟨_, ⟨_, .refl, if_pos hcap⟩, rfl⟩
  · have hdepth : m.tick.top.depth = 0 := by
      show m.top.toSlot.depth = 0
      rw [hat.slot]
      rfl
    refine ⟨⟨m.handle, m.flat, some s.ret, .ok⟩, ⟨_, .refl, ?_⟩, rfl⟩
    dsimp only
    rw [descendStep_trap hat (by rw [← hat.steps]; omega),
      descendLand_own (fits_root cfg) hat.tick (fun sp h => by cases h), if_neg hout,
      if_neg (fun h => Bool.false_ne_true (hcall.symm.trans h.1)), leave, if_pos hdepth]
    rfl

/-- Of every well-nested run that hits no cap, the handle has exactly one frame for each
descended activation in entry order, with its caller's frame, its nesting depth and its own
instructions, and exactly one edge for each call that was run over; the fall-through of a call
that never comes back must lie in its caller's region, and the root must return out of its own. -/
theorem descent_exact (cfg : Config) (hlevel : cfg.level ≠ .off) (r : Run) (hr : r.Nested cfg)
    (hlost : LostInside cfg (Run.site cfg) r.body) (hleaves : r.RootLeaves cfg)
    (flat : Option Trace) (init : State) (stops : List State)
    (hstates : r.states = init :: stops) :
    (descendCore cfg .new flat init (stops.map .trap)).handle.frames.map Frame.view =
        r.frames cfg ∧
      (descendCore cfg .new flat init (stops.map .trap)).handle.edges = r.edges cfg := by
  obtain ⟨s, hs⟩ := Activation.exists_head hr.enters
  obtain ⟨m, hat, hbook, hcore⟩ := descendCore_enters hr hs flat hstates
  have hfollow := follows hlevel r.body hs hr.body hlost (fits_root cfg) hat
    (by rw [hbook]; exact Nat.one_pos) (by rw [hbook, Nat.add_comm]; exact hr.room)
  rw [hbook] at hfollow
  have hdone : ∃ res, Ends cfg (descendRecord cfg m s.pc s.sp,
        (r.body.states.tail ++ r.after).map .trap) res ∧
      res.handle.book = ⟨r.frames cfg, r.edges cfg⟩ := by
    rw [← rootBook_replay]
    cases hret : r.body.returned with
    | false =>
      obtain ⟨res, hends, hb⟩ := hfollow.2 hret
      rw [hr.after.mpr hret, List.append_nil]
      exact ⟨res, hends, hb⟩
    | true =>
      obtain ⟨m', j, hreach, -, hat', -, hcall, hb⟩ := hfollow.1 hret
      cases hafter : r.after with
      | nil =>
        have hfalse := hr.after.mp hafter
        rw [hret] at hfalse
        cases hfalse
      | cons u after =>
        have hout : ¬cfg.root.Contains u.pc := hleaves u (by rw [hafter]; rfl)
        obtain ⟨res, hends, hres⟩ := ends_root hat' hcall hout (after.map .trap)
        rw [List.map_append]
        exact ⟨res, hends.head (hreach _), hres.trans hb⟩
  obtain ⟨res, hends, hres⟩ := hdone
  rw [hcore res hends]
  exact ⟨congrArg Book.frames hres, congrArg Book.edges hres⟩

/-- A routine at 100 of the given length that knows the callee at 500: five-byte calls at 100 and
500, one-byte instructions elsewhere, of which those at 105 and 505 are returns. -/
def tinyConfig (len : ℕ) : Config where
  level := .descendKnown
  maxDepth := 8
  insnBudget := 4096
  allow := [⟨500, 10⟩]
  deny := []
  resolver := none
  denylist := none
  maps := fun _ => []
  probe := fun pc _ =>
    if pc = 100 ∨ pc = 500 then ⟨5, true, false⟩
    else if pc = 105 ∨ pc = 505 then ⟨1, false, true⟩
    else ⟨1, false, false⟩
  root := ⟨100, len⟩
  forwardFaults := false
  framesMax := 16

/-- The routine calls 500, which calls an unknown helper at 700. -/
def tinyRun : Run where
  prelude := [⟨90, 1008, 0⟩]
  body := .call ⟨100, 1000, 0⟩ ⟨500, 10⟩
    (.skip ⟨500, 992, 0⟩ ⟨700, 984, 0⟩ [⟨701, 984, 0⟩] (.ret ⟨505, 992, 0⟩)) (.ret ⟨105, 1000, 7⟩)
  after := [⟨91, 1008, 7⟩]

theorem descent_exact_tinyRun :
    (descendCore (tinyConfig 20) .new none ⟨90, 1008, 0⟩
        (tinyRun.states.tail.map .trap)).handle.frames.map Frame.view =
      [⟨100, 20, 0, none, [0, 5]⟩, ⟨500, 10, 1, some 0, [0, 5]⟩] ∧
    (descendCore (tinyConfig 20) .new none ⟨90, 1008, 0⟩
        (tinyRun.states.tail.map .trap)).handle.edges = [⟨0, 700, 1, 1⟩] := by
  exact descent_exact (tinyConfig 20) (by decide) tinyRun ⟨by decide, by decide, by decide,
    by decide, by decide⟩ ⟨trivial, trivial⟩ (by decide) none _ _ rfl

/-- The routine is a call to a helper at 700 that never comes back. -/
def lastCallRun : Run where
  prelude := []
  body := .lost ⟨100, 1000, 0⟩ ⟨700, 992, 0⟩ []
  after := []

/-- The routine was called from its own region and returns there. -/
def ownCallerRun : Run where
  prelude := []
  body := .insn ⟨104, 992, 0⟩ (.ret ⟨105, 992, 0⟩)
  after := [⟨110, 1000, 0⟩]

/-- When the fall-through of the last call is outside the region the call-out has no edge, and a
return into the routine's own region goes on in the root's frame. -/
theorem descent_inexact_outside :
    (lastCallRun.Nested (tinyConfig 5) ∧
      (descendCore (tinyConfig 5) .new none ⟨100, 1000, 0⟩ [.trap ⟨700, 992, 0⟩]).handle.edges ≠
        lastCallRun.edges (tinyConfig 5)) ∧
    (ownCallerRun.Nested (tinyConfig 20) ∧
      (descendCore (tinyConfig 20) .new none ⟨104, 992, 0⟩
        [.trap ⟨105, 992, 0⟩, .trap ⟨110, 1000, 0⟩]).handle.frames.map Frame.view ≠
        ownCallerRun.frames (tinyConfig 20)) := by
  refine ⟨⟨⟨by decide, by decide, by decide, by decide, by decide⟩, by decide⟩,
    ⟨⟨by decide, by decide, by decide, by decide, by decide⟩, by decide⟩⟩

end AsmTest.Descent
