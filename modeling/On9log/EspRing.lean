import On9log.EspIsr

/-!
# What becomes of a packet in the ring buffer (on9log_esp_isr.c:46-168)

A ring is known to others only once it has its task, so no item is ever sent to
a ring that does not exist or that nobody drains, however many threads
initialise the module at once. What a ring has taken, its task has returned, is
working on or will receive, in this order.
-/

namespace On9log
open Lib

/-! ### The parts of a thread -/

/-- What a thread has in hand: a ring it made and has not yet published, or an item
it received. -/
inductive EspView where
  | idle
  | made (ringbuf : Ptr)
  | failed (ringbuf : Ptr)
  | tasked (ringbuf : Ptr)
  | hand (ringbuf : Ptr) (packet : List UInt8)

/-- The rings only the thread knows. -/
def EspView.ring : EspView → Option Ptr
  | .made ringbuf => some ringbuf
  | .failed ringbuf => some ringbuf
  | .tasked ringbuf => some ringbuf
  | _ => none

def espViewStep (g : EspView) (e : EspEv) (g' : EspView) : Prop :=
  match e with
  | ⟨.ringbufferCreate, r⟩ => g = .idle ∧ g' = if r = 0 then .idle else .made r
  | ⟨.taskCreate r, ok⟩ => g = .made r ∧ g' = if ok then .tasked r else .failed r
  | ⟨.ringbufferDelete r, _⟩ => g = .failed r ∧ g' = .idle
  | ⟨.storeRingbuf r, _⟩ => g = .tasked r ∧ g' = .idle
  | ⟨.ringbufferReceive r, p⟩ => g = .idle ∧ g' = p.elim .idle (.hand r)
  | ⟨.ringbufferReturnItem r p, _⟩ => g = .hand r p ∧ g' = .idle
  | _ => g' = g

theorem espViewStep_functional : Functional espViewStep := by
  intro g e g₁ g₂ h₁ h₂
  obtain ⟨o, r⟩ := e
  cases o
  case core => exact h₁.trans h₂.symm
  case loadRingbuf => exact h₁.trans h₂.symm
  case loadInstalled => exact h₁.trans h₂.symm
  case storeInstalled => exact h₁.trans h₂.symm
  case ringbufferSend => exact h₁.trans h₂.symm
  all_goals exact h₁.2.trans h₂.2.symm

variable {e : EspBuild} {Tid : Type} {es es₁ es₂ : List EspEv}

/-- Events of the core and its ISR backend. -/
def EspOp.isCore : EspOp → Bool
  | .core _ => true
  | .loadRingbuf => true
  | .ringbufferSend _ _ => true
  | _ => false

theorem steps_isCore (h : ∀ ev ∈ es, ev.op.isCore = true) (g : EspView) :
    Steps espViewStep g es g := by
  induction es with
  | nil => rfl
  | cons ev es ih =>
    refine ⟨g, ?_, ih fun x hx => h x (List.mem_cons_of_mem _ hx)⟩
    have hev := h ev (List.mem_cons_self ..)
    obtain ⟨o, r⟩ := ev
    cases o
    case core => rfl
    case loadRingbuf => rfl
    case ringbufferSend => rfl
    all_goals cases hev

/-! ### Sends follow a load -/

/-- Each item is sent to the ring that was loaded just before. -/
def SendsLoaded (es : List EspEv) : Prop :=
  ∀ es₁ r p ok es₂, es = es₁ ++ ⟨.ringbufferSend r p, ok⟩ :: es₂ →
    r ≠ 0 ∧ (⟨.loadRingbuf, r⟩ : EspEv) ∈ es₁

theorem SendsLoaded.append (h₁ : SendsLoaded es₁) (h₂ : SendsLoaded es₂) :
    SendsLoaded (es₁ ++ es₂) := by
  intro a r p ok b heq
  rcases List.append_eq_append_iff.mp heq with ⟨c, rfl, hb⟩ | ⟨c, rfl, hb⟩
  · obtain ⟨hr, hmem⟩ := h₂ c r p ok b hb
    exact ⟨hr, List.mem_append_right _ hmem⟩
  · cases c with
    | nil =>
      obtain ⟨hr, hmem⟩ := h₂ [] r p ok b hb.symm
      cases hmem
    | cons x c =>
      obtain ⟨rfl, rfl⟩ := List.cons.inj hb
      exact h₁ a r p ok c rfl

theorem sendsLoaded_of_none (h : ∀ ev ∈ es, ∀ r p, ev.op ≠ .ringbufferSend r p) :
    SendsLoaded es := by
  intro a r p ok b heq
  refine absurd rfl (h ⟨.ringbufferSend r p, ok⟩ ?_ r p)
  rw [heq]
  simp

theorem path_espPerform {o : Op} {r : o.Ret} (h : (espPerform o).Path es r) :
    (∀ ev ∈ es, ev.op.isCore = true) ∧ SendsLoaded es := by
  cases o
  case isrReady =>
    obtain ⟨ringbuf, e₁, _, rfl, h₁, h⟩ := (Prog.path_bind _ _ _ _).mp h
    obtain ⟨rfl, -⟩ := (Prog.path_pure _ _ _).mp h
    rw [(Prog.path_op _ _ _).mp h₁]
    exact ⟨by simp [EspOp.isCore], sendsLoaded_of_none (by simp)⟩
  case isrEnqueuePacket packet =>
    obtain ⟨ringbuf, e₁, _, rfl, h₁, h⟩ := (Prog.path_bind _ _ _ _).mp h
    rw [(Prog.path_op _ _ _).mp h₁]
    rcases (Prog.path_ite _ _ _ _ _).mp h with ⟨-, h⟩ | ⟨hnull, h⟩
    · obtain ⟨rfl, -⟩ := (Prog.path_pure _ _ _).mp h
      exact ⟨by simp [EspOp.isCore], sendsLoaded_of_none (by simp)⟩
    · rw [(Prog.path_op _ _ _).mp h]
      refine ⟨by simp [EspOp.isCore], fun a r' p ok b heq => ?_⟩
      -- the send is the second of two events
      cases a with
      | nil => simp at heq
      | cons x a =>
        cases a with
        | nil =>
          simp only [List.cons_append, List.nil_append, List.cons.injEq] at heq
          obtain ⟨rfl, heq, -⟩ := heq
          cases heq
          exact ⟨hnull, List.mem_singleton_self _⟩
        | cons y a => simp at heq
  all_goals
    rw [(Prog.path_op _ _ _).mp h]
    exact ⟨by simp [EspOp.isCore], sendsLoaded_of_none (by simp)⟩

theorem path_expand_core {α : Type} {p : Core α} {v : α} (h : (p.expand espPerform).Path es v) :
    (∀ ev ∈ es, ev.op.isCore = true) ∧ SendsLoaded es := by
  obtain ⟨es', -, hex⟩ := Prog.path_expand h
  clear h
  induction hex with
  | nil => exact ⟨by simp, sendsLoaded_of_none (by simp)⟩
  | cons ev hb _ ih =>
    obtain ⟨hcore, hsends⟩ := path_espPerform hb
    refine ⟨fun x hx => ?_, hsends.append ih.2⟩
    rcases List.mem_append.mp hx with hx | hx
    · exact hcore x hx
    · exact ih.1 x hx

/-! ### Every call -/

/-- What one turn of the drain task does. -/
inductive DrainCall (cfg : Config) (ringbuf : Ptr) : List EspEv → Prop
  | nothing : DrainCall cfg ringbuf [⟨.ringbufferReceive ringbuf, (none : Option (List UInt8))⟩]
  | item (packet : List UInt8) (v : Res) (b : List EspEv) :
      ((body cfg (.dispatchPacket (some packet))).expand espPerform).Path b v →
      DrainCall cfg ringbuf (⟨.ringbufferReceive ringbuf, some packet⟩ ::
        (b ++ [⟨.ringbufferReturnItem ringbuf packet, ()⟩]))

/-- What one call does. -/
inductive EspDoes (e : EspBuild) : EspCall → EspRes → List EspEv → Prop
  | core (call : Call) (v : Res) (es : List EspEv) :
      ((body e.cfg call).expand espPerform).Path es v → EspDoes e (.core call) (.core v) es
  | init (err : EspErr) (es : List EspEv) : InitCall e err es →
      EspDoes e .isrInit (.init err) es
  | drain (ringbuf : Ptr) (es : List EspEv) : DrainCall e.cfg ringbuf es →
      EspDoes e (.drain ringbuf) .turned es

theorem drainCall_drainTurn {ringbuf : Ptr} {v : Unit}
    (h : ((drainTurn ringbuf).expand (performScript (system Tid e.cfg) espPerform)).Path es v) :
    DrainCall e.cfg ringbuf es := by
  rw [drainTurn, Prog.expand_bind, Script.expand_own] at h
  obtain ⟨packet, e₁, _, rfl, h₁, h⟩ := (Prog.path_bind _ _ _ _).mp h
  rw [(Prog.path_op _ _ _).mp h₁]
  cases packet with
  | none =>
    obtain ⟨rfl, -⟩ := (Prog.path_done _ _ _).mp h
    exact .nothing
  | some packet =>
    rw [drainItem, Prog.expand_bind, Script.expand_call] at h
    obtain ⟨v', b, e₂, rfl, hb, h⟩ := (Prog.path_bind _ _ _ _).mp h
    rw [Script.expand_own] at h
    rw [(Prog.path_op _ _ _).mp h]
    exact .item packet v' b hb

theorem espDoes_body {c : EspCall} {v : EspRes} (h : (espBody e Tid c).Path es v) :
    EspDoes e c v es := by
  cases c with
  | core call =>
    rw [espBody, espScript, Prog.expand_bind, Script.expand_call] at h
    obtain ⟨v', e₁, e₂, rfl, h₁, h⟩ := (Prog.path_bind _ _ _ _).mp h
    obtain ⟨rfl, rfl⟩ := (Prog.path_done _ _ _).mp h
    rw [List.append_nil]
    exact .core call v' e₁ h₁
  | isrInit =>
    rw [espBody, espScript, Prog.expand_bind, Script.expand_own] at h
    obtain ⟨err, e₁, e₂, rfl, h₁, h⟩ := (Prog.path_bind _ _ _ _).mp h
    obtain ⟨rfl, rfl⟩ := (Prog.path_done _ _ _).mp h
    rw [List.append_nil]
    exact .init err e₁ (initCall_espIsrInit h₁)
  | drain ringbuf =>
    rw [espBody, espScript, Prog.expand_bind] at h
    obtain ⟨_, e₁, e₂, rfl, h₁, h⟩ := (Prog.path_bind _ _ _ _).mp h
    obtain ⟨rfl, rfl⟩ := (Prog.path_done _ _ _).mp h
    rw [List.append_nil]
    exact .drain ringbuf e₁ (drainCall_drainTurn h₁)

theorem InitCall.steps {err : EspErr} (h : InitCall e err es) :
    Steps espViewStep .idle es .idle := by
  cases h with
  | installed => exact ⟨_, rfl, rfl⟩
  | tooSmall => exact ⟨_, rfl, rfl⟩
  | noRing => exact ⟨_, rfl, _, ⟨rfl, rfl⟩, rfl⟩
  | noTask r hr =>
    refine ⟨_, rfl, .made r, ⟨rfl, ?_⟩, .failed r, ⟨rfl, rfl⟩, .idle, ⟨rfl, rfl⟩, rfl⟩
    rw [if_neg hr]
  | made r hr =>
    refine ⟨_, rfl, .made r, ⟨rfl, ?_⟩, .tasked r, ⟨rfl, rfl⟩, .idle, ⟨rfl, rfl⟩, _, rfl, rfl⟩
    rw [if_neg hr]

theorem InitCall.sendsLoaded {err : EspErr} (h : InitCall e err es) : SendsLoaded es := by
  apply sendsLoaded_of_none
  cases h <;> simp

theorem DrainCall.steps {cfg : Config} {ringbuf : Ptr} (h : DrainCall cfg ringbuf es) :
    Steps espViewStep .idle es .idle := by
  cases h with
  | nothing => exact ⟨_, ⟨rfl, rfl⟩, rfl⟩
  | item packet v b hb =>
    refine ⟨.hand ringbuf packet, ⟨rfl, rfl⟩, steps_append.mpr ⟨.hand ringbuf packet, ?_, ?_⟩⟩
    · exact steps_isCore (path_expand_core hb).1 _
    · exact ⟨.idle, ⟨rfl, rfl⟩, rfl⟩

theorem DrainCall.sendsLoaded {cfg : Config} {ringbuf : Ptr} (h : DrainCall cfg ringbuf es) :
    SendsLoaded es := by
  cases h with
  | nothing => exact sendsLoaded_of_none (by simp)
  | item packet v b hb =>
    have hfirst : SendsLoaded [⟨.ringbufferReceive ringbuf, some packet⟩] :=
      sendsLoaded_of_none (by simp)
    have hlast : SendsLoaded [⟨.ringbufferReturnItem ringbuf packet, ()⟩] :=
      sendsLoaded_of_none (by simp)
    exact hfirst.append ((path_expand_core hb).2.append hlast)

theorem steps_espBody (c : EspCall) (es : List EspEv) (v : EspRes)
    (h : (espBody e Tid c).Path es v) : Steps espViewStep .idle es .idle := by
  cases espDoes_body h with
  | core call v es h => exact steps_isCore (path_expand_core h).1 _
  | init err es h => exact h.steps
  | drain ringbuf es h => exact h.steps

theorem sendsLoaded_espBody {c : EspCall} {v : EspRes} (h : (espBody e Tid c).Path es v) :
    SendsLoaded es := by
  cases espDoes_body h with
  | core call v es h => exact (path_expand_core h).2
  | init err es h => exact h.sendsLoaded
  | drain ringbuf es h => exact h.sendsLoaded

/-! ### The ring over a run -/

/-- What a ring has taken. -/
def accepted (ringbuf : Ptr) (es : List EspEv) : List (List UInt8) :=
  es.filterMap fun ev => match ev with
    | ⟨.ringbufferSend r packet, true⟩ => if r = ringbuf then some packet else none
    | _ => none

/-- The items of a ring that its task is done with. -/
def returned (ringbuf : Ptr) (es : List EspEv) : List (List UInt8) :=
  es.filterMap fun ev => match ev with
    | ⟨.ringbufferReturnItem r packet, _⟩ => if r = ringbuf then some packet else none
    | _ => none

theorem accepted_append (ringbuf : Ptr) (es₁ es₂ : List EspEv) :
    accepted ringbuf (es₁ ++ es₂) = accepted ringbuf es₁ ++ accepted ringbuf es₂ :=
  List.filterMap_append

theorem returned_append (ringbuf : Ptr) (es₁ es₂ : List EspEv) :
    returned ringbuf (es₁ ++ es₂) = returned ringbuf es₁ ++ returned ringbuf es₂ :=
  List.filterMap_append

abbrev EspTrace (Tid : Type) := List (Label Tid EspCall EspOp EspOp.Ret EspRes)

/-- The handle of the ring was stored. -/
def Published (ringbuf : Ptr) (tr : EspTrace Tid) : Prop :=
  (⟨.storeRingbuf ringbuf, ()⟩ : EspEv) ∈ actEvents tr

theorem published_act {ringbuf : Ptr} {tr : EspTrace Tid} {t : Tid} {ev : EspEv} :
    Published ringbuf (.act t ev :: tr) ↔
      Published ringbuf tr ∨ ev = ⟨.storeRingbuf ringbuf, ()⟩ := by
  show _ ∈ actEvents tr ++ [ev] ↔ _
  rw [List.mem_append, List.mem_singleton]
  exact or_congr Iff.rfl eq_comm

/-- What the memory looks like to thread `t` with this in hand. -/
def EspView.Fits (s : EspShared Tid) (tr : EspTrace Tid) (t : Tid) : EspView → Prop
  | .idle => True
  | .made r => (s.ring r).alive = true ∧ (s.ring r).task = none ∧ ¬ Published r tr
  | .failed r => (s.ring r).alive = true ∧ (s.ring r).task = none ∧ ¬ Published r tr
  | .tasked r => (s.ring r).alive = true ∧ (s.ring r).task ≠ none ∧ ¬ Published r tr
  | .hand r packet => (s.ring r).received = [packet] ∧ (s.ring r).task = some t

theorem EspView.Fits.mono {s s' : EspShared Tid} {tr tr' : EspTrace Tid} {t : Tid} {v : EspView}
    (h : v.Fits s tr t) (hpub : ∀ r, v.ring = some r → Published r tr' → Published r tr)
    (hring : ∀ r, v.ring = some r → s'.ring r = s.ring r)
    (hhand : ∀ r packet, v = .hand r packet →
      (s'.ring r).received = (s.ring r).received ∧ (s'.ring r).task = (s.ring r).task) :
    v.Fits s' tr' t := by
  cases v with
  | idle => trivial
  | made r =>
    obtain ⟨ha, ht, hp⟩ := h
    refine ⟨?_, ?_, fun hp' => hp (hpub r rfl hp')⟩ <;> rwa [hring r rfl]
  | failed r =>
    obtain ⟨ha, ht, hp⟩ := h
    refine ⟨?_, ?_, fun hp' => hp (hpub r rfl hp')⟩ <;> rwa [hring r rfl]
  | tasked r =>
    obtain ⟨ha, ht, hp⟩ := h
    refine ⟨?_, ?_, fun hp' => hp (hpub r rfl hp')⟩ <;> rwa [hring r rfl]
  | hand r packet =>
    obtain ⟨hreceived, htask⟩ := hhand r packet rfl
    exact ⟨hreceived.trans h.1, htask.trans h.2⟩

variable [DecidableEq Tid]

structure RingInv (s : EspShared Tid) (tr : EspTrace Tid) (g : Tid → EspView) : Prop where
  handle : s.ringbuf ≠ 0 → Published s.ringbuf tr
  loaded : ∀ t r, (⟨.loadRingbuf, r⟩ : EspEv) ∈ callEvents t tr → r ≠ 0 → Published r tr
  published : ∀ r, Published r tr → (s.ring r).task ≠ none
  alive : ∀ r, (s.ring r).task ≠ none → (s.ring r).alive = true
  unpublished : ∀ r, ¬ Published r tr → accepted r (actEvents tr) = []
  fits : ∀ t, (g t).Fits s tr t
  own : ∀ t u r, (g t).ring = some r → (g u).ring = some r → t = u
  queue : ∀ r, accepted r (actEvents tr) =
    returned r (actEvents tr) ++ (s.ring r).received ++ (s.ring r).waiting
  hands : ∀ r, (s.ring r).received = [] ∨ ∃ t packet, g t = .hand r packet

theorem ringInv_init : RingInv EspShared.init [] fun _ : Tid => EspView.idle where
  handle h := absurd rfl h
  loaded t r h := by cases h
  published r h := by cases h
  alive r h := absurd rfl h
  unpublished r _ := rfl
  fits t := trivial
  own t u r h := by cases h
  queue r := rfl
  hands r := Or.inl rfl

namespace RingInv

variable {s s' : EspShared Tid} {tr : EspTrace Tid} {g : Tid → EspView} {t : Tid} {ev : EspEv}
  {v : EspView} {r : Ptr} {q : Ring Tid}

/-- A call begins or ends. -/
theorem turn (h : RingInv s tr g) {l : Label Tid EspCall EspOp EspOp.Ret EspRes}
    (hact : actEvents (l :: tr) = actEvents tr)
    (hcall : ∀ u ev, ev ∈ callEvents u (l :: tr) → ev ∈ callEvents u tr) :
    RingInv s (l :: tr) g := by
  have hpub : ∀ r, Published r (l :: tr) ↔ Published r tr := by
    intro r
    unfold Published
    rw [hact]
  refine ⟨fun hs => (hpub _).mpr (h.handle hs), ?_, fun r hr => h.published r ((hpub r).mp hr),
    h.alive, fun r hr => ?_, fun t => ?_, h.own, fun r => ?_, h.hands⟩
  · intro u r hmem hr
    exact (hpub r).mpr (h.loaded u r (hcall u _ hmem) hr)
  · rw [hact]
    exact h.unpublished r fun hp => hr ((hpub r).mpr hp)
  · have hfit := h.fits t
    revert hfit
    cases g t <;> simp [EspView.Fits, hpub]
  · rw [hact]
    exact h.queue r

/-- Thread `t` moves and at most ring `r` changes. -/
theorem change (h : RingInv s tr g) (hs : s'.ringbuf = s.ringbuf)
    (hring : s'.ring = Function.update s.ring r q)
    (hload : ∀ r', ev ≠ ⟨.loadRingbuf, r'⟩) (hstore : ∀ r', ev ≠ ⟨.storeRingbuf r', ()⟩)
    (htask : Published r tr → q.task ≠ none) (halive : q.task ≠ none → q.alive = true)
    (hother : ∀ r', r' ≠ r → accepted r' [ev] = [] ∧ returned r' [ev] = [])
    (hsent : ¬ Published r tr → accepted r [ev] = [])
    (hqueue : accepted r (actEvents tr) ++ accepted r [ev] =
      returned r (actEvents tr) ++ returned r [ev] ++ q.received ++ q.waiting)
    (hfit : v.Fits s' tr t) (howner : ∀ u, u ≠ t → (g u).ring = some r → q = s.ring r)
    (hkeep : ∀ u packet, u ≠ t → g u = .hand r packet →
      q.received = (s.ring r).received ∧ q.task = (s.ring r).task)
    (hown : ∀ u r', u ≠ t → v.ring = some r' → (g u).ring ≠ some r')
    (hhand : q.received = [] ∨ (∃ packet, v = .hand r packet) ∨
      ∃ u packet, u ≠ t ∧ g u = .hand r packet)
    (hhands : ∀ r' packet, r' ≠ r → g t = .hand r' packet → v = .hand r' packet) :
    RingInv s' (.act t ev :: tr) (Function.update g t v) := by
  have hpub : ∀ r', Published r' (.act t ev :: tr) ↔ Published r' tr := by
    intro r'
    rw [published_act]
    exact or_iff_left (hstore r')
  have hself : s'.ring r = q := by rw [hring, Function.update_self]
  have hne : ∀ {r'}, r' ≠ r → s'.ring r' = s.ring r' := by
    intro r' hr'
    rw [hring, Function.update_of_ne hr']
  constructor
  case handle =>
    intro hnull
    rw [hs] at hnull ⊢
    exact (hpub _).mpr (h.handle hnull)
  case loaded =>
    intro u r' hmem hr'
    rw [hpub]
    by_cases htu : t = u
    · simp only [callEvents, if_pos htu, List.mem_append, List.mem_singleton] at hmem
      rcases hmem with hmem | hmem
      · exact h.loaded u r' hmem hr'
      · exact absurd hmem.symm (hload r')
    · simp only [callEvents, if_neg htu] at hmem
      exact h.loaded u r' hmem hr'
  case published =>
    intro r' hp
    by_cases hr' : r' = r
    · rw [hr', hself]
      exact htask (hr' ▸ (hpub r').mp hp)
    · rw [hne hr']
      exact h.published r' ((hpub r').mp hp)
  case alive =>
    intro r' hp
    by_cases hr' : r' = r
    · rw [hr', hself] at hp ⊢
      exact halive hp
    · rw [hne hr'] at hp ⊢
      exact h.alive r' hp
  case unpublished =>
    intro r' hp
    rw [hpub] at hp
    rw [actEvents, accepted_append, h.unpublished r' hp, List.nil_append]
    by_cases hr' : r' = r
    · rw [hr']
      exact hsent (hr' ▸ hp)
    · exact (hother r' hr').1
  case fits =>
    intro u
    by_cases hut : u = t
    · rw [hut, Function.update_self]
      exact hfit.mono (fun r' _ => (hpub r').mp) (fun _ _ => rfl) fun _ _ _ => ⟨rfl, rfl⟩
    · rw [Function.update_of_ne hut]
      refine (h.fits u).mono (fun r' _ => (hpub r').mp) (fun r' hr' => ?_) fun r' packet hp => ?_
      · by_cases hrr : r' = r
        · subst hrr
          rw [hself, howner u hut hr']
        · exact hne hrr
      · by_cases hr' : r' = r
        · subst hr'
          rw [hself]
          exact hkeep u packet hut hp
        · rw [hne hr']
          exact ⟨rfl, rfl⟩
  case own =>
    intro u w r' hu hw
    by_cases hut : u = t
    · by_cases hwt : w = t
      · rw [hut, hwt]
      · rw [hut, Function.update_self] at hu
        rw [Function.update_of_ne hwt] at hw
        exact absurd hw (hown w r' hwt hu)
    · by_cases hwt : w = t
      · rw [hwt, Function.update_self] at hw
        rw [Function.update_of_ne hut] at hu
        exact absurd hu (hown u r' hut hw)
      · rw [Function.update_of_ne hut] at hu
        rw [Function.update_of_ne hwt] at hw
        exact h.own u w r' hu hw
  case queue =>
    intro r'
    rw [actEvents, accepted_append, returned_append]
    by_cases hr' : r' = r
    · rw [hr', hself]
      exact hqueue
    · rw [hne hr', (hother r' hr').1, (hother r' hr').2, List.append_nil, List.append_nil]
      exact h.queue r'
  case hands =>
    intro r'
    by_cases hr' : r' = r
    · subst hr'
      rw [hself]
      rcases hhand with hnone | ⟨packet, hp⟩ | ⟨u, packet, hut, hp⟩
      · exact Or.inl hnone
      · exact Or.inr ⟨t, packet, by rw [Function.update_self, hp]⟩
      · exact Or.inr ⟨u, packet, by rw [Function.update_of_ne hut, hp]⟩
    · rw [hne hr']
      rcases h.hands r' with hnone | ⟨u, packet, hp⟩
      · exact Or.inl hnone
      · by_cases hut : u = t
        · subst hut
          exact Or.inr ⟨u, packet, by rw [Function.update_self, hhands r' packet hr' hp]⟩
        · exact Or.inr ⟨u, packet, by rw [Function.update_of_ne hut, hp]⟩

/-- Thread `t` moves and no ring changes. -/
theorem quiet (h : RingInv s tr g) (hs : s'.ringbuf = s.ringbuf) (hring : s'.ring = s.ring)
    (hload : ∀ r', ev ≠ ⟨.loadRingbuf, r'⟩) (hstore : ∀ r', ev ≠ ⟨.storeRingbuf r', ()⟩)
    (hnone : ∀ r', accepted r' [ev] = [] ∧ returned r' [ev] = []) (hv : v.Fits s tr t)
    (howns : ∀ r', v.ring = some r' → (g t).ring = some r')
    (hhands : ∀ r' packet, g t = .hand r' packet → v = .hand r' packet) :
    RingInv s' (.act t ev :: tr) (Function.update g t v) := by
  have hsame : s'.ring = Function.update s.ring 0 (s.ring 0) := by
    rw [Function.update_eq_self, hring]
  have hfit : v.Fits s' tr t := by
    refine hv.mono (fun _ _ hp => hp) (fun r' _ => ?_) fun r' packet _ => ?_
    · rw [hring]
    · rw [hring]
      exact ⟨rfl, rfl⟩
  refine h.change hs hsame hload hstore (h.published 0) (h.alive 0) (fun r' _ => hnone r')
    (fun _ => (hnone 0).1) ?_ hfit (fun _ _ _ => rfl) (fun _ _ _ _ => ⟨rfl, rfl⟩) ?_ ?_
    fun r' packet _ => hhands r' packet
  · rw [(hnone 0).1, (hnone 0).2, List.append_nil, List.append_nil]
    exact h.queue 0
  · intro u r' hut hr' hu
    exact hut (h.own u t r' hu (howns r' hr'))
  · rcases h.hands 0 with hnil | ⟨u, packet, hp⟩
    · exact Or.inl hnil
    · by_cases hut : u = t
      · subst hut
        exact Or.inr (Or.inl ⟨packet, hhands 0 packet hp⟩)
      · exact Or.inr (Or.inr ⟨u, packet, hut, hp⟩)

/-- What holds of the rings only their maker knows. -/
theorem ownedRing (h : RingInv s tr g) {u : Tid} (hu : (g u).ring = some r) :
    ¬ Published r tr ∧ (s.ring r).alive = true := by
  have hfit := h.fits u
  cases hg : g u with
  | made r' =>
    rw [hg] at hfit hu
    obtain rfl := Option.some.inj hu
    exact ⟨hfit.2.2, hfit.1⟩
  | failed r' =>
    rw [hg] at hfit hu
    obtain rfl := Option.some.inj hu
    exact ⟨hfit.2.2, hfit.1⟩
  | tasked r' =>
    rw [hg] at hfit hu
    obtain rfl := Option.some.inj hu
    exact ⟨hfit.2.2, hfit.1⟩
  | idle =>
    rw [hg] at hu
    cases hu
  | hand r' packet =>
    rw [hg] at hu
    cases hu

theorem inHand (h : RingInv s tr g) {u : Tid} {packet : List UInt8} (hu : g u = .hand r packet) :
    (s.ring r).received = [packet] ∧ (s.ring r).task = some u := by
  have hfit := h.fits u
  rw [hu] at hfit
  exact hfit

/-- A ring nobody can send to is empty, and always was. -/
theorem unused (h : RingInv s tr g) (hr : ¬ Published r tr) :
    accepted r (actEvents tr) = [] ∧ returned r (actEvents tr) = [] ∧
      (s.ring r).received = [] ∧ (s.ring r).waiting = [] := by
  have hacc := h.unpublished r hr
  have hqueue := h.queue r
  rw [hacc] at hqueue
  obtain ⟨hleft, hwaiting⟩ := List.append_eq_nil_iff.mp hqueue.symm
  obtain ⟨hret, hrec⟩ := List.append_eq_nil_iff.mp hleft
  exact ⟨hacc, hret, hrec, hwaiting⟩

theorem load (h : RingInv s tr g) (t : Tid) :
    RingInv s (.act t ⟨.loadRingbuf, s.ringbuf⟩ :: tr) g := by
  have hpub : ∀ r, Published r (.act t ⟨.loadRingbuf, s.ringbuf⟩ :: tr) ↔ Published r tr := by
    intro r
    rw [published_act]
    exact or_iff_left nofun
  have hacc : ∀ r, accepted r (actEvents (.act t ⟨.loadRingbuf, s.ringbuf⟩ :: tr)) =
      accepted r (actEvents tr) := by
    intro r
    rw [actEvents, accepted_append]
    exact List.append_nil _
  have hret : ∀ r, returned r (actEvents (.act t ⟨.loadRingbuf, s.ringbuf⟩ :: tr)) =
      returned r (actEvents tr) := by
    intro r
    rw [actEvents, returned_append]
    exact List.append_nil _
  refine ⟨fun hs => (hpub _).mpr (h.handle hs), fun u r hmem hr => (hpub r).mpr ?_,
    fun r hr => h.published r ((hpub r).mp hr), h.alive, fun r hr => ?_, fun u => ?_, h.own,
    fun r => ?_, h.hands⟩
  · by_cases htu : t = u
    · simp only [callEvents, if_pos htu, List.mem_append, List.mem_singleton] at hmem
      rcases hmem with hmem | hmem
      · exact h.loaded u r hmem hr
      · cases hmem
        exact h.handle hr
    · simp only [callEvents, if_neg htu] at hmem
      exact h.loaded u r hmem hr
  · rw [hacc]
    exact h.unpublished r fun hp => hr ((hpub r).mpr hp)
  · exact (h.fits u).mono (fun r _ => (hpub r).mp) (fun _ _ => rfl) fun _ _ _ => ⟨rfl, rfl⟩
  · rw [hacc, hret]
    exact h.queue r

theorem store (h : RingInv s tr g) (ht : g t = .tasked r) :
    RingInv { s with ringbuf := r } (.act t ⟨.storeRingbuf r, ()⟩ :: tr)
      (Function.update g t .idle) := by
  have hpub : ∀ r', Published r' (.act t ⟨.storeRingbuf r, ()⟩ :: tr) ↔
      Published r' tr ∨ r' = r := by
    intro r'
    rw [published_act]
    refine or_congr_right ⟨fun heq => ?_, fun heq => ?_⟩
    · cases heq
      rfl
    · rw [heq]
  have hmine : (s.ring r).alive = true ∧ (s.ring r).task ≠ none ∧ ¬ Published r tr := by
    have hfit := h.fits t
    rw [ht] at hfit
    exact hfit
  have hview : ∀ u, Function.update g t .idle u = .idle ∨
      u ≠ t ∧ Function.update g t .idle u = g u := by
    intro u
    by_cases hut : u = t
    · rw [hut]
      exact Or.inl (Function.update_self ..)
    · exact Or.inr ⟨hut, Function.update_of_ne hut ..⟩
  refine ⟨fun _ => (hpub r).mpr (Or.inr rfl), fun u r' hmem hr' => (hpub r').mpr (Or.inl ?_),
    fun r' hr' => ?_, h.alive, fun r' hr' => ?_, fun u => ?_, fun u w r' hu hw => ?_,
    fun r' => ?_, fun r' => ?_⟩
  · by_cases htu : t = u
    · simp only [callEvents, if_pos htu, List.mem_append, List.mem_singleton] at hmem
      rcases hmem with hmem | hmem
      · exact h.loaded u r' hmem hr'
      · cases hmem
    · simp only [callEvents, if_neg htu] at hmem
      exact h.loaded u r' hmem hr'
  · rcases (hpub r').mp hr' with hp | rfl
    · exact h.published r' hp
    · exact hmine.2.1
  · rw [actEvents, accepted_append]
    exact (List.append_nil _).trans (h.unpublished r' fun hp => hr' ((hpub r').mpr (Or.inl hp)))
  · rcases hview u with hu | ⟨hut, hu⟩
    · rw [hu]
      trivial
    · rw [hu]
      refine (h.fits u).mono (fun r' hr' hp => ?_) (fun _ _ => rfl) fun _ _ _ => ⟨rfl, rfl⟩
      rcases (hpub r').mp hp with hp | rfl
      · exact hp
      · exact absurd (h.own u t r' hr' (by rw [ht]; rfl)) hut
  · rcases hview u with hu' | ⟨-, hu'⟩
    · rw [hu'] at hu
      cases hu
    · rcases hview w with hw' | ⟨-, hw'⟩
      · rw [hw'] at hw
        cases hw
      · exact h.own u w r' (hu' ▸ hu) (hw' ▸ hw)
  · rw [actEvents, accepted_append, returned_append]
    exact (List.append_nil _).trans ((h.queue r').trans (by rw [show returned r' [_] = [] from rfl,
      List.append_nil]))
  · rcases h.hands r' with hnil | ⟨u, packet, hp⟩
    · exact Or.inl hnil
    · refine Or.inr ⟨u, packet, ?_⟩
      rw [Function.update_of_ne ?_, hp]
      rintro rfl
      rw [ht] at hp
      cases hp

/-- A ring is made; nobody has used its handle since it was last free. -/
theorem create (h : RingInv s tr g) (ht : g t = .idle)
    (hdead : (s.ring r).alive = false) :
    RingInv (s.setRing r Ring.fresh) (.act t ⟨.ringbufferCreate, r⟩ :: tr)
      (Function.update g t (.made r)) := by
  have hnotask : (s.ring r).task = none := by
    by_contra htask
    rw [h.alive r htask] at hdead
    cases hdead
  have hpub : ¬ Published r tr := fun hp => h.published r hp hnotask
  obtain ⟨hacc, hret, -, -⟩ := h.unused hpub
  have hself : (s.setRing r Ring.fresh).ring r = Ring.fresh := Function.update_self ..
  have hnew : ∀ u, (g u).ring ≠ some r := by
    intro u hu
    rw [(h.ownedRing hu).2] at hdead
    cases hdead
  refine h.change (r := r) (q := Ring.fresh) rfl rfl nofun nofun (fun hp => absurd hp hpub)
    (fun htask => absurd rfl htask) (fun _ _ => ⟨rfl, rfl⟩) (fun _ => rfl) ?_ ?_
    (fun u _ hu => absurd hu (hnew u)) (fun u packet _ hu => ?_) (fun u r' _ hr' hu => ?_)
    (Or.inl rfl) (fun r' packet _ hp => ?_)
  · rw [hacc, hret]
    rfl
  · rw [EspView.Fits, hself]
    exact ⟨rfl, rfl, hpub⟩
  · rw [(h.inHand hu).2] at hnotask
    cases hnotask
  · cases hr'
    exact hnew u hu
  · rw [ht] at hp
    cases hp

/-- The thread that made a ring gives it up again, having found no task for it. -/
theorem delete (h : RingInv s tr g) (ht : g t = .failed r) :
    RingInv (s.setRing r Ring.free) (.act t ⟨.ringbufferDelete r, ()⟩ :: tr)
      (Function.update g t .idle) := by
  have hmine : (s.ring r).alive = true ∧ (s.ring r).task = none ∧ ¬ Published r tr := by
    have hfit := h.fits t
    rw [ht] at hfit
    exact hfit
  obtain ⟨hacc, hret, -, -⟩ := h.unused hmine.2.2
  have hring : (g t).ring = some r := by
    rw [ht]
    rfl
  refine h.change (r := r) (q := Ring.free) (v := .idle) rfl rfl nofun nofun
    (fun hp => absurd hp hmine.2.2)
    (fun htask => absurd rfl htask) (fun _ _ => ⟨rfl, rfl⟩) (fun _ => rfl) ?_ trivial
    (fun u hut hu => absurd (h.own u t r hu hring) hut) (fun u packet _ hu => ?_) nofun
    (Or.inl rfl) (fun r' packet _ hp => ?_)
  · rw [hacc, hret]
    rfl
  · have htask := hmine.2.1
    rw [(h.inHand hu).2] at htask
    cases htask
  · rw [ht] at hp
    cases hp

theorem task (h : RingInv s tr g) (ht : g t = .made r) (d : Tid) :
    RingInv (s.setRing r { s.ring r with task := some d }) (.act t ⟨.taskCreate r, true⟩ :: tr)
      (Function.update g t (.tasked r)) := by
  have hmine : (s.ring r).alive = true ∧ (s.ring r).task = none ∧ ¬ Published r tr := by
    have hfit := h.fits t
    rw [ht] at hfit
    exact hfit
  obtain ⟨hacc, hret, hrec, hwaiting⟩ := h.unused hmine.2.2
  have hring : (g t).ring = some r := by
    rw [ht]
    rfl
  have hself : (s.setRing r { s.ring r with task := some d }).ring r =
      { s.ring r with task := some d } := Function.update_self ..
  refine h.change (r := r) (q := { s.ring r with task := some d }) rfl rfl nofun nofun
    (fun hp => absurd hp hmine.2.2) (fun _ => hmine.1) (fun _ _ => ⟨rfl, rfl⟩) (fun _ => rfl) ?_ ?_
    (fun u hut hu => absurd (h.own u t r hu hring) hut) (fun u packet _ hu => ?_)
    (fun u r' hut hr' hu => ?_) (Or.inl hrec) (fun r' packet _ hp => ?_)
  · rw [hacc, hret, hrec, hwaiting]
    rfl
  · rw [EspView.Fits, hself]
    exact ⟨hmine.1, nofun, hmine.2.2⟩
  · have htask := hmine.2.1
    rw [(h.inHand hu).2] at htask
    cases htask
  · cases hr'
    exact hut (h.own u t r hu hring)
  · rw [ht] at hp
    cases hp

/-- A published ring takes an item. -/
theorem send (h : RingInv s tr g) (hpub : Published r tr) (packet : List UInt8) :
    RingInv (s.setRing r { s.ring r with waiting := (s.ring r).waiting ++ [packet] })
      (.act t ⟨.ringbufferSend r packet, true⟩ :: tr) (Function.update g t (g t)) := by
  have hmine : accepted r [⟨.ringbufferSend r packet, true⟩] = [packet] := by
    simp [accepted]
  have hnew : ∀ u, (g u).ring ≠ some r := fun u hu => (h.ownedRing hu).1 hpub
  refine h.change (r := r)
    (q := { s.ring r with waiting := (s.ring r).waiting ++ [packet] }) rfl rfl nofun nofun
    (h.published r) (h.alive r) (fun r' hr' => ⟨?_, rfl⟩) (fun hp => absurd hpub hp) ?_ ?_
    (fun u _ hu => absurd hu (hnew u)) (fun _ _ _ _ => ⟨rfl, rfl⟩) (fun u r' hut hr' hu => ?_) ?_
    (fun _ _ _ hp => hp)
  · simp [accepted, Ne.symm hr']
  · rw [hmine, h.queue r]
    simp [returned]
  · refine (h.fits t).mono (fun _ _ hp => hp) (fun r' hr' => ?_) fun r' p _ => ?_
    · refine Function.update_of_ne ?_ _ _
      rintro rfl
      exact hnew t hr'
    · by_cases hrr : r' = r
      · subst hrr
        rw [show (s.setRing r' _).ring r' = _ from Function.update_self ..]
        exact ⟨rfl, rfl⟩
      · rw [show (s.setRing r _).ring r' = _ from Function.update_of_ne hrr _ _]
        exact ⟨rfl, rfl⟩
  · exact hut (h.own u t r' hu hr')
  · rcases h.hands r with hnil | ⟨u, p, hp⟩
    · exact Or.inl hnil
    · by_cases hut : u = t
      · subst hut
        exact Or.inr (Or.inl ⟨p, hp⟩)
      · exact Or.inr (Or.inr ⟨u, p, hut, hp⟩)

/-- The task of a ring is the only one to have items of it. -/
theorem receive (h : RingInv s tr g) (ht : g t = .idle) (htask : (s.ring r).task = some t)
    {packet : List UInt8} {rest : List (List UInt8)} (hwait : (s.ring r).waiting = packet :: rest) :
    RingInv (s.setRing r { s.ring r with
        waiting := rest, received := (s.ring r).received ++ [packet] })
      (.act t ⟨.ringbufferReceive r, some packet⟩ :: tr)
      (Function.update g t (.hand r packet)) := by
  have hpub : Published r tr := by
    by_contra hp
    have hnone := (h.unused hp).2.2.2
    rw [hwait] at hnone
    cases hnone
  have hrec : (s.ring r).received = [] := by
    rcases h.hands r with hnil | ⟨u, p, hp⟩
    · exact hnil
    · have hut := (h.inHand hp).2
      rw [htask] at hut
      cases hut
      rw [ht] at hp
      cases hp
  have hself : (s.setRing r { s.ring r with
      waiting := rest, received := (s.ring r).received ++ [packet] }).ring r = { s.ring r with
      waiting := rest, received := (s.ring r).received ++ [packet] } := Function.update_self ..
  refine h.change (r := r) (q := { s.ring r with
      waiting := rest, received := (s.ring r).received ++ [packet] }) rfl rfl nofun nofun
    (h.published r) (h.alive r) (fun _ _ => ⟨rfl, rfl⟩) (fun hp => absurd hpub hp) ?_ ?_
    (fun u _ hu => absurd hpub (h.ownedRing hu).1) (fun u p hut hu => ?_) nofun
    (Or.inr (Or.inl ⟨packet, rfl⟩)) (fun r' p _ hp => ?_)
  · show accepted r (actEvents tr) ++ [] = returned r (actEvents tr) ++ [] ++ _ ++ rest
    rw [List.append_nil, List.append_nil, h.queue r, hwait, hrec]
    simp
  · rw [EspView.Fits, hself, hrec]
    exact ⟨rfl, htask⟩
  · have hut' := (h.inHand hu).2
    rw [htask] at hut'
    exact absurd (Option.some.inj hut').symm hut
  · rw [ht] at hp
    cases hp

theorem returnItem (h : RingInv s tr g) {packet : List UInt8} (ht : g t = .hand r packet) :
    RingInv (s.setRing r { s.ring r with received := (s.ring r).received.erase packet })
      (.act t ⟨.ringbufferReturnItem r packet, ()⟩ :: tr) (Function.update g t .idle) := by
  obtain ⟨hrec, htask⟩ := h.inHand ht
  have hpub : Published r tr := by
    by_contra hp
    have hnone := (h.unused hp).2.2.1
    rw [hrec] at hnone
    cases hnone
  have herase : (s.ring r).received.erase packet = [] := by
    rw [hrec]
    simp
  have hmine : returned r [⟨.ringbufferReturnItem r packet, ()⟩] = [packet] := by
    simp [returned]
  refine h.change (r := r) (v := .idle)
    (q := { s.ring r with received := (s.ring r).received.erase packet }) rfl rfl nofun nofun
    (h.published r) (h.alive r) (fun r' hr' => ⟨rfl, ?_⟩) (fun hp => absurd hpub hp) ?_ trivial
    (fun u _ hu => absurd hpub (h.ownedRing hu).1) (fun u p hut hu => ?_) nofun (Or.inl herase)
    (fun r' p hr' hp => ?_)
  · simp [returned, Ne.symm hr']
  · show accepted r (actEvents tr) ++ [] = _ ++ _ ++ (s.ring r).received.erase packet ++ _
    rw [hmine, herase, List.append_nil, List.append_nil, h.queue r, hrec]
  · have hut' := (h.inHand hu).2
    rw [htask] at hut'
    exact absurd (Option.some.inj hut').symm hut
  · rw [ht] at hp
    cases hp
    exact absurd rfl hr'

end RingInv

theorem send_loaded {c : Lib.Config Tid EspCall EspOp EspOp.Ret EspRes (EspShared Tid)}
    {tr : EspTrace Tid} {t : Tid} {r : Ptr} {packet : List UInt8} {ok : Bool}
    (h : (espSystem e Tid).Run c (.act t ⟨.ringbufferSend r packet, ok⟩ :: tr)) :
    r ≠ 0 ∧ (⟨.loadRingbuf, r⟩ : EspEv) ∈ callEvents t tr := by
  have hcall : callEvents t (.act t ⟨.ringbufferSend r packet, ok⟩ :: tr) =
      callEvents t tr ++ [⟨.ringbufferSend r packet, ok⟩] := if_pos rfl
  rcases h.callEvents_reach t with hnil | ⟨call, q, hreach⟩
  · rw [hcall] at hnil
    simp at hnil
  · obtain ⟨es, v, hpath⟩ := Prog.reach_extends hreach
    rw [hcall, List.append_assoc] at hpath
    exact sendsLoaded_espBody hpath _ r packet ok es rfl

theorem RingInv.act {s s' : EspShared Tid} {tr : EspTrace Tid} {g : Tid → EspView} {t : Tid}
    {ev : EspEv} {g' : EspView} (hrun : ∃ c, (espSystem e Tid).Run c (.act t ev :: tr))
    (h : RingInv s tr g) (hm : espViewStep (g t) ev g') (hs : espStep e t ev.op ev.ret s s') :
    RingInv s' (.act t ev :: tr) (Function.update g t g') := by
  obtain ⟨o, r⟩ := ev
  -- an operation on no ring, with nothing in hand before and after or the same
  have hquiet : s'.ringbuf = s.ringbuf → s'.ring = s.ring →
      (∀ r', (⟨o, r⟩ : EspEv) ≠ ⟨.loadRingbuf, r'⟩) →
      (∀ r', (⟨o, r⟩ : EspEv) ≠ ⟨.storeRingbuf r', ()⟩) →
      (∀ r', accepted r' [⟨o, r⟩] = [] ∧ returned r' [⟨o, r⟩] = []) → g' = g t →
      RingInv s' (.act t ⟨o, r⟩ :: tr) (Function.update g t g') := by
    intro hringbuf hring hload hstore hnone hg
    rw [hg]
    exact h.quiet hringbuf hring hload hstore hnone (h.fits t) (fun _ hr => hr) fun _ _ hp => hp
  cases o
  case core o =>
    obtain ⟨core, -, rfl⟩ := hs
    exact hquiet rfl rfl nofun nofun (fun _ => ⟨rfl, rfl⟩) hm
  case loadRingbuf =>
    obtain ⟨rfl, rfl⟩ := hs
    obtain rfl := hm
    rw [Function.update_eq_self]
    exact h.load t
  case storeRingbuf ringbuf =>
    obtain rfl := hs
    obtain ⟨ht, rfl⟩ := hm
    exact h.store ht
  case loadInstalled =>
    obtain ⟨-, rfl⟩ := hs
    exact hquiet rfl rfl nofun nofun (fun _ => ⟨rfl, rfl⟩) hm
  case storeInstalled =>
    obtain rfl := hs
    exact hquiet rfl rfl nofun nofun (fun _ => ⟨rfl, rfl⟩) hm
  case ringbufferCreate =>
    obtain ⟨ht, rfl⟩ := hm
    rcases hs with ⟨hnull, rfl⟩ | ⟨hr, hdead, rfl⟩
    · exact hquiet rfl rfl nofun nofun (fun _ => ⟨rfl, rfl⟩) (by rw [if_pos hnull, ht])
    · rw [if_neg hr]
      exact h.create ht hdead
  case ringbufferDelete ringbuf =>
    obtain rfl := hs
    obtain ⟨ht, rfl⟩ := hm
    exact h.delete ht
  case taskCreate ringbuf =>
    obtain ⟨ht, rfl⟩ := hm
    rcases hs with ⟨hfailed, rfl⟩ | ⟨hok, d, rfl⟩
    · have hfit := h.fits t
      rw [ht] at hfit
      obtain rfl : r = false := hfailed
      refine h.quiet rfl rfl nofun nofun (fun _ => ⟨rfl, rfl⟩) (v := .failed ringbuf) hfit
        (fun r' hr' => ?_) fun r' packet hp => ?_
      · rw [ht]
        exact hr'
      · rw [ht] at hp
        cases hp
    · obtain rfl : r = true := hok
      exact h.task ht d
  case ringbufferSend ringbuf packet =>
    obtain rfl := hm
    rcases hs with ⟨hfull, rfl⟩ | ⟨hok, rfl⟩
    · obtain rfl : r = false := hfull
      exact hquiet rfl rfl nofun nofun (fun _ => ⟨rfl, rfl⟩) rfl
    · obtain rfl : r = true := hok
      obtain ⟨c, hc⟩ := hrun
      obtain ⟨hnull, hload⟩ := send_loaded hc
      exact h.send (h.loaded t ringbuf hload hnull) packet
  case ringbufferReceive ringbuf =>
    obtain ⟨ht, rfl⟩ := hm
    obtain ⟨htask, ⟨hnone, rfl⟩ | ⟨packet, rest, hpacket, hwait, rfl⟩⟩ := hs
    · obtain rfl : r = none := hnone
      exact hquiet rfl rfl nofun nofun (fun _ => ⟨rfl, rfl⟩) ht.symm
    · obtain rfl : r = some packet := hpacket
      exact h.receive ht htask hwait
  case ringbufferReturnItem ringbuf packet =>
    obtain rfl := hs
    obtain ⟨ht, rfl⟩ := hm
    exact h.returnItem ht

/-- A ring that has its task keeps it. -/
theorem RingInv.task_stays {s s' : EspShared Tid} {tr : EspTrace Tid} {g : Tid → EspView} {t u : Tid}
    {ev : EspEv} {g' : EspView} {r : Ptr} (h : RingInv s tr g) (hm : espViewStep (g t) ev g')
    (hs : espStep e t ev.op ev.ret s s') (hr : (s.ring r).task = some u) :
    (s'.ring r).task = some u := by
  have hset : ∀ {ringbuf : Ptr} {ring : Ring Tid}, (ringbuf = r → ring.task = some u) →
      ((s.setRing ringbuf ring).ring r).task = some u := by
    intro ringbuf ring hring
    by_cases hrr : ringbuf = r
    · rw [← hrr, show (s.setRing ringbuf ring).ring ringbuf = ring from Function.update_self ..]
      exact hring hrr
    · rw [show (s.setRing ringbuf ring).ring r = s.ring r from
        Function.update_of_ne (Ne.symm hrr) ..]
      exact hr
  have hfit := h.fits t
  obtain ⟨o, v⟩ := ev
  cases o
  case core =>
    obtain ⟨core, -, rfl⟩ := hs
    exact hr
  case loadRingbuf =>
    obtain ⟨-, rfl⟩ := hs
    exact hr
  case loadInstalled =>
    obtain ⟨-, rfl⟩ := hs
    exact hr
  case storeRingbuf =>
    obtain rfl := hs
    exact hr
  case storeInstalled =>
    obtain rfl := hs
    exact hr
  case ringbufferCreate =>
    rcases hs with ⟨-, rfl⟩ | ⟨-, hdead, rfl⟩
    · exact hr
    · refine hset fun hrr => ?_
      obtain rfl : v = r := hrr
      have halive := h.alive v (by rw [hr]; nofun)
      exact absurd (hdead.symm.trans halive) nofun
  case ringbufferDelete ringbuf =>
    obtain rfl := hs
    refine hset fun hrr => ?_
    rw [hm.1] at hfit
    have hnone : (s.ring r).task = none := hrr ▸ hfit.2.1
    rw [hr] at hnone
    cases hnone
  case taskCreate ringbuf =>
    rcases hs with ⟨-, rfl⟩ | ⟨-, d, rfl⟩
    · exact hr
    · refine hset fun hrr => ?_
      rw [hm.1] at hfit
      have hnone : (s.ring r).task = none := hrr ▸ hfit.2.1
      rw [hr] at hnone
      cases hnone
  case ringbufferSend ringbuf packet =>
    rcases hs with ⟨-, rfl⟩ | ⟨-, rfl⟩
    · exact hr
    · exact hset fun hrr => hrr ▸ hr
  case ringbufferReceive ringbuf =>
    obtain ⟨-, ⟨-, rfl⟩ | ⟨packet, rest, -, -, rfl⟩⟩ := hs
    · exact hr
    · exact hset fun hrr => hrr ▸ hr
  case ringbufferReturnItem ringbuf packet =>
    obtain rfl := hs
    exact hset fun hrr => hrr ▸ hr

/-- Only the task of a ring returns items to it, and it received what was sent. -/
structure RingUse (s : EspShared Tid) (tr : EspTrace Tid) : Prop where
  byTask : ∀ u r packet, .act u ⟨.ringbufferReturnItem r packet, ()⟩ ∈ tr →
    (s.ring r).task = some u
  taken : ∀ u r packet, .act u ⟨.ringbufferReceive r, some packet⟩ ∈ tr →
    packet ∈ accepted r (actEvents tr)

omit [DecidableEq Tid] in
theorem ringUse_init : RingUse (EspShared.init : EspShared Tid) [] where
  byTask u r packet h := by cases h
  taken u r packet h := by cases h

theorem RingUse.act {s s' : EspShared Tid} {tr : EspTrace Tid} {g : Tid → EspView} {t : Tid}
    {ev : EspEv} {g' : EspView} (h : RingUse s tr) (hring : RingInv s tr g)
    (hm : espViewStep (g t) ev g') (hs : espStep e t ev.op ev.ret s s') :
    RingUse s' (.act t ev :: tr) where
  byTask u r packet hmem := by
    refine hring.task_stays hm hs ?_
    rcases List.mem_cons.mp hmem with heq | hmem
    · cases heq
      exact (hring.inHand hm.1).2
    · exact h.byTask u r packet hmem
  taken u r packet hmem := by
    rw [actEvents, accepted_append]
    refine List.mem_append_left _ ?_
    rcases List.mem_cons.mp hmem with heq | hmem
    · cases heq
      obtain ⟨-, ⟨hnone, -⟩ | ⟨p, rest, hp, hwait, -⟩⟩ := hs
      · cases hnone
      · cases hp
        rw [hring.queue r, hwait]
        exact List.mem_append_right _ (List.mem_cons_self ..)
    · exact h.taken u r packet hmem

theorem ringInv_run {c : Lib.Config Tid EspCall EspOp EspOp.Ret EspRes (EspShared Tid)}
    {tr : EspTrace Tid} (h : (espSystem e Tid).Run c tr) :
    ∃ g : Tid → EspView, (∀ t, Steps espViewStep .idle (callEvents t tr) (g t)) ∧
      RingInv c.state tr g ∧ RingUse c.state tr := by
  have hturn : ∀ (l : Label Tid EspCall EspOp EspOp.Ret EspRes) (tr : EspTrace Tid),
      (∀ t ev, l ≠ .act t ev) → actEvents (l :: tr) = actEvents tr ∧
        ∀ u ev, ev ∈ callEvents u (l :: tr) → ev ∈ callEvents u tr := by
    intro l tr hl
    cases l with
    | act t ev => exact absurd rfl (hl t ev)
    | invoke t call =>
      refine ⟨rfl, fun u ev hev => ?_⟩
      by_cases htu : t = u
      · simp [callEvents, htu] at hev
      · simpa [callEvents, htu] using hev
    | ret t call v =>
      refine ⟨rfl, fun u ev hev => ?_⟩
      by_cases htu : t = u
      · simp [callEvents, htu] at hev
      · simpa [callEvents, htu] using hev
  have hend : ∀ {s : EspShared Tid} {l : Label Tid EspCall EspOp EspOp.Ret EspRes}
      {tr : EspTrace Tid} {g : Tid → EspView}, (∀ t ev, l ≠ .act t ev) →
      RingInv s tr g ∧ RingUse s tr → RingInv s (l :: tr) g ∧ RingUse s (l :: tr) := by
    intro s l tr g hl hi
    obtain ⟨hact, hcall⟩ := hturn l tr hl
    have hmem : ∀ {t ev}, .act t ev ∈ l :: tr → .act t ev ∈ tr := by
      intro t ev hmem
      rcases List.mem_cons.mp hmem with heq | hmem
      · exact absurd heq.symm (hl t ev)
      · exact hmem
    refine ⟨hi.1.turn hact hcall, ⟨fun u r packet h => hi.2.byTask u r packet (hmem h), ?_⟩⟩
    intro u r packet h
    rw [hact]
    exact hi.2.taken u r packet (hmem h)
  exact h.invariant_run espViewStep_functional (fun call es v hp => steps_espBody call es v hp)
    (I := fun s tr g => RingInv s tr g ∧ RingUse s tr) ⟨ringInv_init, ringUse_init⟩
    (fun s tr g t call hi _ => hend (by simp) hi) (fun s tr g t call v hi _ => hend (by simp) hi)
    fun s tr g t ev g' s' hrun hi hm hs => ⟨hi.1.act hrun hm hs, hi.2.act hi.1 hm hs⟩

end On9log
