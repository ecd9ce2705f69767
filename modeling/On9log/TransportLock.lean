import On9log.TransportMachine

/-!
# Who holds the transport mutex

`held` counts what entitles a task to the mutex: a call past the lock, and a raw
stream that is open between calls. `Locked` is the invariant once the scheduler
runs: the mutex is with the task that is entitled to it, and `s_transport_owner`
names the task that sends. `Effect` says once what a step of a call does; the
invariant follows from it.
-/

namespace On9log
open Lib

/-! ### Kinds of steps -/

namespace TransportPc

/-- Tests `s_transport_owner` before the lock. -/
def guard : TransportPc → Bool
  | .frameGuard _ _ => true
  | .beginGuard => true
  | _ => false

/-- Has not come past the lock. -/
def early : TransportPc → Bool
  | .frameGuard _ _ => true
  | .frameLock _ _ => true
  | .beginGuard => true
  | .beginLock => true
  | .returned _ => true
  | _ => false

/-- Waits for a call of its own. -/
def waits : TransportPc → Bool
  | .textWait _ _ => true
  | .plainBegin _ => true
  | .plainWrite _ => true
  | .plainEnd _ _ => true
  | _ => false

def sends : TransportPc → Bool
  | .outputCount _ => true
  | .outputLoad _ => true
  | .outputWrite _ _ => true
  | _ => false

/-- Between lock and unlock, of a call that does both. -/
def inside : TransportPc → Bool
  | .frameOwner _ _ => true
  | .frameClear _ => true
  | .frameUnlock _ => true
  | .outputCount f => decide (f.sends = .frame)
  | .outputLoad f => decide (f.sends = .frame)
  | .outputWrite f _ => decide (f.sends = .frame)
  | .beginOwner => true
  | .endUnlock => true
  | .addCheck _ => true
  | .addOpen _ => true
  | .addCount _ => true
  | .addStore _ _ => true
  | .addUnlock _ => true
  | .syncCount _ _ => true
  | .syncLoad _ _ => true
  | .syncCall _ _ => true
  | .syncUnlock _ => true
  | _ => false

/-- `s_transport_owner` is set by this call. -/
def owning : TransportPc → Bool
  | .frameClear _ => true
  | .outputCount f => decide (f.sends = .frame)
  | .outputLoad f => decide (f.sends = .frame)
  | .outputWrite f _ => decide (f.sends = .frame)
  | _ => false

/-- Was let in as a part of a raw stream. -/
def streams : TransportPc → Bool
  | .outputCount f => decide (f.sends = .raw)
  | .outputLoad f => decide (f.sends = .raw)
  | .outputWrite f _ => decide (f.sends = .raw)
  | .endClear => true
  | _ => false

/-- Touches nothing that is shared. -/
structure Neutral (pc : TransportPc) : Prop where
  inside : pc.inside = false
  owning : pc.owning = false
  streams : pc.streams = false
  sends : pc.sends = false

variable {pc : TransportPc}

theorem neutral_of_waits (h : pc.waits = true) : pc.Neutral := by
  cases pc
  case textWait => exact ⟨rfl, rfl, rfl, rfl⟩
  case plainBegin => exact ⟨rfl, rfl, rfl, rfl⟩
  case plainWrite => exact ⟨rfl, rfl, rfl, rfl⟩
  case plainEnd => exact ⟨rfl, rfl, rfl, rfl⟩
  all_goals cases h

theorem neutral_of_early (h : pc.early = true) : pc.Neutral := by
  cases pc
  case frameGuard => exact ⟨rfl, rfl, rfl, rfl⟩
  case frameLock => exact ⟨rfl, rfl, rfl, rfl⟩
  case beginGuard => exact ⟨rfl, rfl, rfl, rfl⟩
  case beginLock => exact ⟨rfl, rfl, rfl, rfl⟩
  case returned => exact ⟨rfl, rfl, rfl, rfl⟩
  all_goals cases h

/-- A driver is called under the lock or as a part of a raw stream. -/
theorem inside_or_streams_of_callsOut (h : pc.callsOut = true) :
    pc.inside = true ∨ pc.streams = true := by
  cases pc
  case outputWrite f data =>
    cases hsends : f.sends with
    | frame => exact .inl (decide_eq_true hsends)
    | raw => exact .inr (decide_eq_true hsends)
  case addOpen => exact .inl rfl
  case syncCall => exact .inl rfl
  all_goals cases h

theorem inside_of_owning (h : pc.owning = true) : pc.inside = true := by
  cases pc
  case frameClear => rfl
  case outputCount => exact h
  case outputLoad => exact h
  case outputWrite => exact h
  all_goals cases h

end TransportPc

/-! ### What a step does -/

variable {Tid : Type} [DecidableEq Tid]

/-- A step of a call in context `c`, by what it changes of the memory `m`. -/
inductive Effect (c : Option Tid) (m : TransportMem Tid) :
    TransportPc → TransportMem Tid → TransportPc → Prop
  | quiet (pc pc' : TransportPc) : pc.sends = false → pc'.sends = false →
      pc'.inside = pc.inside → pc.owning = false → pc'.owning = false → pc'.streams = false →
      pc'.guard = false → (pc.early = true → pc'.early = true) → Effect c m pc m pc'
  | send (pc pc' : TransportPc) (wire : ℕ → List UInt8) : pc.sends = true →
      pc'.inside = pc.inside → pc'.owning = pc.owning →
      (pc'.streams = true → pc.streams = true) → pc'.guard = false →
      Effect c m pc { m with wire := wire } pc'
  | lock (pc pc' : TransportPc) : m.started = true → m.mutex = none → pc.Neutral →
      pc'.inside = true → pc'.owning = false → pc'.streams = false → pc'.sends = false →
      pc'.guard = false → Effect c m pc { m with mutex := c } pc'
  | pass (pc pc' : TransportPc) : m.started = false → pc.Neutral → pc'.owning = false →
      pc'.guard = false → Effect c m pc m pc'
  | own (type : UInt8) (payload : List UInt8) :
      Effect c m (.frameOwner type payload) (m.own c (.frame type payload))
        (Flush.start .frame (frameBatches type payload))
  | opened : Effect c m .beginOwner ((m.own c (.stream [])).stream c true) (.returned .ok)
  | chunk (data : List UInt8) : m.owner = m.self c →
      Effect c m (.rawOwner data) (m.withChunk data) (Flush.start .raw [data])
  | endCheck : m.owner = m.self c → Effect c m .endOwner m .endClear
  | disown (ok : Bool) : Effect c m (.frameClear ok) m.disown (.frameUnlock ok)
  | closed : Effect c m .endClear (m.disown.stream c false) .endUnlock
  | unlock (pc pc' : TransportPc) : pc.inside = true → pc.owning = false →
      pc.streams = false → pc'.Neutral → pc'.guard = false → Effect c m pc m.unlock pc'
  | addCount (fd : ℤ) : Effect c m (.addCount fd)
      { m with outputCount := m.outputCount + 1 } (.addStore m.outputCount fd)
  | addStore (i : ℕ) (fd : ℤ) : Effect c m (.addStore i fd)
      { m with outputs := Function.update m.outputs i fd } (.addUnlock .ok)

theorem effect_lock {c : Option Tid} {m m' : TransportMem Tid} {pc pc' : TransportPc}
    (h : m.lock c = some m') (hpc : pc.Neutral) (hinside : pc'.inside = true)
    (howning : pc'.owning = false) (hstreams : pc'.streams = false) (hsends : pc'.sends = false)
    (hguard : pc'.guard = false) : Effect c m pc m' pc' := by
  unfold TransportMem.lock at h
  split at h
  case isTrue hoff =>
    cases h
    exact .pass pc pc' hoff hpc howning hguard
  case isFalse hon =>
    split at h
    case isTrue hfree =>
      cases h
      exact .lock pc pc' (by simpa using hon) (Option.isNone_iff_eq_none.mp hfree) hpc hinside
        howning hstreams hsends hguard
    case isFalse => cases h

/-- The loop goes on, or what it is a part of does. -/
theorem Flush.nextBatch_kind (f : Flush) :
    f.nextBatch.inside = decide (f.sends = .frame) ∧
      f.nextBatch.owning = decide (f.sends = .frame) ∧
      (f.nextBatch.streams = true → f.sends = .raw) ∧ f.nextBatch.guard = false := by
  unfold nextBatch
  split
  case h_1 =>
    cases f.sends with
    | frame => exact ⟨rfl, rfl, nofun, rfl⟩
    | raw => exact ⟨rfl, rfl, nofun, rfl⟩
  case h_2 => exact ⟨rfl, rfl, fun h => of_decide_eq_true h, rfl⟩

theorem Flush.writeAll_kind (f : Flush) (data : List UInt8) :
    (f.writeAll data).inside = decide (f.sends = .frame) ∧
      (f.writeAll data).owning = decide (f.sends = .frame) ∧
      ((f.writeAll data).streams = true → f.sends = .raw) ∧ (f.writeAll data).guard = false := by
  cases data with
  | nil => exact ⟨rfl, rfl, fun h => of_decide_eq_true h, rfl⟩
  | cons byte data => exact ⟨rfl, rfl, fun h => of_decide_eq_true h, rfl⟩

theorem Flush.start_frame_kind (batches : List (List UInt8)) :
    (Flush.start .frame batches).owning = true ∧ (Flush.start .frame batches).streams = false := by
  cases batches with
  | nil => exact ⟨rfl, rfl⟩
  | cons batch batches => exact ⟨rfl, rfl⟩

/-- A step of the loop over the outputs. -/
theorem effect_loop {c : Option Tid} {reply : WriteReply} {m m' : TransportMem Tid}
    {pc pc' : TransportPc} (hsends : pc.sends = true)
    (h : pcStep c reply m pc = some (m', pc')) : Effect c m pc m' pc' := by
  cases pc
  case outputCount f =>
    cases h
    obtain ⟨hinside, howning, hstreams, hguard⟩ := f.nextBatch_kind
    split
    · exact .send _ _ m.wire rfl rfl rfl id rfl
    · exact .send _ _ m.wire rfl hinside howning (fun hs => decide_eq_true (hstreams hs)) hguard
  case outputLoad f =>
    cases h
    obtain ⟨hinside, howning, hstreams, hguard⟩ := f.writeAll_kind (f.batches.headD [])
    split
    · exact .send _ _ m.wire rfl hinside howning (fun hs => decide_eq_true (hstreams hs)) hguard
    · exact .send _ _ m.wire rfl rfl rfl id rfl
  case outputWrite f data =>
    obtain ⟨hinside, howning, hstreams, hguard⟩ := f.writeAll_kind (data.drop reply.written.toNat)
    unfold pcStep at h
    dsimp only at h
    split at h
    · cases h
      exact .send _ _ m.wire rfl rfl rfl id rfl
    · split at h
      · cases h
        exact .send _ _ m.wire rfl rfl rfl id rfl
      · cases h
        exact .send _ _ _ rfl hinside howning (fun hs => decide_eq_true (hstreams hs)) hguard
  all_goals cases hsends

theorem pcStep_effect {c : Option Tid} {reply : WriteReply} {m m' : TransportMem Tid}
    {pc pc' : TransportPc} (h : pcStep c reply m pc = some (m', pc')) :
    Effect c m pc m' pc' := by
  cases pc
  case outputCount => exact effect_loop rfl h
  case outputLoad => exact effect_loop rfl h
  case outputWrite => exact effect_loop rfl h
  case frameGuard type payload =>
    cases h
    split
    · exact .quiet _ _ rfl rfl rfl rfl rfl rfl rfl fun _ => rfl
    · exact .quiet _ _ rfl rfl rfl rfl rfl rfl rfl fun _ => rfl
  case beginGuard =>
    cases h
    split
    · exact .quiet _ _ rfl rfl rfl rfl rfl rfl rfl fun _ => rfl
    · exact .quiet _ _ rfl rfl rfl rfl rfl rfl rfl fun _ => rfl
  case frameLock type payload =>
    obtain ⟨m₁, hlock, heq⟩ := Option.map_eq_some_iff.mp h
    cases heq
    exact effect_lock hlock ⟨rfl, rfl, rfl, rfl⟩ rfl rfl rfl rfl rfl
  case beginLock =>
    obtain ⟨m₁, hlock, heq⟩ := Option.map_eq_some_iff.mp h
    cases heq
    exact effect_lock hlock ⟨rfl, rfl, rfl, rfl⟩ rfl rfl rfl rfl rfl
  case addLock path =>
    obtain ⟨m₁, hlock, heq⟩ := Option.map_eq_some_iff.mp h
    cases heq
    exact effect_lock hlock ⟨rfl, rfl, rfl, rfl⟩ rfl rfl rfl rfl rfl
  case syncLock =>
    obtain ⟨m₁, hlock, heq⟩ := Option.map_eq_some_iff.mp h
    cases heq
    exact effect_lock hlock ⟨rfl, rfl, rfl, rfl⟩ rfl rfl rfl rfl rfl
  case frameOwner type payload =>
    cases h
    exact .own type payload
  case frameClear ok =>
    cases h
    exact .disown ok
  case frameUnlock ok =>
    cases h
    exact .unlock _ _ rfl rfl rfl ⟨rfl, rfl, rfl, rfl⟩ rfl
  case beginOwner =>
    cases h
    exact .opened
  case rawOwner data =>
    unfold pcStep at h
    dsimp only at h
    split at h
    case isTrue =>
      cases h
      exact .quiet _ _ rfl rfl rfl rfl rfl rfl rfl nofun
    case isFalse howner =>
      cases h
      exact .chunk data (not_not.mp howner)
  case endOwner =>
    cases h
    split
    case isTrue => exact .quiet _ _ rfl rfl rfl rfl rfl rfl rfl nofun
    case isFalse howner => exact .endCheck (not_not.mp howner)
  case endClear =>
    cases h
    exact .closed
  case endUnlock =>
    cases h
    exact .unlock _ _ rfl rfl rfl ⟨rfl, rfl, rfl, rfl⟩ rfl
  case addCheck path =>
    cases h
    split
    · exact .quiet _ _ rfl rfl rfl rfl rfl rfl rfl nofun
    · exact .quiet _ _ rfl rfl rfl rfl rfl rfl rfl nofun
  case addOpen path =>
    cases h
    split
    · exact .quiet _ _ rfl rfl rfl rfl rfl rfl rfl nofun
    · exact .quiet _ _ rfl rfl rfl rfl rfl rfl rfl nofun
  case addCount fd =>
    cases h
    exact .addCount fd
  case addStore i fd =>
    cases h
    exact .addStore i fd
  case addUnlock err =>
    cases h
    exact .unlock _ _ rfl rfl rfl ⟨rfl, rfl, rfl, rfl⟩ rfl
  case syncCount result i =>
    cases h
    split
    · exact .quiet _ _ rfl rfl rfl rfl rfl rfl rfl nofun
    · exact .quiet _ _ rfl rfl rfl rfl rfl rfl rfl nofun
  case syncLoad result i =>
    cases h
    split
    · exact .quiet _ _ rfl rfl rfl rfl rfl rfl rfl nofun
    · exact .quiet _ _ rfl rfl rfl rfl rfl rfl rfl nofun
  case syncCall result i =>
    cases h
    exact .quiet _ _ rfl rfl rfl rfl rfl rfl rfl nofun
  case syncUnlock result =>
    cases h
    exact .unlock _ _ rfl rfl rfl ⟨rfl, rfl, rfl, rfl⟩ rfl
  all_goals cases h

/-! ### The calls of one task -/

/-- The calls of a task when the scheduler runs: its own call, and one that a driver
made and that has not come past the lock. -/
inductive CallStack : List TransportPc → Prop
  | idle : CallStack []
  | call {pc : TransportPc} {below : List TransportPc} : (∀ p ∈ below, p.waits = true) →
      CallStack (pc :: below)
  | nested {pc d : TransportPc} {below : List TransportPc} : pc.early = true →
      d.callsOut = true → (∀ p ∈ below, p.waits = true) → CallStack (pc :: d :: below)

theorem CallStack.step {pc pc' : TransportPc} {below : List TransportPc}
    (h : CallStack (pc :: below)) (hearly : pc.early = true → pc'.early = true) :
    CallStack (pc' :: below) := by
  cases h with
  | call hwaits => exact .call hwaits
  | nested hpc hd hwaits => exact .nested (hearly hpc) hd hwaits

/-- What entitles a task to the mutex. -/
def heldBy (calls : List TransportPc) (streaming : Bool) : ℕ :=
  calls.countP TransportPc.inside + streaming.toNat

def SentBy (calls : List TransportPc) (streaming : Bool) : Prop :=
  streaming = true ∨ ∃ pc ∈ calls, pc.owning = true

/-- The calls of a task agree with what it holds. -/
structure TaskLocked (calls : List TransportPc) (streaming : Bool) (mutex owner : Prop) :
    Prop where
  stack : CallStack calls
  held_le : heldBy calls streaming ≤ 1
  mutex_iff : mutex ↔ heldBy calls streaming = 1
  owner_iff : owner ↔ SentBy calls streaming
  streams : ∀ pc ∈ calls, pc.streams = true → streaming = true

section Task

variable {calls old new below : List TransportPc} {pc pc' : TransportPc} {streaming : Bool}
  {mutex owner : Prop}

theorem heldBy_cons (pc : TransportPc) (below : List TransportPc) (streaming : Bool) :
    heldBy (pc :: below) streaming = heldBy below streaming + pc.inside.toNat := by
  unfold heldBy
  rw [List.countP_cons]
  cases pc.inside with
  | false => rfl
  | true => exact Nat.add_right_comm _ _ _

theorem heldBy_top (hinside : pc'.inside = pc.inside) (below : List TransportPc)
    (streaming : Bool) : heldBy (pc' :: below) streaming = heldBy (pc :: below) streaming := by
  rw [heldBy_cons, heldBy_cons, hinside]

theorem sentBy_cons (pc : TransportPc) (below : List TransportPc) (streaming : Bool) :
    SentBy (pc :: below) streaming ↔ pc.owning = true ∨ SentBy below streaming := by
  unfold SentBy
  simp only [List.mem_cons, exists_eq_or_imp]
  exact or_left_comm

theorem heldBy_streaming (below : List TransportPc) :
    heldBy below true = heldBy below false + 1 := rfl

theorem heldBy_pos_of_mem (hmem : pc ∈ calls) (h : pc.inside = true) (streaming : Bool) :
    0 < heldBy calls streaming := by
  have hcount := List.countP_pos_iff.mpr ⟨pc, hmem, h⟩
  unfold heldBy
  omega

theorem heldBy_pos_of_sentBy (h : SentBy calls streaming) : 0 < heldBy calls streaming := by
  rcases h with rfl | ⟨pc, hmem, howning⟩
  · exact Nat.succ_pos _
  · exact heldBy_pos_of_mem hmem (TransportPc.inside_of_owning howning) streaming

theorem heldBy_append_neutral (hnew : ∀ p ∈ new, p.Neutral) (below : List TransportPc)
    (streaming : Bool) : heldBy (new ++ below) streaming = heldBy below streaming := by
  induction new with
  | nil => rfl
  | cons p new ih =>
    rw [List.cons_append, heldBy_cons, ih fun q hq => hnew q (List.mem_cons_of_mem _ hq),
      (hnew p List.mem_cons_self).inside]
    rfl

theorem sentBy_append_neutral (hnew : ∀ p ∈ new, p.Neutral) (below : List TransportPc)
    (streaming : Bool) : SentBy (new ++ below) streaming ↔ SentBy below streaming := by
  unfold SentBy
  refine or_congr_right ⟨?_, ?_⟩
  · rintro ⟨p, hmem, howning⟩
    rcases List.mem_append.mp hmem with hmem | hmem
    · rw [(hnew p hmem).owning] at howning
      cases howning
    · exact ⟨p, hmem, howning⟩
  · rintro ⟨p, hmem, howning⟩
    exact ⟨p, List.mem_append_right _ hmem, howning⟩

theorem neutral_of_waits (h : ∀ p ∈ below, p.waits = true) : ∀ p ∈ below, p.Neutral := fun p hp =>
  TransportPc.neutral_of_waits (h p hp)

/-- Calls that touch nothing shared come and go. -/
theorem TaskLocked.swap (old new : List TransportPc) (h : TaskLocked (old ++ below) streaming mutex owner)
    (hold : ∀ p ∈ old, p.Neutral) (hnew : ∀ p ∈ new, p.Neutral)
    (hstack : CallStack (new ++ below)) : TaskLocked (new ++ below) streaming mutex owner where
  stack := hstack
  held_le := by
    rw [heldBy_append_neutral hnew, ← heldBy_append_neutral hold]
    exact h.held_le
  mutex_iff := by
    rw [heldBy_append_neutral hnew, ← heldBy_append_neutral hold]
    exact h.mutex_iff
  owner_iff := by
    rw [sentBy_append_neutral hnew, ← sentBy_append_neutral hold]
    exact h.owner_iff
  streams p hp hstreams := by
    rcases List.mem_append.mp hp with hp | hp
    · rw [(hnew p hp).streams] at hstreams
      cases hstreams
    · exact h.streams p (List.mem_append_right _ hp) hstreams

theorem TaskLocked.streams_top (h : TaskLocked (pc :: below) streaming mutex owner)
    (hstreams : pc'.streams = true → streaming = true) :
    ∀ p ∈ pc' :: below, p.streams = true → streaming = true := by
  intro p hp
  rcases List.mem_cons.mp hp with rfl | hp
  · exact hstreams
  · exact h.streams p (List.mem_cons_of_mem _ hp)

/-- A step that changes neither the mutex nor the owner. -/
theorem TaskLocked.step (h : TaskLocked (pc :: below) streaming mutex owner)
    (hinside : pc'.inside = pc.inside) (howning : pc'.owning = pc.owning)
    (hstreams : pc'.streams = true → streaming = true)
    (hearly : pc.early = true → pc'.early = true) :
    TaskLocked (pc' :: below) streaming mutex owner where
  stack := h.stack.step hearly
  held_le := by
    rw [heldBy_top hinside]
    exact h.held_le
  mutex_iff := by
    rw [heldBy_top hinside]
    exact h.mutex_iff
  owner_iff := by
    rw [h.owner_iff, sentBy_cons, sentBy_cons, howning]
  streams := h.streams_top hstreams

/-- Below a step that is not early only waiting calls are left. -/
theorem TaskLocked.waits (h : TaskLocked (pc :: below) streaming mutex owner)
    (hpc : pc.early = false) : ∀ p ∈ below, p.waits = true := by
  cases h.stack with
  | call hwaits => exact hwaits
  | nested hearly _ _ =>
    rw [hpc] at hearly
    cases hearly

/-- Only a raw stream lets a call send that holds nothing itself. -/
theorem TaskLocked.streaming_of_owner (h : TaskLocked (pc :: below) streaming mutex owner)
    (howner : owner) (hpc : pc.owning = false) (hearly : pc.early = false) : streaming = true := by
  rcases (sentBy_cons pc below streaming).mp (h.owner_iff.mp howner) with howning | hbelow
  · rw [hpc] at howning
    cases howning
  · have hnone := (sentBy_append_neutral (neutral_of_waits (h.waits hearly)) [] streaming).mp
      (by rwa [List.append_nil])
    rcases hnone with hstreaming | ⟨p, hmem, -⟩
    · exact hstreaming
    · cases hmem

/-- Between lock and unlock a task has no raw stream open, and nothing below holds anything. -/
theorem TaskLocked.alone (h : TaskLocked (pc :: below) streaming mutex owner)
    (hinside : pc.inside = true) :
    heldBy below streaming = 0 ∧ streaming = false ∧ ¬ SentBy below streaming := by
  have hle := h.held_le
  rw [heldBy_cons, hinside] at hle
  have hzero : heldBy below streaming = 0 := Nat.le_zero.mp (Nat.le_of_succ_le_succ hle)
  refine ⟨hzero, ?_, fun hsent => ?_⟩
  · cases streaming with
    | false => rfl
    | true =>
      rw [heldBy_streaming] at hzero
      cases hzero
  · have hpos := heldBy_pos_of_sentBy hsent
    omega

theorem TaskLocked.mutex_of_inside (h : TaskLocked (pc :: below) streaming mutex owner)
    (hinside : pc.inside = true) : mutex := by
  rw [h.mutex_iff, heldBy_cons, hinside, (h.alone hinside).1]
  rfl

theorem early_of_inside (h : pc.inside = true) : pc.early = false := by
  cases hearly : pc.early with
  | false => rfl
  | true =>
    rw [(TransportPc.neutral_of_early hearly).inside] at h
    cases h

theorem TaskLocked.lock {mutex' : Prop} (h : TaskLocked (pc :: below) streaming mutex owner)
    (hfree : ¬ mutex) (hmutex' : mutex') (hpc : pc.Neutral) (hinside : pc'.inside = true)
    (howning : pc'.owning = false) (hstreams : pc'.streams = false) :
    TaskLocked (pc' :: below) streaming mutex' owner := by
  have hzero : heldBy below streaming = 0 := by
    have hle := h.held_le
    have hne : heldBy (pc :: below) streaming ≠ 1 := fun heq => hfree (h.mutex_iff.mpr heq)
    rw [heldBy_cons, hpc.inside] at hle hne
    have hno : false.toNat = 0 := rfl
    omega
  have hone : heldBy (pc' :: below) streaming = 1 := by
    rw [heldBy_cons, hinside, hzero]
    rfl
  refine ⟨?_, hone.le, iff_of_true hmutex' hone, ?_, ?_⟩
  · cases h.stack with
    | call hwaits => exact .call hwaits
    | @nested _ d rest _ hd _ =>
      -- a driver was called, so the task has the mutex
      rcases TransportPc.inside_or_streams_of_callsOut hd with hin | hs
      · have hmem : d ∈ d :: rest := List.mem_cons_self
        have hpos := heldBy_pos_of_mem hmem hin streaming
        omega
      · have hstreaming := h.streams d (List.mem_cons_of_mem _ List.mem_cons_self) hs
        rw [hstreaming, heldBy_streaming] at hzero
        cases hzero
  · rw [h.owner_iff, sentBy_cons, sentBy_cons, howning, hpc.owning]
  · exact h.streams_top fun hs => absurd (hs.symm.trans hstreams) nofun

theorem TaskLocked.unlock {mutex' : Prop} (h : TaskLocked (pc :: below) streaming mutex owner)
    (hmutex' : ¬ mutex') (hinside : pc.inside = true) (howning : pc.owning = false)
    (hpc' : pc'.Neutral) : TaskLocked (pc' :: below) streaming mutex' owner := by
  have hzero : heldBy (pc' :: below) streaming = 0 := by
    rw [heldBy_cons, hpc'.inside, (h.alone hinside).1]
    rfl
  refine ⟨.call (h.waits (early_of_inside hinside)), by omega, ?_, ?_, ?_⟩
  · exact iff_of_false hmutex' (by omega)
  · rw [h.owner_iff, sentBy_cons, sentBy_cons, howning, hpc'.owning]
  · exact h.streams_top fun hs => absurd (hs.symm.trans hpc'.streams) nofun

theorem TaskLocked.own {owner' : Prop} (h : TaskLocked (pc :: below) streaming mutex owner)
    (howner' : owner') (hpc : pc.inside = true) (howning : pc'.owning = true)
    (hstreams : pc'.streams = false) : TaskLocked (pc' :: below) streaming mutex owner' := by
  have hinside := TransportPc.inside_of_owning howning
  have hheld := heldBy_top (hinside.trans hpc.symm) below streaming
  refine ⟨.call (h.waits (early_of_inside hpc)), ?_, ?_, ?_, ?_⟩
  · rw [hheld]
    exact h.held_le
  · rw [hheld]
    exact h.mutex_iff
  · exact iff_of_true howner' ((sentBy_cons _ _ _).mpr (.inl howning))
  · exact h.streams_top fun hs => absurd (hs.symm.trans hstreams) nofun

theorem TaskLocked.disown {owner' : Prop} (h : TaskLocked (pc :: below) streaming mutex owner)
    (howner' : ¬ owner') (hpc : pc.inside = true) (hinside : pc'.inside = true)
    (howning : pc'.owning = false) (hstreams : pc'.streams = false) :
    TaskLocked (pc' :: below) streaming mutex owner' := by
  have hheld := heldBy_top (hinside.trans hpc.symm) below streaming
  refine ⟨.call (h.waits (early_of_inside hpc)), ?_, ?_, ?_, ?_⟩
  · rw [hheld]
    exact h.held_le
  · rw [hheld]
    exact h.mutex_iff
  · refine iff_of_false howner' fun hsent => ?_
    rcases (sentBy_cons _ _ _).mp hsent with hown | hbelow
    · rw [howning] at hown
      cases hown
    · exact (h.alone hpc).2.2 hbelow
  · exact h.streams_top fun hs => absurd (hs.symm.trans hstreams) nofun

/-- The stream begins: from here on it is what holds the mutex. -/
theorem TaskLocked.opened {owner' : Prop} (h : TaskLocked (pc :: below) streaming mutex owner)
    (howner' : owner') (hpc : pc.inside = true) (hpc' : pc'.Neutral) :
    TaskLocked (pc' :: below) true mutex owner' := by
  obtain ⟨-, rfl, -⟩ := h.alone hpc
  have hheld : heldBy (pc' :: below) true = heldBy (pc :: below) false := by
    rw [heldBy_cons, heldBy_cons, hpc, hpc'.inside]
    rfl
  refine ⟨.call (h.waits (early_of_inside hpc)), ?_, ?_, ?_, fun _ _ _ => rfl⟩
  · rw [hheld]
    exact h.held_le
  · rw [hheld]
    exact h.mutex_iff
  · exact iff_of_true howner' (.inl rfl)

/-- The stream ends, and its last call still holds the mutex. -/
theorem TaskLocked.closed {owner' : Prop} (h : TaskLocked (pc :: below) true mutex owner)
    (howner' : ¬ owner') (hpc : pc.inside = false) (hearly : pc.early = false)
    (hinside : pc'.inside = true) (howning : pc'.owning = false) (hstreams : pc'.streams = false) :
    TaskLocked (pc' :: below) false mutex owner' := by
  have hwaits := neutral_of_waits (h.waits hearly)
  have hheld : heldBy (pc' :: below) false = heldBy (pc :: below) true := by
    rw [heldBy_cons, heldBy_cons, hpc, hinside]
    rfl
  refine ⟨.call (h.waits hearly), ?_, ?_, ?_, ?_⟩
  · rw [hheld]
    exact h.held_le
  · rw [hheld]
    exact h.mutex_iff
  · refine iff_of_false howner' ?_
    rintro (hstreaming | ⟨p, hp, hown⟩)
    · cases hstreaming
    · rcases List.mem_cons.mp hp with rfl | hp
      · rw [howning] at hown
        cases hown
      · rw [(hwaits p hp).owning] at hown
        cases hown
  · intro p hp hs
    rcases List.mem_cons.mp hp with rfl | hp
    · rw [hstreams] at hs
      cases hs
    · rw [(hwaits p hp).streams] at hs
      cases hs

end Task

theorem Flush.start_frame_guard (batches : List (List UInt8)) :
    (Flush.start .frame batches).guard = false := by
  cases batches with
  | nil => rfl
  | cons batch batches => rfl

/-- A step leads past the guards. -/
theorem Effect.guard {c : Option Tid} {m m' : TransportMem Tid} {pc pc' : TransportPc}
    (h : Effect c m pc m' pc') : pc'.guard = false := by
  cases h with
  | quiet _ _ _ _ _ _ _ _ hguard _ => exact hguard
  | send _ _ _ _ _ _ _ hguard => exact hguard
  | lock _ _ _ _ _ _ _ _ _ hguard => exact hguard
  | pass _ _ _ _ _ hguard => exact hguard
  | unlock _ _ _ _ _ _ hguard => exact hguard
  | own type payload => exact Flush.start_frame_guard _
  | opened => rfl
  | chunk data _ => rfl
  | endCheck _ => rfl
  | disown ok => rfl
  | closed => rfl
  | addCount fd => rfl
  | addStore i fd => rfl

/-- What a step of a call leaves as it is. -/
theorem Effect.keeps {c : Option Tid} {m m' : TransportMem Tid} {pc pc' : TransportPc}
    (h : Effect c m pc m' pc') : m'.started = m.started ∧ m'.handle = m.handle ∧
      ∀ c', c' ≠ c → m'.streaming c' = m.streaming c' := by
  have hunlock : m.unlock.started = m.started ∧ m.unlock.handle = m.handle ∧
      ∀ c', c' ≠ c → m.unlock.streaming c' = m.streaming c' := by
    unfold TransportMem.unlock
    split
    · exact ⟨rfl, rfl, fun _ _ => rfl⟩
    · exact ⟨rfl, rfl, fun _ _ => rfl⟩
  cases h with
  | unlock => exact hunlock
  | opened => exact ⟨rfl, rfl, fun c' hc => Function.update_of_ne hc _ _⟩
  | closed => exact ⟨rfl, rfl, fun c' hc => Function.update_of_ne hc _ _⟩
  | _ => exact ⟨rfl, rfl, fun _ _ => rfl⟩

/-- What becomes of the calls of a context in one step. -/
inductive ContextMove (plainText : Bool) (c : Option Tid) (m : TransportMem Tid) :
    TransportAction Tid → List TransportPc → TransportMem Tid → List TransportPc → Prop
  | call (call : TransportCall) : ContextMove plainText c m (.call call) [] m (call.start plainText)
  | reenter (call : TransportCall) (pc : TransportPc) (below : List TransportPc) :
      pc.callsOut = true → call.reenters = true →
      ContextMove plainText c m (.reenter call) (pc :: below) m (call.start plainText ++ pc :: below)
  | finish (reply : WriteReply) (result : ℤ) (below : List TransportPc) :
      ContextMove plainText c m (.go reply) (.finished result :: below) m below
  | done (reply : WriteReply) (err : EspErr) :
      ContextMove plainText c m (.go reply) [.returned err] m []
  | resume (reply : WriteReply) (err : EspErr) (pc : TransportPc) (below : List TransportPc) :
      ContextMove plainText c m (.go reply) (.returned err :: pc :: below) m (pc.resume err ++ below)
  | step (reply : WriteReply) (pc pc' : TransportPc) (m' : TransportMem Tid)
      (below : List TransportPc) : pcStep c reply m pc = some (m', pc') →
      ContextMove plainText c m (.go reply) (pc :: below) m' (pc' :: below)
  | createTask (t : Tid) : c = none →
      ContextMove plainText c m (.createTask t) [] { m with handle := some t } []
  | startScheduler : c = none →
      ContextMove plainText c m .startScheduler [] { m with started := true } []

theorem contextStep_move {plainText : Bool} {c : Option Tid} {m m' : TransportMem Tid}
    {a : TransportAction Tid} {calls calls' : List TransportPc}
    (h : contextStep plainText c m a calls = some (m', calls')) :
    ContextMove plainText c m a calls m' calls' := by
  unfold contextStep at h
  split at h
  case h_1 call =>
    cases h
    exact .call call
  case h_2 call pc below =>
    split at h
    case isTrue hcall =>
      cases h
      exact .reenter call pc below hcall.1 hcall.2
    case isFalse => cases h
  case h_3 =>
    cases h
    exact .finish _ _ _
  case h_4 reply err =>
    cases h
    exact .done reply err
  case h_5 reply err pc below =>
    cases h
    exact .resume reply err pc below
  case h_6 =>
    obtain ⟨r, hr, heq⟩ := Option.map_eq_some_iff.mp h
    cases heq
    exact .step _ _ _ _ _ hr
  case h_7 t =>
    split at h
    case isTrue hc =>
      cases h
      exact .createTask t hc
    case isFalse => cases h
  case h_8 =>
    split at h
    case isTrue hc =>
      cases h
      exact .startScheduler hc
    case isFalse => cases h
  case h_9 => cases h

theorem step_move {plainText : Bool} {s s' : TransportState Tid} {c : Option Tid}
    {a : TransportAction Tid} (h : s.step plainText c a = some s') :
    c.isSome = s.mem.started ∧ ∃ calls,
      ContextMove plainText c s.mem a (s.stack c) s'.mem calls ∧
        s'.stack = Function.update s.stack c calls := by
  unfold TransportState.step at h
  split at h
  case isTrue hruns =>
    obtain ⟨r, hr, heq⟩ := Option.map_eq_some_iff.mp h
    cases heq
    exact ⟨hruns, r.2, contextStep_move hr, rfl⟩
  case isFalse => cases h

/-! ### Calls begin and return -/

/-- A call that begins or goes on has touched nothing yet. -/
structure Fresh (calls : List TransportPc) : Prop where
  neutral : ∀ p ∈ calls, p.Neutral
  waits : ∀ p ∈ calls.tail, p.waits = true
  ne_nil : calls ≠ []

theorem fresh_one {pc : TransportPc} (h : pc.Neutral) : Fresh [pc] where
  neutral p hp := by
    rw [List.mem_singleton.mp hp]
    exact h
  waits _ hp := by cases hp
  ne_nil := nofun

theorem fresh_two {pc w : TransportPc} (h : pc.Neutral) (hw : w.waits = true) :
    Fresh [pc, w] where
  neutral p hp := by
    rcases List.mem_cons.mp hp with rfl | hp
    · exact h
    · rw [List.mem_singleton.mp hp]
      exact TransportPc.neutral_of_waits hw
  waits p hp := by
    rw [List.mem_singleton.mp hp]
    exact hw
  ne_nil := nofun

theorem neutral_startFrame (type : UInt8) (payload : List UInt8) :
    (startFrame type payload).Neutral := by
  unfold startFrame
  split
  · exact ⟨rfl, rfl, rfl, rfl⟩
  · exact ⟨rfl, rfl, rfl, rfl⟩

theorem fresh_textFrames (size : ℕ) (bytes : List UInt8) : Fresh (textFrames size bytes) := by
  cases bytes with
  | nil => exact fresh_one ⟨rfl, rfl, rfl, rfl⟩
  | cons byte bytes => exact fresh_two (neutral_startFrame _ _) rfl

theorem fresh_start (plainText : Bool) (call : TransportCall) : Fresh (call.start plainText) := by
  cases call with
  | writeFrame type payload =>
    cases payload with
    | none => exact fresh_one ⟨rfl, rfl, rfl, rfl⟩
    | some payload => exact fresh_one (neutral_startFrame _ _)
  | rawStreamBegin => exact fresh_one ⟨rfl, rfl, rfl, rfl⟩
  | rawStreamWrite data => cases data <;> exact fresh_one ⟨rfl, rfl, rfl, rfl⟩
  | rawStreamEnd => exact fresh_one ⟨rfl, rfl, rfl, rfl⟩
  | addOutput path => cases path <;> exact fresh_one ⟨rfl, rfl, rfl, rfl⟩
  | fsync => exact fresh_one ⟨rfl, rfl, rfl, rfl⟩
  | write data =>
    cases data with
    | none => exact fresh_one ⟨rfl, rfl, rfl, rfl⟩
    | some bytes =>
      cases plainText with
      | true => exact fresh_two ⟨rfl, rfl, rfl, rfl⟩ rfl
      | false => exact fresh_textFrames _ _

/-- The call of a driver begins at the guard, or is over at once. -/
theorem start_of_reenters {call : TransportCall} (plainText : Bool)
    (h : call.reenters = true) : ∃ pc, call.start plainText = [pc] ∧
      (pc.guard = true ∨ ∃ err, pc = .returned err) := by
  cases call
  case writeFrame type payload =>
    cases payload with
    | none => exact ⟨_, rfl, .inr ⟨_, rfl⟩⟩
    | some payload =>
      refine ⟨startFrame type payload, rfl, ?_⟩
      unfold startFrame
      split
      · exact .inr ⟨_, rfl⟩
      · exact .inl rfl
  case rawStreamBegin => exact ⟨_, rfl, .inl rfl⟩
  all_goals cases h

theorem early_of_entry {pc : TransportPc} (h : pc.guard = true ∨ ∃ err, pc = .returned err) :
    pc.early = true := by
  rcases h with hguard | ⟨err, rfl⟩
  · cases pc
    case frameGuard => rfl
    case beginGuard => rfl
    all_goals cases hguard
  · rfl

theorem fresh_resume {pc : TransportPc} (h : pc.waits = true) (err : EspErr) :
    Fresh (pc.resume err) := by
  cases pc
  case textWait rest size =>
    cases err
    case ok => exact fresh_textFrames size rest
    all_goals exact fresh_one ⟨rfl, rfl, rfl, rfl⟩
  case plainBegin bytes =>
    cases err
    case ok => exact fresh_two ⟨rfl, rfl, rfl, rfl⟩ rfl
    all_goals exact fresh_one ⟨rfl, rfl, rfl, rfl⟩
  case plainWrite size => exact fresh_two ⟨rfl, rfl, rfl, rfl⟩ rfl
  case plainEnd writeErr size => exact fresh_one ⟨rfl, rfl, rfl, rfl⟩
  all_goals cases h

theorem resume_of_not_waits {pc : TransportPc} (h : pc.waits = false) (err : EspErr) :
    pc.resume err = [pc] := by
  cases pc
  case textWait => cases h
  case plainBegin => cases h
  case plainWrite => cases h
  case plainEnd => cases h
  all_goals rfl

theorem not_waits_of_callsOut {pc : TransportPc} (h : pc.callsOut = true) : pc.waits = false := by
  cases pc
  case outputWrite => rfl
  case addOpen => rfl
  case syncCall => rfl
  all_goals cases h

theorem Fresh.callStack {new below : List TransportPc} (h : Fresh new)
    (hbelow : ∀ p ∈ below, p.waits = true) : CallStack (new ++ below) := by
  cases new with
  | nil => exact absurd rfl h.ne_nil
  | cons pc new =>
    refine .call fun p hp => ?_
    rcases List.mem_append.mp hp with hp | hp
    · exact h.waits p hp
    · exact hbelow p hp

/-! ### All tasks -/

namespace TransportState

/-- The invariant when the scheduler runs. -/
def Locked (s : TransportState Tid) : Prop :=
  ∀ t, TaskLocked (s.stack (some t)) (s.mem.streaming (some t)) (s.mem.mutex = some t)
    (s.mem.owner = some t)

variable {s : TransportState Tid} {t : Tid} {m' : TransportMem Tid}
  {calls below : List TransportPc} {pc pc' : TransportPc}

omit [DecidableEq Tid] in
theorem Locked.mutex_of_owner (h : s.Locked) (howner : s.mem.owner = some t) :
    s.mem.mutex = some t := by
  have hpos := heldBy_pos_of_sentBy ((h t).owner_iff.mp howner)
  have hle := (h t).held_le
  exact (h t).mutex_iff.mpr (by omega)

omit [DecidableEq Tid] in
/-- While a task has the mutex, no other task sends. -/
theorem Locked.owner_eq (h : s.Locked) (hmutex : s.mem.mutex = some t) :
    s.mem.owner = none ∨ s.mem.owner = some t := by
  cases howner : s.mem.owner with
  | none => exact .inl rfl
  | some u =>
    have hmine := h.mutex_of_owner howner
    rw [hmutex] at hmine
    exact .inr hmine.symm

omit [DecidableEq Tid] in
/-- The task with the mutex sets the owner to itself, or clears it. -/
theorem Locked.owner_others {owner' : Option Tid} {u : Tid} (h : s.Locked)
    (hmutex : s.mem.mutex = some t) (howner' : owner'.getD t = t) (hu : u ≠ t) :
    owner' = some u ↔ s.mem.owner = some u := by
  refine iff_of_false ?_ ?_
  · rintro rfl
    exact hu howner'
  · intro howner
    rcases h.owner_eq hmutex with hnone | hsome
    · rw [hnone] at howner
      cases howner
    · rw [hsome] at howner
      exact hu (Option.some.inj howner).symm

omit [DecidableEq Tid] in
/-- A task that is between lock and unlock and does not send: nobody does. -/
theorem Locked.owner_none (h : s.Locked) (hcalls : s.stack (some t) = pc :: below)
    (hinside : pc.inside = true) (howning : pc.owning = false) : s.mem.owner = none := by
  have ht := h t
  rw [hcalls] at ht
  rcases h.owner_eq (ht.mutex_of_inside hinside) with hnone | hsome
  · exact hnone
  · rcases (sentBy_cons _ _ _).mp (ht.owner_iff.mp hsome) with hown | hbelow
    · rw [howning] at hown
      cases hown
    · exact absurd hbelow (ht.alone hinside).2.2

omit [DecidableEq Tid] in
theorem Locked.mutex_of_streaming (h : s.Locked) (hstreaming : s.mem.streaming (some t) = true) :
    s.mem.mutex = some t :=
  h.mutex_of_owner ((h t).owner_iff.mpr (.inl hstreaming))

/-- A step of task `t` that leaves the others what they have. -/
theorem Locked.update (h : s.Locked)
    (hothers : ∀ u, u ≠ t → m'.streaming (some u) = s.mem.streaming (some u) ∧
      (m'.mutex = some u ↔ s.mem.mutex = some u) ∧ (m'.owner = some u ↔ s.mem.owner = some u))
    (ht : TaskLocked calls (m'.streaming (some t)) (m'.mutex = some t) (m'.owner = some t)) :
    (⟨m', Function.update s.stack (some t) calls⟩ : TransportState Tid).Locked := by
  intro u
  dsimp only
  by_cases hut : u = t
  · subst hut
    rw [Function.update_self]
    exact ht
  · obtain ⟨hstreaming, hmutex, howner⟩ := hothers u hut
    rw [Function.update_of_ne (by simpa using hut), hstreaming]
    have hu := h u
    exact ⟨hu.stack, hu.held_le, hmutex.trans hu.mutex_iff, howner.trans hu.owner_iff, hu.streams⟩

/-- Only the calls of a task change. -/
theorem Locked.setCalls (h : s.Locked)
    (ht : TaskLocked calls (s.mem.streaming (some t)) (s.mem.mutex = some t)
      (s.mem.owner = some t)) :
    (⟨s.mem, Function.update s.stack (some t) calls⟩ : TransportState Tid).Locked :=
  h.update (fun _ _ => ⟨rfl, Iff.rfl, Iff.rfl⟩) ht

theorem Locked.effect (h : s.Locked) (hstarted : s.mem.started = true)
    (hcalls : s.stack (some t) = pc :: below) (heffect : Effect (some t) s.mem pc m' pc') :
    (⟨m', Function.update s.stack (some t) (pc' :: below)⟩ : TransportState Tid).Locked := by
  have ht := h t
  rw [hcalls] at ht
  cases heffect with
  | quiet pc pc' hsends hsends' hinside howning howning' hstreams _ hearly =>
    exact h.setCalls (ht.step hinside (howning'.trans howning.symm)
      (fun hs => by rw [hstreams] at hs; cases hs) hearly)
  | send pc pc' wire hsends hinside howning hstreams _ =>
    refine h.update (fun _ _ => ⟨rfl, Iff.rfl, Iff.rfl⟩) (ht.step hinside howning ?_ ?_)
    · exact fun hs => ht.streams pc List.mem_cons_self (hstreams hs)
    · intro hearly
      have hno := (TransportPc.neutral_of_early hearly).sends
      rw [hsends] at hno
      cases hno
  | lock pc pc' _ hfree hpc hinside howning hstreams hsends _ =>
    refine h.update (fun u hu => ⟨rfl, ?_, Iff.rfl⟩)
      (ht.lock (by rw [hfree]; exact nofun) rfl hpc hinside howning hstreams)
    refine iff_of_false (fun heq => hu (Option.some.inj heq).symm) ?_
    rw [hfree]
    exact nofun
  | pass pc pc' hoff =>
    rw [hstarted] at hoff
    cases hoff
  | own type payload =>
    have hkind := Flush.start_frame_kind (frameBatches type payload)
    refine h.update (fun u hu => ⟨rfl, Iff.rfl, ?_⟩) (ht.own rfl rfl hkind.1 hkind.2)
    exact h.owner_others (ht.mutex_of_inside rfl) rfl hu
  | opened =>
    refine h.update (fun u hu => ⟨?_, Iff.rfl, ?_⟩) ?_
    · exact Function.update_of_ne (by simpa using hu) _ _
    · exact h.owner_others (ht.mutex_of_inside rfl) rfl hu
    · rw [TransportMem.stream_streaming]
      exact ht.opened rfl rfl ⟨rfl, rfl, rfl, rfl⟩
  | chunk data howner =>
    have hstreaming := ht.streaming_of_owner howner rfl rfl
    exact h.update (fun _ _ => ⟨rfl, Iff.rfl, Iff.rfl⟩)
      (ht.step rfl rfl (fun _ => hstreaming) nofun)
  | endCheck howner =>
    have hstreaming := ht.streaming_of_owner howner rfl rfl
    exact h.setCalls (ht.step rfl rfl (fun _ => hstreaming) nofun)
  | disown ok =>
    refine h.update (fun u hu => ⟨rfl, Iff.rfl, ?_⟩) (ht.disown nofun rfl rfl rfl rfl)
    exact h.owner_others (ht.mutex_of_inside rfl) rfl hu
  | closed =>
    have hstreaming := ht.streams _ List.mem_cons_self rfl
    rw [hstreaming] at ht
    refine h.update (fun u hu => ⟨?_, Iff.rfl, ?_⟩) ?_
    · exact Function.update_of_ne (by simpa using hu) _ _
    · exact h.owner_others (h.mutex_of_owner (ht.owner_iff.mpr (.inl rfl))) rfl hu
    · rw [TransportMem.stream_streaming]
      exact ht.closed nofun rfl rfl rfl rfl rfl
  | unlock pc pc' hinside howning hstreams hpc' _ =>
    have hmutex := ht.mutex_of_inside hinside
    have hunlock : s.mem.unlock = { s.mem with mutex := none } := by
      refine if_neg ?_
      rw [hstarted]
      exact nofun
    rw [hunlock]
    refine h.update (fun u hu => ⟨rfl, ?_, Iff.rfl⟩) (ht.unlock nofun hinside howning hpc')
    refine iff_of_false nofun fun heq => hu ?_
    rw [hmutex] at heq
    exact (Option.some.inj heq).symm
  | addCount fd => exact h.update (fun _ _ => ⟨rfl, Iff.rfl, Iff.rfl⟩) (ht.step rfl rfl nofun nofun)
  | addStore i fd => exact h.update (fun _ _ => ⟨rfl, Iff.rfl, Iff.rfl⟩) (ht.step rfl rfl nofun nofun)

theorem Locked.moves {plainText : Bool} {a : TransportAction Tid} (h : s.Locked)
    (hstarted : s.mem.started = true)
    (hmoves : ContextMove plainText (some t) s.mem a (s.stack (some t)) m' calls) :
    (⟨m', Function.update s.stack (some t) calls⟩ : TransportState Tid).Locked := by
  have ht := h t
  generalize hold : s.stack (some t) = old at hmoves ht
  cases hmoves with
  | call call =>
    have hfresh := fresh_start plainText call
    have hstack : CallStack (call.start plainText ++ []) := hfresh.callStack nofun
    have hnew := ht.swap [] _ nofun hfresh.neutral hstack
    rw [List.append_nil] at hnew
    exact h.setCalls hnew
  | reenter call pc below hout hcall =>
    obtain ⟨new, hnew, hentry⟩ := start_of_reenters plainText hcall
    have hearly := early_of_entry hentry
    rw [hnew]
    refine h.setCalls (ht.swap [] [new] nofun ?_ (.nested hearly hout ?_))
    · exact (fresh_one (TransportPc.neutral_of_early hearly)).neutral
    · cases ht.stack with
      | call hwaits => exact hwaits
      | nested hpc _ _ =>
        have hpc' := TransportPc.neutral_of_early hpc
        rcases TransportPc.inside_or_streams_of_callsOut hout with hin | hs
        · rw [hpc'.inside] at hin
          cases hin
        · rw [hpc'.streams] at hs
          cases hs
  | finish reply result =>
    have hwaits := ht.waits rfl
    refine h.setCalls (ht.swap [.finished result] [] ?_ nofun ?_)
    · exact (fresh_one ⟨rfl, rfl, rfl, rfl⟩).neutral
    · cases calls with
      | nil => exact .idle
      | cons pc below => exact .call fun p hp => hwaits p (List.mem_cons_of_mem _ hp)
  | done reply err =>
    refine h.setCalls (ht.swap [.returned err] [] ?_ nofun .idle)
    exact (fresh_one ⟨rfl, rfl, rfl, rfl⟩).neutral
  | resume reply err pc below =>
    have hreturned : ∀ p ∈ [TransportPc.returned err], p.Neutral :=
      (fresh_one ⟨rfl, rfl, rfl, rfl⟩).neutral
    cases ht.stack with
    | call hwaits =>
      have hpc := hwaits pc List.mem_cons_self
      have hfresh := fresh_resume hpc err
      refine h.setCalls (ht.swap [.returned err, pc] _ ?_ hfresh.neutral
        (hfresh.callStack fun p hp => hwaits p (List.mem_cons_of_mem _ hp)))
      exact (fresh_two ⟨rfl, rfl, rfl, rfl⟩ hpc).neutral
    | nested _ hout hwaits =>
      rw [resume_of_not_waits (not_waits_of_callsOut hout)]
      exact h.setCalls (ht.swap [.returned err] [] hreturned nofun (.call hwaits))
  | step reply pc pc' _ below hpc => exact h.effect hstarted hold (pcStep_effect hpc)
  | createTask _ hc => cases hc
  | startScheduler hc => cases hc

end TransportState

end On9log
