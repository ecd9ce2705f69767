import On9log.EspVfs
import On9log.Lib.Layers
import On9log.Outcome
import On9log.SentBy
import On9log.Solo

/-!
# The ring buffer of the ISR port (on9log_esp_isr.c)

The core of the binary build, whose ISR backend is a FreeRTOS ring buffer. Any
thread may call `on9log_esp_isr_init` at any time, also several at once. Each
ring made there has a task of its own, which alone receives from it. A ring is a
queue of whole items: a send may find no room at any time, an item that was
received belongs to the task until it is returned, and the handle of a deleted
ring may be given out again.
-/

namespace On9log
open Lib

/-- The configuration of the component, with `CONFIG_ON9LOG_ESP_ISR_RINGBUF_SIZE`. -/
structure EspBuild where
  cfg : Config
  ringbufSize : ℕ

/-! ### Operations -/

inductive EspOp where
  | core (o : Op)
  | loadRingbuf
  | storeRingbuf (ring : Ptr)
  | loadInstalled
  | storeInstalled
  | ringbufferCreate
  | ringbufferDelete (ring : Ptr)
  | taskCreate (ring : Ptr)
  | ringbufferSend (ring : Ptr) (packet : List UInt8)
  | ringbufferReceive (ring : Ptr)
  | ringbufferReturnItem (ring : Ptr) (packet : List UInt8)

abbrev EspOp.Ret : EspOp → Type
  | .core o => o.Ret
  | .loadRingbuf => Ptr
  | .storeRingbuf _ => Unit
  | .loadInstalled => Bool
  | .storeInstalled => Unit
  | .ringbufferCreate => Ptr
  | .ringbufferDelete _ => Unit
  | .taskCreate _ => Bool
  | .ringbufferSend _ _ => Bool
  | .ringbufferReceive _ => Option (List UInt8)
  | .ringbufferReturnItem _ _ => Unit

instance EspOp.inhabitedRet (o : EspOp) : Inhabited o.Ret := by
  cases o
  case core o => exact inferInstanceAs (Inhabited o.Ret)
  all_goals exact ⟨default⟩

abbrev EspProg := Prog EspOp EspOp.Ret
abbrev EspEv := Event EspOp EspOp.Ret
abbrev EspScript := Script Call Res EspOp.Ret

def loadRingbuf : EspProg Ptr := Prog.op EspOp.loadRingbuf

/-! ### The port -/

/-- `on9log_port_isr_ready`. -/
def portIsrReady : EspProg Bool := do
  let ringbuf ← loadRingbuf
  pure (ringbuf ≠ 0)

/-- `on9log_port_isr_enqueue_packet` for a packet that is not NULL. -/
def portIsrEnqueuePacket (packet : List UInt8) : EspProg Bool := do
  let ringbuf ← loadRingbuf
  if ringbuf = 0 then pure false
  else Prog.op (EspOp.ringbufferSend ringbuf packet)

/-- The core, with the ISR backend of the port. -/
def espPerform : (o : Op) → EspProg o.Ret
  | .isrReady => portIsrReady
  | .isrEnqueuePacket packet => portIsrEnqueuePacket packet
  | o => Prog.op (EspOp.core o)

/-- `ON9LOG_ESP_ISR_RINGBUF_MIN_SIZE`. -/
def ringbufMinSize (cfg : Config) : ℕ := cfg.isrPacketMax * 2 + 16

variable (e : EspBuild)

/-- `on9log_esp_isr_init` behind `xRingbufferCreate`. -/
def isrInitRing (ringbuf : Ptr) : EspProg EspErr := do
  let taskOk ← Prog.op (EspOp.taskCreate ringbuf)
  if taskOk = false then do
    Prog.op (EspOp.ringbufferDelete ringbuf)
    pure .noMem
  else do
    Prog.op (EspOp.storeRingbuf ringbuf)
    Prog.op EspOp.storeInstalled
    pure .ok

/-- `on9log_esp_isr_init`. -/
def espIsrInit : EspProg EspErr := do
  let installed ← Prog.op EspOp.loadInstalled
  if installed = true then pure .ok
  else if e.ringbufSize < ringbufMinSize e.cfg then pure .invalidSize
  else do
    let ringbuf ← Prog.op EspOp.ringbufferCreate
    if ringbuf = 0 then pure .noMem
    else isrInitRing ringbuf

/-- A turn of the loop of `on9log_esp_isr_drain_task` behind `xRingbufferReceive`. -/
def drainItem (ringbuf : Ptr) : Option (List UInt8) → EspScript Unit
  | none => pure ()
  | some packet => do
    let _ ← Script.call (.dispatchPacket (some packet))
    Script.own (Prog.op (EspOp.ringbufferReturnItem ringbuf packet))

/-- One turn of the loop of `on9log_esp_isr_drain_task`. -/
def drainTurn (ringbuf : Ptr) : EspScript Unit := do
  let packet ← Script.own (Prog.op (EspOp.ringbufferReceive ringbuf))
  drainItem ringbuf packet

/-! ### The machine -/

inductive EspCall where
  | core (call : Call)
  | isrInit
  | drain (ringbuf : Ptr)

inductive EspRes where
  | core (v : Res)
  | init (err : EspErr)
  | turned

def espScript : EspCall → EspScript EspRes
  | .core call => do
    let v ← Script.call call
    pure (.core v)
  | .isrInit => do
    let err ← Script.own (espIsrInit e)
    pure (.init err)
  | .drain ringbuf => do
    drainTurn ringbuf
    pure .turned

/-- `received` are the items not yet returned. -/
structure Ring (Tid : Type) where
  alive : Bool
  task : Option Tid
  waiting : List (List UInt8)
  received : List (List UInt8)

structure EspShared (Tid : Type) where
  core : Shared Tid
  ringbuf : Ptr
  installed : Bool
  ring : Ptr → Ring Tid

variable {Tid : Type}

def Ring.free : Ring Tid := ⟨false, none, [], []⟩

def Ring.fresh : Ring Tid := ⟨true, none, [], []⟩

def EspShared.init : EspShared Tid := ⟨Shared.init, 0, false, fun _ => Ring.free⟩

def EspShared.setRing (s : EspShared Tid) (ringbuf : Ptr) (ring : Ring Tid) : EspShared Tid :=
  { s with ring := Function.update s.ring ringbuf ring }

def espStep (t : Tid) : (o : EspOp) → o.Ret → EspShared Tid → EspShared Tid → Prop
  | .core o, r, s, s' => ∃ core, step e.cfg t o r s.core core ∧ s' = { s with core := core }
  | .loadRingbuf, r, s, s' => r = s.ringbuf ∧ s' = s
  | .storeRingbuf ringbuf, _, s, s' => s' = { s with ringbuf := ringbuf }
  | .loadInstalled, r, s, s' => r = s.installed ∧ s' = s
  | .storeInstalled, _, s, s' => s' = { s with installed := true }
  | .ringbufferCreate, r, s, s' =>
    (r = 0 ∧ s' = s) ∨ (r ≠ 0 ∧ (s.ring r).alive = false ∧ s' = s.setRing r Ring.fresh)
  | .ringbufferDelete ringbuf, _, s, s' => s' = s.setRing ringbuf Ring.free
  | .taskCreate ringbuf, ok, s, s' =>
    (ok = false ∧ s' = s) ∨
      (ok = true ∧ ∃ d, s' = s.setRing ringbuf { s.ring ringbuf with task := some d })
  | .ringbufferSend ringbuf packet, ok, s, s' =>
    (ok = false ∧ s' = s) ∨
      (ok = true ∧ s' = s.setRing ringbuf
        { s.ring ringbuf with waiting := (s.ring ringbuf).waiting ++ [packet] })
  | .ringbufferReceive ringbuf, r, s, s' => (s.ring ringbuf).task = some t ∧
    ((r = none ∧ s' = s) ∨ ∃ packet rest, r = some packet ∧
      (s.ring ringbuf).waiting = packet :: rest ∧
      s' = s.setRing ringbuf { s.ring ringbuf with
        waiting := rest, received := (s.ring ringbuf).received ++ [packet] })
  | .ringbufferReturnItem ringbuf packet, _, s, s' =>
    s' = s.setRing ringbuf
      { s.ring ringbuf with received := (s.ring ringbuf).received.erase packet }

def espBody (Tid : Type) (c : EspCall) : EspProg EspRes :=
  (espScript e c).expand (performScript (system Tid e.cfg) espPerform)

variable (Tid) in
def espSystem : System Tid EspCall EspOp EspOp.Ret EspRes (EspShared Tid) where
  body := espBody e Tid
  step := espStep e
  init := EspShared.init

/-! ### What a call of `on9log_esp_isr_init` does -/

inductive InitCall (e : EspBuild) : EspErr → List EspEv → Prop
  | installed : InitCall e .ok [⟨.loadInstalled, true⟩]
  | tooSmall : e.ringbufSize < ringbufMinSize e.cfg →
      InitCall e .invalidSize [⟨.loadInstalled, false⟩]
  | noRing : ringbufMinSize e.cfg ≤ e.ringbufSize → InitCall e .noMem
      [⟨.loadInstalled, false⟩, ⟨.ringbufferCreate, (0 : Ptr)⟩]
  | noTask (ringbuf : Ptr) : ringbuf ≠ 0 → ringbufMinSize e.cfg ≤ e.ringbufSize → InitCall e .noMem
      [⟨.loadInstalled, false⟩, ⟨.ringbufferCreate, ringbuf⟩, ⟨.taskCreate ringbuf, false⟩,
        ⟨.ringbufferDelete ringbuf, ()⟩]
  | made (ringbuf : Ptr) : ringbuf ≠ 0 → ringbufMinSize e.cfg ≤ e.ringbufSize → InitCall e .ok
      [⟨.loadInstalled, false⟩, ⟨.ringbufferCreate, ringbuf⟩, ⟨.taskCreate ringbuf, true⟩,
        ⟨.storeRingbuf ringbuf, ()⟩, ⟨.storeInstalled, ()⟩]

variable {e} in
theorem initCall_espIsrInit {es : List EspEv} {err : EspErr} (h : (espIsrInit e).Path es err) :
    InitCall e err es := by
  obtain ⟨installed, e₁, _, rfl, h₁, h⟩ := (Prog.path_bind _ _ _ _).mp h
  rw [(Prog.path_op _ _ _).mp h₁]
  rcases (Prog.path_ite _ _ _ _ _).mp h with ⟨hin, h⟩ | ⟨hin, h⟩
  · obtain ⟨rfl, rfl⟩ := (Prog.path_pure _ _ _).mp h
    rw [hin]
    exact .installed
  rw [Bool.not_eq_true] at hin
  rw [hin]
  rcases (Prog.path_ite _ _ _ _ _).mp h with ⟨hsize, h⟩ | ⟨hsize, h⟩
  · obtain ⟨rfl, rfl⟩ := (Prog.path_pure _ _ _).mp h
    exact .tooSmall hsize
  obtain ⟨ringbuf, e₂, _, rfl, h₂, h⟩ := (Prog.path_bind _ _ _ _).mp h
  rw [(Prog.path_op _ _ _).mp h₂]
  rcases (Prog.path_ite _ _ _ _ _).mp h with ⟨hnull, h⟩ | ⟨hnull, h⟩
  · obtain ⟨rfl, rfl⟩ := (Prog.path_pure _ _ _).mp h
    rw [hnull]
    exact .noRing (Nat.le_of_not_lt hsize)
  obtain ⟨taskOk, e₃, _, rfl, h₃, h⟩ := (Prog.path_bind _ _ _ _).mp h
  rw [(Prog.path_op _ _ _).mp h₃]
  rcases (Prog.path_ite _ _ _ _ _).mp h with ⟨htask, h⟩ | ⟨htask, h⟩
  · obtain ⟨_, e₄, _, rfl, h₄, h⟩ := (Prog.path_bind _ _ _ _).mp h
    obtain ⟨rfl, rfl⟩ := (Prog.path_pure _ _ _).mp h
    rw [(Prog.path_op _ _ _).mp h₄, htask]
    exact .noTask ringbuf hnull (Nat.le_of_not_lt hsize)
  · obtain ⟨_, e₄, _, rfl, h₄, h⟩ := (Prog.path_bind _ _ _ _).mp h
    obtain ⟨_, e₅, _, rfl, h₅, h⟩ := (Prog.path_bind _ _ _ _).mp h
    obtain ⟨rfl, rfl⟩ := (Prog.path_pure _ _ _).mp h
    rw [(Prog.path_op _ _ _).mp h₄, (Prog.path_op _ _ _).mp h₅, eq_true_of_ne_false htask]
    exact .made ringbuf hnull (Nat.le_of_not_lt hsize)

/-! ### The core in it -/

/-- Of the ISR backend the core sees the packets that were taken. -/
def portSees (ev : Ev) : Option Ev :=
  match ev with
  | ⟨.isrReady, _⟩ => none
  | ⟨.isrEnqueuePacket packet, ok⟩ => if ok then some ⟨.isrEnqueuePacket packet, true⟩ else none
  | ev => some ev

def espSees : EspEv → Option Ev
  | ⟨.core (.isrEnqueuePacket _), _⟩ => none
  | ⟨.core o, r⟩ => portSees ⟨o, r⟩
  | ⟨.ringbufferSend _ packet, true⟩ => some ⟨.isrEnqueuePacket packet, true⟩
  | _ => none

theorem portSees_some {ev ev' : Ev} (h : portSees ev = some ev') : ev' = ev := by
  obtain ⟨o, r⟩ := ev
  cases o
  case isrReady => cases h
  case isrEnqueuePacket packet =>
    cases r with
    | false => cases h
    | true => exact (Option.some.inj h).symm
  all_goals exact (Option.some.inj h).symm

/-- An operation nobody sees leaves the core as it is. -/
theorem step_unseen {cfg : Config} {t : Tid} {o : Op} {r : o.Ret} (h : portSees ⟨o, r⟩ = none)
    {s s' : Shared Tid} : step cfg t o r s s' ↔ s' = s := by
  cases o
  case isrReady => exact Iff.rfl
  case isrEnqueuePacket packet => exact Iff.rfl
  all_goals cases h

theorem sees_espPerform {o : Op} {r : o.Ret} {es : List EspEv} (h : (espPerform o).Path es r) :
    es.filterMap espSees = (portSees ⟨o, r⟩).toList := by
  cases o
  case isrReady =>
    obtain ⟨ringbuf, e₁, _, rfl, h₁, h⟩ := (Prog.path_bind _ _ _ _).mp h
    obtain ⟨rfl, -⟩ := (Prog.path_pure _ _ _).mp h
    rw [(Prog.path_op _ _ _).mp h₁]
    rfl
  case isrEnqueuePacket packet =>
    obtain ⟨ringbuf, e₁, _, rfl, h₁, h⟩ := (Prog.path_bind _ _ _ _).mp h
    rw [(Prog.path_op _ _ _).mp h₁]
    rcases (Prog.path_ite _ _ _ _ _).mp h with ⟨-, h⟩ | ⟨-, h⟩
    · obtain ⟨rfl, rfl⟩ := (Prog.path_pure _ _ _).mp h
      rfl
    · rw [(Prog.path_op _ _ _).mp h]
      cases r <;> rfl
  all_goals
    rw [(Prog.path_op _ _ _).mp h]
    rfl

theorem hidden_espScript (c : EspCall) : (espScript e c).Hidden espSees := by
  have hop : ∀ o : EspOp, (∀ r : o.Ret, espSees ⟨o, r⟩ = none) →
      (Script.own (Prog.op o) : EspScript o.Ret).Hidden espSees := by
    intro o ho
    refine Script.hidden_own fun es v h ev hev => ?_
    rw [(Prog.path_op o es v).mp h] at hev
    rw [List.mem_singleton.mp hev]
    exact ho v
  cases c with
  | core call => exact (Script.hidden_call call).bind fun _ => Script.hidden_pure _
  | drain ringbuf =>
    refine Script.Hidden.bind ?_ fun _ => Script.hidden_pure _
    refine (hop (.ringbufferReceive ringbuf) fun _ => rfl).bind fun packet => ?_
    cases packet with
    | none => exact Script.hidden_pure _
    | some packet =>
      refine (Script.hidden_call _).bind fun _ => ?_
      exact hop (.ringbufferReturnItem ringbuf packet) fun _ => rfl
  | isrInit =>
    refine Script.Hidden.bind (Script.hidden_own fun es v h ev hev => ?_)
      fun _ => Script.hidden_pure _
    cases initCall_espIsrInit h <;> simp at hev <;> rcases hev with rfl | rfl | rfl | rfl | rfl <;> rfl

variable (Tid) [DecidableEq Tid]

def espLayer : Layer (system Tid e.cfg) (espSystem e Tid) Ev where
  script := espScript e
  impl := espPerform
  ob := portSees
  ob' := espSees
  state := EspShared.core
  body _ := rfl
  init := rfl
  starts o := by cases o <;> exact ⟨_, _, rfl⟩
  own := hidden_espScript e
  hidden t o r s s' hs hob := by
    cases o
    case core o =>
      obtain ⟨core, hstep, rfl⟩ := hs
      cases o
      case isrReady => exact hstep
      case isrEnqueuePacket => exact hstep
      all_goals cases hob
    case loadRingbuf => rw [hs.2]
    case loadInstalled => rw [hs.2]
    case ringbufferCreate =>
      rcases hs with ⟨-, rfl⟩ | ⟨-, -, rfl⟩ <;> rfl
    case taskCreate =>
      rcases hs with ⟨-, rfl⟩ | ⟨-, d, rfl⟩ <;> rfl
    case ringbufferSend =>
      rcases hs with ⟨-, rfl⟩ | ⟨-, rfl⟩ <;> rfl
    case ringbufferReceive =>
      rcases hs.2 with ⟨-, rfl⟩ | ⟨packet, rest, -, -, rfl⟩ <;> rfl
    all_goals
      obtain rfl := hs
      rfl
  impl_observed _ _ _ h := sees_espPerform h
  ob_inj o r₁ r₂ b h₁ h₂ := by
    cases (portSees_some h₁).symm.trans (portSees_some h₂)
    rfl
  effect t o' r' s s' o r b hs hob' hob := by
    obtain rfl := portSees_some hob
    cases o'
    case core o₁ =>
      obtain ⟨core, hstep, rfl⟩ := hs
      cases o₁
      case isrReady => cases hob'
      case isrEnqueuePacket => cases hob'
      all_goals
        cases hob'
        exact hstep
    case ringbufferSend ringbuf packet =>
      cases r' with
      | false => cases hob'
      | true =>
        cases hob'
        rcases hs with ⟨hok, -⟩ | ⟨-, rfl⟩
        · cases hok
        · rfl
    all_goals cases hob'
  stutter t o r s hob := (step_unseen hob).mpr rfl

/-! ### Executing it -/

/-- The core answered from `w`; one ring can be made, at `ringbuf`, and its task is `d`. -/
def espReply (w : World) (ringbuf : Ptr) (d : Tid) (t : Tid) (s : EspShared Tid) :
    (o : EspOp) → Option (o.Ret × EspShared Tid)
  | .core o => (reply e.cfg w t s.core o).map fun r => (r.1, { s with core := r.2 })
  | .loadRingbuf => some (s.ringbuf, s)
  | .storeRingbuf r => some ((), { s with ringbuf := r })
  | .loadInstalled => some (s.installed, s)
  | .storeInstalled => some ((), { s with installed := true })
  | .ringbufferCreate =>
    if ringbuf = 0 ∨ (s.ring ringbuf).alive = true then some ((0 : Ptr), s)
    else some (ringbuf, s.setRing ringbuf Ring.fresh)
  | .ringbufferDelete r => some ((), s.setRing r Ring.free)
  | .taskCreate r => some (true, s.setRing r { s.ring r with task := some d })
  | .ringbufferSend r packet =>
    some (true, s.setRing r { s.ring r with waiting := (s.ring r).waiting ++ [packet] })
  | .ringbufferReceive r =>
    if (s.ring r).task = some t then
      match (s.ring r).waiting with
      | [] => some (none, s)
      | packet :: rest => some (some packet, s.setRing r { s.ring r with
          waiting := rest, received := (s.ring r).received ++ [packet] })
    else none
  | .ringbufferReturnItem r packet =>
    some ((), s.setRing r { s.ring r with received := (s.ring r).received.erase packet })

variable {e Tid}

theorem espStep_of_reply {w : World} {ringbuf : Ptr} {d : Tid} (t : Tid) (s : EspShared Tid)
    (o : EspOp) (r : o.Ret) (s' : EspShared Tid) (h : espReply e Tid w ringbuf d t s o = some (r, s')) :
    espStep e t o r s s' := by
  cases o with
  | core o =>
    obtain ⟨⟨r', c⟩, hr, heq⟩ := Option.map_eq_some_iff.mp h
    cases heq
    exact ⟨c, step_of_reply s.core o r' c hr, rfl⟩
  | loadRingbuf =>
    cases h
    exact ⟨rfl, rfl⟩
  | loadInstalled =>
    cases h
    exact ⟨rfl, rfl⟩
  | ringbufferCreate =>
    simp only [espReply] at h
    split at h
    · cases h
      exact Or.inl ⟨rfl, rfl⟩
    · rename_i hfree
      rw [not_or, Bool.not_eq_true] at hfree
      cases h
      exact Or.inr ⟨hfree.1, hfree.2, rfl⟩
  | taskCreate r =>
    cases h
    exact Or.inr ⟨rfl, d, rfl⟩
  | ringbufferSend r packet =>
    cases h
    exact Or.inr ⟨rfl, rfl⟩
  | ringbufferReceive r =>
    simp only [espReply] at h
    split at h
    · rename_i htask
      refine ⟨htask, ?_⟩
      split at h
      · cases h
        exact Or.inl ⟨rfl, rfl⟩
      · rename_i packet rest hwait
        cases h
        exact Or.inr ⟨packet, rest, rfl, hwait, rfl⟩
    · cases h
  | _ =>
    cases h
    rfl

def smallEsp : EspBuild := ⟨smallConfig, 256⟩

/-- One thread initialises, one logs from an ISR, and the task drains its packet. -/
def smallTurns : List (Turn ℕ EspCall) :=
  [.invoke 0 .isrInit, .perform 0 5, .ret 0,
    .invoke 2 (.core (.writeIsr 3 0 2000 (some []) [])), .perform 2 7, .ret 2,
    .invoke 1 (.drain 10), .perform 1 11, .ret 1]

theorem run_small (turns : List (Turn ℕ EspCall)) {α : Type}
    (f : Point ℕ EspCall EspOp EspOp.Ret EspRes (EspShared ℕ) → α) {a : α}
    (h : (System.schedule (espSystem smallEsp ℕ) (espReply smallEsp ℕ quietWorld 10 1) turns).map f =
      some a) :
    ∃ c' tr', (espSystem smallEsp ℕ).Run c' tr' ∧ (∀ t, callsOf t tr' = callsIn t turns) ∧
      f (c', tr') = a := by
  obtain ⟨q, hq, hf⟩ := Option.map_eq_some_iff.mp h
  exact ⟨q.1, q.2, System.run_schedule espStep_of_reply hq, (schedule_calls hq).1, hf⟩

end On9log
