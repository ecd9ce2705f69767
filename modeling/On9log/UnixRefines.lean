import On9log.Lib.Layers
import On9log.SinkView
import On9log.SlideLine

/-!
# The Unix program runs the core (on9log_unix_stdio.c:99-219)

The program with the stdio sink is a layer on the core: a callback of the sink is
observed where it changes the state of the sink, `on9log_unix_stdio_end` where it
writes the frame or finds that there is none to write. So what is known of every
run of the core is known of every run of the program.
-/

namespace On9log
open Lib

variable (u : UnixBuild)

/-! ### What is observed -/

def coreSees : Ev → Option (Ev ⊕ SinkOp) := sinkSees u.entry

def unixSees : UnixEv → Option (Ev ⊕ SinkOp)
  | ⟨.core o, r⟩ => some (.inl ⟨o, r⟩)
  | ⟨.startPacket header, _⟩ => some (.inr (.start header))
  | ⟨.addPayload payload, _⟩ => some (.inr (.payload payload))
  | ⟨.loadDropFrame, true⟩ => some (.inr .finish)
  | ⟨.writeFrame _, _⟩ => some (.inr .finish)
  | _ => none

variable {u} {es : List UnixEv}

theorem sees_stdioCallback {c : SinkCall} {r : Unit} (h : (stdioCallback c).Path es r) :
    es.filterMap unixSees = [.inr c.sinkOp] := by
  cases c with
  | startCb header =>
    obtain ⟨stream, e₁, _, rfl, h₁, h⟩ := (Prog.path_bind _ _ _ _).mp h
    obtain ⟨_, e₂, e₃, rfl, h₂, h₃⟩ := (Prog.path_bind _ _ _ _).mp h
    rw [(Prog.path_op _ _ _).mp h₁, (Prog.path_op _ _ _).mp h₂, (Prog.path_op _ _ _).mp h₃]
    rfl
  | payloadCb c =>
    rw [(Prog.path_op _ _ _).mp h]
    rfl
  | endCb =>
    obtain ⟨dropFrame, e₁, _, rfl, h₁, h⟩ := (Prog.path_bind _ _ _ _).mp h
    obtain ⟨_, e₂, _, rfl, h₂, h⟩ := (Prog.path_bind _ _ _ _).mp h
    obtain ⟨stream, e₃, e₄, rfl, h₃, h₄⟩ := (Prog.path_bind _ _ _ _).mp h
    rw [(Prog.path_op _ _ _).mp h₁, (Prog.path_op _ _ _).mp h₃, (Prog.path_op _ _ _).mp h₄]
    cases dropFrame with
    | true =>
      obtain ⟨rfl, -⟩ := (Prog.path_pure _ _ _).mp h₂
      rfl
    | false =>
      obtain ⟨f, e₅, e₆, rfl, h₅, h₆⟩ := (Prog.path_bind _ _ _ _).mp h₂
      rw [(Prog.path_op _ _ _).mp h₅, (Prog.path_op _ _ _).mp h₆]
      rfl

/-- Of an operation of the core the program shows what the core does. -/
theorem sees_perform {o : Op} {r : o.Ret} (h : (perform u o).Path es r) :
    es.filterMap unixSees = (coreSees u ⟨o, r⟩).toList := by
  have hone : ∀ (o : Op) (r : o.Ret), (Prog.op (UnixOp.core o) : UnixProg o.Ret).Path es r →
      es.filterMap unixSees = [.inl ⟨o, r⟩] := by
    intro o r h
    rw [(Prog.path_op (UnixOp.core o) es r).mp h]
    rfl
  cases o
  case call e c =>
    by_cases he : e = u.entry
    · have hcall : perform u (.call e c) = stdioCallback c := if_pos he
      rw [hcall] at h
      rw [sees_stdioCallback h]
      simp [coreSees, sinkSees, he]
    · have hcall : perform u (.call e c) = Prog.op (UnixOp.core (.call e c)) := if_neg he
      rw [hcall] at h
      rw [hone _ r h]
      simp [coreSees, sinkSees, he]
  all_goals exact hone _ r h

/-! ### Scripts -/

/-- The error code among the results of a call. -/
def Res.code : Res → Err
  | .err e => e
  | _ => .ok

abbrev UnixScript := Script Call Res UnixOp.Ret

variable (u)

/-- `stdioInitLocked`, where `on9log_add_sink` is a call. -/
def initLockedScript (stream : Ptr) : UnixScript Err := do
  let current ← Script.own loadStream
  if current ≠ 0 then do
    let current ← Script.own loadStream
    pure (if current = stream then .ok else .invalidArg)
  else do
    Script.own (storeStream stream)
    let v ← Script.call (.addSink u.entry.sink u.callbacks u.entry.ctx)
    Script.own (stdioAdded u stream v.code)
    pure v.code

def initFileScript (stream : Ptr) : UnixScript Err :=
  if stream = 0 then pure .invalidArg
  else if on9logInit ≠ .ok then pure on9logInit
  else do
    Script.own initLock
    let err ← initLockedScript u stream
    Script.own initUnlock
    pure err

def unixScript : UnixCall u → UnixScript Res
  | .core call _ => Script.call call
  | .stdioInitFile stream => do
    let err ← initFileScript u stream
    pure (.err err)
  | .stdioInit => do
    let err ← initFileScript u u.stdout
    pure (.err err)

/-! ### The layer -/

section Equations

variable {u} {Tid : Type}

theorem expand_addSink (f : Err → UnixProg Err) :
    (((body u.cfg (.addSink u.entry.sink u.callbacks u.entry.ctx)).expand (perform u)) >>=
        fun v => f v.code) =
      (addSink u.cfg u.entry.sink u.callbacks u.entry.ctx).expand (perform u) >>= f := by
  rw [body, Prog.expand_bind, LawfulMonad.bind_assoc]
  rfl

theorem expand_initFileScript (stream : Ptr) :
    (initFileScript u stream).expand (performScript (system Tid u.cfg) (perform u)) =
      stdioInitFile u stream := by
  have hlocked : (initLockedScript u stream).expand
      (performScript (system Tid u.cfg) (perform u)) = stdioInitLocked u stream := by
    unfold initLockedScript stdioInitLocked
    rw [Prog.expand_bind, Script.expand_own]
    refine congrArg (loadStream >>= ·) (funext fun current => ?_)
    split
    · rw [Prog.expand_bind, Script.expand_own]
      rfl
    · simp only [Prog.expand_bind, Script.expand_own, Script.expand_call]
      refine congrArg (storeStream stream >>= ·) (funext fun _ => ?_)
      exact expand_addSink fun err => stdioAdded u stream err >>= fun _ => pure err
  unfold initFileScript stdioInitFile
  split
  · rfl
  · split
    · rfl
    · simp only [Prog.expand_bind, Script.expand_own, hlocked]
      rfl

theorem unixBody_eq (c : UnixCall u) :
    unixBody u c = (unixScript u c).expand (performScript (system Tid u.cfg) (perform u)) := by
  cases c with
  | core call foreign =>
    exact (Script.expand_call (S := system Tid u.cfg) call).symm
  | stdioInitFile stream =>
    simp only [unixScript, Prog.expand_bind, expand_initFileScript]
    rfl
  | stdioInit =>
    simp only [unixScript, Prog.expand_bind, expand_initFileScript]
    rfl

theorem hidden_unixScript (c : UnixCall u) : (unixScript u c).Hidden unixSees := by
  have hop : ∀ o : UnixOp, (∀ r : o.Ret, unixSees ⟨o, r⟩ = none) →
      (Script.own (Prog.op o) : UnixScript o.Ret).Hidden unixSees := by
    intro o ho
    refine Script.hidden_own fun es v h e he => ?_
    rw [(Prog.path_op o es v).mp h] at he
    rw [List.mem_singleton.mp he]
    exact ho v
  have hadded : ∀ stream err, (Script.own (stdioAdded u stream err) : UnixScript Unit).Hidden
      unixSees := by
    intro stream err
    refine Script.hidden_own fun es v h e he => ?_
    rcases (Prog.path_ite _ _ _ _ _).mp h with ⟨-, h⟩ | ⟨-, h⟩
    · rw [(Prog.path_op _ _ _).mp h] at he
      rw [List.mem_singleton.mp he]
      rfl
    · obtain ⟨_, e₁, _, rfl, h₁, h⟩ := (Prog.path_bind _ _ _ _).mp h
      obtain ⟨_, e₂, e₃, rfl, h₂, h₃⟩ := (Prog.path_bind _ _ _ _).mp h
      rw [(Prog.path_op _ _ _).mp h₁, (Prog.path_op _ _ _).mp h₂,
        (Prog.path_op _ _ _).mp h₃] at he
      simp only [List.singleton_append, List.mem_cons, List.not_mem_nil, or_false] at he
      rcases he with rfl | rfl | rfl <;> rfl
  have hlocked : ∀ stream, (initLockedScript u stream).Hidden unixSees := by
    intro stream
    refine (hop .loadStream fun _ => rfl).bind fun current => ?_
    split
    · exact (hop .loadStream fun _ => rfl).bind fun _ => Script.hidden_pure _
    · refine (hop (.storeStream stream) fun _ => rfl).bind fun _ => ?_
      refine (Script.hidden_call _).bind fun v => ?_
      exact (hadded stream v.code).bind fun _ => Script.hidden_pure _
  have hfile : ∀ stream, (initFileScript u stream).Hidden unixSees := by
    intro stream
    unfold initFileScript
    split
    · exact Script.hidden_pure _
    · split
      · exact Script.hidden_pure _
      · refine (hop .initLock fun _ => rfl).bind fun _ => (hlocked stream).bind fun err => ?_
        exact (hop .initUnlock fun _ => rfl).bind fun _ => Script.hidden_pure _
  cases c with
  | core call foreign => exact Script.hidden_call call
  | stdioInitFile stream => exact (hfile stream).bind fun _ => Script.hidden_pure _
  | stdioInit => exact (hfile u.stdout).bind fun _ => Script.hidden_pure _

end Equations

variable (Tid : Type) [DecidableEq Tid]

def unixLayer : Layer (system Tid u.cfg) (unixSystem u Tid) (Ev ⊕ SinkOp) where
  script := unixScript u
  impl := perform u
  ob := coreSees u
  ob' := unixSees
  state := UnixShared.core
  body := unixBody_eq
  init := rfl
  starts o := by
    cases o
    case call e c =>
      by_cases he : e = u.entry
      · have hcall : perform u (.call e c) = stdioCallback c := if_pos he
        rw [hcall]
        cases c <;> exact ⟨_, _, rfl⟩
      · have hcall : perform u (.call e c) = Prog.op (UnixOp.core (.call e c)) := if_neg he
        rw [hcall]
        exact ⟨_, _, rfl⟩
    all_goals exact ⟨_, _, rfl⟩
  own := hidden_unixScript
  hidden t o r s s' hs hob := by
    cases o
    case core => cases hob
    case initLock => rw [hs.2]
    case loadStream => rw [hs.2]
    case flockfile => rw [hs.2]
    case loadDropFrame => rw [hs.2]
    all_goals
      obtain rfl := hs
      rfl
  impl_observed o es r h := sees_perform h
  ob_inj o r₁ r₂ b := sinkSees_inj
  effect t o' r' s s' o r b hs hob' hob := by
    -- a callback changes nothing in the core
    have hsink : ∀ c, b = .inr c → s'.core = s.core → step u.cfg t o r s.core s'.core := by
      rintro c rfl hcore
      rw [hcore]
      exact step_of_sinkSees hob t s.core
    cases o'
    case core o₁ =>
      obtain ⟨core, hstep, rfl⟩ := hs
      obtain rfl := Option.some.inj hob'
      cases eq_of_sinkSees hob
      exact hstep
    case startPacket header =>
      obtain rfl := Option.some.inj hob'
      exact hsink _ rfl (by rw [show s' = _ from hs])
    case addPayload payload =>
      obtain rfl := Option.some.inj hob'
      exact hsink _ rfl (by rw [show s' = _ from hs])
    case loadDropFrame =>
      cases r' with
      | false => cases hob'
      | true =>
        obtain rfl := Option.some.inj hob'
        exact hsink _ rfl (by rw [hs.2])
    case writeFrame stream =>
      obtain rfl := Option.some.inj hob'
      exact hsink _ rfl (by rw [show s' = _ from hs]; rfl)
    all_goals cases hob'
  stutter t o r s hob := absurd hob (sinkSees_ne_none _)

variable {u Tid} {c' : Lib.Config Tid (UnixCall u) UnixOp UnixOp.Ret Res (UnixShared Tid)}
  {tr' : UnixTrace Tid u}

/-- Every run of the program is a run of the core: with the same shared state, with the same
operations of the core and the same callbacks at the sink in the same order, made by the same
threads, and with every call of the core that has returned returning the same. -/
theorem unix_refines (h : (unixSystem u Tid).Run c' tr') :
    ∃ c tr, (system Tid u.cfg).Run c tr ∧ c.state = c'.state.core ∧
      observed (coreSees u) tr = observed unixSees tr' ∧
      (∀ t, c'.thread t = none → c.thread t = none) ∧
      ∀ t call foreign v, .ret t (.core call foreign) v ∈ tr' → .ret t call v ∈ tr := by
  obtain ⟨c, tr, hm⟩ := (unixLayer u Tid).refines h
  refine ⟨c, tr, hm.run, hm.state, hm.observed, hm.idle, fun t call foreign v hret => ?_⟩
  obtain ⟨hist, hpath, hreturned⟩ := hm.returned t _ v hret
  have hhist := (Prog.path_op (Sum.inr call : UnixOp ⊕ Call) hist v).mp hpath
  exact hreturned call v (hhist ▸ List.mem_singleton_self _)

/-- The thread that logs is back from its call. -/
def returnsLog : Label ℕ (UnixCall smallUnix) UnixOp UnixOp.Ret Res → Bool
  | .ret 1 (.core (.write 3 0 2000 (some []) []) _) _ => true
  | _ => false

/-- A thread that logs behind the initialisation. -/
theorem unix_refines_in_order : ∃ c tr, (system ℕ smallConfig).Run c tr ∧
    ∃ v, .ret 1 (.write 3 0 2000 (some []) []) v ∈ tr := by
  obtain ⟨q, hq, hret⟩ : ∃ q, System.schedule (unixSystem smallUnix ℕ)
      (unixReply smallUnix quietWorld) inOrder = some q ∧ ∃ v, .ret 1 smallLog v ∈ q.2 := by
    have h : (System.schedule (unixSystem smallUnix ℕ) (unixReply smallUnix quietWorld)
        inOrder).map (fun p => p.2.any returnsLog) = some true := by decide +kernel
    obtain ⟨q, hq, hany⟩ := Option.map_eq_some_iff.mp h
    obtain ⟨l, hl, hmatch⟩ := List.any_eq_true.mp hany
    refine ⟨q, hq, ?_⟩
    unfold returnsLog at hmatch
    split at hmatch
    · exact ⟨_, hl⟩
    · cases hmatch
  obtain ⟨v, hv⟩ := hret
  obtain ⟨c, tr, hrun, -, -, -, hreturned⟩ := unix_refines (System.run_schedule unixStep_of_reply hq)
  exact ⟨c, tr, hrun, v, hreturned _ _ _ v hv⟩

end On9log
