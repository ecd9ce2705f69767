import On9log.ConsoleMutex
import On9log.UnixRefines

/-!
# The console runs the core (on9log_esp_vfs.c:80-206)

The program with the VFS sink is a layer on the core: the callbacks are observed
where they change the buffer of the sink or take the packet out of it. What is sent
after that, and everything else the transport does, the core does not see.
-/

namespace On9log
open Lib

namespace EspConsole

variable (b : ConsoleBuild)

/-! ### What is observed -/

def consoleSees : ConsoleEv → Option (Ev ⊕ SinkOp)
  | ⟨.core o, r⟩ => some (.inl ⟨o, r⟩)
  | ⟨.startPacket header, _⟩ => some (.inr (.start header))
  | ⟨.addPayload payload, _⟩ => some (.inr (.payload (some payload)))
  | ⟨.takePacket, _⟩ => some (.inr .finish)
  | _ => none

theorem sees_transport {types : UInt8 → Prop} {es : List ConsoleEv}
    (h : ∀ e ∈ es, Sends types e.op) : es.filterMap consoleSees = [] := by
  refine List.filterMap_eq_nil_iff.mpr fun e he => ?_
  have hsends := h e he
  obtain ⟨o, r⟩ := e
  cases o <;> first | rfl | cases hsends

variable {b} {es : List ConsoleEv}

theorem sees_sinkCallback {c : SinkCall} {r : Unit} (h : (sinkCallback c).Path es r) :
    es.filterMap consoleSees = [.inr c.sinkOp] := by
  cases c with
  | startCb header =>
    rw [(Prog.path_op _ _ _).mp h]
    rfl
  | payloadCb c =>
    rw [(Prog.path_op _ _ _).mp h]
    rfl
  | endCb =>
    obtain ⟨packet, e₁, e₂, rfl, h₁, h₂⟩ := (Prog.path_bind _ _ _ _).mp h
    rw [(Prog.path_op _ _ _).mp h₁]
    cases packet with
    | none =>
      obtain ⟨rfl, -⟩ := (Prog.path_pure _ _ _).mp h₂
      rfl
    | some data =>
      obtain ⟨_, e₃, e₄, rfl, h₃, h₄⟩ := (Prog.path_bind _ _ _ _).mp h₂
      obtain ⟨rfl, -⟩ := (Prog.path_pure _ _ _).mp h₄
      have hnone := sees_transport (only_writeFrame (fun _ => True) trivial _ _ _ h₃)
      rw [List.append_nil, List.filterMap_append, hnone, List.append_nil]
      rfl

/-- Of an operation of the core the program shows what the core does. -/
theorem sees_perform {o : Op} {r : o.Ret} (h : (perform b o).Path es r) :
    es.filterMap consoleSees = (sinkSees b.entry ⟨o, r⟩).toList := by
  have hone : ∀ (o : Op) (r : o.Ret), (Prog.op (ConsoleOp.core o) : ConsoleProg o.Ret).Path es r →
      es.filterMap consoleSees = [.inl ⟨o, r⟩] := by
    intro o r h
    rw [(Prog.path_op (ConsoleOp.core o) es r).mp h]
    rfl
  cases o
  case call e c =>
    by_cases he : e = b.entry
    · have hcall : perform b (.call e c) = sinkCallback c := if_pos he
      rw [hcall] at h
      rw [sees_sinkCallback h]
      simp [sinkSees, he]
    · have hcall : perform b (.call e c) = Prog.op (ConsoleOp.core (.call e c)) := if_neg he
      rw [hcall] at h
      rw [hone _ r h]
      simp [sinkSees, he]
  all_goals exact hone _ r h

/-! ### Scripts -/

theorem hidden_sends {α : Type} {types : UInt8 → Prop} {p : ConsoleProg α}
    (h : p.Only (Sends types)) : (Script.own p : ConsoleScript α).Hidden consoleSees :=
  Script.hidden_own fun es v hp e he =>
    List.filterMap_eq_nil_iff.mp (sees_transport (h es v hp)) e he

theorem hidden_stdioInit (paths : List (List UInt8)) :
    (Script.own (stdioInit paths) : ConsoleScript EspErr).Hidden consoleSees := by
  -- on events that are not observed, `stdioInit` keeps to the protocol that allows nothing else
  have hkeeps : (stdioInit paths).Keeps (fun (_ : Unit) e _ => consoleSees e = none) () := by
    refine keeps_stdioInit (fun o ho r => ?_) (fun path => ?_) paths
    · cases o <;> first | rfl | cases ho
    · refine (only_addOutput (fun _ => True) path).keeps fun o ho r => ?_
      cases o <;> first | rfl | cases ho
  have hall : ∀ es : List ConsoleEv, Steps (fun (_ : Unit) e _ => consoleSees e = none) () es () →
      ∀ e ∈ es, consoleSees e = none := by
    intro es
    induction es with
    | nil => exact fun _ e he => absurd he List.not_mem_nil
    | cons e es ih =>
      rintro ⟨_, he, hrest⟩ e' he'
      rcases List.mem_cons.mp he' with rfl | he'
      · exact he
      · exact ih hrest e' he'
  exact Script.hidden_own fun es v hp => hall es (hkeeps es v hp)

theorem hidden_script (c : ConsoleCall b) : (script b c).Hidden consoleSees := by
  have hflag : ∀ o : ConsoleOp, (∀ r : o.Ret, consoleSees ⟨o, r⟩ = none) →
      (Script.own (Prog.op o) : ConsoleScript o.Ret).Hidden consoleSees := by
    intro o ho
    refine Script.hidden_own fun es v h e he => ?_
    rw [(Prog.path_op o es v).mp h] at he
    rw [List.mem_singleton.mp he]
    exact ho v
  cases c with
  | core call foreign => exact (Script.hidden_call call).bind fun _ => Script.hidden_pure _
  | vfsInit =>
    refine Script.Hidden.bind ?_ fun _ => Script.hidden_pure _
    refine (hflag .loadSinkInstalled fun _ => rfl).bind fun installed => ?_
    cases installed with
    | true => exact Script.hidden_pure _
    | false =>
      refine (hidden_stdioInit b.paths).bind fun err => ?_
      by_cases herr : err ≠ .ok
      · rw [if_pos herr]
        exact Script.hidden_pure _
      · rw [if_neg herr]
        refine (Script.hidden_call _).bind fun v => ?_
        by_cases hv : v.code ≠ .ok
        · rw [if_pos hv]
          exact Script.hidden_pure _
        · rw [if_neg hv]
          exact (hflag .storeSinkInstalled fun _ => rfl).bind fun _ => Script.hidden_pure _
  | stdioInit => exact (hidden_stdioInit b.paths).bind fun _ => Script.hidden_pure _
  | addOutput path =>
    exact (hidden_sends (only_addOutput (fun _ => True) path)).bind fun _ => Script.hidden_pure _
  | writeFrame type other payload =>
    exact (hidden_sends (only_writeFrame (fun _ => True) trivial payload)).bind
      fun _ => Script.hidden_pure _
  | write data =>
    exact (hidden_sends (only_write (fun _ => True) trivial data)).bind
      fun _ => Script.hidden_pure _
  | fsync => exact (hidden_sends (only_fsync fun _ => True)).bind fun _ => Script.hidden_pure _

/-! ### The layer -/

variable (b) (Tid : Type)

def consoleLayer : Layer (system Tid b.cfg) (consoleSystem Tid b) (Ev ⊕ SinkOp) where
  script := script b
  impl := perform b
  ob := sinkSees b.entry
  ob' := consoleSees
  state := ConsoleShared.core
  body _ := rfl
  init := rfl
  starts o := by
    cases o
    case call e c =>
      by_cases he : e = b.entry
      · have hcall : perform b (.call e c) = sinkCallback c := if_pos he
        rw [hcall]
        cases c <;> exact ⟨_, _, rfl⟩
      · have hcall : perform b (.call e c) = Prog.op (ConsoleOp.core (.call e c)) := if_neg he
        rw [hcall]
        exact ⟨_, _, rfl⟩
    all_goals exact ⟨_, _, rfl⟩
  own := hidden_script
  hidden t o r s s' hs hob := by
    cases o
    case core => cases hob
    case takePacket => cases hob
    case ownerIsSelf => rw [hs.2]
    case transportLock => rw [hs.2]
    case outputCount => rw [hs.2]
    case loadOutput => rw [hs.2]
    case write => rw [hs.2]
    case loadInstalled => rw [hs.2]
    case loadSinkInstalled => rw [hs.2]
    all_goals
      obtain rfl := hs
      rfl
  impl_observed o es r h := sees_perform h
  ob_inj o r₁ r₂ b := sinkSees_inj
  effect t o' r' s s' o r ob hs hob' hob := by
    -- a callback changes nothing in the core
    have hsink : ∀ c, ob = .inr c → s'.core = s.core → step b.cfg t o r s.core s'.core := by
      rintro c rfl hcore
      rw [hcore]
      exact step_of_sinkSees hob t s.core
    cases o'
    case core o₁ =>
      obtain ⟨core, hstep, rfl⟩ := hs
      obtain rfl := Option.some.inj hob'
      cases eq_of_sinkSees hob
      exact hstep
    case startPacket header =>
      obtain rfl := Option.some.inj hob'
      exact hsink _ rfl (by rw [show s' = _ from hs])
    case addPayload payload =>
      obtain rfl := Option.some.inj hob'
      exact hsink _ rfl (by rw [show s' = _ from hs])
    case takePacket =>
      obtain rfl := Option.some.inj hob'
      exact hsink _ rfl (by rw [hs.2])
    all_goals cases hob'
  stutter t o r s hob := absurd hob (sinkSees_ne_none _)

end EspConsole

end On9log
