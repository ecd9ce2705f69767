import On9log.ConsoleFrames
import On9log.ConsoleRefines
import On9log.Lib.LockExpand
import On9log.Progress
import On9log.UnixStream

/-!
# What a reader of the console finds (on9log_esp_vfs.c:63-157, esp_stdio_log_vfs.c:409-446)

A packet leaves the sink under the emit lock of the core and begins its frame under
the mutex of the transport before the emit lock is given back. So the frames of the
core's type are its packets in their order, whatever frames others send between.
-/

namespace On9log
open Lib

/-! ### The buffer of the sink -/

namespace EspVfsState

/-- What `on9log_esp_vfs_end` finds each time. -/
def found (e : EspVfsState) : List SinkOp → List (List UInt8)
  | [] => []
  | .finish :: ops => e.packet.toList ++ found e ops
  | op :: ops => found (e.perform op) ops

variable {e : EspVfsState} {ops : List SinkOp}

theorem found_cons (op : SinkOp) (ops : List SinkOp) :
    e.found (op :: ops) = e.found [op] ++ (e.perform op).found ops := by
  cases op with
  | start header => rfl
  | payload payload => rfl
  | finish =>
    show e.packet.toList ++ e.found ops = (e.packet.toList ++ []) ++ e.found ops
    rw [List.append_nil]

theorem found_append (ops₁ ops₂ : List SinkOp) :
    e.found (ops₁ ++ ops₂) = e.found ops₁ ++ (ops₁.foldl perform e).found ops₂ := by
  induction ops₁ generalizing e with
  | nil => rfl
  | cons op ops₁ ih =>
    rw [List.cons_append, found_cons, ih, found_cons op ops₁, List.append_assoc]
    rfl

theorem found_none (h : .finish ∉ ops) : e.found ops = [] := by
  induction ops generalizing e with
  | nil => rfl
  | cons op ops ih =>
    have hrest := fun e => ih (e := e) fun hmem => h (List.mem_cons_of_mem _ hmem)
    cases op with
    | start header => exact hrest _
    | payload payload => exact hrest _
    | finish => exact absurd (List.mem_cons_self ..) h

theorem Collected.packet {content : List UInt8} (h : e.Collected content) :
    e.packet = fits (some content) := by
  unfold Collected at h
  unfold EspVfsState.packet
  by_cases hlen : content.length ≤ transportMaxPayload
  · rw [if_pos hlen] at h
    rw [fits_of_le hlen, h.1, h.2]
    rfl
  · rw [if_neg hlen] at h
    rw [fits_of_not_le hlen, h]
    rfl

theorem found_packet (pkt : Packet) :
    e.found (pkt.calls.map SinkCall.sinkOp) = pkt.framed.toList := by
  have hchunks : ∀ (cs : List Chunk) (e : EspVfsState),
      (cs.map fun c => SinkOp.payload (some c.bytes)).foldl perform e =
        (cs.map Chunk.bytes).foldl EspVfsState.append e := by
    intro cs
    induction cs with
    | nil => exact fun _ => rfl
    | cons c cs ih => exact fun e => ih _
  have hcol := collected_packet (e := e) pkt.header (pkt.chunks.map Chunk.bytes)
  have hpay : (pkt.chunks.map Chunk.bytes).flatten = pkt.payload := List.flatMap_def.symm
  rw [hpay] at hcol
  have hops : pkt.calls.map SinkCall.sinkOp =
      .start (some pkt.header) :: pkt.chunks.map (fun c => SinkOp.payload (some c.bytes)) ++
        [.finish] := by
    simp only [Packet.calls, List.map_cons, List.map_append, List.map_map, List.map_nil]
    rfl
  rw [hops, found_append, found_none (by simp), List.foldl_cons, hchunks]
  have hlast := hcol.packet
  show [] ++ (_ ++ []) = _
  rw [List.nil_append, List.append_nil]
  exact congrArg Option.toList hlast

theorem found_packets (pkts : List Packet) :
    e.found ((pkts.flatMap Packet.calls).map SinkCall.sinkOp) = pkts.filterMap Packet.framed := by
  induction pkts generalizing e with
  | nil => rfl
  | cons pkt pkts ih =>
    rw [List.flatMap_cons, List.map_append, found_append, found_packet, ih]
    cases hf : pkt.framed <;> simp [hf]

/-- The calls of a packet so far have it found, or not yet. -/
theorem found_part {pkt : Packet} {part : List SinkCall} (hpart : part <+: pkt.calls) :
    e.found (part.map SinkCall.sinkOp) = [] ∨
      e.found (part.map SinkCall.sinkOp) = pkt.framed.toList := by
  have hcalls : pkt.calls = (.startCb (some pkt.header) :: pkt.chunks.map .payloadCb) ++ [.endCb] :=
    rfl
  rcases List.prefix_concat_iff.mp (hcalls ▸ hpart) with hall | hbegun
  · right
    rw [hall, ← hcalls]
    exact found_packet pkt
  · left
    refine found_none fun hmem => ?_
    obtain ⟨c, hc, hop⟩ := List.mem_map.mp hmem
    have hmem := hbegun.subset hc
    cases c with
    | startCb header => cases hop
    | payloadCb c => cases hop
    | endCb => simp at hmem

end EspVfsState

namespace EspConsole

/-! ### The emit lock among the events of the console -/

variable {Tid : Type}

/-- What is taken out of the sink. -/
def packetTaken : ConsoleEv → Option (List UInt8)
  | ⟨.takePacket, r⟩ => r
  | _ => none

/-- The payload of a frame of the core's type. -/
def logPayload (f : SentFrame) : Option (List UInt8) := if f.1 = frameTypeOn9log then some f.2 else none

variable (Tid) in
def emitSpec : LockSpec Tid ConsoleOp (ConsoleShared Tid) where
  isLock | .core o => (emitLockSpec Tid).isLock o | _ => false
  isUnlock | .core o => (emitLockSpec Tid).isUnlock o | _ => false
  guarded
    | .core o => (emitLockSpec Tid).guarded o
    | .startPacket _ => true
    | .addPayload _ => true
    | .takePacket => true
    | .setOwner f => decide (f.1 = frameTypeOn9log)
    | _ => false
  owner s := s.core.emitOwner
  lock_ne_unlock o h := by
    cases o
    case core o => exact (emitLockSpec Tid).lock_ne_unlock o h
    all_goals cases h
  lock_unguarded o h := by
    cases o
    case core o => exact (emitLockSpec Tid).lock_unguarded o h
    all_goals cases h
  unlock_unguarded o h := by
    cases o
    case core o => exact (emitLockSpec Tid).unlock_unguarded o h
    all_goals cases h

theorem mutex_emit (b : ConsoleBuild) : (emitSpec Tid).Mutex (consoleSystem Tid b) where
  init := rfl
  lock t o r s s' h hl := by
    cases o
    case core o =>
      obtain ⟨core, hs, rfl⟩ := h
      exact (mutex_emitLock b.cfg).lock t o r s.core core hs hl
    all_goals cases hl
  unlock t o r s s' h hu := by
    cases o
    case core o =>
      obtain ⟨core, hs, rfl⟩ := h
      exact (mutex_emitLock b.cfg).unlock t o r s.core core hs hu
    all_goals cases hu
  other t o r s s' h hl hu := by
    cases o
    case core o =>
      obtain ⟨core, hs, rfl⟩ := h
      exact (mutex_emitLock b.cfg).other t o r s.core core hs hl hu
    case takePacket => rw [h.2]
    case ownerIsSelf => rw [h.2]
    case transportLock =>
      rw [h.2]
      rfl
    case outputCount => rw [h.2]
    case loadOutput => rw [h.2]
    case write =>
      rw [h.2]
      rfl
    case loadInstalled => rw [h.2]
    case loadSinkInstalled => rw [h.2]
    all_goals
      obtain rfl := h
      rfl

theorem through_perform (b : ConsoleBuild) :
    (emitLockSpec Tid).Through (emitSpec Tid) (perform b) where
  lock o es r hl h := by
    cases o
    case emitLock => exact ⟨_, (Prog.path_op _ _ _).mp h, rfl⟩
    all_goals cases hl
  unlock o es r hu h := by
    cases o
    case emitUnlock => exact ⟨_, (Prog.path_op _ _ _).mp h, rfl⟩
    all_goals cases hu
  inside o hl hu := by
    cases o
    case call e c =>
      refine Prog.Only.ite ?_ (Prog.only_op ⟨rfl, rfl⟩)
      cases c with
      | startCb header => exact Prog.only_op ⟨rfl, rfl⟩
      | payloadCb c => exact Prog.only_op ⟨rfl, rfl⟩
      | endCb =>
        refine (Prog.only_op ⟨rfl, rfl⟩).bind fun packet => ?_
        cases packet with
        | none => exact Prog.only_pure _
        | some data =>
          refine Prog.Only.bind ?_ fun _ => Prog.only_pure _
          refine (only_writeFrame (fun _ => True) trivial _).imp fun o ho => ?_
          cases o <;> first | exact ⟨rfl, rfl⟩ | cases ho
    all_goals exact Prog.only_op ⟨hl, hu⟩
  free o hl hu hg := by
    cases o
    case call => cases hg
    all_goals exact Prog.only_op hg

/-- The types the core leaves to others. -/
def OtherType (type : UInt8) : Prop := type ≠ frameTypeOn9log

theorem text_other : OtherType frameTypeText := by
  unfold OtherType
  decide

/-- A section of the emit lock: what performs a section of the core. -/
abbrev EmitSection (b : ConsoleBuild) : List ConsoleEv → Prop :=
  LockSpec.SecOf (perform b) fun es => ∃ v, CoreSection b.cfg v es

theorem body_keepsEmit {b : ConsoleBuild} (c : ConsoleCall b) :
    ((consoleSystem Tid b).body c).Keeps ((emitSpec Tid).Discipline (EmitSection b)) none := by
  have hfree : ∀ types : UInt8 → Prop, ¬types frameTypeOn9log → ∀ o, Sends types o → ∀ r,
      (emitSpec Tid).Discipline (EmitSection b) none ⟨o, r⟩ none := by
    intro types htypes o ho r
    refine Or.inr ?_
    cases o
    case setOwner f =>
      refine ⟨rfl, rfl, decide_eq_false fun hlog => htypes ?_, rfl⟩
      rw [← hlog]
      exact ho
    all_goals first | exact ⟨rfl, rfl, rfl, rfl⟩ | cases ho
  have hquiet := hfree OtherType fun hc => hc rfl
  refine keeps_body Tid (fun call es v h => ?_) (fun o ho r => Or.inr ?_)
    (fun type payload other => (only_writeFrame OtherType other payload).keeps hquiet)
    (fun data => (only_write OtherType text_other data).keeps hquiet)
    (fun path => (only_addOutput OtherType path).keeps hquiet)
    ((only_fsync OtherType).keeps hquiet) c
  · obtain ⟨es₀, hp, hex⟩ := Prog.path_expand h
    exact (LockSpec.steps_through (through_perform b) hex).1 (body_disciplined call es₀ v hp)
  · cases o <;> first | exact ⟨rfl, rfl, rfl, rfl⟩ | cases ho

/-! ### The guard lets every packet through -/

section Guard

variable [DecidableEq Tid] {b : ConsoleBuild}
  {c : Lib.Config Tid (ConsoleCall b) ConsoleOp ConsoleOp.Ret ConsoleRes (ConsoleShared Tid)}
  {tr : ConsoleTrace Tid b} {es : List ConsoleEv}

def ownStep (owned : Bool) (e : ConsoleEv) : Bool :=
  match e.op with
  | .setOwner _ => true
  | .clearOwner => false
  | _ => owned

theorem ownStep_of_plain (h : ∀ e ∈ es, Plain e.op) (owned : Bool) :
    es.foldl ownStep owned = owned := by
  induction es with
  | nil => rfl
  | cons e es ih =>
    have hstep : ownStep owned e = owned := by
      have hplain := h e (List.mem_cons_self ..)
      obtain ⟨o, r⟩ := e
      cases o <;> first | rfl | cases hplain
    rw [List.foldl_cons, hstep]
    exact ih fun e he => h e (List.mem_cons_of_mem _ he)

/-- Behind a section nobody is the owner. -/
theorem Section.disowned (h : Section es) : es.foldl ownStep false = false := by
  cases h with
  | frame f ok hp =>
    obtain ⟨sent, rfl, hplain⟩ := sendFrame_events hp
    rw [List.foldl_cons, List.foldl_append]
    rfl
  | addOutput path err hp =>
    have hother := only_addOutputLocked (q := fun o => ∀ owned r, ownStep owned ⟨o, r⟩ = owned)
      (fun _ _ _ => rfl) (fun o ho owned r => by cases o <;> first | rfl | cases ho) path _ _ hp
    clear hp
    induction es with
    | nil => rfl
    | cons e es ih =>
      rw [List.foldl_cons, hother e (List.mem_cons_self ..) false e.ret]
      exact ih fun e he => hother e (List.mem_cons_of_mem _ he)
  | fsync result hp => exact ownStep_of_plain (fun e he => (only_fsyncLocked _ _ hp e he).1) false

/-- The owner is who holds the mutex, from the beginning of a frame to its end. -/
structure Guarded (c : Lib.Config Tid (ConsoleCall b) ConsoleOp ConsoleOp.Ret ConsoleRes
    (ConsoleShared Tid)) (tr : ConsoleTrace Tid b) : Prop where
  owner : c.state.owner =
    if ((transportSpec Tid).openSection tr).foldl ownStep false then (transportSpec Tid).holder tr
    else none
  passes : (⟨.ownerIsSelf, true⟩ : ConsoleEv) ∉ actEvents tr

def ownerAfter (t : Tid) (owner : Option Tid) : ConsoleOp → Option Tid
  | .setOwner _ => some t
  | .clearOwner => none
  | _ => owner

omit [DecidableEq Tid] in
theorem owner_of_step {t : Tid} {o : ConsoleOp} {r : o.Ret} {s s' : ConsoleShared Tid}
    (h : (consoleSystem Tid b).step t o r s s') : s'.owner = ownerAfter t s.owner o := by
  cases o
  case core =>
    obtain ⟨core, -, rfl⟩ := h
    rfl
  case takePacket => rw [h.2]; rfl
  case ownerIsSelf => rw [h.2]; rfl
  case transportLock => rw [h.2]; rfl
  case outputCount => rw [h.2]; rfl
  case loadOutput => rw [h.2]; rfl
  case write => rw [h.2]; rfl
  case loadInstalled => rw [h.2]; rfl
  case loadSinkInstalled => rw [h.2]; rfl
  all_goals
    obtain rfl := h
    rfl

theorem guarded_run (h : (consoleSystem Tid b).Run c tr) : Guarded c tr := by
  have snoc : ∀ (tr : ConsoleTrace Tid b) (t : Tid) (e : ConsoleEv),
      (⟨.ownerIsSelf, true⟩ : ConsoleEv) ∉ actEvents tr → e ≠ ⟨.ownerIsSelf, true⟩ →
      (⟨.ownerIsSelf, true⟩ : ConsoleEv) ∉ actEvents (.act t e :: tr : ConsoleTrace Tid b) := by
    intro tr t e htr he hmem
    rcases List.mem_append.mp hmem with hmem | hmem
    · exact htr hmem
    · exact he (List.mem_singleton.mp hmem).symm
  refine (transportSpec Tid).run_induction (mutex_transport b) body_keepsMutex
    (I := fun c tr => Guarded c tr) ?_ ?_ ?_ ?_ ?_ ?_ h
  · intro c hrun
    cases hrun
    exact ⟨rfl, List.not_mem_nil⟩
  · intro c c' tr l _ _ hl hs ih
    cases l with
    | act t e => exact absurd rfl (hl t e)
    | invoke t call => exact ⟨hs ▸ ih.owner, ih.passes⟩
    | ret t call v => exact ⟨hs ▸ ih.owner, ih.passes⟩
  · intro c c' tr t e _ hs hl hu hh ih
    have hsame : c'.state.owner = c.state.owner := by
      rw [owner_of_step hs]
      generalize e.op = o at hl
      cases o <;> first | rfl | cases hl
    refine ⟨?_, snoc tr t e ih.passes ?_⟩
    · rw [hsame, ih.owner, hh, ite_self]
      simp [LockSpec.openSection, hl]
    · rintro rfl
      cases hl
  · intro c c' tr t e _ hs hl hu _ hsec ih
    have hsame : c'.state.owner = c.state.owner := by
      rw [owner_of_step hs]
      generalize e.op = o at hu
      cases o <;> first | rfl | cases hu
    refine ⟨?_, snoc tr t e ih.passes ?_⟩
    · rw [hsame, ih.owner, hsec.disowned]
      simp [LockSpec.openSection, hl, hu]
    · rintro rfl
      cases hu
  · intro c c' tr t e hrun hs hl hu hh ih
    have hholder : (transportSpec Tid).holder (.act t e :: tr) = some t := by
      simp [LockSpec.holder, hl, hu, hh]
    have hopen : (transportSpec Tid).openSection (.act t e :: tr) =
        (transportSpec Tid).openSection tr ++ [e] := by
      simp [LockSpec.openSection, hl, hu, hh]
    have hinside : Inside e.op := by
      obtain ⟨b', m', hsec, -⟩ := (transportSpec Tid).openSection_completes (mutex_transport b)
        body_keepsMutex total_takesAll hrun hholder c.state.outputs
      refine hsec.inside e (List.mem_append_left _ ?_)
      rw [hopen]
      exact List.mem_append_right _ (List.mem_singleton_self e)
    refine ⟨?_, snoc tr t e ih.passes ?_⟩
    · rw [owner_of_step hs, hholder, hopen, List.foldl_append, ih.owner, hh]
      generalize ((transportSpec Tid).openSection tr).foldl ownStep false = owned
      obtain ⟨o, r⟩ := e
      cases o <;> rfl
    · rintro rfl
      cases hinside
  · intro c c' tr t e _ hs hl hu hh hg ih
    have hsame : c'.state.owner = c.state.owner := by
      rw [owner_of_step hs]
      generalize e.op = o at hg
      cases o <;> first | rfl | cases hg
    refine ⟨?_, snoc tr t e ih.passes ?_⟩
    · rw [hsame, ih.owner]
      simp [LockSpec.openSection, LockSpec.holder, hl, hu, hh]
    · -- the thread is not inside the transport, so it does not find itself there
      rintro rfl
      have howner := hs.1.mp rfl
      rw [ih.owner] at howner
      split at howner
      · exact hh howner
      · cases howner

end Guard

/-! ### Every packet begins its frame -/

section Packets

variable {b : ConsoleBuild} {es : List ConsoleEv} {g g' : Option (List UInt8)}

/-- `g` is what was taken out of the sink and has not begun its frame. -/
def packetStep (g : Option (List UInt8)) (e : ConsoleEv) (g' : Option (List UInt8)) : Prop :=
  match e with
  | ⟨.takePacket, r⟩ => g = none ∧ g' = r
  | ⟨.setOwner f, _⟩ => if f.1 = frameTypeOn9log then g = some f.2 ∧ g' = none else g' = g
  | _ => g' = g

/-- What the shared state answers: nobody finds itself inside, and a packet has room. -/
structure Passes (es : List ConsoleEv) : Prop where
  guard : (⟨.ownerIsSelf, true⟩ : ConsoleEv) ∉ es
  room : ∀ data, (⟨.takePacket, some data⟩ : ConsoleEv) ∈ es → data.length ≤ transportMaxPayload

theorem Passes.mono {es' : List ConsoleEv} (h : Passes es) (hsub : ∀ e ∈ es', e ∈ es) :
    Passes es' := ⟨fun hmem => h.guard (hsub _ hmem), fun data hmem => h.room data (hsub _ hmem)⟩

theorem packetStep_plain (h : ∀ e ∈ es, Plain e.op) (g : Option (List UInt8)) :
    Steps packetStep g es g := by
  induction es with
  | nil => rfl
  | cons e es ih =>
    refine ⟨g, ?_, ih fun e he => h e (List.mem_cons_of_mem _ he)⟩
    have hplain := h e (List.mem_cons_self ..)
    obtain ⟨o, r⟩ := e
    cases o <;> first | rfl | cases hplain

theorem steps_writeFrame {data : List UInt8} {v : EspErr}
    (h : (writeFrame frameTypeOn9log (some data)).Path es v) (hes : Passes es)
    (hroom : data.length ≤ transportMaxPayload) : Steps packetStep (some data) es none := by
  rcases (Prog.path_ite _ _ _ _ _).mp h with ⟨hlong, -⟩ | ⟨-, h⟩
  · omega
  obtain ⟨(inside : Bool), e₁, e₂, rfl, h₁, h₂⟩ := (Prog.path_bind _ _ _ _).mp h
  rw [(Prog.path_op _ _ _).mp h₁] at hes ⊢
  cases inside with
  | true => exact absurd (List.mem_cons_self ..) hes.guard
  | false =>
    obtain ⟨ok, e₃, e₄, rfl, h₃, h₄⟩ := (Prog.path_bind _ _ _ _).mp h₂
    obtain ⟨rfl, -⟩ := (Prog.path_pure _ _ _).mp h₄
    obtain ⟨_, e₅, _, rfl, h₅, h₃⟩ := (Prog.path_bind _ _ _ _).mp h₃
    obtain ⟨ok', e₆, _, rfl, h₆, h₃⟩ := (Prog.path_bind _ _ _ _).mp h₃
    obtain ⟨_, e₇, e₈, rfl, h₇, h₈⟩ := (Prog.path_bind _ _ _ _).mp h₃
    obtain ⟨rfl, -⟩ := (Prog.path_pure _ _ _).mp h₈
    obtain ⟨sent, rfl, hplain⟩ := sendFrame_events h₆
    rw [(Prog.path_op _ _ _).mp h₅, (Prog.path_op _ _ _).mp h₇]
    have hsent : Steps packetStep none (sent ++ [⟨.clearOwner, ()⟩]) none :=
      steps_append.mpr ⟨none, packetStep_plain hplain none, none, rfl, rfl⟩
    have hunlock : Steps packetStep none [⟨.transportUnlock, ()⟩] none := ⟨none, rfl, rfl⟩
    have hrest := steps_append.mpr ⟨none, hsent, hunlock⟩
    rw [List.append_nil, List.append_nil]
    exact ⟨some data, rfl, some data, rfl, none, ⟨rfl, rfl⟩, hrest⟩

theorem steps_perform {o : Op} {r : o.Ret} (h : (perform b o).Path es r) (hes : Passes es) :
    Steps packetStep none es none := by
  have hcore : ∀ (o : Op) (r : o.Ret), (Prog.op (ConsoleOp.core o) : ConsoleProg o.Ret).Path es r →
      Steps packetStep none es none := by
    intro o r h
    rw [(Prog.path_op (ConsoleOp.core o) es r).mp h]
    exact ⟨none, rfl, rfl⟩
  cases o
  case call e c =>
    rcases (Prog.path_ite _ _ _ _ _).mp h with ⟨-, h⟩ | ⟨-, h⟩
    · cases c with
      | startCb header =>
        rw [(Prog.path_op _ _ _).mp h]
        exact ⟨none, rfl, rfl⟩
      | payloadCb c =>
        rw [(Prog.path_op _ _ _).mp h]
        exact ⟨none, rfl, rfl⟩
      | endCb =>
        obtain ⟨packet, e₁, e₂, rfl, h₁, h₂⟩ := (Prog.path_bind _ _ _ _).mp h
        rw [(Prog.path_op _ _ _).mp h₁] at hes ⊢
        refine ⟨packet, ⟨rfl, rfl⟩, ?_⟩
        cases packet with
        | none =>
          obtain ⟨rfl, -⟩ := (Prog.path_pure _ _ _).mp h₂
          rfl
        | some data =>
          obtain ⟨v, e₃, e₄, rfl, h₃, h₄⟩ := (Prog.path_bind _ _ _ _).mp h₂
          obtain ⟨rfl, -⟩ := (Prog.path_pure _ _ _).mp h₄
          rw [List.append_nil] at hes ⊢
          exact steps_writeFrame h₃ (hes.mono fun e he => List.mem_cons_of_mem _ he)
            (hes.room data (List.mem_cons_self ..))
    · exact hcore _ r h
  all_goals exact hcore _ r h

theorem steps_section (h : EmitSection b es) (hes : Passes es) :
    Steps packetStep none es none := by
  obtain ⟨b₀, -, hex⟩ := h
  induction hex with
  | nil => rfl
  | cons e hb _ ih =>
    exact steps_append.mpr ⟨none, steps_perform hb (hes.mono fun e => List.mem_append_left _),
      ih (hes.mono fun e => List.mem_append_right _)⟩

theorem steps_sections {secs : List (List ConsoleEv)} (h : ∀ es ∈ secs, EmitSection b es)
    (hes : Passes secs.flatten) : Steps packetStep none secs.flatten none := by
  induction secs with
  | nil => rfl
  | cons es secs ih =>
    rw [List.flatten_cons] at hes ⊢
    exact steps_append.mpr
      ⟨none, steps_section (h es (List.mem_cons_self ..)) (hes.mono fun e => List.mem_append_left _),
        ih (fun es hmem => h es (List.mem_cons_of_mem _ hmem))
          (hes.mono fun e => List.mem_append_right _)⟩

/-- The payloads of the frames of the core's type. -/
def logFrames (es : List ConsoleEv) : List (List UInt8) := (framesOf es).filterMap logPayload

/-- What was taken has begun its frame, but for the last. -/
theorem taken_eq (h : Steps packetStep g es g') :
    g.toList ++ es.filterMap packetTaken = logFrames es ++ g'.toList := by
  induction es generalizing g with
  | nil =>
    rw [show g' = g from h]
    exact List.append_nil _
  | cons e es ih =>
    obtain ⟨g₁, he, hrest⟩ := h
    have hall := ih hrest
    have hskip : frameBegun e = none → packetTaken e = none → g₁ = g →
        g.toList ++ (e :: es).filterMap packetTaken = logFrames (e :: es) ++ g'.toList := by
      rintro hframe htaken rfl
      have hlog : logFrames (e :: es) = logFrames es := by
        unfold logFrames framesOf
        rw [List.filterMap_cons_none hframe]
      rw [List.filterMap_cons_none htaken, hlog]
      exact hall
    obtain ⟨o, r⟩ := e
    cases o
    case takePacket =>
      obtain ⟨rfl, rfl⟩ := he
      have hlog : logFrames (⟨.takePacket, g₁⟩ :: es) = logFrames es := rfl
      rw [hlog, ← hall]
      cases g₁ <;> rfl
    case setOwner f =>
      have hstep : if f.1 = frameTypeOn9log then g = some f.2 ∧ g₁ = none else g₁ = g := he
      by_cases hf : f.1 = frameTypeOn9log
      · rw [if_pos hf] at hstep
        obtain ⟨rfl, rfl⟩ := hstep
        have hlog : logFrames (⟨.setOwner f, r⟩ :: es) = f.2 :: logFrames es := by
          show (f :: framesOf es).filterMap logPayload = _
          rw [List.filterMap_cons_some (show logPayload f = some f.2 from if_pos hf)]
          rfl
        rw [hlog, List.cons_append, ← hall]
        rfl
      · rw [if_neg hf] at hstep
        have hlog : logFrames (⟨.setOwner f, r⟩ :: es) = logFrames es := by
          show (f :: framesOf es).filterMap logPayload = _
          rw [List.filterMap_cons_none (show logPayload f = none from if_neg hf)]
          rfl
        rw [hlog, ← hall, hstep]
        rfl
    all_goals exact hskip rfl rfl he

end Packets

/-! ### Runs -/

section Runs

variable [DecidableEq Tid] {b : ConsoleBuild}
  {c : Lib.Config Tid (ConsoleCall b) ConsoleOp ConsoleOp.Ret ConsoleRes (ConsoleShared Tid)}
  {tr : ConsoleTrace Tid b}

theorem passes_run (h : (consoleSystem Tid b).Run c tr) : Passes (actEvents tr) := by
  refine ⟨(guarded_run h).passes, fun data hmem => ?_⟩
  induction h with
  | init => exact absurd hmem List.not_mem_nil
  | invoke t call _ _ ih => exact ih hmem
  | ret t call v _ _ ih => exact ih hmem
  | @act c tr t call o k r s' hrun ht hs ih =>
    rcases List.mem_append.mp hmem with hmem | hmem
    · exact ih hmem
    · cases List.mem_singleton.mp hmem
      have hpacket : some data = c.state.sink.packet := hs.1
      have hle := c.state.sink.data_le
      unfold EspVfsState.packet at hpacket
      split at hpacket
      · cases hpacket
      · cases hpacket
        exact hle

/-- Someone who has begun a section of the core can end it with nothing in the way. -/
def passesAll (_ : Unit) (e : ConsoleEv) (_ : Unit) : Prop := Passes [e]

theorem total_passesAll : Total passesAll := by
  intro g o
  have hany : ∀ r : o.Ret, o ≠ .ownerIsSelf → o ≠ .takePacket → ∃ r g', passesAll g ⟨o, r⟩ g' := by
    intro r h₁ h₂
    refine ⟨r, g, fun hmem => h₁ ?_, fun data hmem => absurd ?_ h₂⟩
    · exact (congrArg Event.op (List.mem_singleton.mp hmem)).symm
    · exact (congrArg Event.op (List.mem_singleton.mp hmem)).symm
  cases o
  case ownerIsSelf =>
    refine ⟨false, g, fun hmem => ?_, fun data hmem => ?_⟩
    · cases List.mem_singleton.mp hmem
    · cases List.mem_singleton.mp hmem
  case takePacket =>
    refine ⟨none, g, fun hmem => ?_, fun data hmem => ?_⟩
    · cases List.mem_singleton.mp hmem
    · cases List.mem_singleton.mp hmem
  case core o => exact hany (default : o.Ret) (by simp) (by simp)
  case registerVfs => exact hany EspErr.ok (by simp) (by simp)
  all_goals exact hany default (by simp) (by simp)

theorem passes_of_passesAll {es : List ConsoleEv} {g g' : Unit} (h : Steps passesAll g es g') :
    Passes es := by
  induction es generalizing g with
  | nil => exact ⟨List.not_mem_nil, fun data hmem => absurd hmem List.not_mem_nil⟩
  | cons e es ih =>
    obtain ⟨g₁, he, hrest⟩ := h
    refine ⟨fun hmem => ?_, fun data hmem => ?_⟩
    · rcases List.mem_cons.mp hmem with heq | hmem
      · exact he.guard (heq ▸ List.mem_singleton_self _)
      · exact (ih hrest).guard hmem
    · rcases List.mem_cons.mp hmem with heq | hmem
      · exact he.room data (heq ▸ List.mem_singleton_self _)
      · exact (ih hrest).room data hmem

theorem passes_append {es₁ es₂ : List ConsoleEv} (h₁ : Passes es₁) (h₂ : Passes es₂) :
    Passes (es₁ ++ es₂) :=
  ⟨fun hmem => (List.mem_append.mp hmem).elim h₁.guard h₂.guard,
    fun data hmem => (List.mem_append.mp hmem).elim (h₁.room data) (h₂.room data)⟩

/-- What is taken out of the sink is sent in this order; the last may not have begun its frame. -/
theorem taken_run (h : (consoleSystem Tid b).Run c tr) :
    ∃ late, (actEvents tr).filterMap packetTaken = logFrames (actEvents tr) ++ late ∧
      late.length ≤ 1 ∧ (c.state.core.emitOwner = none → late = []) := by
  have hpasses := passes_run h
  have hsec := (emitSpec Tid).closed_sec (mutex_emit b) body_keepsEmit h
  obtain ⟨hfilter, hsub⟩ := (emitSpec Tid).filter_lockedEvents (mutex_emit b) body_keepsEmit h
  have hown := ((emitSpec Tid).run_view (mutex_emit b) body_keepsEmit h).1
  have htaken : ∀ es : List ConsoleEv,
      (es.filter fun e => (emitSpec Tid).guarded e.op).filterMap packetTaken =
        es.filterMap packetTaken := by
    intro es
    rw [List.filterMap_filter]
    refine List.filterMap_congr fun e _ => ?_
    obtain ⟨o, r⟩ := e
    cases o <;> first | rfl | exact ite_self _
  have hlogs : ∀ es : List ConsoleEv,
      logFrames (es.filter fun e => (emitSpec Tid).guarded e.op) = logFrames es := by
    intro es
    unfold logFrames framesOf
    rw [List.filterMap_filter, List.filterMap_filterMap, List.filterMap_filterMap]
    refine List.filterMap_congr fun e _ => ?_
    obtain ⟨o, r⟩ := e
    cases o
    case setOwner f _ =>
      by_cases hf : f.1 = frameTypeOn9log <;> simp [emitSpec, frameBegun, logPayload, hf]
    all_goals simp [frameBegun]
  have hlocked := hpasses.mono fun e he => hsub.subset he
  rw [← htaken (actEvents tr), ← hlogs (actEvents tr), hfilter, htaken, hlogs]
  rw [LockSpec.lockedEvents] at hlocked ⊢
  have hclosed := steps_sections hsec (hlocked.mono fun e => List.mem_append_left _)
  have hopened := hlocked.mono fun e => List.mem_append_right _
  cases hh : (emitSpec Tid).holder tr with
  | none =>
    rw [(emitSpec Tid).openSection_free (mutex_emit b) body_keepsEmit h hh, List.append_nil]
    have heq := taken_eq hclosed
    rw [Option.toList_none, List.nil_append, List.append_nil] at heq
    exact ⟨[], heq.trans (List.append_nil _).symm, Nat.zero_le _, fun _ => rfl⟩
  | some t =>
    obtain ⟨b', _, hsection, hrest⟩ := (emitSpec Tid).openSection_completes (mutex_emit b)
      body_keepsEmit total_passesAll h hh ()
    have hwhole := steps_section hsection (passes_append hopened (passes_of_passesAll hrest))
    obtain ⟨g, hg, -⟩ := steps_append.mp hwhole
    have heq := taken_eq (steps_append.mpr ⟨none, hclosed, hg⟩)
    rw [Option.toList_none, List.nil_append] at heq
    refine ⟨g.toList, heq, ?_, fun hfree => ?_⟩
    · cases g <;> simp
    · rw [show c.state.core.emitOwner = _ from hown, hh] at hfree
      cases hfree

def sinkOpOf (e : ConsoleEv) : Option SinkOp := (consoleSees e).bind Sum.getRight?

theorem sink_run (h : (consoleSystem Tid b).Run c tr) :
    c.state.sink = ((actEvents tr).filterMap sinkOpOf).foldl EspVfsState.perform
        (consoleSystem Tid b).init.sink ∧
      (actEvents tr).filterMap packetTaken =
        (consoleSystem Tid b).init.sink.found ((actEvents tr).filterMap sinkOpOf) := by
  induction h with
  | init => exact ⟨rfl, rfl⟩
  | invoke t call _ _ ih => exact ih
  | ret t call v _ _ ih => exact ih
  | @act c tr t call o k r s' hrun ht hs ih =>
    obtain ⟨hsink, hfound⟩ := ih
    rw [actEvents, List.filterMap_append, List.filterMap_append, List.foldl_append,
      EspVfsState.found_append, ← hsink, ← hfound]
    have hnone : sinkOpOf ⟨o, r⟩ = none → packetTaken ⟨o, r⟩ = none → s'.sink = c.state.sink →
        s'.sink = ([(⟨o, r⟩ : ConsoleEv)].filterMap sinkOpOf).foldl EspVfsState.perform
          c.state.sink ∧
        (actEvents tr).filterMap packetTaken ++ [(⟨o, r⟩ : ConsoleEv)].filterMap packetTaken =
          (actEvents tr).filterMap packetTaken ++
            c.state.sink.found ([(⟨o, r⟩ : ConsoleEv)].filterMap sinkOpOf) := by
      intro h₁ h₂ h₃
      rw [List.filterMap_cons_none h₁, List.filterMap_cons_none h₂]
      exact ⟨h₃, rfl⟩
    cases o
    case core o =>
      obtain ⟨core, -, rfl⟩ := hs
      exact hnone rfl rfl rfl
    case startPacket header =>
      obtain rfl := hs
      exact ⟨rfl, rfl⟩
    case addPayload payload =>
      obtain rfl := hs
      exact ⟨rfl, rfl⟩
    case takePacket =>
      obtain ⟨hr, rfl⟩ := hs
      refine ⟨rfl, congrArg (_ ++ ·) ?_⟩
      show _ = c.state.sink.packet.toList ++ []
      rw [← hr, List.append_nil]
      cases r <;> rfl
    case ownerIsSelf => exact hnone rfl rfl (by rw [hs.2])
    case transportLock => exact hnone rfl rfl (by rw [hs.2])
    case outputCount => exact hnone rfl rfl (by rw [hs.2])
    case loadOutput => exact hnone rfl rfl (by rw [hs.2])
    case write => exact hnone rfl rfl (by rw [hs.2])
    case loadInstalled => exact hnone rfl rfl (by rw [hs.2])
    case loadSinkInstalled => exact hnone rfl rfl (by rw [hs.2])
    all_goals
      obtain rfl := hs
      exact hnone rfl rfl rfl

theorem sinkOps_run {cc : Lib.Config Tid Call Op Op.Ret Res (Shared Tid)}
    {ctr : List (Label Tid Call Op Op.Ret Res)} (h : (consoleLayer b Tid).Matches c tr cc ctr) :
    (actEvents tr).filterMap sinkOpOf =
      (sinkCalls b.entry (actEvents ctr)).map SinkCall.sinkOp := by
  have hob := congrArg (fun l => (l.map Prod.snd).filterMap Sum.getRight?) h.observed
  simp only [observed_events, List.filterMap_filterMap] at hob
  unfold sinkCalls
  rw [List.map_filterMap]
  refine hob.symm.trans (List.filterMap_congr fun e _ => ?_)
  obtain ⟨o, r⟩ := e
  show (sinkSees b.entry ⟨o, r⟩).bind Sum.getRight? = _
  cases o
  case call entry call _ => by_cases he : entry = b.entry <;> simp [sinkSees, he]
  all_goals rfl

end Runs

end EspConsole

section

open EspConsole

variable {Tid : Type} [DecidableEq Tid] {b : ConsoleBuild}
  {c' : Lib.Config Tid (ConsoleCall b) ConsoleOp ConsoleOp.Ret ConsoleRes (ConsoleShared Tid)}
  {tr' : ConsoleTrace Tid b}

/-- Whatever the threads do, the frames of the core's type are the packets its sink was registered
for, in the order the core sent them and without those a frame has no room for; only the last
packet may still be on its way there. And on each output that takes what it is given a reader
finds the frames of all threads begun since it was opened, whole and in their order; only the
last of them may still be on its way, under the mutex of the transport. -/
theorem console_frames_decode (h : (consoleSystem Tid b).Run c' tr') :
    ∃ c tr, (consoleLayer b Tid).Matches c' tr' c tr ∧
      (∃ (pkts : List Packet) (late : List (List UInt8)),
        pkts.filterMap Packet.framed = logFrames (actEvents tr') ++ late ∧ late.length ≤ 1 ∧
        (pkts = (wireOf b.cfg (actEvents tr)).to b.entry ∨
          ∃ s pkt, (wireOf b.cfg (actEvents tr)).current = some s ∧
            pkt.origin = s.pkt.origin ∧ pkt.header = s.pkt.header ∧
            pkts = (wireOf b.cfg (actEvents tr)).to b.entry ++ [pkt]) ∧
        (c'.state.core.emitOwner = none →
          late = [] ∧ pkts = (wireOf b.cfg (actEvents tr)).to b.entry)) ∧
      ∀ i, Takes i (actEvents tr') → ∃ frames,
        (decodeFrames (c'.state.outputs.wire i)).filter Frame.valid = frames.map SentFrame.good ∧
        (framesOf (sinceOpened i 0 (actEvents tr')) = frames ∨
          ∃ f, framesOf (sinceOpened i 0 (actEvents tr')) = frames ++ [f] ∧
            c'.state.mutex ≠ none) := by
  obtain ⟨c, tr, hm⟩ := (consoleLayer b Tid).refines h
  refine ⟨c, tr, hm, ?_, fun i htakes => frames_run h htakes⟩
  obtain ⟨late, htaken, hlate, hsent⟩ := taken_run h
  obtain ⟨hprog, hidle⟩ := progress_run hm.run
  obtain ⟨part, hcalls, hpart⟩ := hprog.calls b.entry
  have hfree : c'.state.core.emitOwner = none → (wireOf b.cfg (actEvents tr)).current = none := by
    intro hnone
    refine hidle ?_
    rw [hm.state]
    exact hnone
  rw [(sink_run h).2, sinkOps_run hm, hcalls, List.map_append, EspVfsState.found_append,
    EspVfsState.found_packets] at htaken
  rcases hpart with rfl | ⟨s, pkt, hcur, -, horigin, hheader, hpart⟩
  · rw [List.map_nil, show ∀ e : EspVfsState, e.found [] = [] from fun _ => rfl,
      List.append_nil] at htaken
    exact ⟨_, late, htaken, hlate, Or.inl rfl, fun hnone => ⟨hsent hnone, rfl⟩⟩
  · have hbusy : c'.state.core.emitOwner ≠ none := by
      intro hnone
      rw [hfree hnone] at hcur
      cases hcur
    rcases EspVfsState.found_part hpart with hfound | hfound
    · rw [hfound, List.append_nil] at htaken
      exact ⟨_, late, htaken, hlate, Or.inl rfl, fun hnone => absurd hnone hbusy⟩
    · rw [hfound] at htaken
      refine ⟨_, late, ?_, hlate, Or.inr ⟨s, pkt, hcur, horigin, hheader, rfl⟩,
        fun hnone => absurd hnone hbusy⟩
      rw [List.filterMap_append, ← htaken]
      cases hf : pkt.framed <;> simp [hf]

end

end On9log
