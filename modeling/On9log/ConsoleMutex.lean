import On9log.EspConsole
import On9log.Lib.Keeps
import On9log.Lib.Only

/-!
# The mutex of the transport (esp_stdio_log_vfs.c:148-174, 409-446, 503-524, 638-654)

Whatever a call does, it keeps to the mutex of the transport: it sends a frame,
adds an output or flushes the drivers between the lock and the unlock, and
touches the outputs nowhere else.
-/

namespace On9log
open Lib

variable {Tid : Type}

/-! ### The mutex of the transport -/

variable (Tid) in
def transportSpec : LockSpec Tid ConsoleOp (ConsoleShared Tid) where
  isLock | .transportLock => true | _ => false
  isUnlock | .transportUnlock => true | _ => false
  guarded
    | .setOwner _ => true
    | .clearOwner => true
    | .outputCount => true
    | .loadOutput _ => true
    | .write _ _ => true
    | .openPath _ => true
    | .pushOutput _ => true
    | .fsync _ => true
    | _ => false
  owner := ConsoleShared.mutex
  lock_ne_unlock o h := by cases o <;> simp_all
  lock_unguarded o h := by cases o <;> simp_all
  unlock_unguarded o h := by cases o <;> simp_all

theorem mutex_transport (b : ConsoleBuild) : (transportSpec Tid).Mutex (consoleSystem Tid b) where
  init := rfl
  lock t o r s s' h hl := by
    cases o
    case transportLock =>
      obtain ⟨hfree, rfl⟩ := h
      exact ⟨hfree, rfl⟩
    all_goals cases hl
  unlock t o r s s' h hu := by
    cases o
    case transportUnlock =>
      obtain rfl := h
      rfl
    all_goals cases hu
  other t o r s s' h hl hu := by
    cases o
    case transportLock => cases hl
    case transportUnlock => cases hu
    case core =>
      obtain ⟨core, -, rfl⟩ := h
      rfl
    case takePacket => rw [h.2]
    case ownerIsSelf => rw [h.2]
    case outputCount => rw [h.2]
    case loadOutput => rw [h.2]
    case write =>
      obtain ⟨-, rfl⟩ := h
      rfl
    case loadInstalled => rw [h.2]
    case loadSinkInstalled => rw [h.2]
    all_goals
      obtain rfl := h
      rfl

namespace EspConsole

/-- What is done between the lock and the unlock. -/
inductive Section : List ConsoleEv → Prop
  | frame (f : SentFrame) (ok : Bool) {b} : (sendFrame f).Path b ok → Section b
  | addOutput (path : List UInt8) (err : EspErr) {b} : (addOutputLocked path).Path b err → Section b
  | fsync (result : ℤ) {b} : fsyncLocked.Path b result → Section b

/-! ### What the programs do -/

/-- Operations under the mutex that neither begin a frame nor open an output. -/
def Plain : ConsoleOp → Prop
  | .outputCount => True
  | .loadOutput _ => True
  | .write _ _ => True
  | .fsync _ => True
  | .openPath _ => True
  | _ => False

/-- Those that leave the outputs as they are. -/
def Reads (o : ConsoleOp) : Prop := Plain o ∧ ∀ i data, o ≠ .write i data

/-- Operations with the mutex taken. -/
def Inside : ConsoleOp → Prop
  | .setOwner _ => True
  | .clearOwner => True
  | .pushOutput _ => True
  | o => Plain o

/-- Operations of the transport; the frames it begins are of a type in `types`. -/
def Sends (types : UInt8 → Prop) : ConsoleOp → Prop
  | .ownerIsSelf => True
  | .transportLock => True
  | .transportUnlock => True
  | .setOwner f => types f.1
  | .clearOwner => True
  | .pushOutput _ => True
  | o => Plain o

/-- Operations of an initialisation outside the mutex. -/
def Flags : ConsoleOp → Prop
  | .loadInstalled => True
  | .storeInstalled => True
  | .loadSinkInstalled => True
  | .storeSinkInstalled => True
  | .registerVfs => True
  | .freopen _ => True
  | _ => False

theorem inside_of_plain (o : ConsoleOp) (h : Plain o) : Inside o := by
  cases o <;> first | exact h | cases h

theorem sends_of_plain (types : UInt8 → Prop) (o : ConsoleOp) (h : Plain o) : Sends types o := by
  cases o <;> first | exact h | cases h

theorem only_writeAll (i n : ℕ) (data : List UInt8) : (writeAll i n data).Only Plain := by
  induction n generalizing data with
  | zero => exact Prog.only_pure _
  | succ n ih =>
    refine Prog.Only.ite (Prog.only_pure _) ((Prog.only_op trivial).bind fun written => ?_)
    exact Prog.Only.ite (Prog.only_pure _) (ih _)

theorem only_flush (ok : Bool) (batch : List UInt8) : (flush ok batch).Only Plain := by
  refine (Prog.only_op trivial).bind fun count => Prog.only_foldlM (fun ok i => ?_) _ _
  refine (Prog.only_op trivial).bind fun fd => Prog.Only.ite ?_ (Prog.only_pure _)
  exact (only_writeAll _ _ _).bind fun _ => Prog.only_pure _

theorem only_fsyncLocked : fsyncLocked.Only Reads := by
  have hop : ∀ o, Plain o → (∀ i data, o ≠ .write i data) →
      (Prog.op o : ConsoleProg o.Ret).Only Reads := fun o h₁ h₂ => Prog.only_op ⟨h₁, h₂⟩
  refine (hop .outputCount trivial (by simp)).bind fun count => ?_
  refine Prog.only_foldlM (fun result i => ?_) _ _
  refine (hop (.loadOutput i) trivial (by simp)).bind fun fd => ?_
  refine Prog.Only.ite ?_ (Prog.only_pure _)
  exact (hop (.fsync i) trivial (by simp)).bind fun _ => Prog.only_pure _

theorem only_sendFrame {q : ConsoleOp → Prop} {f : SentFrame} (hset : q (.setOwner f))
    (hclear : q .clearOwner) (hplain : ∀ o, Plain o → q o) : (sendFrame f).Only q := by
  refine (Prog.only_op hset).bind fun _ => ?_
  refine (Prog.only_foldlM (fun ok batch => (only_flush ok batch).imp hplain) _ _).bind fun ok => ?_
  exact (Prog.only_op hclear).bind fun _ => Prog.only_pure _

theorem only_addOutputLocked {q : ConsoleOp → Prop} (hpush : ∀ fd, q (.pushOutput fd))
    (hplain : ∀ o, Plain o → q o) (path : List UInt8) : (addOutputLocked path).Only q := by
  refine (Prog.only_op (hplain .outputCount trivial)).bind fun count => ?_
  refine Prog.Only.ite (Prog.only_pure _) ?_
  refine (Prog.only_op (hplain (.openPath path) trivial)).bind fun fd => ?_
  exact Prog.Only.ite ((Prog.only_op (hpush fd)).bind fun _ => Prog.only_pure _) (Prog.only_pure _)

theorem only_locked {α : Type} {q : ConsoleOp → Prop} {p : ConsoleProg α}
    (hlock : q .transportLock) (hunlock : q .transportUnlock) (hp : p.Only q) :
    (locked p).Only q := by
  refine (Prog.only_op hlock).bind fun _ => hp.bind fun v => ?_
  exact (Prog.only_op hunlock).bind fun _ => Prog.only_pure _

theorem only_writeFrame (types : UInt8 → Prop) {type : UInt8} (htype : types type)
    (payload : Option (List UInt8)) : (writeFrame type payload).Only (Sends types) := by
  cases payload with
  | none => exact Prog.only_pure _
  | some payload =>
    refine Prog.Only.ite (Prog.only_pure _) ((Prog.only_op trivial).bind fun inside => ?_)
    refine Prog.Only.ite (Prog.only_pure _) (Prog.Only.bind ?_ fun _ => Prog.only_pure _)
    exact only_locked trivial trivial
      (only_sendFrame htype trivial (sends_of_plain types))

theorem only_writeText (types : UInt8 → Prop) (htype : types frameTypeText) (n : ℕ)
    (bytes : List UInt8) : (writeText n bytes).Only (Sends types) := by
  induction n generalizing bytes with
  | zero => exact Prog.only_pure _
  | succ n ih =>
    refine Prog.Only.ite (Prog.only_pure _) ((only_writeFrame types htype _).bind fun err => ?_)
    exact Prog.Only.ite (Prog.only_pure _) (ih _)

theorem only_write (types : UInt8 → Prop) (htype : types frameTypeText)
    (data : Option (List UInt8)) : (write data).Only (Sends types) := by
  cases data with
  | none => exact Prog.only_pure _
  | some bytes => exact (only_writeText types htype _ _).bind fun _ => Prog.only_pure _

theorem only_addOutput (types : UInt8 → Prop) (path : Option (List UInt8)) :
    (addOutput path).Only (Sends types) := by
  cases path with
  | none => exact Prog.only_pure _
  | some path =>
    exact only_locked trivial trivial
      (only_addOutputLocked (fun _ => trivial) (sends_of_plain types) path)

theorem only_fsync (types : UInt8 → Prop) : fsync.Only (Sends types) :=
  only_locked trivial trivial (only_fsyncLocked.imp fun o h => sends_of_plain types o h.1)

theorem Section.inside {es : List ConsoleEv} (h : Section es) : ∀ e ∈ es, Inside e.op := by
  cases h with
  | frame f ok hp => exact only_sendFrame trivial trivial inside_of_plain _ _ hp
  | addOutput path err hp =>
    exact only_addOutputLocked (fun _ => trivial) inside_of_plain path _ _ hp
  | fsync result hp => exact fun e he => inside_of_plain _ (only_fsyncLocked _ _ hp e he).1

/-! ### What the calls keep to -/

section Keeps

variable {G : Type} {m : G → ConsoleEv → G → Prop} {g : G}

theorem keeps_stdioInit (hflags : ∀ o, Flags o → ∀ r, m g ⟨o, r⟩ g)
    (hadd : ∀ path, (addOutput path).Keeps m g) (paths : List (List UInt8)) :
    (stdioInit paths).Keeps m g := by
  have hop : ∀ o, Flags o → (Prog.op o : ConsoleProg o.Ret).Keeps m g :=
    fun o ho => Prog.keeps_op (hflags o ho)
  refine (hop .loadInstalled trivial).bind fun installed => Prog.Keeps.ite (Prog.keeps_pure _) ?_
  refine Prog.Keeps.bind (Prog.keeps_forM (fun path => ?_) paths) fun _ => ?_
  · exact (hadd (some path)).bind fun _ => Prog.keeps_pure _
  refine (hop .registerVfs trivial).bind fun err => Prog.Keeps.ite (Prog.keeps_pure _) ?_
  refine (hop (.freopen .stdout) trivial).bind fun out => Prog.Keeps.ite (Prog.keeps_pure _) ?_
  refine (hop (.freopen .stderr) trivial).bind fun out => Prog.Keeps.ite (Prog.keeps_pure _) ?_
  exact (hop .storeInstalled trivial).bind fun _ => Prog.keeps_pure _

/-- A call keeps to a protocol that its parts keep to. -/
theorem keeps_body {b : ConsoleBuild} (Tid : Type)
    (hcore : ∀ call, (((system Tid b.cfg).body call).expand (perform b)).Keeps m g)
    (hflags : ∀ o, Flags o → ∀ r, m g ⟨o, r⟩ g)
    (hframe : ∀ type payload, type ≠ frameTypeOn9log → (writeFrame type payload).Keeps m g)
    (hwrite : ∀ data, (write data).Keeps m g) (hadd : ∀ path, (addOutput path).Keeps m g)
    (hfsync : fsync.Keeps m g) (c : ConsoleCall b) : ((consoleSystem Tid b).body c).Keeps m g := by
  have hstdio := keeps_stdioInit hflags hadd b.paths
  show ((script b c).expand (performScript (system Tid b.cfg) (perform b))).Keeps m g
  cases c with
  | core call foreign =>
    rw [script, Prog.expand_bind, Script.expand_call]
    exact (hcore call).bind fun _ => Prog.keeps_pure _
  | vfsInit =>
    rw [script, Prog.expand_bind, vfsInit, Prog.expand_bind, Script.expand_own]
    refine Prog.Keeps.bind ?_ fun _ => Prog.keeps_pure _
    refine (Prog.keeps_op (hflags .loadSinkInstalled trivial)).bind fun installed => ?_
    cases installed with
    | true => exact Prog.keeps_pure _
    | false =>
      show (Prog.expand _ (Script.own (stdioInit b.paths) >>= _)).Keeps m g
      rw [Prog.expand_bind, Script.expand_own]
      refine hstdio.bind fun err => ?_
      by_cases herr : err ≠ .ok
      · rw [if_pos herr]
        exact Prog.keeps_pure _
      · rw [if_neg herr, installSink, Prog.expand_bind, Script.expand_call]
        refine (hcore _).bind fun v => ?_
        by_cases hv : v.code ≠ .ok
        · simp only [if_pos hv]
          exact Prog.keeps_pure _
        · simp only [if_neg hv]
          rw [Prog.expand_bind, Script.expand_own]
          exact (Prog.keeps_op (hflags .storeSinkInstalled trivial)).bind fun _ => Prog.keeps_pure _
  | stdioInit =>
    rw [script, Prog.expand_bind, Script.expand_own]
    exact hstdio.bind fun _ => Prog.keeps_pure _
  | addOutput path =>
    rw [script, Prog.expand_bind, Script.expand_own]
    exact (hadd path).bind fun _ => Prog.keeps_pure _
  | writeFrame type other payload =>
    rw [script, Prog.expand_bind, Script.expand_own]
    exact (hframe type payload other).bind fun _ => Prog.keeps_pure _
  | write data =>
    rw [script, Prog.expand_bind, Script.expand_own]
    exact (hwrite data).bind fun _ => Prog.keeps_pure _
  | fsync =>
    rw [script, Prog.expand_bind, Script.expand_own]
    exact hfsync.bind fun _ => Prog.keeps_pure _

end Keeps

/-! ### The calls keep to the mutex -/

abbrev KeepsMutex (Tid : Type) {α : Type} (p : ConsoleProg α) : Prop :=
  p.Keeps ((transportSpec Tid).Discipline Section) none

theorem keeps_free {o : ConsoleOp} (hl : (transportSpec Tid).isLock o = false)
    (hu : (transportSpec Tid).isUnlock o = false) (hg : (transportSpec Tid).guarded o = false) :
    KeepsMutex Tid (Prog.op o) := Prog.keeps_op fun _ => Or.inr ⟨hl, hu, hg, rfl⟩

theorem keeps_locked {α : Type} {p : ConsoleProg α} (hin : p.Only Inside)
    (hsec : ∀ es v, p.Path es v → Section es) : KeepsMutex Tid (locked p) := by
  intro es v h
  obtain ⟨_, e₁, _, rfl, h₁, h⟩ := (Prog.path_bind _ _ _ _).mp h
  obtain ⟨r, e₂, _, rfl, h₂, h⟩ := (Prog.path_bind _ _ _ _).mp h
  obtain ⟨_, e₃, e₄, rfl, h₃, h₄⟩ := (Prog.path_bind _ _ _ _).mp h
  obtain ⟨rfl, -⟩ := (Prog.path_pure _ _ _).mp h₄
  rw [(Prog.path_op _ _ _).mp h₁, (Prog.path_op _ _ _).mp h₃, List.append_nil]
  refine (transportSpec Tid).steps_section rfl rfl (fun e he => ?_) (hsec e₂ r h₂)
  have hinside := hin e₂ r h₂ e he
  generalize e.op = o at hinside
  cases o <;> first | exact ⟨rfl, rfl⟩ | cases hinside

theorem keeps_writeFrame (type : UInt8) (payload : Option (List UInt8)) :
    KeepsMutex Tid (writeFrame type payload) := by
  cases payload with
  | none => exact Prog.keeps_pure _
  | some payload =>
    refine Prog.Keeps.ite (Prog.keeps_pure _) ((keeps_free rfl rfl rfl).bind fun inside => ?_)
    refine Prog.Keeps.ite (Prog.keeps_pure _) (Prog.Keeps.bind ?_ fun _ => Prog.keeps_pure _)
    exact keeps_locked (only_sendFrame trivial trivial inside_of_plain) fun es v h => .frame _ v h

theorem keeps_writeText (n : ℕ) (bytes : List UInt8) : KeepsMutex Tid (writeText n bytes) := by
  induction n generalizing bytes with
  | zero => exact Prog.keeps_pure _
  | succ n ih =>
    refine Prog.Keeps.ite (Prog.keeps_pure _) ((keeps_writeFrame _ _).bind fun err => ?_)
    exact Prog.Keeps.ite (Prog.keeps_pure _) (ih _)

theorem keeps_addOutput (path : Option (List UInt8)) : KeepsMutex Tid (addOutput path) := by
  cases path with
  | none => exact Prog.keeps_pure _
  | some path =>
    exact keeps_locked (only_addOutputLocked (fun _ => trivial) inside_of_plain path)
      fun es v h => .addOutput path v h

theorem keeps_perform (b : ConsoleBuild) (o : Op) : KeepsMutex Tid (perform b o) := by
  cases o
  case call e c =>
    refine Prog.Keeps.ite ?_ (keeps_free rfl rfl rfl)
    cases c with
    | startCb header => exact keeps_free rfl rfl rfl
    | payloadCb c => exact keeps_free rfl rfl rfl
    | endCb =>
      refine (keeps_free rfl rfl rfl).bind fun packet => ?_
      cases packet with
      | none => exact Prog.keeps_pure _
      | some data => exact (keeps_writeFrame _ _).bind fun _ => Prog.keeps_pure _
  all_goals exact keeps_free rfl rfl rfl

theorem body_keepsMutex {b : ConsoleBuild} (c : ConsoleCall b) :
    KeepsMutex Tid ((consoleSystem Tid b).body c) := by
  refine keeps_body Tid (fun call => Prog.keeps_expand (keeps_perform b) _) (fun o ho r => ?_)
    (fun type payload _ => keeps_writeFrame type payload) (fun data => ?_) keeps_addOutput
    (keeps_locked (only_fsyncLocked.imp fun o h => inside_of_plain o h.1) fun es v h => .fsync v h) c
  · refine Or.inr ?_
    cases o <;> first | exact ⟨rfl, rfl, rfl, rfl⟩ | cases ho
  · cases data with
    | none => exact Prog.keeps_pure _
    | some bytes => exact (keeps_writeText _ _).bind fun _ => Prog.keeps_pure _

end EspConsole

end On9log
