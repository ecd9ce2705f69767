import On9log.SinkUse

/-!
# How far a thread has come (on9log_unix_stdio.c:187-214)

Outside of `on9log_unix_stdio_init_file` a thread logs, and reads `s_stdio.stream`
or locks the stream only after it has read the sink from the table. Inside, it goes
from its mutex to the stream's lock; `found` says that the search for the sink has met it
already, which no run does. Every call goes from idle to idle.
-/

namespace On9log
open Lib

inductive Phase where
  | logging (use : SinkUse) (loaded : Option Ptr)
  | entered
  | vacant
  | set (stream : Ptr) (found : Bool)
  | listed (stream : Ptr)
  | locked (stream : Ptr)
  | printed (stream : Ptr)
  | leaving

namespace Phase

def idle : Phase := .logging .idle none

/-- It holds `s_init_mutex`. -/
def inside : Phase → Bool
  | .logging _ _ => false
  | _ => true

/-- How many times it has taken the stream's lock. -/
def depth : Phase → ℕ
  | .logging use _ => use.started
  | .locked _ => 1
  | .printed _ => 1
  | _ => 0

end Phase

/-- Operations of the core that tell a logging thread nothing about the sink. -/
def Op.Spares (entry : SinkEntry) : Op → Prop
  | .loadSlot _ => False
  | .emitUnlock => False
  | .storeSlot _ e => e ≠ entry
  | .call e _ => e ≠ entry
  | _ => True

def Op.isEmitLock : Op → Bool
  | .emitLock => true
  | .emitUnlock => true
  | _ => false

/-- The sink's own fields. -/
def UnixOp.isField : UnixOp → Bool
  | .startPacket _ => true
  | .addPayload _ => true
  | .loadDropFrame => true
  | _ => false

inductive PhaseStep (u : UnixBuild) : Phase → UnixEv → Phase → Prop
  | core (use : SinkUse) (loaded : Option Ptr) (o : Op) (r : o.Ret) : o.Spares u.entry →
      PhaseStep u (.logging use loaded) ⟨.core o, r⟩ (.logging use loaded)
  | load (use : SinkUse) (loaded : Option Ptr) (i : ℕ) (slot : SinkEntry) :
      PhaseStep u (.logging use loaded) ⟨.core (.loadSlot i), slot⟩
        (.logging { use with seen := use.seen || decide (slot = u.entry) } loaded)
  | unlock (seen : Bool) (loaded : Option Ptr) :
      PhaseStep u (.logging ⟨seen, 0⟩ loaded) ⟨.core .emitUnlock, ()⟩ (.logging .idle loaded)
  | field (use : SinkUse) (loaded : Option Ptr) (o : UnixOp) (r : o.Ret) : o.isField = true →
      PhaseStep u (.logging use loaded) ⟨o, r⟩ (.logging use loaded)
  | stream (n : ℕ) (loaded : Option Ptr) (stream : Ptr) :
      PhaseStep u (.logging ⟨true, n⟩ loaded) ⟨.loadStream, stream⟩
        (.logging ⟨true, n⟩ (some stream))
  | flock (n : ℕ) (stream : Ptr) :
      PhaseStep u (.logging ⟨true, n⟩ (some stream)) ⟨.flockfile stream, ()⟩
        (.logging ⟨true, n + 1⟩ none)
  | frame (n : ℕ) (stream : Ptr) :
      PhaseStep u (.logging ⟨true, n + 1⟩ (some stream)) ⟨.writeFrame stream, ()⟩
        (.logging ⟨true, n + 1⟩ none)
  | funlock (n : ℕ) (stream : Ptr) :
      PhaseStep u (.logging ⟨true, n + 1⟩ (some stream)) ⟨.funlockfile stream, ()⟩
        (.logging ⟨true, n⟩ none)
  | enter : PhaseStep u .idle ⟨.initLock, ()⟩ .entered
  | taken (stream : Ptr) : stream ≠ 0 → PhaseStep u .entered ⟨.loadStream, stream⟩ .leaving
  | vacant : PhaseStep u .entered ⟨.loadStream, (0 : Ptr)⟩ .vacant
  | set (stream : Ptr) : stream ≠ 0 →
      PhaseStep u .vacant ⟨.storeStream stream, ()⟩ (.set stream false)
  | search (stream : Ptr) (found : Bool) (i : ℕ) (slot : SinkEntry) :
      PhaseStep u (.set stream found) ⟨.core (.loadSlot i), slot⟩
        (.set stream (found || decide (slot = u.entry)))
  | setLock (stream : Ptr) (found : Bool) (o : Op) (r : o.Ret) : o.isEmitLock = true →
      PhaseStep u (.set stream found) ⟨.core o, r⟩ (.set stream found)
  | list (stream : Ptr) (found : Bool) (i : ℕ) :
      PhaseStep u (.set stream found) ⟨.core (.storeSlot i u.entry), ()⟩ (.listed stream)
  | listedLock (stream : Ptr) (o : Op) (r : o.Ret) : o.isEmitLock = true →
      PhaseStep u (.listed stream) ⟨.core o, r⟩ (.listed stream)
  | refuse (stream : Ptr) (found : Bool) :
      PhaseStep u (.set stream found) ⟨.storeStream 0, ()⟩ .leaving
  | found (stream : Ptr) :
      PhaseStep u (.set stream true) ⟨.flockfile stream, ()⟩ (.locked stream)
  | lock (stream : Ptr) : PhaseStep u (.listed stream) ⟨.flockfile stream, ()⟩ (.locked stream)
  | print (stream : Ptr) :
      PhaseStep u (.locked stream) ⟨.fprintf stream (imageSlideLine u.slide), ()⟩ (.printed stream)
  | release (stream : Ptr) :
      PhaseStep u (.printed stream) ⟨.funlockfile stream, ()⟩ .leaving
  | again (stream : Ptr) : PhaseStep u .leaving ⟨.loadStream, stream⟩ .leaving
  | leave : PhaseStep u .leaving ⟨.initUnlock, ()⟩ .idle

variable {u : UnixBuild} {g g' : Phase}

theorem phaseStep_functional : Functional (PhaseStep u) := by
  intro g e g₁ g₂ h₁ h₂
  cases h₁ <;> cases h₂ <;> first | rfl | simp_all [Op.Spares, UnixOp.isField, Op.isEmitLock]

/-! ### Logging -/

variable {b : List UnixEv}

theorem steps_stdioStart {header : Option (List UInt8)} (n : ℕ) {v : Unit}
    (h : (stdioStart header).Path b v) :
    Steps (PhaseStep u) (.logging ⟨true, n⟩ none) b (.logging ⟨true, n + 1⟩ none) := by
  obtain ⟨stream, e₁, _, rfl, h₁, h⟩ := (Prog.path_bind _ _ _ _).mp h
  obtain ⟨_, e₂, e₃, rfl, h₂, h₃⟩ := (Prog.path_bind _ _ _ _).mp h
  rw [(Prog.path_op _ _ _).mp h₁, (Prog.path_op _ _ _).mp h₂, (Prog.path_op _ _ _).mp h₃]
  exact ⟨_, .stream n none stream, _, .flock n stream, _, .field _ _ _ _ rfl, rfl⟩

theorem steps_stdioFrame {dropFrame : Bool} (n : ℕ) {v : Unit}
    (h : (stdioFrame dropFrame).Path b v) :
    Steps (PhaseStep u) (.logging ⟨true, n + 1⟩ none) b (.logging ⟨true, n + 1⟩ none) := by
  rcases (Prog.path_ite _ _ _ _ _).mp h with ⟨-, h⟩ | ⟨-, h⟩
  · obtain ⟨rfl, -⟩ := (Prog.path_pure _ _ _).mp h
    rfl
  · obtain ⟨stream, e₁, e₂, rfl, h₁, h₂⟩ := (Prog.path_bind _ _ _ _).mp h
    rw [(Prog.path_op _ _ _).mp h₁, (Prog.path_op _ _ _).mp h₂]
    exact ⟨_, .stream _ none stream, _, .frame n stream, rfl⟩

theorem steps_stdioEnd (n : ℕ) {v : Unit} (h : stdioEnd.Path b v) :
    Steps (PhaseStep u) (.logging ⟨true, n + 1⟩ none) b (.logging ⟨true, n⟩ none) := by
  obtain ⟨dropFrame, e₁, _, rfl, h₁, h⟩ := (Prog.path_bind _ _ _ _).mp h
  obtain ⟨_, e₂, _, rfl, h₂, h⟩ := (Prog.path_bind _ _ _ _).mp h
  obtain ⟨stream, e₃, e₄, rfl, h₃, h₄⟩ := (Prog.path_bind _ _ _ _).mp h
  rw [(Prog.path_op _ _ _).mp h₁, (Prog.path_op _ _ _).mp h₃, (Prog.path_op _ _ _).mp h₄]
  rw [List.singleton_append]
  refine ⟨_, .field _ _ _ _ rfl, steps_append.mpr ⟨_, steps_stdioFrame n h₂, ?_⟩⟩
  exact ⟨_, .stream _ none stream, _, .funlock n stream, rfl⟩

/-- The sink itself is called. -/
theorem steps_stdioCallback {use use' : SinkUse} {c : SinkCall} {r : Unit}
    (hstep : useStep u.entry use ⟨.call u.entry c, r⟩ use') (h : (stdioCallback c).Path b r) :
    Steps (PhaseStep u) (.logging use none) b (.logging use' none) := by
  cases c with
  | startCb header =>
    have hstart : use.seen = true ∧ use' = { use with started := use.started + 1 } := by
      rwa [useStep, if_pos rfl] at hstep
    obtain ⟨hseen, rfl⟩ := hstart
    obtain ⟨seen, started⟩ := use
    obtain rfl : seen = true := hseen
    exact steps_stdioStart started h
  | payloadCb c =>
    obtain rfl : use' = use := hstep
    rw [(Prog.path_op _ _ _).mp h]
    exact ⟨_, .field _ _ _ _ rfl, rfl⟩
  | endCb =>
    have hend : use.seen = true ∧ use = { use' with started := use'.started + 1 } := by
      rwa [useStep, if_pos rfl] at hstep
    obtain ⟨hseen, heq⟩ := hend
    obtain ⟨seen', started'⟩ := use'
    subst heq
    obtain rfl : seen' = true := hseen
    exact steps_stdioEnd started' h

/-- The callbacks of the sink, and every other operation of the core. -/
theorem steps_perform {use use' : SinkUse} {e : Ev} (hstep : useStep u.entry use e use')
    (h : (perform u e.op).Path b e.ret) :
    Steps (PhaseStep u) (.logging use none) b (.logging use' none) := by
  have hone : ∀ (o : Op) (r : o.Ret), (Prog.op (UnixOp.core o) : UnixProg o.Ret).Path b r →
      o.Spares u.entry → Steps (PhaseStep u) (.logging use none) b (.logging use none) := by
    intro o r h ho
    rw [(Prog.path_op (UnixOp.core o) b r).mp h]
    exact ⟨_, .core use none o r ho, rfl⟩
  obtain ⟨o, r⟩ := e
  cases o
  case loadSlot i =>
    obtain rfl := hstep
    rw [(Prog.path_op (UnixOp.core (.loadSlot i)) b r).mp h]
    exact ⟨_, .load use none i r, rfl⟩
  case storeSlot i e =>
    obtain ⟨hne, rfl⟩ := hstep
    exact hone _ r h hne
  case emitUnlock =>
    obtain ⟨hstarted, rfl⟩ := hstep
    rw [(Prog.path_op (UnixOp.core .emitUnlock) b r).mp h]
    obtain ⟨seen, started⟩ := use
    obtain rfl : started = 0 := hstarted
    exact ⟨_, .unlock seen none, rfl⟩
  case call e c =>
    by_cases he : e = u.entry
    · have hcall : perform u (.call e c) = stdioCallback c := if_pos he
      rw [hcall] at h
      subst he
      exact steps_stdioCallback hstep h
    · have hsame : use' = use := by
        cases c with
        | startCb header => rwa [useStep, if_neg he] at hstep
        | payloadCb c => exact hstep
        | endCb => rwa [useStep, if_neg he] at hstep
      rw [hsame]
      have hcall : perform u (.call e c) = Prog.op (UnixOp.core (.call e c)) := if_neg he
      rw [hcall] at h
      exact hone _ r h he
  all_goals
    obtain rfl := hstep
    exact hone _ r h trivial

theorem steps_core {call : Call} (hforeign : call.Foreign u.entry.sink) {es : List UnixEv}
    {v : Res} (h : ((body u.cfg call).expand (perform u)).Path es v) :
    Steps (PhaseStep u) .idle es .idle := by
  obtain ⟨es', hpath, hex⟩ := Prog.path_expand h
  have huses : Uses u.entry es' := (performs_body hpath).uses u.valid.1 hforeign
  exact hex.steps (fun use => Phase.logging use none)
    (fun _ _ _ _ hstep hb => steps_perform hstep hb) huses

/-! ### Registration -/

/-- How far `on9log_add_sink` has come: `found` when it has met the sink in the table. -/
inductive Adding where
  | searching (found : Bool)
  | stored

def addStep (entry : SinkEntry) (g : Adding) (e : Ev) (g' : Adding) : Prop :=
  match g, e with
  | .searching found, ⟨.loadSlot _, slot⟩ => g' = .searching (found || decide (slot = entry))
  | .searching _, ⟨.storeSlot _ e, _⟩ => e = entry ∧ g' = .stored
  | _, ⟨.emitLock, _⟩ => g' = g
  | _, ⟨.emitUnlock, _⟩ => g' = g
  | _, _ => False

/-- The phase of the thread that adds the sink of `stream`. -/
def Adding.phase (stream : Ptr) : Adding → Phase
  | .searching found => .set stream found
  | .stored => .listed stream

theorem steps_perform_add {stream : Ptr} {add add' : Adding} {e : Ev}
    (hstep : addStep u.entry add e add') (h : (perform u e.op).Path b e.ret) :
    Steps (PhaseStep u) (add.phase stream) b (add'.phase stream) := by
  obtain ⟨o, r⟩ := e
  cases o
  case loadSlot i =>
    cases add with
    | stored => cases hstep
    | searching found =>
      obtain rfl := hstep
      rw [(Prog.path_op (UnixOp.core (.loadSlot i)) b r).mp h]
      exact ⟨_, .search stream found i r, rfl⟩
  case storeSlot i e =>
    cases add with
    | stored => cases hstep
    | searching found =>
      obtain ⟨rfl, rfl⟩ := hstep
      rw [(Prog.path_op (UnixOp.core (.storeSlot i u.entry)) b r).mp h]
      exact ⟨_, .list stream found i, rfl⟩
  case emitLock =>
    rw [(Prog.path_op (UnixOp.core .emitLock) b r).mp h]
    cases add with
    | stored =>
      obtain rfl := hstep
      exact ⟨_, .listedLock stream .emitLock r rfl, rfl⟩
    | searching found =>
      obtain rfl := hstep
      exact ⟨_, .setLock stream found .emitLock r rfl, rfl⟩
  case emitUnlock =>
    rw [(Prog.path_op (UnixOp.core .emitUnlock) b r).mp h]
    cases add with
    | stored =>
      obtain rfl := hstep
      exact ⟨_, .listedLock stream .emitUnlock r rfl, rfl⟩
    | searching found =>
      obtain rfl := hstep
      exact ⟨_, .setLock stream found .emitUnlock r rfl, rfl⟩
  all_goals cases add <;> cases hstep

variable {cfg : Config} {entry : SinkEntry} {es : List Ev}

theorem findSlot_found {is : List ℕ} {i : ℕ} (h : (findSlot entry is).Path es (some i)) :
    (⟨.loadSlot i, entry⟩ : Ev) ∈ es := by
  induction is generalizing es with
  | nil =>
    obtain ⟨-, hnone⟩ := (Prog.path_pure _ _ _).mp h
    cases hnone
  | cons j is ih =>
    obtain ⟨slot, e₁, e₂, rfl, h₁, h₂⟩ := (Prog.path_bind _ _ _ _).mp h
    rw [path_loadSlot.mp h₁]
    rcases (Prog.path_ite _ _ _ _ _).mp h₂ with ⟨hslot, h₂⟩ | ⟨-, h₂⟩
    · obtain ⟨rfl, hi⟩ := (Prog.path_pure _ _ _).mp h₂
      obtain rfl := Option.some.inj hi
      rw [hslot]
      exact List.mem_append_left _ (List.mem_singleton_self _)
    · exact List.mem_append_right _ (ih h₂)

variable (entry) in
theorem steps_add_onlyLoads (h : OnlyLoads es) (found : Bool) : ∃ found',
    Steps (addStep entry) (.searching found) es (.searching found') ∧
      (found = true ∨ (∃ i, (⟨.loadSlot i, entry⟩ : Ev) ∈ es) → found' = true) := by
  induction es generalizing found with
  | nil =>
    refine ⟨found, rfl, fun hfound => ?_⟩
    rcases hfound with hfound | ⟨i, hi⟩
    · exact hfound
    · cases hi
  | cons e es ih =>
    obtain ⟨⟨i, slot, rfl⟩, htail⟩ := h.cons_inv
    obtain ⟨found', hsteps, hfound'⟩ := ih htail (found || decide (slot = entry))
    refine ⟨found', ⟨_, rfl, hsteps⟩, fun hfound => hfound' ?_⟩
    rcases hfound with rfl | ⟨j, hj⟩
    · exact Or.inl (Bool.true_or _)
    · rcases List.mem_cons.mp hj with heq | hj
      · cases heq
        left
        rw [decide_eq_true rfl, Bool.or_true]
      · exact Or.inr ⟨j, hj⟩

/-- `on9log_add_sink` inside the emit lock: the sink is in the table, or it is refused. -/
theorem steps_addEntry {r : Err} (h : (addEntry cfg entry.sink entry.ctx).Path es r) :
    (r = .ok ∧ (Steps (addStep entry) (.searching false) es .stored ∨
      Steps (addStep entry) (.searching false) es (.searching true))) ∨
    (r ≠ .ok ∧ ∃ found, Steps (addStep entry) (.searching false) es (.searching found)) := by
  obtain ⟨slot, e₁, _, rfl, h₁, h⟩ := (Prog.path_bind _ _ _ _).mp h
  obtain ⟨hl₁, -, -⟩ := findSink_spec h₁
  obtain ⟨found₁, hs₁, hf₁⟩ := steps_add_onlyLoads entry hl₁ false
  cases slot with
  | some i =>
    obtain ⟨rfl, rfl⟩ := (Prog.path_pure _ _ _).mp h
    rw [List.append_nil]
    rw [hf₁ (Or.inr ⟨i, findSlot_found h₁⟩)] at hs₁
    exact Or.inl ⟨rfl, Or.inr hs₁⟩
  | none =>
    obtain ⟨slot, e₂, _, rfl, h₂, h⟩ := (Prog.path_bind _ _ _ _).mp h
    obtain ⟨hl₂, -, -⟩ := findSink_spec h₂
    obtain ⟨found₂, hs₂, -⟩ := steps_add_onlyLoads entry hl₂ found₁
    cases slot with
    | some i =>
      obtain ⟨h₃, rfl⟩ := Prog.path_then_pure h
      rw [path_storeSlot.mp h₃]
      refine Or.inl ⟨rfl, Or.inl (steps_append.mpr ⟨_, hs₁, steps_append.mpr ⟨_, hs₂, ?_⟩⟩)⟩
      exact ⟨.stored, ⟨rfl, rfl⟩, rfl⟩
    | none =>
      obtain ⟨rfl, rfl⟩ := (Prog.path_pure _ _ _).mp h
      rw [List.append_nil]
      exact Or.inr ⟨nofun, found₂, steps_append.mpr ⟨_, hs₁, hs₂⟩⟩

/-- `on9log_add_sink` as a part of the initialisation. -/
theorem steps_addSink {es : List UnixEv} {r : Err} (stream : Ptr)
    (h : ((addSink u.cfg u.entry.sink u.callbacks u.entry.ctx).expand (perform u)).Path es r) :
    (r = .ok ∧ (Steps (PhaseStep u) (.set stream false) es (.listed stream) ∨
      Steps (PhaseStep u) (.set stream false) es (.set stream true))) ∨
    (r ≠ .ok ∧ ∃ found, Steps (PhaseStep u) (.set stream false) es (.set stream found)) := by
  obtain ⟨es', hpath, hex⟩ := Prog.path_expand h
  have hphases : ∀ add, Steps (addStep u.entry) (.searching false) es' add →
      Steps (PhaseStep u) (.set stream false) es (add.phase stream) := fun add hs =>
    hex.steps (Adding.phase stream) (fun _ _ _ _ hstep hb => steps_perform_add hstep hb) hs
  rcases (Prog.path_ite _ _ _ _ _).mp hpath with ⟨hinvalid, -⟩ | ⟨-, hpath⟩
  · obtain ⟨hsink, hstart, hpayload, hend⟩ := u.valid
    rcases hinvalid with h | h | h | h
    · exact absurd h hsink
    · exact absurd h hstart
    · exact absurd h hpayload
    · exact absurd h hend
  obtain ⟨e, hentry, rfl⟩ := path_locked hpath
  have hwhole : ∀ add, Steps (addStep u.entry) (.searching false) e add →
      Steps (addStep u.entry) (.searching false) (⟨.emitLock, ()⟩ :: e ++ [⟨.emitUnlock, ()⟩])
        add := by
    intro add hs
    refine ⟨_, rfl, steps_append.mpr ⟨add, hs, add, ?_, rfl⟩⟩
    cases add with
    | searching found => rfl
    | stored => rfl
  rcases steps_addEntry hentry with ⟨hok, hs | hs⟩ | ⟨hno, found, hs⟩
  · exact Or.inl ⟨hok, Or.inl (hphases _ (hwhole _ hs))⟩
  · exact Or.inl ⟨hok, Or.inr (hphases _ (hwhole _ hs))⟩
  · exact Or.inr ⟨hno, found, hphases _ (hwhole _ hs)⟩

/-! ### Initialisation -/

variable {es : List UnixEv}

theorem steps_writeImageMetadata {stream : Ptr} {g : Phase} {v : Unit}
    (hlock : PhaseStep u g ⟨.flockfile stream, ()⟩ (.locked stream))
    (h : (writeImageMetadata u stream).Path es v) : Steps (PhaseStep u) g es .leaving := by
  obtain ⟨_, e₁, _, rfl, h₁, h⟩ := (Prog.path_bind _ _ _ _).mp h
  obtain ⟨_, e₂, e₃, rfl, h₂, h₃⟩ := (Prog.path_bind _ _ _ _).mp h
  rw [(Prog.path_op _ _ _).mp h₁, (Prog.path_op _ _ _).mp h₂, (Prog.path_op _ _ _).mp h₃]
  exact ⟨_, hlock, _, .print stream, _, .release stream, rfl⟩

/-- Behind the check of `s_stdio.stream`. -/
theorem steps_register {stream : Ptr} {err : Err} {es₁ es₂ : List UnixEv} {v : Unit}
    (h₁ : ((addSink u.cfg u.entry.sink u.callbacks u.entry.ctx).expand (perform u)).Path es₁ err)
    (h₂ : (stdioAdded u stream err).Path es₂ v) :
    Steps (PhaseStep u) (.set stream false) (es₁ ++ es₂) .leaving := by
  rcases steps_addSink stream h₁ with ⟨rfl, hs⟩ | ⟨hno, found, hs⟩
  · rcases (Prog.path_ite _ _ _ _ _).mp h₂ with ⟨hno, -⟩ | ⟨-, h₂⟩
    · exact absurd rfl hno
    · rcases hs with hs | hs
      · exact steps_append.mpr ⟨_, hs, steps_writeImageMetadata (.lock stream) h₂⟩
      · exact steps_append.mpr ⟨_, hs, steps_writeImageMetadata (.found stream) h₂⟩
  · rcases (Prog.path_ite _ _ _ _ _).mp h₂ with ⟨-, h₂⟩ | ⟨hok, -⟩
    · rw [(Prog.path_op _ _ _).mp h₂]
      exact steps_append.mpr ⟨_, hs, _, .refuse stream found, rfl⟩
    · exact absurd hno hok

theorem steps_stdioInitLocked {stream : Ptr} (hstream : stream ≠ 0) {err : Err}
    (h : (stdioInitLocked u stream).Path es err) :
    Steps (PhaseStep u) .entered es .leaving := by
  obtain ⟨current, e₁, _, rfl, h₁, h⟩ := (Prog.path_bind _ _ _ _).mp h
  rw [(Prog.path_op _ _ _).mp h₁, List.singleton_append]
  rcases (Prog.path_ite _ _ _ _ _).mp h with ⟨hcurrent, h⟩ | ⟨hcurrent, h⟩
  · obtain ⟨again, e₂, _, rfl, h₂, h⟩ := (Prog.path_bind _ _ _ _).mp h
    obtain ⟨rfl, -⟩ := (Prog.path_pure _ _ _).mp h
    rw [(Prog.path_op _ _ _).mp h₂]
    exact ⟨_, .taken current hcurrent, _, .again again, rfl⟩
  · obtain ⟨_, e₂, _, rfl, h₂, h⟩ := (Prog.path_bind _ _ _ _).mp h
    obtain ⟨err, e₃, _, rfl, h₃, h⟩ := (Prog.path_bind _ _ _ _).mp h
    obtain ⟨h₄, rfl⟩ := Prog.path_then_pure h
    rw [(Prog.path_op _ _ _).mp h₂]
    obtain rfl : current = 0 := not_not.mp hcurrent
    have hregister := steps_register h₃ h₄
    exact ⟨_, .vacant, _, .set stream hstream, hregister⟩

theorem steps_stdioInitFile {stream : Ptr} {err : Err}
    (h : (stdioInitFile u stream).Path es err) : Steps (PhaseStep u) .idle es .idle := by
  rcases (Prog.path_ite _ _ _ _ _).mp h with ⟨-, h⟩ | ⟨hstream, h⟩
  · obtain ⟨rfl, -⟩ := (Prog.path_pure _ _ _).mp h
    rfl
  rcases (Prog.path_ite _ _ _ _ _).mp h with ⟨-, h⟩ | ⟨-, h⟩
  · obtain ⟨rfl, -⟩ := (Prog.path_pure _ _ _).mp h
    rfl
  obtain ⟨_, e₁, _, rfl, h₁, h⟩ := (Prog.path_bind _ _ _ _).mp h
  obtain ⟨err, e₂, _, rfl, h₂, h⟩ := (Prog.path_bind _ _ _ _).mp h
  obtain ⟨h₃, rfl⟩ := Prog.path_then_pure h
  rw [(Prog.path_op _ _ _).mp h₁, (Prog.path_op _ _ _).mp h₃, List.singleton_append]
  exact ⟨_, .enter, steps_append.mpr ⟨_, steps_stdioInitLocked hstream h₂, _, .leave, rfl⟩⟩

/-- Every call begins and ends idle. -/
theorem steps_unixBody (call : UnixCall u) (es : List UnixEv) (v : Res)
    (h : (unixBody u call).Path es v) : Steps (PhaseStep u) .idle es .idle := by
  cases call with
  | core call hforeign => exact steps_core hforeign h
  | stdioInitFile stream =>
    obtain ⟨err, e₁, _, rfl, h₁, h⟩ := (Prog.path_bind _ _ _ _).mp h
    obtain ⟨rfl, -⟩ := (Prog.path_pure _ _ _).mp h
    rw [List.append_nil]
    exact steps_stdioInitFile h₁
  | stdioInit =>
    obtain ⟨err, e₁, _, rfl, h₁, h⟩ := (Prog.path_bind _ _ _ _).mp h
    obtain ⟨rfl, -⟩ := (Prog.path_pure _ _ _).mp h
    rw [List.append_nil]
    exact steps_stdioInitFile h₁

end On9log
