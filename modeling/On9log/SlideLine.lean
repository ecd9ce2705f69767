import On9log.InitPhases
import On9log.Solo

/-!
# The image-slide line and the frames (on9log_unix_stdio.c:174-214, README.md:42-43)

The sink is in the table before the line is written, and the emit lock is given
back in between. What a frame written in that time does is what decides whether
the line leads the stream: it leads in exactly the runs in which no frame is
written while a thread that has put the sink into the table does not yet have
the lock of the stream. Behind that lock the line is written before any frame;
before the store nobody knows the sink; and the first mutex lets only one
thread ever register it.
-/

namespace On9log
open Lib

/-- Every frame on a stream has the line of the image before it on that stream. -/
def LineLeads (slide : UInt32) (written : List StdioWrite) : Prop :=
  ∀ before stream payload after, written = before ++ ⟨stream, .frame payload⟩ :: after →
    ⟨stream, .text (imageSlideLine slide)⟩ ∈ before

/-- In these events of a call the sink was put into the table, and behind that no stream
was locked. -/
def Registering (entry : SinkEntry) (es : List UnixEv) : Prop :=
  ∃ es₁ i es₂, es = es₁ ++ ⟨.core (.storeSlot i entry), ()⟩ :: es₂ ∧
    ∀ stream, (⟨.flockfile stream, ()⟩ : UnixEv) ∉ es₂

section Trace

variable {Tid : Type} {u : UnixBuild}

abbrev UnixTrace (Tid : Type) (u : UnixBuild) := List (Label Tid (UnixCall u) UnixOp UnixOp.Ret Res)

/-- No frame is written while a thread is registering the sink. -/
def FramesWait [DecidableEq Tid] (tr : UnixTrace Tid u) : Prop :=
  ∀ tr₂ t stream tr₁, tr = tr₂ ++ .act t ⟨.writeFrame stream, ()⟩ :: tr₁ →
    ∀ v, ¬ Registering u.entry (callEvents v tr₁)

/-- The sink was put into the table. -/
def Stored (tr : UnixTrace Tid u) : Prop :=
  ∃ i, (⟨.core (.storeSlot i u.entry), ()⟩ : UnixEv) ∈ actEvents tr

end Trace

/-! ### One more step -/

section Snoc

variable {entry : SinkEntry} {es : List UnixEv} {e : UnixEv} {slide : UInt32}
  {written : List StdioWrite} {stream : Ptr}

theorem registering_snoc : Registering entry (es ++ [e]) ↔
    (∃ i, e = ⟨.core (.storeSlot i entry), ()⟩) ∨
      (Registering entry es ∧ ∀ stream, e ≠ ⟨.flockfile stream, ()⟩) := by
  constructor
  · rintro ⟨es₁, i, es₂, heq, hno⟩
    rcases List.eq_nil_or_concat' es₂ with rfl | ⟨es₃, last, rfl⟩
    · obtain ⟨-, hlast⟩ := List.append_inj' heq rfl
      exact Or.inl ⟨i, List.singleton_inj.mp hlast⟩
    · rw [← List.cons_append, ← List.append_assoc] at heq
      obtain ⟨hes, hlast⟩ := List.append_inj' heq rfl
      obtain rfl := List.singleton_inj.mp hlast
      refine Or.inr ⟨⟨es₁, i, es₃, hes, fun stream hmem => ?_⟩, fun stream hlock => ?_⟩
      · exact hno stream (List.mem_append_left _ hmem)
      · exact hno stream (List.mem_append_right _ (List.mem_singleton.mpr hlock.symm))
  · rintro (⟨i, rfl⟩ | ⟨⟨es₁, i, es₂, rfl, hno⟩, hlock⟩)
    · exact ⟨es, i, [], rfl, fun _ => List.not_mem_nil⟩
    · refine ⟨es₁, i, es₂ ++ [e], ?_, fun stream hmem => ?_⟩
      · rw [List.append_assoc, List.cons_append]
      · rcases List.mem_append.mp hmem with hmem | hmem
        · exact hno stream hmem
        · exact hlock stream (List.mem_singleton.mp hmem).symm

theorem lineLeads_nil : LineLeads slide [] := by
  intro before stream payload after heq
  cases before <;> cases heq

theorem lineLeads_text {text : Text} :
    LineLeads slide (written ++ [⟨stream, .text text⟩]) ↔ LineLeads slide written := by
  constructor
  · intro h before f payload after heq
    refine h before f payload (after ++ [⟨stream, .text text⟩]) ?_
    rw [heq, List.append_assoc, List.cons_append]
  · intro h before f payload after heq
    rcases List.eq_nil_or_concat' after with rfl | ⟨after, last, rfl⟩
    · obtain ⟨-, hlast⟩ := List.append_inj' heq rfl
      cases hlast
    · rw [← List.cons_append, ← List.append_assoc] at heq
      exact h before f payload after (List.append_inj' heq rfl).1

theorem lineLeads_frame {payload : List UInt8} :
    LineLeads slide (written ++ [⟨stream, .frame payload⟩]) ↔
      LineLeads slide written ∧ ⟨stream, .text (imageSlideLine slide)⟩ ∈ written := by
  constructor
  · intro h
    refine ⟨fun before f p after heq => ?_, h written stream payload [] rfl⟩
    refine h before f p (after ++ [⟨stream, .frame payload⟩]) ?_
    rw [heq, List.append_assoc, List.cons_append]
  · rintro ⟨h, hline⟩ before f p after heq
    rcases List.eq_nil_or_concat' after with rfl | ⟨after, last, rfl⟩
    · obtain ⟨rfl, hlast⟩ := List.append_inj' heq rfl
      cases hlast
      exact hline
    · rw [← List.cons_append, ← List.append_assoc] at heq
      exact h before f p after (List.append_inj' heq rfl).1

end Snoc

section Cons

variable {Tid : Type} [DecidableEq Tid] {u : UnixBuild} {tr : UnixTrace Tid u} {t : Tid}
  {l : Label Tid (UnixCall u) UnixOp UnixOp.Ret Res} {e : UnixEv}

theorem framesWait_nil : FramesWait ([] : UnixTrace Tid u) := by
  intro tr₂ t stream tr₁ heq
  cases tr₂ <;> cases heq

theorem framesWait_other (hl : ∀ t stream, l ≠ .act t ⟨.writeFrame stream, ()⟩) :
    FramesWait (l :: tr) ↔ FramesWait tr := by
  constructor
  · intro h tr₂ t stream tr₁ heq
    refine h (l :: tr₂) t stream tr₁ ?_
    rw [heq, List.cons_append]
  · intro h tr₂ t stream tr₁ heq
    cases tr₂ with
    | nil => exact absurd (List.cons.inj heq).1 (hl t stream)
    | cons _ tr₂ => exact h tr₂ t stream tr₁ (List.cons.inj heq).2

theorem framesWait_frame {stream : Ptr} :
    FramesWait (.act t ⟨.writeFrame stream, ()⟩ :: tr) ↔
      FramesWait tr ∧ ∀ v, ¬ Registering u.entry (callEvents v tr) := by
  constructor
  · intro h
    refine ⟨fun tr₂ t' f tr₁ heq => ?_, h [] t stream tr rfl⟩
    refine h (.act t ⟨.writeFrame stream, ()⟩ :: tr₂) t' f tr₁ ?_
    rw [heq, List.cons_append]
  · rintro ⟨h, hnone⟩ tr₂ t' f tr₁ heq
    cases tr₂ with
    | nil =>
      obtain ⟨-, rfl⟩ := List.cons.inj heq
      exact hnone
    | cons _ tr₂ => exact h tr₂ t' f tr₁ (List.cons.inj heq).2

omit [DecidableEq Tid] in
theorem stored_act : Stored (.act t e :: tr) ↔
    Stored tr ∨ ∃ i, e = ⟨.core (.storeSlot i u.entry), ()⟩ := by
  show (∃ i, _ ∈ actEvents tr ++ [e]) ↔ _
  simp only [List.mem_append, List.mem_singleton, exists_or]
  exact or_congr Iff.rfl (exists_congr fun _ => eq_comm)

end Cons

/-! ### The invariant -/

variable {Tid : Type} {u : UnixBuild}

def Announced (u : UnixBuild) (s : UnixShared Tid) : Prop :=
  ⟨s.stream, .text (imageSlideLine u.slide)⟩ ∈ s.written

/-- What the memory looks like to a thread in this phase; `stored` when the sink was put into
the table. -/
def Phase.Fits (u : UnixBuild) (s : UnixShared Tid) (stored : Prop) : Phase → Prop
  | .logging use loaded => (use.seen = true → stored) ∧ (use.seen = false → use.started = 0) ∧
    ∀ stream, loaded = some stream → stored ∧ stream = s.stream
  | .entered => True
  | .vacant => s.stream = 0
  | .set stream found => s.stream = stream ∧ stream ≠ 0 ∧ ¬ stored ∧ found = false
  | .listed stream => s.stream = stream ∧ stored ∧ ¬ Announced u s
  | .locked stream => s.stream = stream ∧ stored ∧ ¬ Announced u s
  | .printed stream => s.stream = stream ∧ Announced u s
  | .leaving => True

variable [DecidableEq Tid]

structure StdioInv (u : UnixBuild) (s : UnixShared Tid) (tr : UnixTrace Tid u)
    (g : Tid → Phase) : Prop where
  owner : ∀ t, (g t).inside = true → s.initOwner = some t
  fits : ∀ t, (g t).Fits u s (Stored tr)
  registering : ∀ t, Registering u.entry (callEvents t tr) ↔ ∃ stream, g t = .listed stream
  files : ∀ stream t n, s.fileLock stream = some (t, n) ↔ stream = s.stream ∧ (g t).depth = n + 1
  table : ∀ i, s.core.sinks i = u.entry → Stored tr
  written : ∀ w ∈ s.written, w.stream = s.stream ∧ Stored tr
  stored : Stored tr → s.stream ≠ 0 ∧
    (Announced u s ∨ ∃ t, g t = .listed s.stream ∨ g t = .locked s.stream)
  leads : LineLeads u.slide s.written ↔ FramesWait tr

theorem stdioInv_init : StdioInv u UnixShared.init [] fun _ : Tid => Phase.idle where
  owner t h := by cases h
  fits t := ⟨nofun, fun _ => rfl, nofun⟩
  registering t := by
    constructor
    · rintro ⟨es₁, i, es₂, heq, -⟩
      cases es₁ <;> cases heq
    · rintro ⟨stream, heq⟩
      cases heq
  files stream t n := by
    constructor
    · intro h
      cases h
    · rintro ⟨-, h⟩
      cases h
  table i h := absurd (congrArg SinkEntry.sink h).symm u.valid.1
  written w hw := by cases hw
  stored h := by
    obtain ⟨i, hi⟩ := h
    cases hi
  leads := iff_of_true lineLeads_nil framesWait_nil

namespace StdioInv

variable {s : UnixShared Tid} {tr : UnixTrace Tid u} {g : Tid → Phase} {t v : Tid} {p : Phase}
  {e : UnixEv}

/-- Only one thread is inside. -/
theorem one_inside (h : StdioInv u s tr g) (ht : (g t).inside = true) (hv : (g v).inside = true) :
    v = t := by
  have heq := h.owner v hv
  rw [h.owner t ht] at heq
  exact (Option.some.inj heq).symm

theorem owns (h : StdioInv u s tr g) {n : ℕ} (ht : (g t).depth = n + 1) :
    s.fileLock s.stream = some (t, n) := (h.files _ t n).mpr ⟨rfl, ht⟩

/-- Only one thread has the lock of the stream. -/
theorem one_owner (h : StdioInv u s tr g) (ht : (g t).depth ≠ 0) (hv : v ≠ t) :
    (g v).depth = 0 := by
  obtain ⟨n, hn⟩ := Nat.exists_eq_succ_of_ne_zero ht
  by_contra hne
  obtain ⟨m, hm⟩ := Nat.exists_eq_succ_of_ne_zero hne
  have heq := h.owns hn
  rw [h.owns hm] at heq
  exact hv (Prod.mk.inj (Option.some.inj heq)).1

/-- Before the sink is in the table nobody has locked the stream, as long as none is inside. -/
theorem depth_eq_zero (h : StdioInv u s tr g) (hno : ¬ Stored tr) (v : Tid) : (g v).depth = 0 := by
  have hfits := h.fits v
  cases hp : g v with
  | logging use loaded =>
    rw [hp] at hfits
    obtain ⟨hseen, hunseen, -⟩ := hfits
    cases hs : use.seen with
    | true => exact absurd (hseen hs) hno
    | false => exact hunseen hs
  | locked stream =>
    rw [hp] at hfits
    exact absurd hfits.2.1 hno
  | printed stream =>
    rw [hp] at hfits
    exact absurd (h.written _ hfits.2).2 hno
  | entered => rfl
  | vacant => rfl
  | set stream found => rfl
  | listed stream => rfl
  | leaving => rfl

theorem written_eq_nil (h : StdioInv u s tr g) (hno : ¬ Stored tr) : s.written = [] := by
  refine List.eq_nil_iff_forall_not_mem.mpr fun w hw => ?_
  exact hno (h.written w hw).2

/-- One more write to the stream, when the sink is in the table. -/
theorem written_snoc (h : StdioInv u s tr g) {tr' : UnixTrace Tid u}
    (hstored : Stored tr' ↔ Stored tr) (hin : Stored tr) (x : StdioContent) :
    ∀ w ∈ s.written ++ [⟨s.stream, x⟩], w.stream = s.stream ∧ Stored tr' := by
  intro w hw
  rcases List.mem_append.mp hw with hw | hw
  · exact ⟨(h.written w hw).1, hstored.mpr (h.written w hw).2⟩
  · rw [List.mem_singleton.mp hw]
    exact ⟨rfl, hstored.mpr hin⟩

/-! ### What every step keeps -/

theorem phaseStep_registering {p p' : Phase} (hstep : PhaseStep u p e p') {es : List UnixEv}
    (h : Registering u.entry es ↔ ∃ stream, p = .listed stream) :
    Registering u.entry (es ++ [e]) ↔ ∃ stream, p' = .listed stream := by
  rw [registering_snoc, h]
  cases hstep with
  | core use loaded o r ho =>
    refine iff_of_false ?_ nofun
    rintro (⟨i, heq⟩ | ⟨⟨_, heq⟩, -⟩)
    · cases heq
      exact ho rfl
    · cases heq
  | field use loaded o r ho =>
    refine iff_of_false ?_ nofun
    rintro (⟨i, heq⟩ | ⟨⟨_, heq⟩, -⟩)
    · cases heq
      cases ho
    · cases heq
  | setLock stream found o r ho =>
    refine iff_of_false ?_ nofun
    rintro (⟨i, heq⟩ | ⟨⟨_, heq⟩, -⟩)
    · cases heq
      cases ho
    · cases heq
  | list stream found i => exact iff_of_true (Or.inl ⟨i, rfl⟩) ⟨stream, rfl⟩
  | listedLock stream o r ho => exact iff_of_true (Or.inr ⟨⟨stream, rfl⟩, nofun⟩) ⟨stream, rfl⟩
  | lock stream =>
    refine iff_of_false ?_ nofun
    rintro (⟨i, heq⟩ | ⟨-, hno⟩)
    · cases heq
    · exact hno stream rfl
  | _ =>
    refine iff_of_false ?_ nofun
    rintro (⟨i, heq⟩ | ⟨⟨_, heq⟩, -⟩) <;> cases heq

theorem registering_act (h : StdioInv u s tr g) (hstep : PhaseStep u (g t) e p) :
    ∀ v, Registering u.entry (callEvents v (.act t e :: tr)) ↔
      ∃ stream, Function.update g t p v = .listed stream := by
  intro v
  by_cases hvt : t = v
  · subst hvt
    rw [callEvents, if_pos rfl, Function.update_self]
    exact phaseStep_registering hstep (h.registering t)
  · rw [callEvents, if_neg hvt, Function.update_of_ne (Ne.symm hvt)]
    exact h.registering v

/-- The thread that is registering the sink, if it stays or takes the lock. -/
theorem registering_update {stream : Ptr}
    (hkeep : g t = .listed stream ∨ g t = .locked stream → p = .listed stream ∨ p = .locked stream)
    (h : ∃ v, g v = .listed stream ∨ g v = .locked stream) :
    ∃ v, Function.update g t p v = .listed stream ∨ Function.update g t p v = .locked stream := by
  obtain ⟨v, hv⟩ := h
  by_cases hvt : v = t
  · subst hvt
    refine ⟨v, ?_⟩
    rw [Function.update_self]
    exact hkeep hv
  · refine ⟨v, ?_⟩
    rw [Function.update_of_ne hvt]
    exact hv

theorem owner_update (h : StdioInv u s tr g) (hinside : p.inside = (g t).inside) :
    ∀ v, (Function.update g t p v).inside = true → s.initOwner = some v :=
  (Function.forall_update_iff g fun v p => p.inside = true → s.initOwner = some v).mpr
    ⟨fun hp => h.owner t (hinside ▸ hp), fun v _ => h.owner v⟩

omit [DecidableEq Tid] in
/-- A phase fits on as long as the stream, the line and the table are what they were. -/
theorem fits_of_same {s s' : UnixShared Tid} {stored stored' : Prop}
    (hstream : s'.stream = s.stream) (hline : Announced u s' ↔ Announced u s)
    (hstored : stored' ↔ stored) (h : p.Fits u s stored) : p.Fits u s' stored' := by
  cases p with
  | logging use loaded =>
    rw [Phase.Fits, hstored, hstream]
    exact h
  | entered => trivial
  | vacant => exact hstream.trans h
  | set stream found =>
    rw [Phase.Fits, hstored, hstream]
    exact h
  | listed stream =>
    rw [Phase.Fits, hstored, hstream, hline]
    exact h
  | locked stream =>
    rw [Phase.Fits, hstored, hstream, hline]
    exact h
  | printed stream =>
    rw [Phase.Fits, hstream, hline]
    exact h
  | leaving => trivial

theorem files_same (h : StdioInv u s tr g) (hdepth : p.depth = (g t).depth) :
    ∀ stream v n, s.fileLock stream = some (v, n) ↔
      stream = s.stream ∧ (Function.update g t p v).depth = n + 1 := by
  intro stream v n
  rw [h.files stream v n]
  by_cases hvt : v = t
  · rw [hvt, Function.update_self, hdepth]
  · rw [Function.update_of_ne hvt]

theorem fits_update (h : StdioInv u s tr g) {s' : UnixShared Tid} {tr' : UnixTrace Tid u}
    (hstream : s'.stream = s.stream) (hline : Announced u s' ↔ Announced u s)
    (hstored : Stored tr' ↔ Stored tr) (hp : p.Fits u s (Stored tr)) :
    ∀ v, (Function.update g t p v).Fits u s' (Stored tr') :=
  (Function.forall_update_iff g fun _ p => p.Fits u s' (Stored tr')).mpr
    ⟨fits_of_same hstream hline hstored hp, fun v _ => fits_of_same hstream hline hstored (h.fits v)⟩

/-! ### The lock of the stream -/

/-- The lock of a stream that `t` has taken so many times. -/
def lockOf (t : Tid) : ℕ → Option (Tid × ℕ)
  | 0 => none
  | n + 1 => some (t, n)

theorem lockTaken_lockOf (n : ℕ) : lockTaken t (lockOf t n) = lockOf t (n + 1) := by
  cases n with
  | zero => rfl
  | succ n => exact if_pos rfl

omit [DecidableEq Tid] in
theorem lockReleased_lockOf (n : ℕ) : lockReleased (lockOf t (n + 1)) = lockOf t n := by
  cases n <;> rfl

theorem fileLock_eq (h : StdioInv u s tr g) (halone : ∀ v, v ≠ t → (g v).depth = 0) :
    s.fileLock s.stream = lockOf t (g t).depth := by
  cases hlock : s.fileLock s.stream with
  | none =>
    cases hd : (g t).depth with
    | zero => rfl
    | succ n =>
      rw [h.owns hd] at hlock
      cases hlock
  | some held =>
    obtain ⟨v, n⟩ := held
    obtain ⟨-, hdepth⟩ := (h.files _ v n).mp hlock
    by_cases hvt : v = t
    · rw [← hvt, hdepth]
      rfl
    · rw [halone v hvt] at hdepth
      cases hdepth

theorem alone_of_lockTaken (h : StdioInv u s tr g)
    (htake : lockTaken t (s.fileLock s.stream) ≠ none) : ∀ v, v ≠ t → (g v).depth = 0 := by
  intro v hvt
  cases hd : (g v).depth with
  | zero => rfl
  | succ n =>
    rw [h.owns hd] at htake
    exact absurd (if_neg hvt) htake

theorem files_update (h : StdioInv u s tr g) (halone : ∀ v, v ≠ t → (g v).depth = 0) :
    ∀ stream v n,
      Function.update s.fileLock s.stream (lockOf t p.depth) stream = some (v, n) ↔
        stream = s.stream ∧ (Function.update g t p v).depth = n + 1 := by
  intro stream v n
  by_cases hstream : stream = s.stream
  · subst hstream
    rw [Function.update_self]
    by_cases hvt : v = t
    · subst hvt
      rw [Function.update_self]
      cases p.depth with
      | zero => exact iff_of_false nofun nofun
      | succ m =>
        show some (v, m) = some (v, n) ↔ s.stream = s.stream ∧ m + 1 = n + 1
        simp
    · rw [Function.update_of_ne hvt, halone v hvt]
      refine iff_of_false (fun heq => ?_) nofun
      cases hd : p.depth with
      | zero =>
        rw [hd] at heq
        cases heq
      | succ m =>
        rw [hd] at heq
        exact hvt (Prod.mk.inj (Option.some.inj heq)).1.symm
  · rw [Function.update_of_ne hstream]
    refine iff_of_false (fun heq => ?_) fun hboth => hstream hboth.1
    exact hstream ((h.files stream v n).mp heq).1

/-! ### One step -/

/-- A step that touches neither the stream nor its lock. -/
theorem silent (h : StdioInv u s tr g) (hstep : PhaseStep u (g t) e p) {core : Shared Tid}
    {initOwner : Option Tid} {stdio : StdioState}
    (howner : ∀ v, (Function.update g t p v).inside = true → initOwner = some v)
    (htable : ∀ i, core.sinks i = u.entry → s.core.sinks i = u.entry)
    (hstore : ∀ i, e ≠ ⟨.core (.storeSlot i u.entry), ()⟩)
    (hframe : ∀ stream, e ≠ ⟨.writeFrame stream, ()⟩) (hdepth : p.depth = (g t).depth)
    (hkeep : ∀ stream, g t = .listed stream ∨ g t = .locked stream → p = g t)
    (hfits : p.Fits u s (Stored tr)) :
    StdioInv u { s with core := core, initOwner := initOwner, stdio := stdio } (.act t e :: tr)
      (Function.update g t p) := by
  have hstored : Stored (.act t e :: tr) ↔ Stored tr := by
    rw [stored_act]
    exact or_iff_left fun hex => hex.elim hstore
  refine ⟨howner, h.fits_update rfl Iff.rfl hstored hfits,
    h.registering_act hstep, h.files_same hdepth, fun i hi => ?_, fun w hw => ?_, fun hst => ?_, ?_⟩
  · exact hstored.mpr (h.table i (htable i hi))
  · exact ⟨(h.written w hw).1, hstored.mpr (h.written w hw).2⟩
  · obtain ⟨hne, hcase⟩ := h.stored (hstored.mp hst)
    refine ⟨hne, hcase.imp_right (registering_update fun hp => ?_)⟩
    rw [hkeep _ hp]
    exact hp
  · refine h.leads.trans (framesWait_other fun v stream heq => ?_).symm
    cases heq
    exact hframe stream rfl

/-- A step that only moves the lock of the stream. -/
theorem relock (h : StdioInv u s tr g) (hstep : PhaseStep u (g t) e p)
    (halone : ∀ v, v ≠ t → (g v).depth = 0)
    (hstore : ∀ i, e ≠ ⟨.core (.storeSlot i u.entry), ()⟩)
    (hframe : ∀ stream, e ≠ ⟨.writeFrame stream, ()⟩) (hinside : p.inside = (g t).inside)
    (hkeep : ∀ stream, g t = .listed stream ∨ g t = .locked stream → p = .locked stream)
    (hfits : p.Fits u s (Stored tr)) :
    StdioInv u
      { s with fileLock := Function.update s.fileLock s.stream (lockOf t p.depth) }
      (.act t e :: tr) (Function.update g t p) := by
  have hstored : Stored (.act t e :: tr) ↔ Stored tr := by
    rw [stored_act]
    exact or_iff_left fun hex => hex.elim hstore
  refine ⟨h.owner_update hinside, h.fits_update rfl Iff.rfl hstored hfits,
    h.registering_act hstep, h.files_update halone, fun i hi => hstored.mpr (h.table i hi),
    fun w hw => ⟨(h.written w hw).1, hstored.mpr (h.written w hw).2⟩, fun hst => ?_, ?_⟩
  · obtain ⟨hne, hcase⟩ := h.stored (hstored.mp hst)
    exact ⟨hne, hcase.imp_right (registering_update fun hp => Or.inr (hkeep _ hp))⟩
  · refine h.leads.trans (framesWait_other fun v stream heq => ?_).symm
    cases heq
    exact hframe stream rfl

theorem flockfile (h : StdioInv u s tr g) {stream : Ptr}
    (hstep : PhaseStep u (g t) ⟨.flockfile stream, ()⟩ p)
    (htake : lockTaken t (s.fileLock stream) ≠ none) :
    StdioInv u
      { s with fileLock := Function.update s.fileLock stream (lockTaken t (s.fileLock stream)) }
      (.act t ⟨.flockfile stream, ()⟩ :: tr) (Function.update g t p) := by
  have hfits := h.fits t
  have hlock : s.stream = stream → p.depth = (g t).depth + 1 →
      p.inside = (g t).inside →
      (∀ f, g t = .listed f ∨ g t = .locked f → p = .locked f) → p.Fits u s (Stored tr) →
      StdioInv u
        { s with fileLock := Function.update s.fileLock stream (lockTaken t (s.fileLock stream)) }
        (.act t ⟨.flockfile stream, ()⟩ :: tr) (Function.update g t p) := by
    rintro rfl hdepth hinside hkeep hp
    have halone := h.alone_of_lockTaken htake
    have hrelock := h.relock hstep halone nofun nofun hinside hkeep hp
    rw [hdepth, ← lockTaken_lockOf, ← h.fileLock_eq halone] at hrelock
    exact hrelock
  generalize hg : g t = phase at hstep hfits hlock
  cases hstep with
  | field _ _ _ _ hfield => cases hfield
  | flock n _ =>
    obtain ⟨hseen, -, hloaded⟩ := hfits
    obtain ⟨hstored, rfl⟩ := hloaded _ rfl
    exact hlock rfl rfl rfl (by simp) ⟨hseen, nofun, nofun⟩
  | found _ =>
    obtain ⟨-, -, -, hfound⟩ := hfits
    cases hfound
  | lock _ =>
    obtain ⟨hstream, hrest⟩ := hfits
    exact hlock hstream rfl rfl (by simp) ⟨hstream, hrest⟩

theorem funlockfile (h : StdioInv u s tr g) {stream : Ptr}
    (hstep : PhaseStep u (g t) ⟨.funlockfile stream, ()⟩ p) :
    StdioInv u
      { s with fileLock := Function.update s.fileLock stream (lockReleased (s.fileLock stream)) }
      (.act t ⟨.funlockfile stream, ()⟩ :: tr) (Function.update g t p) := by
  have hfits := h.fits t
  have hunlock : s.stream = stream → (g t).depth = p.depth + 1 →
      p.inside = (g t).inside →
      (∀ f, g t = .listed f ∨ g t = .locked f → p = .locked f) → p.Fits u s (Stored tr) →
      StdioInv u
        { s with fileLock := Function.update s.fileLock stream (lockReleased (s.fileLock stream)) }
        (.act t ⟨.funlockfile stream, ()⟩ :: tr) (Function.update g t p) := by
    rintro rfl hdepth hinside hkeep hp
    have halone : ∀ v, v ≠ t → (g v).depth = 0 := fun v =>
      h.one_owner (by rw [hdepth]; exact Nat.succ_ne_zero _)
    have hrelock := h.relock hstep halone nofun nofun hinside hkeep hp
    rw [← lockReleased_lockOf, ← hdepth, ← h.fileLock_eq halone] at hrelock
    exact hrelock
  generalize hg : g t = phase at hstep hfits hunlock
  cases hstep with
  | field _ _ _ _ hfield => cases hfield
  | funlock n _ =>
    obtain ⟨hseen, -, hloaded⟩ := hfits
    obtain ⟨hstored, rfl⟩ := hloaded _ rfl
    exact hunlock rfl rfl rfl (by simp) ⟨hseen, nofun, nofun⟩
  | release _ =>
    obtain ⟨hstream, -⟩ := hfits
    exact hunlock hstream rfl rfl (by simp) trivial

/-- A frame leads to nothing wrong exactly if nobody is registering the sink. -/
theorem writeFrame (h : StdioInv u s tr g) {stream : Ptr} {payload : List UInt8}
    {stdio : StdioState} (hstep : PhaseStep u (g t) ⟨.writeFrame stream, ()⟩ p) :
    StdioInv u (s.write stream (.frame payload) stdio) (.act t ⟨.writeFrame stream, ()⟩ :: tr)
      (Function.update g t p) := by
  have hfits := h.fits t
  have hsame : ∃ n, g t = .logging ⟨true, n + 1⟩ (some stream) ∧
      p = .logging ⟨true, n + 1⟩ none := by
    generalize g t = phase at hstep
    cases hstep with
    | field _ _ _ _ hfield => cases hfield
    | frame n _ => exact ⟨n, rfl, rfl⟩
  obtain ⟨n, hg, rfl⟩ := hsame
  rw [hg] at hfits
  obtain ⟨hseen, -, hloaded⟩ := hfits
  obtain ⟨hin, rfl⟩ := hloaded stream rfl
  have hstored : Stored (.act t ⟨.writeFrame s.stream, ()⟩ :: tr) ↔ Stored tr := by
    rw [stored_act]
    exact or_iff_left (by simp)
  have hline : Announced u (s.write s.stream (.frame payload) stdio) ↔ Announced u s := by
    show _ ∈ s.written ++ [_] ↔ _
    rw [List.mem_append, List.mem_singleton]
    exact or_iff_left (by simp)
  have hdepth : (g t).depth = n + 1 := by
    rw [hg]
    rfl
  refine ⟨h.owner_update (by rw [hg]; rfl), h.fits_update rfl hline hstored ⟨hseen, nofun, nofun⟩,
    h.registering_act hstep, h.files_same (by rw [hg]; rfl), fun i hi => hstored.mpr (h.table i hi),
    h.written_snoc hstored hin _, fun hst => ?_, ?_⟩
  · obtain ⟨hne, hcase⟩ := h.stored (hstored.mp hst)
    refine ⟨hne, Or.imp hline.mpr (registering_update fun hp => ?_) hcase⟩
    rw [hg] at hp
    rcases hp with hp | hp <;> cases hp
  · show LineLeads u.slide (s.written ++ [_]) ↔ _
    rw [lineLeads_frame, framesWait_frame, h.leads]
    refine and_congr_right fun _ => ?_
    -- the line is there, or a thread is on its way to it; that thread cannot have the lock
    obtain ⟨-, hannounced | ⟨v, hv | hv⟩⟩ := h.stored hin
    · refine iff_of_true hannounced fun v hreg => ?_
      obtain ⟨f, hf⟩ := (h.registering v).mp hreg
      have hlisted := h.fits v
      rw [hf] at hlisted
      exact hlisted.2.2 hannounced
    · have hlisted := h.fits v
      rw [hv] at hlisted
      refine iff_of_false hlisted.2.2 fun hnone => hnone v ?_
      exact (h.registering v).mpr ⟨_, hv⟩
    · have hvt : v ≠ t := by
        rintro rfl
        rw [hg] at hv
        cases hv
      have hfree := h.one_owner (by rw [hdepth]; exact Nat.succ_ne_zero n) hvt
      rw [hv] at hfree
      cases hfree

theorem initLock (h : StdioInv u s tr g) (hfree : s.initOwner = none)
    (hstep : PhaseStep u (g t) ⟨.initLock, ()⟩ p) :
    StdioInv u { s with initOwner := some t } (.act t ⟨.initLock, ()⟩ :: tr)
      (Function.update g t p) := by
  have hsame : g t = .idle ∧ p = .entered := by
    generalize g t = phase at hstep
    cases hstep with
    | field _ _ _ _ hfield => cases hfield
    | enter => exact ⟨rfl, rfl⟩
  obtain ⟨hg, rfl⟩ := hsame
  refine h.silent hstep ?_ (fun _ => id) nofun nofun ?_ ?_ trivial
  · refine (Function.forall_update_iff g fun v p => p.inside = true → some t = some v).mpr
      ⟨fun _ => rfl, fun v _ hv => ?_⟩
    have hown := h.owner v hv
    rw [hfree] at hown
    cases hown
  · rw [hg]
    rfl
  · rw [hg]
    rintro stream (hp | hp) <;> cases hp

theorem initUnlock (h : StdioInv u s tr g) (hstep : PhaseStep u (g t) ⟨.initUnlock, ()⟩ p) :
    StdioInv u { s with initOwner := none } (.act t ⟨.initUnlock, ()⟩ :: tr)
      (Function.update g t p) := by
  have hsame : g t = .leaving ∧ p = .idle := by
    generalize g t = phase at hstep
    cases hstep with
    | field _ _ _ _ hfield => cases hfield
    | leave => exact ⟨rfl, rfl⟩
  obtain ⟨hg, rfl⟩ := hsame
  refine h.silent hstep ?_ (fun _ => id) nofun nofun ?_ ?_ ⟨nofun, fun _ => rfl, nofun⟩
  · refine (Function.forall_update_iff g fun v p => p.inside = true → none = some v).mpr
      ⟨nofun, fun v hvt hv => ?_⟩
    exact absurd (h.one_inside (by rw [hg]; rfl) hv) hvt
  · rw [hg]
    rfl
  · rw [hg]
    rintro stream (hp | hp) <;> cases hp

/-- While one thread is inside, the others log. -/
theorem others_log (h : StdioInv u s tr g) (ht : (g t).inside = true) (hvt : v ≠ t) :
    ∃ use loaded, g v = .logging use loaded := by
  cases hg : g v with
  | logging use loaded => exact ⟨use, loaded, rfl⟩
  | _ => exact absurd (h.one_inside ht (by rw [hg]; rfl)) hvt

/-- A thread that does not know the sink fits into any memory. -/
theorem fits_of_not_stored (h : StdioInv u s tr g) (ht : (g t).inside = true) (hvt : v ≠ t)
    (hno : ¬ Stored tr) (s' : UnixShared Tid) (stored' : Prop) : (g v).Fits u s' stored' := by
  obtain ⟨use, loaded, hg⟩ := h.others_log ht hvt
  have hfits := h.fits v
  rw [hg] at hfits ⊢
  obtain ⟨hseen, hunseen, hloaded⟩ := hfits
  exact ⟨fun hs => absurd (hseen hs) hno, hunseen,
    fun stream heq => absurd (hloaded stream heq).1 hno⟩

/-- `s_stdio.stream` changes before the sink is in the table. -/
theorem restream (h : StdioInv u s tr g) {stream : Ptr}
    (hstep : PhaseStep u (g t) ⟨.storeStream stream, ()⟩ p) (hno : ¬ Stored tr)
    (ht : (g t).inside = true) (hinside : p.inside = (g t).inside) (hdepth : p.depth = 0)
    (hfits : p.Fits u { s with stream := stream } (Stored tr)) :
    StdioInv u { s with stream := stream } (.act t ⟨.storeStream stream, ()⟩ :: tr)
      (Function.update g t p) := by
  have hstored : Stored (.act t ⟨.storeStream stream, ()⟩ :: tr) ↔ Stored tr := by
    rw [stored_act]
    exact or_iff_left (by simp)
  have hnone : ∀ v, (Function.update g t p v).depth = 0 :=
    (Function.forall_update_iff g fun _ p => p.depth = 0).mpr
      ⟨hdepth, fun v _ => h.depth_eq_zero hno v⟩
  refine ⟨h.owner_update hinside, ?_, h.registering_act hstep, fun f v n => ?_,
    fun i hi => hstored.mpr (h.table i hi), fun w hw => ?_, fun hst => absurd (hstored.mp hst) hno, ?_⟩
  · rw [propext hstored]
    exact (Function.forall_update_iff g fun _ p => p.Fits u { s with stream := stream } _).mpr
      ⟨hfits, fun v hvt => h.fits_of_not_stored ht hvt hno _ _⟩
  · rw [hnone v]
    refine iff_of_false (fun hlock => ?_) fun hboth => nomatch hboth.2
    have hheld := ((h.files f v n).mp hlock).2
    rw [h.depth_eq_zero hno v] at hheld
    cases hheld
  · exact absurd (h.written w hw).2 hno
  · exact h.leads.trans (framesWait_other (by simp)).symm

theorem storeStream (h : StdioInv u s tr g) {stream : Ptr}
    (hstep : PhaseStep u (g t) ⟨.storeStream stream, ()⟩ p) :
    StdioInv u { s with stream := stream } (.act t ⟨.storeStream stream, ()⟩ :: tr)
      (Function.update g t p) := by
  have hfits := h.fits t
  have hrestream := fun hno => h.restream hstep hno
  generalize g t = phase at hstep hfits hrestream
  cases hstep with
  | field _ _ _ _ hfield => cases hfield
  | set _ hne =>
    have hno : ¬ Stored tr := fun hst => (h.stored hst).1 hfits
    exact hrestream hno rfl rfl rfl ⟨rfl, hne, hno, rfl⟩
  | refuse f found => exact hrestream hfits.2.2.1 rfl rfl rfl trivial

/-- The sink goes into the table. -/
theorem storeSlot (h : StdioInv u s tr g) {core : Shared Tid} {i : ℕ}
    (hstep : PhaseStep u (g t) ⟨.core (.storeSlot i u.entry), ()⟩ p) :
    StdioInv u { s with core := core } (.act t ⟨.core (.storeSlot i u.entry), ()⟩ :: tr)
      (Function.update g t p) := by
  have hsame : ∃ stream found, g t = .set stream found ∧ p = .listed stream := by
    generalize g t = phase at hstep
    cases hstep with
    | core _ _ _ _ hspares => exact absurd rfl hspares
    | field _ _ _ _ hfield => cases hfield
    | setLock _ _ _ _ hlock => cases hlock
    | list stream found _ => exact ⟨stream, found, rfl, rfl⟩
    | listedLock _ _ _ hlock => cases hlock
  obtain ⟨stream, found, hg, rfl⟩ := hsame
  have hfits := h.fits t
  rw [hg] at hfits
  obtain ⟨rfl, hne, hno, -⟩ := hfits
  have hstored : Stored (.act t ⟨.core (.storeSlot i u.entry), ()⟩ :: tr) :=
    stored_act.mpr (Or.inr ⟨i, rfl⟩)
  have hinside : (g t).inside = true := by
    rw [hg]
    rfl
  have hempty := h.written_eq_nil hno
  refine ⟨h.owner_update (by rw [hg]; rfl), ?_, h.registering_act hstep, h.files_same (by rw [hg]; rfl),
    fun _ _ => hstored, fun w hw => ⟨(h.written w hw).1, hstored⟩, fun _ => ⟨hne, Or.inr ⟨t, ?_⟩⟩, ?_⟩
  · refine (Function.forall_update_iff g fun _ p => p.Fits u _ _).mpr
      ⟨⟨rfl, hstored, fun hline => ?_⟩, fun v hvt => h.fits_of_not_stored hinside hvt hno _ _⟩
    have hmem : (⟨s.stream, .text (imageSlideLine u.slide)⟩ : StdioWrite) ∈ s.written := hline
    rw [hempty] at hmem
    cases hmem
  · left
    exact Function.update_self ..
  · exact h.leads.trans (framesWait_other (by simp)).symm

/-- The line is written. -/
theorem fprintf (h : StdioInv u s tr g) {stream : Ptr} {text : Text} {stdio : StdioState}
    (hstep : PhaseStep u (g t) ⟨.fprintf stream text, ()⟩ p) :
    StdioInv u (s.write stream (.text text) stdio) (.act t ⟨.fprintf stream text, ()⟩ :: tr)
      (Function.update g t p) := by
  have hsame : g t = .locked stream ∧ p = .printed stream ∧ text = imageSlideLine u.slide := by
    generalize g t = phase at hstep
    cases hstep with
    | field _ _ _ _ hfield => cases hfield
    | print _ => exact ⟨rfl, rfl, rfl⟩
  obtain ⟨hg, rfl, rfl⟩ := hsame
  have hfits := h.fits t
  rw [hg] at hfits
  obtain ⟨rfl, hin, -⟩ := hfits
  have hinside : (g t).inside = true := by
    rw [hg]
    rfl
  have hstored : Stored (.act t ⟨.fprintf s.stream (imageSlideLine u.slide), ()⟩ :: tr) ↔
      Stored tr := by
    rw [stored_act]
    exact or_iff_left (by simp)
  have hline : Announced u (s.write s.stream (.text (imageSlideLine u.slide)) stdio) :=
    List.mem_append_right _ (List.mem_singleton_self _)
  refine ⟨h.owner_update (by rw [hg]; rfl), ?_, h.registering_act hstep, h.files_same (by rw [hg]; rfl),
    fun i hi => hstored.mpr (h.table i hi), h.written_snoc hstored hin _,
    fun hst => ⟨(h.stored (hstored.mp hst)).1, Or.inl hline⟩, ?_⟩
  · refine (Function.forall_update_iff g fun _ p => p.Fits u _ _).mpr
      ⟨⟨rfl, hline⟩, fun v hvt => ?_⟩
    obtain ⟨use, loaded, hv⟩ := h.others_log hinside hvt
    have hlog := h.fits v
    rw [hv] at hlog ⊢
    rw [Phase.Fits, hstored]
    exact hlog
  · show LineLeads u.slide (s.written ++ [_]) ↔ _
    rw [lineLeads_text, h.leads]
    exact (framesWait_other (by simp)).symm

omit [DecidableEq Tid] in
/-- The core does not put the sink into the table by itself. -/
theorem sinks_of_step {cfg : Config} {entry : SinkEntry} {o : Op} {r : o.Ret} {c c' : Shared Tid}
    (hstep : step cfg t o r c c') (hno : ∀ i, o ≠ .storeSlot i entry) {i : ℕ}
    (hi : c'.sinks i = entry) : c.sinks i = entry := by
  cases o
  case storeSlot j e =>
    obtain rfl := hstep
    by_cases hij : i = j
    · subst hij
      have he : e = entry := (Function.update_self i e c.sinks).symm.trans hi
      exact absurd (congrArg (Op.storeSlot i) he) (hno i)
    · exact (Function.update_of_ne hij e c.sinks).symm.trans hi
  case emitLock =>
    obtain ⟨-, rfl⟩ := hstep
    exact hi
  case loadSlot =>
    obtain ⟨-, rfl⟩ := hstep
    exact hi
  case fetchAddSeq =>
    obtain ⟨-, rfl⟩ := hstep
    exact hi
  case exchangeDropped =>
    obtain ⟨-, rfl⟩ := hstep
    exact hi
  case timestampMs =>
    obtain ⟨-, rfl⟩ := hstep
    exact hi
  all_goals
    obtain rfl := hstep
    exact hi

theorem core (h : StdioInv u s tr g) {o : Op} {r : o.Ret} {c : Shared Tid}
    (hs : step u.cfg t o r s.core c) (hstep : PhaseStep u (g t) ⟨.core o, r⟩ p) :
    StdioInv u { s with core := c } (.act t ⟨.core o, r⟩ :: tr) (Function.update g t p) := by
  by_cases hstore : ∃ i, o = .storeSlot i u.entry
  · obtain ⟨i, rfl⟩ := hstore
    exact h.storeSlot hstep
  have hno : ∀ i, o ≠ .storeSlot i u.entry := fun i ho => hstore ⟨i, ho⟩
  have hfits := h.fits t
  have hslot : ∀ i, o = .loadSlot i → HEq r u.entry → Stored tr := by
    rintro i rfl hr
    exact h.table i (hs.1.symm.trans (eq_of_heq hr))
  have hquiet : p.inside = (g t).inside → p.depth = (g t).depth →
      (∀ f, g t = .listed f ∨ g t = .locked f → p = g t) → p.Fits u s (Stored tr) →
      StdioInv u { s with core := c } (.act t ⟨.core o, r⟩ :: tr) (Function.update g t p) :=
    fun hinside hdepth hkeep hp => h.silent hstep (h.owner_update hinside)
      (fun _ => sinks_of_step hs hno) (fun i heq => by cases heq; exact hno i rfl) (by simp) hdepth
      hkeep hp
  generalize g t = phase at hstep hfits hquiet
  cases hstep with
  | core use loaded _ _ _ => exact hquiet rfl rfl (fun _ _ => rfl) hfits
  | load use loaded i _ =>
    obtain ⟨hseen, hunseen, hloaded⟩ := hfits
    refine hquiet rfl rfl (by simp) ⟨fun hs' => ?_, fun hs' => ?_, hloaded⟩
    · rcases Bool.or_eq_true_iff.mp hs' with hs' | hs'
      · exact hseen hs'
      · exact hslot i rfl (heq_of_eq (of_decide_eq_true hs'))
    · exact hunseen (Bool.or_eq_false_iff.mp hs').1
  | unlock seen loaded =>
    obtain ⟨-, -, hloaded⟩ := hfits
    exact hquiet rfl rfl (by simp) ⟨nofun, fun _ => rfl, hloaded⟩
  | field _ _ _ _ hfield => cases hfield
  | search stream found i _ =>
    obtain ⟨hstream, hne, hnot, rfl⟩ := hfits
    refine hquiet rfl rfl (by simp) ⟨hstream, hne, hnot, ?_⟩
    rw [Bool.false_or]
    exact decide_eq_false fun hr => hnot (hslot i rfl (heq_of_eq hr))
  | setLock stream found _ _ _ => exact hquiet rfl rfl (fun _ _ => rfl) hfits
  | list stream found i => exact absurd rfl (hno i)
  | listedLock stream _ _ _ => exact hquiet rfl rfl (fun _ _ => rfl) hfits

theorem loadStream (h : StdioInv u s tr g)
    (hstep : PhaseStep u (g t) ⟨.loadStream, s.stream⟩ p) :
    StdioInv u s (.act t ⟨.loadStream, s.stream⟩ :: tr) (Function.update g t p) := by
  have hfits := h.fits t
  have hquiet : p.inside = (g t).inside → p.depth = (g t).depth →
      (∀ f, g t = .listed f ∨ g t = .locked f → p = g t) → p.Fits u s (Stored tr) →
      StdioInv u s (.act t ⟨.loadStream, s.stream⟩ :: tr) (Function.update g t p) :=
    fun hinside hdepth hkeep hp => h.silent hstep (h.owner_update hinside) (fun _ => id)
      nofun nofun hdepth hkeep hp
  generalize hr : s.stream = r at hstep
  rw [hr] at hquiet
  generalize g t = phase at hstep hfits hquiet
  cases hstep with
  | field _ _ _ _ hfield => cases hfield
  | stream n loaded _ =>
    obtain ⟨hseen, hunseen, -⟩ := hfits
    refine hquiet rfl rfl (by simp) ⟨hseen, hunseen, fun f hf => ⟨hseen rfl, ?_⟩⟩
    exact (Option.some.inj hf).symm.trans hr.symm
  | taken _ _ => exact hquiet rfl rfl (by simp) trivial
  | vacant => exact hquiet rfl rfl (by simp) hr
  | again _ => exact hquiet rfl rfl (by simp) trivial

theorem field (h : StdioInv u s tr g) {o : UnixOp} {r : o.Ret} (ho : o.isField = true)
    (hstep : PhaseStep u (g t) ⟨o, r⟩ p) (stdio : StdioState) :
    StdioInv u { s with stdio := stdio } (.act t ⟨o, r⟩ :: tr) (Function.update g t p) := by
  have hsame : p = g t ∧ ∃ use loaded, g t = .logging use loaded := by
    generalize g t = phase at hstep
    cases hstep with
    | field use loaded _ _ _ => exact ⟨rfl, use, loaded, rfl⟩
    | _ => cases ho
  obtain ⟨rfl, use, loaded, hg⟩ := hsame
  refine h.silent hstep (h.owner_update rfl) (fun _ => id) ?_ ?_ rfl (fun _ _ => rfl) (h.fits t)
  · rintro i heq
    cases heq
    cases ho
  · rintro stream heq
    cases heq
    cases ho

/-- A call or a return. -/
theorem call (h : StdioInv u s tr g) {l : Label Tid (UnixCall u) UnixOp UnixOp.Ret Res}
    (hg : g t = .idle) (hl : ∀ v e, l ≠ .act v e)
    (hevents : ∀ v, callEvents v (l :: tr) = if t = v then [] else callEvents v tr) :
    StdioInv u s (l :: tr) g := by
  have hstored : Stored (l :: tr) ↔ Stored tr := by
    cases l with
    | act v e => exact absurd rfl (hl v e)
    | invoke v c => rfl
    | ret v c r => rfl
  refine ⟨h.owner, fun v => fits_of_same rfl Iff.rfl hstored (h.fits v), fun v => ?_, h.files,
    fun i hi => hstored.mpr (h.table i hi),
    fun w hw => ⟨(h.written w hw).1, hstored.mpr (h.written w hw).2⟩,
    fun hst => h.stored (hstored.mp hst), ?_⟩
  · rw [hevents v]
    by_cases hvt : t = v
    · rw [if_pos hvt, ← hvt, hg]
      refine iff_of_false ?_ nofun
      rintro ⟨es₁, i, es₂, heq, -⟩
      cases es₁ <;> cases heq
    · rw [if_neg hvt]
      exact h.registering v
  · exact h.leads.trans (framesWait_other fun v stream => hl v _).symm

/-- Every step of every thread. -/
theorem act (h : StdioInv u s tr g) {s' : UnixShared Tid} (hstep : PhaseStep u (g t) e p)
    (hs : unixStep u t e.op e.ret s s') :
    StdioInv u s' (.act t e :: tr) (Function.update g t p) := by
  obtain ⟨o, r⟩ := e
  cases o with
  | core o =>
    obtain ⟨c, hcore, rfl⟩ := hs
    exact h.core hcore hstep
  | initLock =>
    obtain ⟨hfree, rfl⟩ := hs
    exact h.initLock hfree hstep
  | initUnlock =>
    obtain rfl := hs
    exact h.initUnlock hstep
  | loadStream =>
    obtain ⟨rfl, rfl⟩ := hs
    exact h.loadStream hstep
  | storeStream stream =>
    obtain rfl := hs
    exact h.storeStream hstep
  | flockfile stream =>
    obtain ⟨htake, rfl⟩ := hs
    exact h.flockfile hstep htake
  | funlockfile stream =>
    obtain rfl := hs
    exact h.funlockfile hstep
  | startPacket header =>
    obtain rfl := hs
    exact h.field rfl hstep _
  | addPayload payload =>
    obtain rfl := hs
    exact h.field rfl hstep _
  | loadDropFrame =>
    obtain ⟨rfl, rfl⟩ := hs
    exact h.field rfl hstep _
  | writeFrame stream =>
    obtain rfl := hs
    exact h.writeFrame hstep
  | fprintf stream text =>
    obtain rfl := hs
    exact h.fprintf hstep

end StdioInv

/-- The line leads the stream exactly in the runs in which no frame is written while a thread
has put the sink into the table and does not yet have the lock of the stream. -/
theorem line_leads {c : Lib.Config Tid (UnixCall u) UnixOp UnixOp.Ret Res (UnixShared Tid)}
    {tr : UnixTrace Tid u} (h : (unixSystem u Tid).Run c tr) :
    LineLeads u.slide c.state.written ↔ FramesWait tr := by
  obtain ⟨g, -, hinv⟩ := h.invariant phaseStep_functional steps_unixBody
    (I := StdioInv u) stdioInv_init (fun s tr g t c hi hg => hi.call hg nofun fun _ => rfl)
    (fun s tr g t c v hi hg => hi.call hg nofun fun _ => rfl)
    (fun s tr g t e p s' hi hstep hs => hi.act hstep hs)
  exact hinv.leads

/-! ### Two runs -/

/-- The core and the sink answered from `w`. -/
def unixReply (u : UnixBuild) (w : World) (t : Tid) (s : UnixShared Tid) :
    (o : UnixOp) → Option (o.Ret × UnixShared Tid)
  | .core o => (reply u.cfg w t s.core o).map fun r => (r.1, { s with core := r.2 })
  | .initLock => if s.initOwner.isNone then some ((), { s with initOwner := some t }) else none
  | .initUnlock => some ((), { s with initOwner := none })
  | .loadStream => some (s.stream, s)
  | .storeStream stream => some ((), { s with stream := stream })
  | .flockfile stream =>
    (lockTaken t (s.fileLock stream)).map fun held =>
      ((), { s with fileLock := Function.update s.fileLock stream (some held) })
  | .funlockfile stream =>
    some ((), { s with
      fileLock := Function.update s.fileLock stream (lockReleased (s.fileLock stream)) })
  | .startPacket header => some ((), { s with stdio := s.stdio.start header })
  | .addPayload payload => some ((), { s with stdio := s.stdio.payload payload })
  | .loadDropFrame => some (s.stdio.dropFrame, s)
  | .writeFrame stream =>
    some ((), s.write stream (.frame s.stdio.framePayload) (s.stdio.finish u.fputc))
  | .fprintf stream text => some ((), s.write stream (.text text) (s.stdio.printText u.fputc text))

theorem unixStep_of_reply {w : World} (t : Tid) (s : UnixShared Tid) (o : UnixOp) (r : o.Ret)
    (s' : UnixShared Tid) (h : unixReply u w t s o = some (r, s')) : unixStep u t o r s s' := by
  cases o with
  | core o =>
    obtain ⟨⟨r', c⟩, hr, heq⟩ := Option.map_eq_some_iff.mp h
    cases heq
    exact ⟨c, step_of_reply s.core o r' c hr, rfl⟩
  | initLock =>
    simp only [unixReply] at h
    split at h
    · rename_i hfree
      cases h
      exact ⟨Option.isNone_iff_eq_none.mp hfree, rfl⟩
    · cases h
  | flockfile stream =>
    obtain ⟨held, hheld, heq⟩ := Option.map_eq_some_iff.mp h
    cases heq
    refine ⟨fun hnone => ?_, ?_⟩
    · rw [hheld] at hnone
      cases hnone
    · rw [hheld]
  | loadStream =>
    cases h
    exact ⟨rfl, rfl⟩
  | loadDropFrame =>
    cases h
    exact ⟨rfl, rfl⟩
  | _ =>
    cases h
    rfl

def smallUnix : UnixBuild where
  cfg := smallConfig
  entry := ⟨5, 6⟩
  callbacks := ⟨7, 8, 9⟩
  valid := ⟨by decide, by decide, by decide, by decide⟩
  slide := 0x00abcdef
  fputc _ := true
  stdout := 1

def smallLog : UnixCall smallUnix := .core (.write 3 0 2000 (some []) []) trivial

def smallFrame : StdioWrite :=
  ⟨1, .frame [0x9a, 3, 0, 0, 0, 0, 0, 0, 0, 0, 0, 0, 255, 255, 255, 255, 5, 0, 0, 0, 0, 0, 0]⟩

def smallLine : StdioWrite := ⟨1, .text (imageSlideLine smallUnix.slide)⟩

/-- Thread 1 logs when thread 0 has given the emit lock back and not yet locked the stream. -/
def overtaking : List (Turn ℕ (UnixCall smallUnix)) :=
  [.invoke 0 (.stdioInitFile 1), .perform 0 9, .invoke 1 smallLog, .perform 1 23, .ret 1,
    .perform 0 4, .ret 0]

/-- Thread 1 logs when thread 0 is done. -/
def inOrder : List (Turn ℕ (UnixCall smallUnix)) :=
  [.invoke 0 (.stdioInitFile 1), .perform 0 13, .ret 0, .invoke 1 smallLog, .perform 1 23, .ret 1]

theorem run_turns (turns : List (Turn ℕ (UnixCall smallUnix))) {written : List StdioWrite}
    (h : (System.schedule (unixSystem smallUnix ℕ) (unixReply smallUnix quietWorld) turns).map
      (fun p => p.1.state.written) = some written) :
    ∃ c tr, (unixSystem smallUnix ℕ).Run c tr ∧ c.state.written = written := by
  obtain ⟨q, hq, hwritten⟩ := Option.map_eq_some_iff.mp h
  exact ⟨q.1, q.2, System.run_schedule unixStep_of_reply hq, hwritten⟩

/-- The frame is on the stream, and the line behind it. -/
theorem line_overtaken : ¬ ∀ c tr, (unixSystem smallUnix ℕ).Run c tr →
    LineLeads smallUnix.slide c.state.written := by
  intro h
  obtain ⟨c, tr, hrun, hwritten⟩ : ∃ c tr, (unixSystem smallUnix ℕ).Run c tr ∧
      c.state.written = [smallFrame, smallLine] := run_turns overtaking (by decide +kernel)
  have hleads := h c tr hrun
  rw [hwritten] at hleads
  have hmem := hleads [] 1 _ [smallLine] rfl
  cases hmem

/-- A thread that logs behind the initialisation. -/
theorem line_leads_in_order : ∃ c tr, (unixSystem smallUnix ℕ).Run c tr ∧
    c.state.written = [smallLine, smallFrame] ∧ FramesWait tr := by
  obtain ⟨c, tr, hrun, hwritten⟩ : ∃ c tr, (unixSystem smallUnix ℕ).Run c tr ∧
      c.state.written = [smallLine, smallFrame] := run_turns inOrder (by decide +kernel)
  refine ⟨c, tr, hrun, hwritten, (line_leads hrun).mp ?_⟩
  rw [hwritten]
  have hline : LineLeads smallUnix.slide ([] ++ [smallLine]) := lineLeads_text.mpr lineLeads_nil
  exact lineLeads_frame.mpr ⟨hline, List.mem_singleton_self _⟩

end On9log
