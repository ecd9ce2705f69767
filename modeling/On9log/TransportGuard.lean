import On9log.TransportLock

/-!
# The guard against calls from inside (esp_stdio_log_vfs.c:107-174, 418-458, 509-521, 638-654)

A call that finds itself in `s_transport_owner` returns `ESP_FAIL`. It should do so
whenever it would wait for a mutex that its own task has, and never otherwise. The
drivers of `open` and `fsync` are called with the mutex held and the owner cleared, and
before there is a task both sides of the comparison are `NULL`; apart from these the
guard is exact.
-/

namespace On9log
open Lib

variable {Tid : Type} [DecidableEq Tid]

namespace TransportState

variable (plainText : Bool) (s : TransportState Tid) (c : Option Tid)

/-- A call of the context is about to compare. -/
def AtGuard : Prop := ∃ pc below, s.stack c = pc :: below ∧ pc.guard = true

/-- The context has a raw stream open, or a driver it called is calling. -/
def Inside : Prop :=
  s.mem.streaming c = true ∨ ∃ pc ∈ (s.stack c).tail, pc.callsOut = true

/-- The next step returns `ESP_FAIL`. -/
def Refused : Prop := ∃ reply s' below,
  s.step plainText c (.go reply) = some s' ∧ s'.stack c = .returned .fail :: below

/-- What the guard is for. -/
def GuardExact : Prop :=
  (∀ t, s.AtGuard (some t) → s.mem.mutex = some t → s.Refused plainText (some t)) ∧
    ∀ c, s.AtGuard c → ¬ s.Inside c → ¬ s.Refused plainText c

end TransportState

/-- The call compares its task with the owner first. -/
def TransportCall.guarded (plainText : Bool) (call : TransportCall) : Bool :=
  match call.start plainText with
  | [] => false
  | pc :: _ => pc.guard

/-- The steps after which the guard is exact: a call that compares is not made before
there is a task, nor by the driver of `open` or `fsync` when the scheduler runs, and no
raw stream is open when the scheduler starts. -/
def TransportState.Meets (plainText : Bool) (c : Option Tid) (s : TransportState Tid) :
    TransportAction Tid → Prop
  | .call call =>
    call.guarded plainText = true → s.mem.started = false → s.mem.handle ≠ none
  | .reenter call => call.guarded plainText = true → s.mem.started = true →
      ∃ f data below, s.stack c = .outputWrite f data :: below
  | .go _ => True
  | .createTask _ => True
  | .startScheduler => s.mem.owner = none

/-- A step that meets the condition. -/
def TransportState.Next (plainText : Bool) (s s' : TransportState Tid) : Prop :=
  ∃ c a, s.step plainText c a = some s' ∧ s.Meets plainText c a

/-! ### The comparison -/

section Compare

variable {plainText : Bool} {s s' : TransportState Tid} {c : Option Tid}
  {a : TransportAction Tid}

theorem pcStep_guard {pc : TransportPc} (h : pc.guard = true) (reply : WriteReply)
    (m : TransportMem Tid) : ∃ next, pcStep c reply m pc =
      some (m, if m.owner = m.self c then .returned .fail else next) ∧
        next ≠ .returned .fail := by
  cases pc
  case frameGuard type payload => exact ⟨.frameLock type payload, rfl, nofun⟩
  case beginGuard => exact ⟨.beginLock, rfl, nofun⟩
  all_goals cases h

theorem contextStep_guard {pc : TransportPc} (h : pc.guard = true) (reply : WriteReply)
    (m : TransportMem Tid) (below : List TransportPc) :
    contextStep plainText c m (.go reply) (pc :: below) =
      (pcStep c reply m pc).map fun r => (r.1, r.2 :: below) := by
  cases pc
  case frameGuard => rfl
  case beginGuard => rfl
  all_goals cases h

theorem refused_iff (hruns : c.isSome = s.mem.started) (h : s.AtGuard c) :
    s.Refused plainText c ↔ s.mem.owner = s.mem.self c := by
  obtain ⟨pc, below, hcalls, hguard⟩ := h
  have hstep : ∀ reply, ∃ next, next ≠ .returned .fail ∧
      s.step plainText c (.go reply) = some ⟨s.mem, Function.update s.stack c
        ((if s.mem.owner = s.mem.self c then .returned .fail else next) :: below)⟩ := by
    intro reply
    obtain ⟨next, hpc, hne⟩ := pcStep_guard hguard reply s.mem (c := c)
    refine ⟨next, hne, ?_⟩
    unfold TransportState.step
    rw [if_pos hruns, hcalls, contextStep_guard hguard, hpc]
    rfl
  constructor
  · rintro ⟨reply, s', below', hs', hstack⟩
    obtain ⟨next, hne, hs⟩ := hstep reply
    rw [hs] at hs'
    cases hs'
    dsimp only at hstack
    rw [Function.update_self] at hstack
    by_contra howner
    rw [if_neg howner] at hstack
    exact hne (List.cons.inj hstack).1
  · intro howner
    obtain ⟨next, -, hs⟩ := hstep ⟨0, false⟩
    refine ⟨_, _, below, hs, ?_⟩
    dsimp only
    rw [Function.update_self, if_pos howner]

end Compare

/-! ### While the scheduler runs -/

section Running

variable {plainText : Bool} {s s' : TransportState Tid} {c : Option Tid} {t : Tid}
  {a : TransportAction Tid}

/-- The mutex is with the task entitled to it, and only the driver of `write` calls
the guarded functions. -/
structure TransportState.Running (s : TransportState Tid) : Prop where
  started : s.mem.started = true
  locked : s.Locked
  boot : s.stack none = []
  entered : ∀ t pc d below, s.stack (some t) = pc :: d :: below → pc.guard = true →
    d.callsOut = true → ∃ f data, d = .outputWrite f data

theorem ContextMove.keeps {m m' : TransportMem Tid} {calls calls' : List TransportPc}
    (h : ContextMove plainText (some t) m a calls m' calls') :
    m'.started = m.started ∧ ∀ c, c ≠ some t → m'.streaming c = m.streaming c := by
  cases h with
  | step reply pc pc' m' below hpc =>
    obtain ⟨hstarted, -, hstreaming⟩ := (pcStep_effect hpc).keeps
    exact ⟨hstarted, hstreaming⟩
  | createTask _ hc => cases hc
  | startScheduler hc => cases hc
  | _ => exact ⟨rfl, fun _ _ => rfl⟩

theorem not_guard_of_waits {pc : TransportPc} (h : pc.waits = true) : pc.guard = false := by
  cases pc
  case frameGuard => cases h
  case beginGuard => cases h
  all_goals rfl

theorem not_guard_of_callsOut {pc : TransportPc} (h : pc.callsOut = true) : pc.guard = false := by
  cases pc
  case frameGuard => cases h
  case beginGuard => cases h
  all_goals rfl

theorem callsOut_of_waits {pc : TransportPc} (h : pc.waits = true) : pc.callsOut = false := by
  cases hout : pc.callsOut with
  | false => rfl
  | true =>
    rw [not_waits_of_callsOut hout] at h
    cases h

/-- The call that compares next is one of the task, or was made by the driver of `write`. -/
theorem ContextMove.entered {m m' : TransportMem Tid} {calls calls' : List TransportPc}
    (h : ContextMove plainText (some t) m a calls m' calls') (hstack : CallStack calls)
    (hreenter : ∀ call, a = .reenter call → call.guarded plainText = true →
      ∃ f data below, calls = .outputWrite f data :: below) :
    ∀ pc d below, calls' = pc :: d :: below → pc.guard = true → d.callsOut = true →
      ∃ f data, d = .outputWrite f data := by
  intro pc d below hcalls hguard hout
  have hfresh : ∀ new rest, Fresh new → (∀ p ∈ rest, p.waits = true) →
      new ++ rest = pc :: d :: below → False := by
    intro new rest hnew hrest heq
    have hd : d.waits = true := by
      cases new with
      | nil => exact absurd rfl hnew.ne_nil
      | cons p new =>
        have htail : new ++ rest = d :: below := (List.cons.inj heq).2
        have hmem : d ∈ new ++ rest := by
          rw [htail]
          exact List.mem_cons_self
        rcases List.mem_append.mp hmem with hmem | hmem
        · exact hnew.waits d hmem
        · exact hrest d hmem
    rw [callsOut_of_waits hd] at hout
    cases hout
  cases h with
  | call call =>
    refine (hfresh _ [] (fresh_start plainText call) nofun ?_).elim
    rw [List.append_nil]
    exact hcalls
  | reenter call d' below' hd' hcall =>
    obtain ⟨new, hnew, -⟩ := start_of_reenters plainText hcall
    rw [hnew] at hcalls
    obtain ⟨rfl, hrest⟩ := List.cons.inj hcalls
    obtain ⟨rfl, -⟩ := List.cons.inj hrest
    have hguarded : call.guarded plainText = true := by
      unfold TransportCall.guarded
      rw [hnew]
      exact hguard
    obtain ⟨f, data, rest, hcalls'⟩ := hreenter call rfl hguarded
    exact ⟨f, data, (List.cons.inj hcalls').1⟩
  | finish reply result =>
    cases hstack with
    | call hwaits =>
      rw [hcalls] at hwaits
      rw [not_guard_of_waits (hwaits pc List.mem_cons_self)] at hguard
      cases hguard
    | nested hearly => cases hearly
  | done => cases hcalls
  | resume reply err w rest =>
    cases hstack with
    | call hwaits =>
      exact (hfresh _ _ (fresh_resume (hwaits w List.mem_cons_self) err)
        (fun p hp => hwaits p (List.mem_cons_of_mem _ hp)) hcalls).elim
    | nested _ hw _ =>
      rw [resume_of_not_waits (not_waits_of_callsOut hw)] at hcalls
      obtain ⟨rfl, -⟩ := List.cons.inj hcalls
      rw [not_guard_of_callsOut hw] at hguard
      cases hguard
  | step reply pc₀ pc' _ rest hpc =>
    obtain ⟨rfl, -⟩ := List.cons.inj hcalls
    rw [(pcStep_effect hpc).guard] at hguard
    cases hguard
  | createTask _ hc => cases hc
  | startScheduler hc => cases hc

theorem running_step (h : s.Running) (hnext : s.Next plainText s') : s'.Running := by
  obtain ⟨c, a, hstep, hmeets⟩ := hnext
  obtain ⟨hruns, calls, hmoves, hstack⟩ := step_move hstep
  rw [h.started] at hruns
  obtain ⟨t, rfl⟩ := Option.isSome_iff_exists.mp hruns
  have hs' : s' = ⟨s'.mem, Function.update s.stack (some t) calls⟩ := by
    rw [← hstack]
  refine ⟨hmoves.keeps.1.trans h.started, ?_, ?_, ?_⟩
  · rw [hs']
    exact h.locked.moves h.started hmoves
  · have hboot : (none : Option Tid) ≠ some t := nofun
    rw [hstack, Function.update_of_ne hboot]
    exact h.boot
  · intro u pc d below hcalls hguard hout
    rw [hstack] at hcalls
    by_cases hut : u = t
    · subst hut
      rw [Function.update_self] at hcalls
      refine hmoves.entered (h.locked u).stack ?_ pc d below hcalls hguard hout
      rintro call rfl hguarded
      exact hmeets hguarded h.started
    · rw [Function.update_of_ne (by simpa using hut)] at hcalls
      exact h.entered u pc d below hcalls hguard hout

theorem neutral_of_guard {pc : TransportPc} (h : pc.guard = true) : pc.Neutral := by
  cases pc
  case frameGuard => exact ⟨rfl, rfl, rfl, rfl⟩
  case beginGuard => exact ⟨rfl, rfl, rfl, rfl⟩
  all_goals cases h

theorem running_guardExact (h : s.Running) : s.GuardExact plainText := by
  have hruns : ∀ t : Tid, (some t).isSome = s.mem.started := fun t => h.started.symm
  constructor
  · intro t hat hmutex
    rw [refused_iff (hruns t) hat]
    obtain ⟨pc, below, hcalls, hguard⟩ := hat
    have ht := h.locked t
    rw [hcalls] at ht
    have hneutral := neutral_of_guard hguard
    have hone := ht.mutex_iff.mp hmutex
    rw [heldBy_cons, hneutral.inside] at hone
    refine ht.owner_iff.mpr ((sentBy_cons _ _ _).mpr (.inr ?_))
    cases ht.stack with
    | call hwaits =>
      -- nothing but a raw stream holds the mutex
      have hnone := heldBy_append_neutral (neutral_of_waits hwaits) [] (s.mem.streaming (some t))
      rw [List.append_nil] at hnone
      rw [hnone] at hone
      left
      cases hstreaming : s.mem.streaming (some t) with
      | true => rfl
      | false =>
        rw [hstreaming] at hone
        cases hone
    | @nested _ d rest _ hout _ =>
      obtain ⟨f, data, rfl⟩ := h.entered t pc d rest hcalls hguard hout
      cases hsends : f.sends with
      | frame => exact .inr ⟨_, List.mem_cons_self, decide_eq_true hsends⟩
      | raw =>
        exact .inl (ht.streams _ (List.mem_cons_of_mem _ List.mem_cons_self)
          (decide_eq_true hsends))
  · intro c hat hinside hrefused
    cases c with
    | none =>
      obtain ⟨pc, below, hcalls, -⟩ := hat
      rw [h.boot] at hcalls
      cases hcalls
    | some t =>
      rw [refused_iff (hruns t) hat] at hrefused
      obtain ⟨pc, below, hcalls, hguard⟩ := hat
      have ht := h.locked t
      rw [hcalls] at ht
      have hsent := ht.owner_iff.mp hrefused
      rw [sentBy_cons, (neutral_of_guard hguard).owning] at hsent
      rcases hsent with hown | hstreaming | ⟨p, hp, howning⟩
      · cases hown
      · exact hinside (.inl hstreaming)
      · refine hinside (.inr ?_)
        rw [hcalls]
        cases ht.stack with
        | call hwaits =>
          rw [(TransportPc.neutral_of_waits (hwaits p hp)).owning] at howning
          cases howning
        | nested _ hout _ => exact ⟨_, List.mem_cons_self, hout⟩

end Running

/-! ### Before the scheduler runs -/

/-- Only a call that the guard let through gets here, or one that waits for such a call. -/
def TransportPc.passed : TransportPc → Bool
  | .frameLock _ _ => true
  | .frameOwner _ _ => true
  | .frameClear _ => true
  | .frameUnlock _ => true
  | .outputCount f => decide (f.sends = .frame)
  | .outputLoad f => decide (f.sends = .frame)
  | .outputWrite f _ => decide (f.sends = .frame)
  | .beginLock => true
  | .beginOwner => true
  | .textWait _ _ => true
  | .plainBegin _ => true
  | .plainWrite _ => true
  | .plainEnd _ _ => true
  | _ => false

theorem Flush.nextBatch_passed {f : Flush} (h : f.sends ≠ .frame) :
    f.nextBatch.passed = false := by
  unfold nextBatch
  split
  case h_1 =>
    cases hsends : f.sends with
    | frame => exact absurd hsends h
    | raw => rfl
  case h_2 => exact decide_eq_false h

theorem Flush.writeAll_passed {f : Flush} (h : f.sends ≠ .frame) (data : List UInt8) :
    (f.writeAll data).passed = false := by
  cases data with
  | nil => exact decide_eq_false h
  | cons byte data => exact decide_eq_false h

section Booting

variable {plainText : Bool} {s s' : TransportState Tid} {a : TransportAction Tid}

/-- Without a task the owner stays `NULL`, and the guard lets nothing through. -/
structure TransportState.NoTask (s : TransportState Tid) : Prop where
  owner : s.mem.owner = none
  streaming : s.mem.streaming none = false
  passed : ∀ pc ∈ s.stack none, pc.passed = false
  entered : ∀ pc below, s.stack none = pc :: below → pc.guard = true →
    ∃ d ∈ below, d.callsOut = true

structure TransportState.Booting (s : TransportState Tid) : Prop where
  started : s.mem.started = false
  mutex : s.mem.mutex = none
  tasks : ∀ t, s.stack (some t) = [] ∧ s.mem.streaming (some t) = false
  tail : ∀ pc ∈ (s.stack none).tail, pc.waits = true ∨ pc.callsOut = true
  owner : s.mem.owner ≠ none → SentBy (s.stack none) (s.mem.streaming none)
  noTask : s.mem.handle = none → s.NoTask

omit [DecidableEq Tid] in
theorem lock_off {m m' : TransportMem Tid} (hoff : m.started = false)
    (h : m.lock none = some m') : m' = m := by
  unfold TransportMem.lock at h
  rw [if_pos hoff] at h
  exact (Option.some.inj h).symm

omit [DecidableEq Tid] in
theorem unlock_off {m : TransportMem Tid} (hoff : m.started = false) : m.unlock = m := if_pos hoff

/-- A step of a call when there is no task. -/
theorem pcStep_noTask {reply : WriteReply} {m m' : TransportMem Tid} {pc pc' : TransportPc}
    (h : pcStep none reply m pc = some (m', pc')) (hoff : m.started = false)
    (hhandle : m.handle = none) (howner : m.owner = none) (hstreaming : m.streaming none = false)
    (hpc : pc.passed = false) :
    m'.owner = none ∧ m'.streaming none = false ∧ pc'.passed = false := by
  have hself : m.owner = m.self none := howner.trans hhandle.symm
  cases pc
  case frameGuard type payload =>
    cases h
    rw [if_pos hself]
    exact ⟨howner, hstreaming, rfl⟩
  case beginGuard =>
    cases h
    rw [if_pos hself]
    exact ⟨howner, hstreaming, rfl⟩
  case outputCount f =>
    have hraw := of_decide_eq_false hpc
    cases h
    refine ⟨howner, hstreaming, ?_⟩
    split
    · exact hpc
    · exact f.nextBatch_passed hraw
  case outputLoad f =>
    have hraw := of_decide_eq_false hpc
    cases h
    refine ⟨howner, hstreaming, ?_⟩
    split
    · exact f.writeAll_passed hraw _
    · exact hpc
  case outputWrite f data =>
    have hraw := of_decide_eq_false hpc
    unfold pcStep at h
    dsimp only at h
    split at h
    · cases h
      exact ⟨howner, hstreaming, hpc⟩
    · split at h
      · cases h
        exact ⟨howner, hstreaming, hpc⟩
      · cases h
        exact ⟨howner, hstreaming, f.writeAll_passed hraw _⟩
  case rawOwner data =>
    unfold pcStep at h
    dsimp only at h
    rw [if_neg (not_not.mpr hself)] at h
    cases h
    exact ⟨howner, hstreaming, rfl⟩
  case endOwner =>
    cases h
    rw [if_neg (not_not.mpr hself)]
    exact ⟨howner, hstreaming, rfl⟩
  case endClear =>
    cases h
    exact ⟨rfl, TransportMem.stream_streaming _ _ _, rfl⟩
  case endUnlock =>
    cases h
    rw [unlock_off hoff]
    exact ⟨howner, hstreaming, rfl⟩
  case addLock path =>
    obtain ⟨m₁, hlock, heq⟩ := Option.map_eq_some_iff.mp h
    cases heq
    rw [lock_off hoff hlock]
    exact ⟨howner, hstreaming, rfl⟩
  case syncLock =>
    obtain ⟨m₁, hlock, heq⟩ := Option.map_eq_some_iff.mp h
    cases heq
    rw [lock_off hoff hlock]
    exact ⟨howner, hstreaming, rfl⟩
  case addCheck path =>
    cases h
    refine ⟨howner, hstreaming, ?_⟩
    split <;> rfl
  case addOpen path =>
    cases h
    refine ⟨howner, hstreaming, ?_⟩
    split <;> rfl
  case addCount fd =>
    cases h
    exact ⟨howner, hstreaming, rfl⟩
  case addStore i fd =>
    cases h
    exact ⟨howner, hstreaming, rfl⟩
  case addUnlock err =>
    cases h
    rw [unlock_off hoff]
    exact ⟨howner, hstreaming, rfl⟩
  case syncCount result i =>
    cases h
    refine ⟨howner, hstreaming, ?_⟩
    split <;> rfl
  case syncLoad result i =>
    cases h
    refine ⟨howner, hstreaming, ?_⟩
    split <;> rfl
  case syncCall result i =>
    cases h
    exact ⟨howner, hstreaming, rfl⟩
  case syncUnlock result =>
    cases h
    rw [unlock_off hoff]
    exact ⟨howner, hstreaming, rfl⟩
  case returned => cases h
  case finished => cases h
  all_goals cases hpc

/-- The owner is set by what sends, before the scheduler runs as well. -/
theorem Effect.sentBy {m m' : TransportMem Tid} {pc pc' : TransportPc} {below : List TransportPc}
    (h : Effect none m pc m' pc') (hoff : m.started = false)
    (hsent : m.owner ≠ none → SentBy (pc :: below) (m.streaming none)) :
    m'.owner ≠ none → SentBy (pc' :: below) (m'.streaming none) := by
  have keep : pc'.owning = pc.owning → m.owner ≠ none → SentBy (pc' :: below) (m.streaming none) := by
    intro howning howner
    have hbefore := hsent howner
    rw [sentBy_cons] at hbefore ⊢
    rw [howning]
    exact hbefore
  cases h with
  | quiet _ _ _ _ _ howning howning' _ _ _ => exact keep (howning'.trans howning.symm)
  | send _ _ _ _ _ howning _ _ => exact keep howning
  | lock _ _ hon => rw [hoff] at hon; cases hon
  | pass _ _ _ hpc howning _ => exact keep (howning.trans hpc.owning.symm)
  | own type payload =>
    exact fun _ => (sentBy_cons _ _ _).mpr (.inl (Flush.start_frame_kind _).1)
  | opened => exact fun _ => .inl (TransportMem.stream_streaming _ _ _)
  | chunk data _ => exact keep rfl
  | endCheck _ => exact keep rfl
  | disown ok => exact fun hne => absurd rfl hne
  | closed => exact fun hne => absurd rfl hne
  | unlock _ _ _ howning _ hpc' _ =>
    rw [unlock_off hoff]
    exact keep (hpc'.owning.trans howning.symm)
  | addCount fd => exact keep rfl
  | addStore i fd => exact keep rfl

theorem Effect.mutex_off {c : Option Tid} {m m' : TransportMem Tid} {pc pc' : TransportPc}
    (h : Effect c m pc m' pc') (hoff : m.started = false) : m'.mutex = m.mutex := by
  cases h with
  | lock _ _ hon => rw [hoff] at hon; cases hon
  | unlock => rw [unlock_off hoff]
  | _ => rfl

end Booting

section Booting

variable {plainText : Bool} {s s' : TransportState Tid} {a : TransportAction Tid}

/-- A call that does not compare at once never does. -/
theorem start_of_not_guarded {call : TransportCall} (h : call.guarded plainText = false) :
    ∀ pc ∈ call.start plainText, pc.passed = false ∧ pc.guard = false := by
  have one : ∀ pc : TransportPc, pc.passed = false → pc.guard = false →
      ∀ p ∈ [pc], p.passed = false ∧ p.guard = false := by
    intro pc hpassed hguard p hp
    rw [List.mem_singleton.mp hp]
    exact ⟨hpassed, hguard⟩
  cases call with
  | writeFrame type payload =>
    cases payload with
    | none => exact one _ rfl rfl
    | some payload =>
      have hguard : (startFrame type payload).guard = false := h
      refine one _ ?_ hguard
      unfold startFrame
      split
      · rfl
      · rfl
  | rawStreamBegin => cases h
  | rawStreamWrite data => cases data <;> exact one _ rfl rfl
  | rawStreamEnd => exact one _ rfl rfl
  | addOutput path => cases path <;> exact one _ rfl rfl
  | fsync => exact one _ rfl rfl
  | write data =>
    cases data with
    | none => exact one _ rfl rfl
    | some bytes =>
      cases plainText with
      | true => cases h
      | false =>
        cases bytes with
        | nil => exact one _ rfl rfl
        | cons byte bytes =>
          -- a piece is never too long for a frame
          have hfits : ¬ transportMaxPayload <
              ((byte :: bytes).take transportMaxPayload).length := by
            rw [List.length_take]
            omega
          have hguard : (startFrame frameTypeText
              ((byte :: bytes).take transportMaxPayload)).guard = false := h
          unfold startFrame at hguard
          rw [if_neg hfits] at hguard
          cases hguard

/-- What is below the top of the stack before the scheduler runs. -/
theorem ContextMove.tail {m m' : TransportMem Tid} {calls calls' : List TransportPc}
    (h : ContextMove plainText none m a calls m' calls')
    (htail : ∀ pc ∈ calls.tail, pc.waits = true ∨ pc.callsOut = true) :
    ∀ pc ∈ calls'.tail, pc.waits = true ∨ pc.callsOut = true := by
  have hfresh : ∀ new rest, Fresh new → (∀ pc ∈ rest, pc.waits = true ∨ pc.callsOut = true) →
      ∀ pc ∈ (new ++ rest).tail, pc.waits = true ∨ pc.callsOut = true := by
    intro new rest hnew hrest pc hpc
    cases new with
    | nil => exact absurd rfl hnew.ne_nil
    | cons p new =>
      rcases List.mem_append.mp (show pc ∈ new ++ rest from hpc) with hpc | hpc
      · exact .inl (hnew.waits pc hpc)
      · exact hrest pc hpc
  cases h with
  | call call =>
    intro pc hpc
    exact .inl ((fresh_start plainText call).waits pc hpc)
  | reenter call d rest hout hcall =>
    refine hfresh _ _ (fresh_start plainText call) fun pc hpc => ?_
    rcases List.mem_cons.mp hpc with rfl | hpc
    · exact .inr hout
    · exact htail pc hpc
  | finish reply result => exact fun pc hpc => htail pc (List.mem_of_mem_tail hpc)
  | done reply err => exact nofun
  | resume reply err w rest =>
    have hrest : ∀ pc ∈ rest, pc.waits = true ∨ pc.callsOut = true := fun pc hpc =>
      htail pc (List.mem_cons_of_mem _ hpc)
    rcases htail w List.mem_cons_self with hw | hw
    · exact hfresh _ _ (fresh_resume hw err) hrest
    · rw [resume_of_not_waits (not_waits_of_callsOut hw)]
      exact hrest
  | step reply pc pc' m' rest hpc => exact htail
  | createTask t hc => exact nofun
  | startScheduler hc => exact nofun

/-- The owner is set by what sends, before the scheduler runs as well. -/
theorem ContextMove.sentBy {m m' : TransportMem Tid} {calls calls' : List TransportPc}
    (h : ContextMove plainText none m a calls m' calls') (hoff : m.started = false)
    (htail : ∀ pc ∈ calls.tail, pc.waits = true ∨ pc.callsOut = true)
    (hsent : m.owner ≠ none → SentBy calls (m.streaming none)) :
    m'.owner ≠ none → SentBy calls' (m'.streaming none) := by
  have hreturned : ∀ err, ∀ p ∈ [TransportPc.returned err], p.Neutral := fun err =>
    (fresh_one ⟨rfl, rfl, rfl, rfl⟩).neutral
  cases h with
  | call call =>
    intro howner
    have hstart := (sentBy_append_neutral (fresh_start plainText call).neutral []
      (m.streaming none)).mpr (hsent howner)
    rwa [List.append_nil] at hstart
  | reenter call d rest hout hcall =>
    exact fun howner => (sentBy_append_neutral (fresh_start plainText call).neutral _ _).mpr
      (hsent howner)
  | finish reply result =>
    intro howner
    rcases (sentBy_cons _ _ _).mp (hsent howner) with hown | hrest
    · cases hown
    · exact hrest
  | done reply err =>
    exact fun howner => (sentBy_append_neutral (hreturned err) [] _).mp (hsent howner)
  | resume reply err w rest =>
    intro howner
    have hbelow : SentBy (w :: rest) (m.streaming none) :=
      (sentBy_append_neutral (hreturned err) (w :: rest) _).mp (hsent howner)
    rcases htail w List.mem_cons_self with hw | hw
    · rw [sentBy_append_neutral (fresh_resume hw err).neutral]
      rcases (sentBy_cons _ _ _).mp hbelow with hown | hrest
      · rw [(TransportPc.neutral_of_waits hw).owning] at hown
        cases hown
      · exact hrest
    · rw [resume_of_not_waits (not_waits_of_callsOut hw)]
      exact hbelow
  | step reply pc pc' m' rest hpc => exact (pcStep_effect hpc).sentBy hoff hsent
  | createTask t hc => exact hsent
  | startScheduler hc => exact hsent

theorem passed_of_waits {pc : TransportPc} (h : pc.waits = true) : pc.passed = true := by
  cases pc
  case textWait => rfl
  case plainBegin => rfl
  case plainWrite => rfl
  case plainEnd => rfl
  all_goals cases h

theorem passed_of_entry {pc : TransportPc} (h : pc.guard = true ∨ ∃ err, pc = .returned err) :
    pc.passed = false := by
  rcases h with hguard | ⟨err, rfl⟩
  · cases pc
    case frameGuard => rfl
    case beginGuard => rfl
    all_goals cases hguard
  · rfl

theorem ContextMove.noTask {m m' : TransportMem Tid} {calls calls' : List TransportPc}
    (h : ContextMove plainText none m a calls m' calls') (hoff : m.started = false)
    (hhandle : m.handle = none) (hcall : ∀ call, a = .call call → call.guarded plainText = false)
    (htail : ∀ pc ∈ calls.tail, pc.waits = true ∨ pc.callsOut = true)
    (howner : m.owner = none) (hstreaming : m.streaming none = false)
    (hpassed : ∀ pc ∈ calls, pc.passed = false) :
    m'.owner = none ∧ m'.streaming none = false ∧ (∀ pc ∈ calls', pc.passed = false) ∧
      ∀ pc below, calls' = pc :: below → pc.guard = true → ∃ d ∈ below, d.callsOut = true := by
  have hnoguard : ∀ (pc : TransportPc) (below : List TransportPc), pc.guard = false →
      ∀ pc' below', pc :: below = pc' :: below' → pc'.guard = true →
        ∃ d ∈ below', d.callsOut = true := by
    intro pc below hguard pc' below' hcalls hguard'
    rw [← (List.cons.inj hcalls).1, hguard] at hguard'
    cases hguard'
  cases h with
  | call call =>
    have hstart := start_of_not_guarded (hcall call rfl)
    refine ⟨howner, hstreaming, fun pc hpc => (hstart pc hpc).1, fun pc below hcalls hguard => ?_⟩
    rw [(hstart pc (by rw [hcalls]; exact List.mem_cons_self)).2] at hguard
    cases hguard
  | reenter call d rest hout hreenters =>
    obtain ⟨new, hnew, hentry⟩ := start_of_reenters plainText hreenters
    rw [hnew]
    refine ⟨howner, hstreaming, fun pc hpc => ?_, fun pc below hcalls hguard => ?_⟩
    · rcases List.mem_cons.mp hpc with rfl | hpc
      · exact passed_of_entry hentry
      · exact hpassed pc hpc
    · refine ⟨d, ?_, hout⟩
      rw [← (List.cons.inj hcalls).2]
      exact List.mem_cons_self
  | finish reply result =>
    refine ⟨howner, hstreaming, fun pc hpc => hpassed pc (List.mem_cons_of_mem _ hpc), ?_⟩
    rintro pc below rfl hguard
    rcases htail pc List.mem_cons_self with hpc | hpc
    · rw [not_guard_of_waits hpc] at hguard
      cases hguard
    · rw [not_guard_of_callsOut hpc] at hguard
      cases hguard
  | done reply err => exact ⟨howner, hstreaming, nofun, nofun⟩
  | resume reply err w rest =>
    have hrest : ∀ pc ∈ w :: rest, pc.passed = false := fun pc hpc =>
      hpassed pc (List.mem_cons_of_mem _ hpc)
    rcases htail w List.mem_cons_self with hw | hw
    · have hno := hrest w List.mem_cons_self
      rw [passed_of_waits hw] at hno
      cases hno
    · rw [resume_of_not_waits (not_waits_of_callsOut hw)]
      exact ⟨howner, hstreaming, hrest, hnoguard w rest (not_guard_of_callsOut hw)⟩
  | step reply pc pc' m' rest hpc =>
    obtain ⟨howner', hstreaming', hpassed'⟩ :=
      pcStep_noTask hpc hoff hhandle howner hstreaming (hpassed pc List.mem_cons_self)
    refine ⟨howner', hstreaming', fun p hp => ?_, hnoguard pc' rest (pcStep_effect hpc).guard⟩
    rcases List.mem_cons.mp hp with rfl | hp
    · exact hpassed'
    · exact hpassed p (List.mem_cons_of_mem _ hp)
  | createTask t hc => exact ⟨howner, hstreaming, nofun, nofun⟩
  | startScheduler hc => exact ⟨howner, hstreaming, nofun, nofun⟩

theorem ContextMove.off {m m' : TransportMem Tid} {calls calls' : List TransportPc}
    (h : ContextMove plainText none m a calls m' calls') (hoff : m.started = false) :
    m'.mutex = m.mutex ∧ (∀ t, m'.streaming (some t) = m.streaming (some t)) ∧
      (a ≠ .startScheduler → m'.started = false) ∧
      (m'.handle = none → m.handle = none) := by
  cases h with
  | step reply pc pc' _ rest hpc =>
    have heffect := pcStep_effect hpc
    obtain ⟨hstarted, hhandle, hstreaming⟩ := heffect.keeps
    exact ⟨heffect.mutex_off hoff, fun t => hstreaming (some t) nofun,
      fun _ => hstarted.trans hoff, fun hnone => hhandle.symm.trans hnone⟩
  | createTask t hc => exact ⟨rfl, fun _ => rfl, fun _ => hoff, nofun⟩
  | startScheduler hc => exact ⟨rfl, fun _ => rfl, fun hne => absurd rfl hne, id⟩
  | _ => exact ⟨rfl, fun _ => rfl, fun _ => hoff, id⟩

omit [DecidableEq Tid] in
/-- The step with which the scheduler starts. -/
theorem running_start (h : s.Booting) (hboot : s.stack none = []) (howner : s.mem.owner = none) :
    (⟨{ s.mem with started := true }, s.stack⟩ : TransportState Tid).Running where
  started := rfl
  locked t := by
    obtain ⟨hcalls, hstreaming⟩ := h.tasks t
    dsimp only
    rw [hcalls, hstreaming, h.mutex, howner]
    refine ⟨.idle, Nat.zero_le _, iff_of_false nofun nofun, iff_of_false nofun ?_, nofun⟩
    rintro (hopen | ⟨pc, hpc, -⟩)
    · cases hopen
    · cases hpc
  boot := hboot
  entered t pc d below hcalls := by
    have hnone : s.stack (some t) = pc :: d :: below := hcalls
    rw [(h.tasks t).1] at hnone
    cases hnone

theorem booting_step (h : s.Booting) (hnext : s.Next plainText s') :
    s'.Booting ∨ s'.Running := by
  obtain ⟨c, a, hstep, hmeets⟩ := hnext
  obtain ⟨hruns, calls, hmoves, hstack⟩ := step_move hstep
  rw [h.started] at hruns
  obtain rfl : c = none := by simpa using hruns
  obtain ⟨hmutex, hstreaming, hstarted, hhandle⟩ := hmoves.off h.started
  by_cases ha : a = .startScheduler
  · right
    subst ha
    have hs : s' = ⟨s'.mem, Function.update s.stack none calls⟩ := by
      rw [← hstack]
    rw [hs]
    generalize hold : s.stack none = old at hmoves
    generalize s'.mem = m' at hmoves
    cases hmoves with
    | startScheduler _ =>
      have hsame : Function.update s.stack none [] = s.stack := by
        rw [← hold, Function.update_eq_self]
      rw [hsame]
      exact running_start h hold hmeets
  · left
    refine ⟨hstarted ha, hmutex.trans h.mutex, fun t => ⟨?_, ?_⟩, ?_, ?_, fun hnone => ?_⟩
    · have htask : some t ≠ none := nofun
      rw [hstack, Function.update_of_ne htask]
      exact (h.tasks t).1
    · rw [hstreaming t]
      exact (h.tasks t).2
    · rw [hstack, Function.update_self]
      exact hmoves.tail h.tail
    · rw [hstack, Function.update_self]
      exact hmoves.sentBy h.started h.tail h.owner
    · have hbefore := hhandle hnone
      have hno := h.noTask hbefore
      have hafter := hmoves.noTask h.started hbefore ?_ h.tail hno.owner hno.streaming hno.passed
      · refine ⟨hafter.1, hafter.2.1, ?_, ?_⟩
        · rw [hstack, Function.update_self]
          exact hafter.2.2.1
        · rw [hstack, Function.update_self]
          exact hafter.2.2.2
      · rintro call rfl
        cases hguarded : call.guarded plainText with
        | false => rfl
        | true => exact absurd hbefore (hmeets hguarded h.started)

omit [DecidableEq Tid] in
theorem booting_init : (TransportState.init : TransportState Tid).Booting where
  started := rfl
  mutex := rfl
  tasks _ := ⟨rfl, rfl⟩
  tail := nofun
  owner hne := absurd rfl hne
  noTask _ := ⟨rfl, rfl, nofun, nofun⟩

theorem booting_guardExact (h : s.Booting) : s.GuardExact plainText := by
  have hidle : ∀ t, ¬ s.AtGuard (some t) := by
    rintro t ⟨pc, below, hcalls, -⟩
    rw [(h.tasks t).1] at hcalls
    cases hcalls
  refine ⟨fun t hat => absurd hat (hidle t), fun c hat hinside hrefused => ?_⟩
  cases c with
  | some t => exact hidle t hat
  | none =>
    have hruns : (none : Option Tid).isSome = s.mem.started := h.started.symm
    rw [refused_iff hruns hat] at hrefused
    obtain ⟨pc, below, hcalls, hguard⟩ := hat
    have houtside : ∀ d ∈ below, d.callsOut ≠ true := by
      intro d hd hout
      refine hinside (.inr ⟨d, ?_, hout⟩)
      rw [hcalls]
      exact hd
    by_cases howner : s.mem.owner = none
    · -- the handle is `NULL` as well, so this is the call of a driver
      have hhandle : s.mem.handle = none := hrefused.symm.trans howner
      obtain ⟨d, hd, hout⟩ := (h.noTask hhandle).entered pc below hcalls hguard
      exact houtside d hd hout
    · have hsent := h.owner howner
      rw [hcalls, sentBy_cons, (neutral_of_guard hguard).owning] at hsent
      have htail := h.tail
      rw [hcalls] at htail
      rcases hsent with hown | hstreaming | ⟨d, hd, howning⟩
      · cases hown
      · exact hinside (.inl hstreaming)
      · rcases htail d hd with hwaits | hout
        · rw [(TransportPc.neutral_of_waits hwaits).owning] at howning
          cases howning
        · exact houtside d hd hout

end Booting

/-! ### Whole runs -/

section Runs

variable {plainText : Bool} {s s' : TransportState Tid} {c : Option Tid}
  {a : TransportAction Tid}

theorem run_booting_or_running
    (h : Reach .init (TransportState.Next plainText) (fun _ => True) s) :
    s.Booting ∨ s.Running := by
  refine h.invariant (I := fun s => s.Booting ∨ s.Running) (.inl booting_init) ?_
  rintro s s' (hboot | hrun) _ hnext
  · exact booting_step hboot hnext
  · exact .inr (running_step hrun hnext)

theorem run_guardExact (h : Reach .init (TransportState.Next plainText) (fun _ => True) s) :
    s.GuardExact plainText := by
  rcases run_booting_or_running h with hboot | hrun
  · exact booting_guardExact hboot
  · exact running_guardExact hrun

/-- A call that compares before there is a task is refused, although nothing is open. -/
theorem call_fails (h : s.Booting) (hhandle : s.mem.handle = none) {call : TransportCall}
    (hguarded : call.guarded plainText = true) (hmem : s'.mem = s.mem)
    (hstack : s'.stack = Function.update s.stack none (call.start plainText)) :
    ¬ s'.GuardExact plainText := by
  intro hexact
  have hno := h.noTask hhandle
  have hstart : s'.stack none = call.start plainText := by
    rw [hstack, Function.update_self]
  have hfresh := fresh_start plainText call
  have hat : s'.AtGuard none := by
    unfold TransportCall.guarded at hguarded
    rw [← hstart] at hguarded
    cases hcalls' : s'.stack none with
    | nil =>
      rw [hcalls'] at hguarded
      cases hguarded
    | cons pc below =>
      rw [hcalls'] at hguarded
      exact ⟨pc, below, hcalls', hguarded⟩
  refine hexact.2 none hat ?_ ?_
  · rintro (hstreaming | ⟨pc, hpc, hout⟩)
    · rw [hmem, hno.streaming] at hstreaming
      cases hstreaming
    · rw [hstart] at hpc
      rw [callsOut_of_waits (hfresh.waits pc hpc)] at hout
      cases hout
  · have hruns : (none : Option Tid).isSome = s'.mem.started := by
      rw [hmem]
      exact h.started.symm
    rw [refused_iff hruns hat, hmem]
    exact hno.owner.trans hhandle.symm

/-- A call from the driver of `open` or `fsync` is not refused, although the task has
the mutex. -/
theorem reenter_fails {t : Tid} (h : s.Running) {call : TransportCall} {pc : TransportPc}
    {below : List TransportPc} (hguarded : call.guarded plainText = true)
    (hreenters : call.reenters = true) (hcalls : s.stack (some t) = pc :: below)
    (hout : pc.callsOut = true) (hpc : ∀ f data, pc ≠ .outputWrite f data)
    (hmem : s'.mem = s.mem)
    (hstack : s'.stack = Function.update s.stack (some t) (call.start plainText ++ pc :: below)) :
    ¬ s'.GuardExact plainText := by
  intro hexact
  obtain ⟨new, hnew, -⟩ := start_of_reenters plainText hreenters
  have hguard : new.guard = true := by
    unfold TransportCall.guarded at hguarded
    rw [hnew] at hguarded
    exact hguarded
  have hat : s'.AtGuard (some t) := by
    refine ⟨new, pc :: below, ?_, hguard⟩
    rw [hstack, Function.update_self, hnew]
    rfl
  have hkind : pc.inside = true ∧ pc.owning = false := by
    cases pc
    case outputWrite f data => exact absurd rfl (hpc f data)
    case addOpen => exact ⟨rfl, rfl⟩
    case syncCall => exact ⟨rfl, rfl⟩
    all_goals cases hout
  have ht := h.locked t
  rw [hcalls] at ht
  have hmutex := ht.mutex_of_inside hkind.1
  have hruns : (some t).isSome = s'.mem.started := by
    rw [hmem]
    exact h.started.symm
  have hrefused := hexact.1 t hat (by rw [hmem]; exact hmutex)
  rw [refused_iff hruns hat, hmem, h.locked.owner_none hcalls hkind.1 hkind.2] at hrefused
  cases hrefused

/-- With a raw stream left open the task it is attributed to is refused. -/
theorem start_fails (plainText : Bool) {t : Tid} (h : s.Booting) (howner : s.mem.owner = some t)
    (hmem : s'.mem = { s.mem with started := true }) (hstack : s'.stack = s.stack) :
    ∃ s'', s'.step plainText (some t) (.call .rawStreamBegin) = some s'' ∧
      ¬ s''.GuardExact plainText := by
  obtain ⟨hcalls, hstreaming⟩ := h.tasks t
  have hruns : (some t).isSome = s'.mem.started := by
    rw [hmem]
    rfl
  obtain ⟨s'', hs''⟩ : ∃ s'' : TransportState Tid,
      s'' = ⟨s'.mem, Function.update s'.stack (some t) [.beginGuard]⟩ := ⟨_, rfl⟩
  have hmem'' : s''.mem = s'.mem := by rw [hs'']
  have hcalls'' : s''.stack (some t) = [.beginGuard] := by
    rw [hs'']
    exact Function.update_self _ _ _
  have hat : s''.AtGuard (some t) := ⟨.beginGuard, [], hcalls'', rfl⟩
  refine ⟨s'', ?_, fun hexact => hexact.2 (some t) hat ?_ ?_⟩
  · unfold TransportState.step
    rw [if_pos hruns, hstack, hcalls, hs'', hstack]
    rfl
  · rintro (hopen | ⟨pc, hpc, -⟩)
    · rw [hmem'', hmem] at hopen
      exact Bool.false_ne_true (hstreaming.symm.trans hopen)
    · rw [hcalls''] at hpc
      cases hpc
  · rw [refused_iff (by rw [hmem'']; exact hruns) hat, hmem'', hmem]
    exact howner

/-- As long as the steps of a run meet the condition, the guard refuses exactly the
calls it is for; a step that does not meet it leads to one that it gets wrong. -/
theorem guard_exact (plainText : Bool) :
    (∀ s : TransportState Tid, Reach .init (TransportState.Next plainText) (fun _ => True) s →
      s.GuardExact plainText) ∧
    ∀ (s : TransportState Tid) (c : Option Tid) (a : TransportAction Tid)
      (s' : TransportState Tid),
      Reach .init (TransportState.Next plainText) (fun _ => True) s →
      s.step plainText c a = some s' → ¬ s.Meets plainText c a →
      ¬ s'.GuardExact plainText ∨
        ∃ c a s'', s'.step plainText c a = some s'' ∧ ¬ s''.GuardExact plainText := by
  refine ⟨fun s h => run_guardExact h, fun s c a s' h hstep hnot => ?_⟩
  obtain ⟨hruns, calls, hmoves, hstack⟩ := step_move hstep
  rcases run_booting_or_running h with hboot | hrun
  · rw [hboot.started] at hruns
    obtain rfl : c = none := by simpa using hruns
    generalize hold : s.stack none = old at hmoves
    generalize hmem : s'.mem = m' at hmoves
    cases hmoves with
    | call call =>
      left
      obtain ⟨hguarded, hnot⟩ := Classical.not_imp.mp hnot
      obtain ⟨-, hhandle⟩ := Classical.not_imp.mp hnot
      exact call_fails hboot (not_not.mp hhandle) hguarded hmem hstack
    | reenter call pc below hout hcall =>
      obtain ⟨hguarded, hnot⟩ := Classical.not_imp.mp hnot
      obtain ⟨hon, -⟩ := Classical.not_imp.mp hnot
      rw [hboot.started] at hon
      cases hon
    | startScheduler hc =>
      right
      obtain ⟨t, howner⟩ := Option.ne_none_iff_exists'.mp (show s.mem.owner ≠ none from hnot)
      have hsame : Function.update s.stack none [] = s.stack := by
        rw [← hold, Function.update_eq_self]
      obtain ⟨s'', hs'', hfails⟩ := start_fails plainText hboot howner hmem
        (hstack.trans hsame)
      exact ⟨some t, _, s'', hs'', hfails⟩
    | _ => exact absurd trivial hnot
  · rw [hrun.started] at hruns
    obtain ⟨t, rfl⟩ := Option.isSome_iff_exists.mp hruns
    generalize hold : s.stack (some t) = old at hmoves
    generalize hmem : s'.mem = m' at hmoves
    cases hmoves with
    | call call =>
      obtain ⟨hguarded, hnot⟩ := Classical.not_imp.mp hnot
      obtain ⟨hoff, -⟩ := Classical.not_imp.mp hnot
      rw [hrun.started] at hoff
      cases hoff
    | reenter call pc below hout hcall =>
      left
      obtain ⟨hguarded, hnot⟩ := Classical.not_imp.mp hnot
      obtain ⟨-, hdriver⟩ := Classical.not_imp.mp hnot
      refine reenter_fails hrun hguarded hcall hold hout ?_ hmem hstack
      rintro f data rfl
      exact hdriver ⟨f, data, below, hold⟩
    | startScheduler hc => cases hc
    | _ => exact absurd trivial hnot

end Runs

/-! ### Where it is not exact -/

/-- Any step. -/
def TransportState.AnyStep (plainText : Bool) (s s' : TransportState Tid) : Prop :=
  ∃ c a, s.step plainText c a = some s'

/-- A task that the guard let through while it has the mutex waits for itself, whatever the
other tasks do. -/
theorem reentered_waits {plainText : Bool} {s s' : TransportState Tid} {t : Tid}
    {pc d : TransportPc} {below : List TransportPc} (h : s.Locked)
    (hstarted : s.mem.started = true) (hcalls : s.stack (some t) = pc :: d :: below)
    (hpc : pc = .beginLock ∨ ∃ type payload, pc = .frameLock type payload)
    (hout : d.callsOut = true)
    (hrun : Reach s (TransportState.AnyStep plainText) (fun _ => True) s') :
    s'.stack (some t) = pc :: d :: below := by
  suffices hinv : s'.Locked ∧ s'.mem.started = true ∧ s'.stack (some t) = pc :: d :: below from
    hinv.2.2
  refine hrun.invariant (I := fun s => s.Locked ∧ s.mem.started = true ∧
    s.stack (some t) = pc :: d :: below) ⟨h, hstarted, hcalls⟩ ?_
  rintro s s' ⟨h, hstarted, hcalls⟩ _ ⟨c, a, hstep⟩
  obtain ⟨hruns, calls, hmoves, hstack⟩ := step_move hstep
  rw [hstarted] at hruns
  obtain ⟨u, rfl⟩ := Option.isSome_iff_exists.mp hruns
  have hs' : s' = ⟨s'.mem, Function.update s.stack (some u) calls⟩ := by
    rw [← hstack]
  by_cases hut : u = t
  · exfalso
    subst hut
    have ht := h u
    rw [hcalls] at hmoves ht
    have hmutex : s.mem.mutex = some u := by
      have hpos : 0 < heldBy (pc :: d :: below) (s.mem.streaming (some u)) := by
        rcases TransportPc.inside_or_streams_of_callsOut hout with hinside | hstreams
        · exact heldBy_pos_of_mem (List.mem_cons_of_mem _ List.mem_cons_self) hinside _
        · rw [ht.streams d (List.mem_cons_of_mem _ List.mem_cons_self) hstreams]
          exact Nat.succ_pos _
      have hle := ht.held_le
      exact ht.mutex_iff.mpr (by omega)
    have hlock : s.mem.lock (some u) = none := by
      unfold TransportMem.lock
      rw [hstarted, hmutex]
      rfl
    generalize s'.mem = m' at hmoves
    rcases hpc with rfl | ⟨type, payload, rfl⟩
    · cases hmoves with
      | reenter _ _ _ hpc _ => cases hpc
      | step _ _ _ _ _ hpc =>
        rw [pcStep, hlock] at hpc
        cases hpc
    · cases hmoves with
      | reenter _ _ _ hpc _ => cases hpc
      | step _ _ _ _ _ hpc =>
        rw [pcStep, hlock] at hpc
        cases hpc
  · refine ⟨?_, hmoves.keeps.1.trans hstarted, ?_⟩
    · rw [hs']
      exact h.moves hstarted hmoves
    · rw [hstack, Function.update_of_ne (by simpa using Ne.symm hut)]
      exact hcalls

/-- The driver of `open` calls while task 0 adds an output; a raw stream is begun before
there is a task. -/
theorem guard_not_exact :
    (∃ s : TransportState ℕ, Reach .init (TransportState.AnyStep false) (fun _ => True) s ∧
      ∃ t, s.AtGuard (some t) ∧ s.mem.mutex = some t ∧ ¬ s.Refused false (some t)) ∧
    ∃ s : TransportState ℕ, Reach .init (TransportState.AnyStep false) (fun _ => True) s ∧
      ∃ c, s.AtGuard c ∧ ¬ s.Inside c ∧ s.Refused false c := by
  have hstart : Reach (TransportState.init : TransportState ℕ) (TransportState.AnyStep false)
      (fun _ => True) _ := .step .init trivial ⟨none, .startScheduler, rfl⟩
  constructor
  · have hcall := hstart.step trivial ⟨some 0, .call (.addOutput (some [])), rfl⟩
    have hlock := hcall.step trivial ⟨some 0, .go ⟨0, false⟩, rfl⟩
    have hopen := hlock.step trivial ⟨some 0, .go ⟨0, false⟩, rfl⟩
    have hreenter := hopen.step trivial ⟨some 0, .reenter .rawStreamBegin, rfl⟩
    refine ⟨_, hreenter, 0, ⟨.beginGuard, [.addOpen []], rfl, rfl⟩, rfl, fun hrefused => ?_⟩
    rw [refused_iff rfl ⟨.beginGuard, [.addOpen []], rfl, rfl⟩] at hrefused
    cases hrefused
  · have hcall : Reach (TransportState.init : TransportState ℕ) (TransportState.AnyStep false)
        (fun _ => True) _ := .step .init trivial ⟨none, .call .rawStreamBegin, rfl⟩
    refine ⟨_, hcall, none, ⟨.beginGuard, [], rfl, rfl⟩, ?_, ?_⟩
    · rintro (hopen | ⟨pc, hpc, -⟩)
      · cases hopen
      · cases hpc
    · rw [refused_iff rfl ⟨.beginGuard, [], rfl, rfl⟩]
      rfl

end On9log
