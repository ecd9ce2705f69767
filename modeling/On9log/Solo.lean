import On9log.Lib.Exec
import On9log.Outcome

/-!
# A call with no one else running

`World` is what surrounds the library: memory, the tag filters, the image ID,
the ISR backend and the time. `reply` answers every operation from it and from
the shared state, so that whole calls can be executed. `call_returns` says that
every call made while the emit lock is free comes to its end.
-/

namespace On9log
open Lib

structure World where
  levels : Ptr → ℕ
  mem : Mem
  image : ImageIdReply
  isrReady : Bool
  enqueue : List UInt8 → Bool
  now : ℕ

variable {Tid : Type} {cfg : Config} {t : Tid} {w : World}

def reply (cfg : Config) (w : World) (t : Tid) (s : Shared Tid) :
    (o : Op) → Option (o.Ret × Shared Tid)
  | .emitLock => if s.emitOwner.isNone then some ((), { s with emitOwner := some t }) else none
  | .emitUnlock => some ((), { s with emitOwner := none })
  | .loadSlot i => some (s.sinks i, s)
  | .storeSlot i e => some ((), { s with sinks := Function.update s.sinks i e })
  | .fetchAddSeq => some (s.seq, { s with seq := (s.seq + 1) % 2 ^ cfg.fast16 })
  | .addDropped => some ((), { s with dropped := (s.dropped + 1) % 2 ^ cfg.fast32 })
  | .exchangeDropped => some (s.dropped, { s with dropped := 0 })
  | .timestampMs => some (max s.clock w.now, { s with clock := max s.clock w.now })
  | .filterLevelForTag tag => some (w.levels tag, s)
  | .isrTimestampMs => some (w.now, s)
  | .memory => some (w.mem, s)
  | .imageId => some (w.image, s)
  | .isrReady => some (w.isrReady, s)
  | .isrEnqueuePacket p => some (w.enqueue p, s)
  | .stream _ => some ((), s)
  | .call _ _ => some ((), s)

theorem step_of_reply (s : Shared Tid) (o : Op) (r : o.Ret) (s' : Shared Tid)
    (h : reply cfg w t s o = some (r, s')) : (system Tid cfg).step t o r s s' := by
  show step cfg t o r s s'
  cases o
  case emitLock =>
    simp only [reply] at h
    split at h
    · rename_i ho
      simp only [Option.some.injEq, Prod.mk.injEq] at h
      exact ⟨Option.isNone_iff_eq_none.mp ho, h.2.symm⟩
    · cases h
  case timestampMs =>
    simp only [reply, Option.some.injEq, Prod.mk.injEq] at h
    obtain ⟨rfl, rfl⟩ := h
    exact ⟨Nat.le_max_left _ _, rfl⟩
  all_goals
    simp only [reply, Option.some.injEq, Prod.mk.injEq] at h
    obtain ⟨h₁, h₂⟩ := h
    subst h₂
    first
      | rfl
      | exact ⟨h₁.symm, rfl⟩

theorem reply_eq_none {s : Shared Tid} {o : Op} (h : reply cfg w t s o = none) :
    (emitLockSpec Tid).isLock o = true ∧ (emitLockSpec Tid).owner s ≠ none := by
  cases o
  case emitLock =>
    simp only [reply] at h
    split at h
    · cases h
    · rename_i ho
      refine ⟨rfl, fun hn => ho ?_⟩
      show s.emitOwner.isNone = true
      rw [show s.emitOwner = none from hn]
      rfl
  all_goals cases h

def execCall (cfg : Config) (w : World) (t : Tid) (s : Shared Tid) (c : Call) :
    Option (Shared Tid × List Ev × Res) :=
  (body cfg c).exec (reply cfg w t) s

theorem call_returns [DecidableEq Tid] (cfg : Config) (w : World) (t : Tid) {s : Shared Tid}
    (h : s.emitOwner = none) (c : Call) : ∃ s' es v, execCall cfg w t s c = some (s', es, v) :=
  (emitLockSpec Tid).exec_of_discipline (mutex_emitLock cfg) step_of_reply
    (fun _ _ => reply_eq_none) (body_disciplined c) fun _ => h

theorem run_execCall [DecidableEq Tid] {c : Lib.Config Tid Call Op Op.Ret Res (Shared Tid)}
    {tr : List (Label Tid Call Op Op.Ret Res)} {call : Call} {s' : Shared Tid} {es : List Ev}
    {v : Res} (h : (system Tid cfg).Run c tr) (ht : c.thread t = none)
    (hx : execCall cfg w t c.state call = some (s', es, v)) :
    (system Tid cfg).Run ⟨s', c.thread⟩
      (.ret t call v :: ((es.map fun e => Label.act t e).reverse ++ .invoke t call :: tr)) :=
  h.solo step_of_reply ht hx

theorem memIs_execCall {s s' : Shared Tid} {call : Call} {es : List Ev} {v : Res}
    (hx : execCall cfg w t s call = some (s', es, v)) : MemIs w.mem es := by
  intro m hm
  obtain ⟨s₁, s₂, h⟩ := Prog.exec_answers hx hm
  simp only [reply, Option.some.injEq, Prod.mk.injEq] at h
  exact h.1.symm

/-- The world's filter lets a level through for a tag. -/
def World.Passes (cfg : Config) (w : World) (level : ℕ) (tag : Ptr) : Prop :=
  levelInRange cfg level ∧ w.levels tag ≤ levelVerbose ∧ level ≤ w.levels tag

theorem gate_execCall {s s' : Shared Tid} {call : Call} {es gate : List Ev} {v : Res} {level : ℕ}
    {tag : Ptr} {b : Bool} (hx : execCall cfg w t s call = some (s', es, v))
    (hw : w.Passes cfg level tag) (hg : Gate cfg level tag b gate) (hsub : gate ⊆ es) :
    b = true := by
  obtain ⟨hrange, hvalid, hle⟩ := hw
  cases hg with
  | compileTime hr => exact absurd hrange hr
  | runtime rl _ =>
    obtain ⟨s₁, s₂, h⟩ := Prog.exec_answers hx (hsub (List.mem_singleton_self _))
    simp only [reply, Option.some.injEq, Prod.mk.injEq] at h
    obtain ⟨rfl, -⟩ := h
    unfold levelInRange at hrange
    exact decide_eq_true ⟨by omega, hvalid, hle⟩

theorem passes_execCall {s s' : Shared Tid} {call : Call} {es : List Ev} {v : Res} {level : ℕ}
    {tag : Ptr} (hx : execCall cfg w t s call = some (s', es, v))
    (hc : call.filter = some (level, tag)) (hw : w.Passes cfg level tag) :
    Passes cfg level tag es := by
  obtain ⟨b, gate, rest, hg, rfl⟩ := (performs_body (Prog.exec_path hx)).gate hc
  have hb := gate_execCall hx hw hg (List.subset_append_left gate rest)
  rw [hb] at hg
  exact hg.passes

theorem callEvents_solo [DecidableEq Tid] (t : Tid) (call : Call) (es : List Ev) :
    callEvents t (((es.map fun e => Label.act t e).reverse ++ [.invoke t call] :
      List (Label Tid Call Op Op.Ret Res))) = es := by
  induction es using List.reverseRecOn with
  | nil => simp [callEvents]
  | append_singleton es e ih =>
    simp only [List.map_append, List.map_cons, List.map_nil, List.reverse_append,
      List.reverse_singleton, List.nil_append, List.cons_append, callEvents, if_pos]
    rw [ih]

/-- A call made at the start, alone: a run in which it returns. -/
theorem run_call [DecidableEq Tid] (cfg : Config) (w : World) (t : Tid) (call : Call) {α : Type}
    (f : List Ev × Res → α) {a : α}
    (hx : (execCall cfg w t Shared.init call).map (fun p => f p.2) = some a) :
    ∃ c tr v, (system Tid cfg).Run c (.ret t call v :: tr) ∧ MemIs w.mem (callEvents t tr) ∧
      (∀ level tag, call.filter = some (level, tag) → w.Passes cfg level tag →
        Passes cfg level tag (callEvents t tr)) ∧ f (callEvents t tr, v) = a := by
  obtain ⟨⟨s', es, v⟩, hcall, rfl⟩ := Option.map_eq_some_iff.mp hx
  have hrun := run_execCall (System.Run.init (S := system Tid cfg)) rfl hcall
  have hes := callEvents_solo t call es
  refine ⟨_, _, v, hrun, ?_, fun level tag hc hw => ?_, ?_⟩
  · rw [hes]
    exact memIs_execCall hcall
  · rw [hes]
    exact passes_execCall hcall hc hw
  · rw [hes]

/-- Calls made one after another by one thread, on top of the trace so far. -/
def execCalls (cfg : Config) (w : World) (t : Tid) (s : Shared Tid)
    (tr : List (Label Tid Call Op Op.Ret Res)) :
    List Call → Option (Shared Tid × List (Label Tid Call Op Op.Ret Res))
  | [] => some (s, tr)
  | c :: cs =>
    match execCall cfg w t s c with
    | none => none
    | some (s₁, es, v) => execCalls cfg w t s₁
        (.ret t c v :: ((es.map fun e => Label.act t e).reverse ++ .invoke t c :: tr)) cs

theorem run_execCalls [DecidableEq Tid] {c : Lib.Config Tid Call Op Op.Ret Res (Shared Tid)}
    {tr tr' : List (Label Tid Call Op Op.Ret Res)} {calls : List Call} {s' : Shared Tid}
    (h : (system Tid cfg).Run c tr) (ht : c.thread t = none)
    (hx : execCalls cfg w t c.state tr calls = some (s', tr')) :
    (system Tid cfg).Run ⟨s', c.thread⟩ tr' := by
  induction calls generalizing c tr with
  | nil =>
    simp only [execCalls, Option.some.injEq, Prod.mk.injEq] at hx
    obtain ⟨rfl, rfl⟩ := hx
    exact h
  | cons call calls ih =>
    unfold execCalls at hx
    split at hx
    · cases hx
    · rename_i s₁ es₁ v hcall
      have hrun := run_execCall h ht hcall
      have hrest := ih hrun ht hx
      exact hrest

/-- Whatever a list of calls does from the start, some run does, and leaves no
call unfinished. -/
theorem run_from_init [DecidableEq Tid] (cfg : Config) (w : World) (t : Tid) (calls : List Call)
    {α : Type} (f : Shared Tid × List (Label Tid Call Op Op.Ret Res) → α) {a : α}
    (hx : (execCalls cfg w t Shared.init [] calls).map f = some a) :
    ∃ c tr, (system Tid cfg).Run c tr ∧ (∀ u, callEvents u tr = []) ∧ f (c.state, tr) = a := by
  obtain ⟨⟨s', tr⟩, hcalls, rfl⟩ := Option.map_eq_some_iff.mp hx
  have hrun := run_execCalls (System.Run.init (S := system Tid cfg)) rfl hcalls
  exact ⟨_, tr, hrun, fun u => (hrun.thread u).1 rfl, rfl⟩

/-! ### A small configuration -/

def smallConfig : Config where
  maxSinks := 2
  bufferChunkSize := 4
  maxDynamicStringLen := 8
  isrPacketMax := 64
  localLevel := 5
  fast16 := 16
  fast32 := 32
  addrInImage p := decide (p < 1000)
  chunk_pos := by decide
  chunk_le := by decide
  string_le := by decide
  isr_ge := by decide
  fast16_ge := by decide
  fast32_ge := by decide

/-- Nothing is filtered, memory holds only zeros and the ring buffer accepts all. -/
def quietWorld : World where
  levels _ := levelVerbose
  mem _ := 0
  image := ⟨fun _ => 0, 0, 0⟩
  isrReady := true
  enqueue _ := true
  now := 0

end On9log
