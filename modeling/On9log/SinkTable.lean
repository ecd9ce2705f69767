import On9log.Progress
import On9log.Solo

/-!
# The sink table is a set, and delivery is exact

`TableOk` holds in every reachable state. Registration and removal act on the
set of registered pairs (`registered`) at the moment their call takes the emit
lock; a packet goes to the pairs registered when its stream takes the lock; and
a pair that was removed is not called until it is stored again.
-/

namespace On9log
open Lib

variable {Tid : Type} [DecidableEq Tid] {cfg : Config}
  {c : Lib.Config Tid Call Op Op.Ret Res (Shared Tid)}
  {tr : List (Label Tid Call Op Op.Ret Res)}

/-! ### The set of registered pairs -/

theorem registered_length {table : ℕ → SinkEntry} :
    (registered cfg table).length < cfg.maxSinks ↔ ∃ i < cfg.maxSinks, (table i).sink = 0 := by
  have key : ∀ l : List ℕ, (live table l).length < l.length ↔ ∃ i ∈ l, (table i).sink = 0 := by
    intro l
    have hlen : l.length = (l.map table).length := (List.length_map table).symm
    unfold live
    rw [hlen, List.length_filter_lt_length_iff_exists]
    simp
  have h := key (List.range cfg.maxSinks)
  rw [List.length_range] at h
  simpa [registered] using h

theorem mem_registered_insert {table : ℕ → SinkEntry} {i : ℕ} {e e' : SinkEntry}
    (hi : i < cfg.maxSinks) (he : e.sink ≠ 0) (hfree : table i = SinkEntry.free) :
    e' ∈ registered cfg (Function.update table i e) ↔ e' ∈ registered cfg table ∨ e' = e := by
  rw [mem_registered, mem_registered]
  constructor
  · rintro ⟨hne, j, hj, hje⟩
    by_cases hji : j = i
    · subst hji
      rw [Function.update_self] at hje
      exact Or.inr hje.symm
    · rw [Function.update_of_ne hji] at hje
      exact Or.inl ⟨hne, j, hj, hje⟩
  · rintro (⟨hne, j, hj, hje⟩ | rfl)
    · have hji : j ≠ i := by
        intro hji
        rw [hji, hfree] at hje
        exact hne (by rw [← hje]; rfl)
      exact ⟨hne, j, hj, by rw [Function.update_of_ne hji, hje]⟩
    · exact ⟨he, i, hi, Function.update_self ..⟩

theorem mem_registered_remove {table : ℕ → SinkEntry} (h : TableOk cfg table) {i : ℕ}
    {e e' : SinkEntry} (hi : i < cfg.maxSinks) (hie : table i = e) :
    e' ∈ registered cfg (Function.update table i SinkEntry.free) ↔
      e' ∈ registered cfg table ∧ e' ≠ e := by
  rw [mem_registered, mem_registered]
  constructor
  · rintro ⟨hne, j, hj, hje⟩
    have hji : j ≠ i := by
      intro hji
      rw [hji, Function.update_self] at hje
      exact hne (by rw [← hje]; rfl)
    rw [Function.update_of_ne hji] at hje
    refine ⟨⟨hne, j, hj, hje⟩, fun heq => hji ?_⟩
    exact h.distinct j hj i hi (by rw [hje]; exact hne) (by rw [hje, hie, heq])
  · rintro ⟨⟨hne, j, hj, hje⟩, hdiff⟩
    have hji : j ≠ i := by
      intro hji
      rw [hji, hie] at hje
      exact hdiff hje.symm
    exact ⟨hne, j, hj, by rw [Function.update_of_ne hji, hje]⟩

/-- The result of `on9log_add_sink` and its effect on the set. -/
def AddsTo (cfg : Config) (before after : ℕ → SinkEntry) (e : SinkEntry) (r : Err) : Prop :=
  (r = .ok ↔ e ∈ registered cfg before ∨ (registered cfg before).length < cfg.maxSinks) ∧
    ∀ e', e' ∈ registered cfg after ↔ e' ∈ registered cfg before ∨ (r = .ok ∧ e' = e)

/-- The result of `on9log_remove_sink` and its effect on the set. -/
def RemovesFrom (cfg : Config) (before after : ℕ → SinkEntry) (e : SinkEntry) (r : Err) : Prop :=
  (r = .ok ↔ e ∈ registered cfg before) ∧
    ∀ e', e' ∈ registered cfg after ↔ e' ∈ registered cfg before ∧ e' ≠ e

theorem steps_store {x x' : Emit} {l : List Ev} {i : ℕ} {e : SinkEntry} (hl : OnlyLoads l)
    (hs : Steps (emitStep cfg) x (l ++ [⟨.storeSlot i e, ()⟩]) x') :
    TableIs x.sinks l ∧ x'.sinks = Function.update x.sinks i e := by
  obtain ⟨x₁, h₁, x₂, h₂, h₃⟩ := steps_append.mp hs
  obtain ⟨hx₁, ht⟩ := steps_onlyLoads hl h₁
  rw [show x' = x₂ from h₃, show x₂ = _ from h₂, hx₁]
  exact ⟨ht, rfl⟩

theorem AddSection.addsTo {x x' : Emit} {e : SinkEntry} {r : Err} {b : List Ev}
    (h : AddSection cfg e r b) (hok : TableOk cfg x.sinks) (he : e.sink ≠ 0)
    (hs : Steps (emitStep cfg) x b x') : AddsTo cfg x.sinks x'.sinks e r := by
  cases h with
  | present _ hl hp =>
    obtain ⟨hx, ht⟩ := steps_onlyLoads hl hs
    have hmem : e ∈ registered cfg x.sinks := mem_registered.mpr ⟨he, hp _ ht⟩
    rw [hx]
    refine ⟨⟨fun _ => Or.inl hmem, fun _ => rfl⟩, fun e' => ⟨Or.inl, ?_⟩⟩
    rintro (h | ⟨-, rfl⟩)
    · exact h
    · exact hmem
  | inserted l i hl hi hp =>
    obtain ⟨ht, hx⟩ := steps_store hl hs
    obtain ⟨-, hfree⟩ := hp _ ht
    rw [hx]
    refine ⟨⟨fun _ => Or.inr (registered_length.mpr ⟨i, hi, by rw [hfree]; rfl⟩), fun _ => rfl⟩,
      fun e' => ?_⟩
    rw [mem_registered_insert hi he hfree]
    simp
  | full _ hl hp =>
    obtain ⟨hx, ht⟩ := steps_onlyLoads hl hs
    have hfull := hp _ ht
    rw [hx]
    refine ⟨⟨fun h => (by cases h), ?_⟩, fun e' => by simp⟩
    rintro (hmem | hlt)
    · obtain ⟨-, i, hi, hie⟩ := mem_registered.mp hmem
      exact absurd hie (hfull i hi).1
    · obtain ⟨i, hi, hz⟩ := registered_length.mp hlt
      exact absurd (hok.free i hz) (hfull i hi).2

theorem RemoveSection.removesFrom {x x' : Emit} {e : SinkEntry} {r : Err} {b : List Ev}
    (h : RemoveSection cfg e r b) (hok : TableOk cfg x.sinks) (he : e.sink ≠ 0)
    (hs : Steps (emitStep cfg) x b x') : RemovesFrom cfg x.sinks x'.sinks e r := by
  cases h with
  | removed l i hl hi hp =>
    obtain ⟨ht, hx⟩ := steps_store hl hs
    have hie := hp _ ht
    rw [hx]
    exact ⟨⟨fun _ => mem_registered.mpr ⟨he, i, hi, hie⟩, fun _ => rfl⟩,
      fun e' => mem_registered_remove hok hi hie⟩
  | absent _ hl hp =>
    obtain ⟨hx, ht⟩ := steps_onlyLoads hl hs
    have hnot : e ∉ registered cfg x.sinks := by
      intro hmem
      obtain ⟨-, i, hi, hie⟩ := mem_registered.mp hmem
      exact hp _ ht i hi hie
    rw [hx]
    refine ⟨⟨fun h => (by cases h), fun h => absurd h hnot⟩, fun e' => ⟨fun h => ⟨h, ?_⟩, And.left⟩⟩
    intro heq
    exact hnot (heq ▸ h)

/-! ### Calls that change the table -/

/-- A call of `t` that returned after `tr` took the emit lock after `tr₀` and
gave it back after `tr₁`. -/
def Locked (t : Tid) (tr₀ tr₁ tr : List (Label Tid Call Op Op.Ret Res)) : Prop :=
  callEvents t tr₀ = [] ∧ (.act t ⟨.emitLock, ()⟩ :: tr₀) <:+ tr₁ ∧
    (.act t ⟨.emitUnlock, ()⟩ :: tr₁) <:+ tr

theorem locked_call (h : (system Tid cfg).Run c tr) {t : Tid} {b : List Ev}
    (hb : Inside b) (he : callEvents t tr = ⟨.emitLock, ()⟩ :: b ++ [⟨.emitUnlock, ()⟩]) :
    ∃ tr₀ tr₁ c₀ c₁, Locked t tr₀ tr₁ tr ∧ (system Tid cfg).Run c₀ tr₀ ∧
      (system Tid cfg).Run c₁ tr₁ ∧ Steps (emitStep cfg) c₀.state.emit b c₁.state.emit := by
  have hin : ∀ e ∈ b, (emitLockSpec Tid).isLock e.op = false ∧
      (emitLockSpec Tid).isUnlock e.op = false := by
    intro e he
    have h := hb e he
    generalize e.op = o at h
    cases o <;> simp_all [emitLockSpec, Op.inside]
  obtain ⟨tr₀, tr₁, tr₂, tr₃, c₀, c₁, h₁, h₂, h₀, hrun₀, hrun₁, hs⟩ :=
    (emitLockSpec Tid).call_section (mutex_emitLock cfg) body_disciplined emitStep_of_step
      emit_of_unguarded h (a := ⟨.emitLock, ()⟩) rfl hin he
  exact ⟨tr₀, tr₁, c₀, c₁, ⟨h₀, ⟨tr₂, h₁.symm⟩, ⟨tr₃, h₂.symm⟩⟩, hrun₀, hrun₁, hs⟩

theorem add_sink_result {t : Tid} {sink ctx : Ptr} {callbacks : Sink} {v : Res}
    (h : (system Tid cfg).Run c (.ret t (.addSink sink callbacks ctx) v :: tr))
    (hv : ValidSink sink callbacks) :
    ∃ r tr₀ tr₁ c₀ c₁, v = .err r ∧ Locked t tr₀ tr₁ tr ∧ (system Tid cfg).Run c₀ tr₀ ∧
      (system Tid cfg).Run c₁ tr₁ ∧ AddsTo cfg c₀.state.sinks c₁.state.sinks ⟨sink, ctx⟩ r := by
  obtain ⟨r, rfl, hres⟩ := performs_ret h
  rcases hres with ⟨hinv, -⟩ | ⟨-, b, hb, he⟩
  · exact absurd hv hinv
  · obtain ⟨c', h'⟩ := h.tail
    obtain ⟨tr₀, tr₁, c₀, c₁, hl, h₀, h₁, hs⟩ :=
      locked_call h' (inside_tableSection hb.tableSection) he
    exact ⟨r, tr₀, tr₁, c₀, c₁, rfl, hl, h₀, h₁, hb.addsTo (progress_run h₀).1.ok hv.1 hs⟩

theorem remove_sink_result {t : Tid} {sink ctx : Ptr} {v : Res}
    (h : (system Tid cfg).Run c (.ret t (.removeSink sink ctx) v :: tr)) (hv : sink ≠ 0) :
    ∃ r tr₀ tr₁ c₀ c₁, v = .err r ∧ Locked t tr₀ tr₁ tr ∧ (system Tid cfg).Run c₀ tr₀ ∧
      (system Tid cfg).Run c₁ tr₁ ∧
      RemovesFrom cfg c₀.state.sinks c₁.state.sinks ⟨sink, ctx⟩ r := by
  obtain ⟨r, rfl, hres⟩ := performs_ret h
  rcases hres with ⟨hz, -⟩ | ⟨-, b, hb, he⟩
  · exact absurd hz hv
  · obtain ⟨c', h'⟩ := h.tail
    obtain ⟨tr₀, tr₁, c₀, c₁, hl, h₀, h₁, hs⟩ :=
      locked_call h' (inside_tableSection hb.tableSection) he
    exact ⟨r, tr₀, tr₁, c₀, c₁, rfl, hl, h₀, h₁, hb.removesFrom (progress_run h₀).1.ok hv hs⟩

/-! ### The sinks of a packet -/

theorem CoreSection.noStore {v : ℕ} {b : List Ev} (h : CoreSection cfg v b) {call : StreamCall}
    (hs : (⟨.stream call, ()⟩ : Ev) ∈ b) : ∀ e ∈ b, ∀ i s, e.op ≠ .storeSlot i s := by
  have htable : ¬ TableSection b := by
    rintro (hl | ⟨l, i, e, hl, rfl⟩)
    · obtain ⟨i, hi⟩ := hl _ hs
      cases hi
    · rcases List.mem_append.mp hs with hs | hs
      · obtain ⟨i, hi⟩ := hl _ hs
        cases hi
      · cases List.mem_singleton.mp hs
  cases h with
  | packet slots pkt _ hp _ => exact hp.noStore
  | add e r _ _ hadd => exact absurd hadd.tableSection htable
  | remove e r _ _ hrem => exact absurd hrem.tableSection htable

/-- A packet goes to the pairs registered when its stream took the emit lock. -/
theorem sinks_at_open {t : Tid} {origin : Origin} {header : List UInt8}
    (h : (system Tid cfg).Run c (.act t ⟨.stream (.start origin header), ()⟩ :: tr)) :
    ∃ tr₀ c₀, (.act t ⟨.emitLock, ()⟩ :: tr₀) <:+ tr ∧ (system Tid cfg).Run c₀ tr₀ ∧
      (wireOf cfg (actEvents (.act t ⟨.stream (.start origin header), ()⟩ :: tr))).current =
        some ⟨⟨origin, header, []⟩, registered cfg c₀.state.sinks⟩ := by
  obtain ⟨c', h'⟩ := h.tail
  have hcases := (emitLockSpec Tid).act_cases (mutex_emitLock cfg) body_disciplined h
  have hh : (emitLockSpec Tid).holder tr = some t := by
    rcases hcases with ⟨hl, -⟩ | ⟨-, hu, -⟩ | ⟨-, -, hh⟩ | ⟨-, -, -, hg⟩
    · cases hl
    · cases hu
    · exact hh
    · cases hg
  obtain ⟨c₀, h₀, hs⟩ := (emitLockSpec Tid).open_steps (mutex_emitLock cfg) body_disciplined
    emitStep_of_step emit_of_unguarded h' t hh
  obtain ⟨e, he, hsuf⟩ := (emitLockSpec Tid).lockTrace_suffix hh
  have hlock : e = ⟨.emitLock, ()⟩ := by
    obtain ⟨o, r⟩ := e
    cases o
    case emitLock => rfl
    all_goals cases he
  have hopen : (emitLockSpec Tid).openSection
      (.act t ⟨.stream (.start origin header), ()⟩ :: tr) =
      (emitLockSpec Tid).openSection tr ++ [⟨.stream (.start origin header), ()⟩] := by
    simp [LockSpec.openSection, emitLockSpec] at hh ⊢
    simp [hh]
  have hstore : ∀ e ∈ (emitLockSpec Tid).openSection tr, ∀ i s, e.op ≠ .storeSlot i s := by
    obtain ⟨b, x, ⟨v, hb⟩, -⟩ := (emitLockSpec Tid).openSection_completes (mutex_emitLock cfg)
      body_disciplined (total_emitStep cfg) h hh c₀.state.emit
    rw [hopen] at hb
    intro e he
    have hin : (⟨.stream (.start origin header), ()⟩ : Ev) ∈
        (emitLockSpec Tid).openSection tr ++ [⟨.stream (.start origin header), ()⟩] ++ b := by simp
    refine hb.noStore hin e ?_
    simp [he]
  have htable : c'.state.sinks = c₀.state.sinks := by
    have hw := steps_table (w := ⟨c₀.state.sinks, none, []⟩) hs rfl
    rw [foldl_wireStep_noStore hstore] at hw
    exact hw.symm
  refine ⟨_, c₀, hlock ▸ hsuf, h₀, ?_⟩
  have hw := (progress_run h').1.table
  rw [actEvents, wireOf_append]
  show some (⟨⟨origin, header, []⟩, registered cfg (wireOf cfg (actEvents tr)).table⟩ : Sent) = _
  rw [hw, ← htable]
  rfl

/-! ### After a removal -/

/-- `e` is neither registered nor a sink of the packet in progress. -/
structure Absent (cfg : Config) (e : SinkEntry) (w : Wire) : Prop where
  table : e ∉ registered cfg w.table
  current : ∀ s, w.current = some s → e ∉ s.sinks

theorem Absent.step {e : SinkEntry} {w : Wire} {ev : Ev} (h : Absent cfg e w) (he : e.sink ≠ 0)
    (hev : ∀ i, ev.op ≠ .storeSlot i e) :
    Absent cfg e (wireStep cfg w ev) ∧ (wireStep cfg w ev).to e = w.to e := by
  obtain ⟨o, r⟩ := ev
  cases o
  case storeSlot i e' =>
    refine ⟨⟨fun hmem => ?_, h.current⟩, rfl⟩
    obtain ⟨-, j, hj, hje⟩ := mem_registered.mp hmem
    by_cases hji : j = i
    · subst hji
      have heq : e' = e := by simpa [wireStep] using hje
      exact hev j (by rw [heq])
    · have hold : w.table j = e := by simpa [wireStep, Function.update_of_ne hji] using hje
      exact h.table (mem_registered.mpr ⟨he, j, hj, hold⟩)
  case stream call =>
    cases call with
    | start origin header =>
      refine ⟨⟨h.table, fun s hs => ?_⟩, rfl⟩
      cases hs
      exact h.table
    | payload chunk =>
      refine ⟨⟨h.table, fun s hs => ?_⟩, rfl⟩
      obtain ⟨s', hs', rfl⟩ := Option.map_eq_some_iff.mp hs
      exact h.current s' hs'
    | finish =>
      refine ⟨⟨h.table, fun s hs => by cases hs⟩, ?_⟩
      show ((w.sent ++ w.current.toList).filter _).map _ = (w.sent.filter _).map _
      rw [List.filter_append, List.map_append]
      cases hc : w.current with
      | none => simp
      | some s => simp [h.current s hc]
  all_goals exact ⟨h, rfl⟩

theorem Absent.steps {e : SinkEntry} {w : Wire} {es : List Ev} (h : Absent cfg e w)
    (he : e.sink ≠ 0) (hes : ∀ ev ∈ es, ∀ i, ev.op ≠ .storeSlot i e) :
    Absent cfg e (es.foldl (wireStep cfg) w) ∧ (es.foldl (wireStep cfg) w).to e = w.to e := by
  induction es generalizing w with
  | nil => exact ⟨h, rfl⟩
  | cons ev es ih =>
    obtain ⟨h₁, hto⟩ := h.step he (hes ev (List.mem_cons_self ..))
    obtain ⟨h₂, hto'⟩ := ih h₁ fun x hx => hes x (List.mem_cons_of_mem _ hx)
    exact ⟨h₂, hto'.trans hto⟩

theorem SeesWhole.of_absent {w : Wire} {e : SinkEntry} {calls : List SinkCall}
    (h : SeesWhole w e calls) (ha : ∀ s, w.current = some s → e ∉ s.sinks) :
    calls = (w.to e).flatMap Packet.calls := by
  obtain ⟨part, hcalls, rfl | ⟨s, pkt, hs, he, -⟩⟩ := h
  · rw [hcalls, List.append_nil]
  · exact absurd he (ha s hs)

/-- From a moment on when a pair is absent and the lock is free, it is not
called while it is not stored again. -/
theorem not_called_while_absent {c₁ : Lib.Config Tid Call Op Op.Ret Res (Shared Tid)}
    {tr₁ tr₂ : List (Label Tid Call Op Op.Ret Res)} {e : SinkEntry} (he : e.sink ≠ 0)
    (h₁ : (system Tid cfg).Run c₁ tr₁) (hfree : c₁.state.emitOwner = none)
    (habs : e ∉ registered cfg c₁.state.sinks) (h : (system Tid cfg).Run c (tr₂ ++ tr₁))
    (hstore : ∀ u i, .act u ⟨.storeSlot i e, ()⟩ ∉ tr₂) :
    ∀ u call, .act u ⟨.call e call, ()⟩ ∉ tr₂ := by
  obtain ⟨hp₁, hidle⟩ := progress_run h₁
  have hw₁ : Absent cfg e (wireOf cfg (actEvents tr₁)) := by
    refine ⟨?_, fun s hs => ?_⟩
    · rw [hp₁.table]
      exact habs
    · rw [hidle hfree] at hs
      cases hs
  have hes : ∀ ev ∈ actEvents tr₂, ∀ i, ev.op ≠ .storeSlot i e := by
    intro ev hev i hop
    obtain ⟨u, hu⟩ := act_of_mem_actEvents hev
    obtain ⟨o, r⟩ := ev
    obtain rfl : o = .storeSlot i e := hop
    exact hstore u i hu
  have hev : actEvents (tr₂ ++ tr₁) = actEvents tr₁ ++ actEvents tr₂ := actEvents_append tr₂ tr₁
  obtain ⟨hw, hto⟩ := hw₁.steps he hes
  rw [← wireOf_append, ← hev] at hw hto
  have hcalls := ((progress_run h).1.calls e).of_absent hw.current
  rw [hto, ← (hp₁.calls e).of_absent hw₁.current, hev, sinkCalls_append] at hcalls
  have hnone : sinkCalls e (actEvents tr₂) = [] := List.append_right_eq_self.mp hcalls
  intro u call hmem
  have hcall := List.filterMap_eq_nil_iff.mp hnone _ (mem_actEvents_of_act hmem)
  simp at hcall

theorem not_called_after_remove {t : Tid} {sink ctx : Ptr} {v : Res}
    {tr' : List (Label Tid Call Op Op.Ret Res)} (h : (system Tid cfg).Run c tr)
    (hret : (.ret t (.removeSink sink ctx) v :: tr') <:+ tr) (hv : sink ≠ 0) :
    ∃ tr₁, (.act t ⟨.emitUnlock, ()⟩ :: tr₁) <:+ tr' ∧
      ∀ tr₂, tr = tr₂ ++ .act t ⟨.emitUnlock, ()⟩ :: tr₁ →
        (∀ u i, .act u ⟨.storeSlot i ⟨sink, ctx⟩, ()⟩ ∉ tr₂) →
        ∀ u call, .act u ⟨.call ⟨sink, ctx⟩ call, ()⟩ ∉ tr₂ := by
  obtain ⟨tr₃, rfl⟩ := hret
  obtain ⟨c', h'⟩ := h.suffix
  obtain ⟨r, tr₀, tr₁, c₀, c₁, -, ⟨-, -, hsuf⟩, -, h₁, hrem⟩ := remove_sink_result h' hv
  refine ⟨tr₁, hsuf, fun tr₂ htr hstore => ?_⟩
  rw [htr] at h
  obtain ⟨c₂, h₂⟩ := h.suffix
  refine not_called_while_absent hv h₂ ?_ ?_ h hstore
  · cases h₂ with
    | act _ _ _ _ _ s' _ _ hs => exact (mutex_emitLock cfg).unlock _ _ _ _ _ hs rfl
  · have hw₁ := (progress_run h₁).1.table
    have hw₂ := (progress_run h₂).1.table
    have hsame : c₂.state.sinks = c₁.state.sinks := by
      rw [actEvents, wireOf_append] at hw₂
      exact hw₂.symm.trans hw₁
    rw [hsame]
    intro hmem
    exact ((hrem.2 _).mp hmem).2 rfl

/-- The sink table over every run: no pair twice and no half-empty slot; what
add and remove return and do, at the moment their call holds the lock; delivery
to exactly the pairs registered when a stream was opened; silence after a
removal. -/
theorem sink_table_exact (h : (system Tid cfg).Run c tr) :
    TableOk cfg c.state.sinks ∧
    (∀ t sink callbacks ctx v tr', (.ret t (.addSink sink callbacks ctx) v :: tr') <:+ tr →
      ValidSink sink callbacks →
      ∃ r tr₀ tr₁ c₀ c₁, v = .err r ∧ Locked t tr₀ tr₁ tr' ∧ (system Tid cfg).Run c₀ tr₀ ∧
        (system Tid cfg).Run c₁ tr₁ ∧ AddsTo cfg c₀.state.sinks c₁.state.sinks ⟨sink, ctx⟩ r) ∧
    (∀ t sink ctx v tr', (.ret t (.removeSink sink ctx) v :: tr') <:+ tr →
      (sink = 0 ∧ v = .err .notFound) ∨
      ∃ r tr₀ tr₁ c₀ c₁, v = .err r ∧ Locked t tr₀ tr₁ tr' ∧ (system Tid cfg).Run c₀ tr₀ ∧
        (system Tid cfg).Run c₁ tr₁ ∧
        RemovesFrom cfg c₀.state.sinks c₁.state.sinks ⟨sink, ctx⟩ r) ∧
    ((∀ e, SeesWhole (wireOf cfg (actEvents tr)) e (sinkCalls e (actEvents tr))) ∧
      ∀ t origin header tr', (.act t ⟨.stream (.start origin header), ()⟩ :: tr') <:+ tr →
        ∃ tr₀ c₀, (.act t ⟨.emitLock, ()⟩ :: tr₀) <:+ tr' ∧ (system Tid cfg).Run c₀ tr₀ ∧
          (wireOf cfg (actEvents (.act t ⟨.stream (.start origin header), ()⟩ :: tr'))).current =
            some ⟨⟨origin, header, []⟩, registered cfg c₀.state.sinks⟩) ∧
    ∀ t sink ctx v tr', (.ret t (.removeSink sink ctx) v :: tr') <:+ tr → sink ≠ 0 →
      ∃ tr₁, (.act t ⟨.emitUnlock, ()⟩ :: tr₁) <:+ tr' ∧
        ∀ tr₂, tr = tr₂ ++ .act t ⟨.emitUnlock, ()⟩ :: tr₁ →
          (∀ u i, .act u ⟨.storeSlot i ⟨sink, ctx⟩, ()⟩ ∉ tr₂) →
          ∀ u call, .act u ⟨.call ⟨sink, ctx⟩ call, ()⟩ ∉ tr₂ := by
  have hp := (progress_run h).1
  have hat : ∀ {l tr'}, (l :: tr') <:+ tr → ∃ c', (system Tid cfg).Run c' (l :: tr') := by
    rintro l tr' ⟨tr₃, rfl⟩
    exact h.suffix
  refine ⟨hp.ok, ?_, ?_, ⟨hp.calls, ?_⟩, ?_⟩
  · intro t sink callbacks ctx v tr' hret hv
    obtain ⟨c', h'⟩ := hat hret
    exact add_sink_result h' hv
  · intro t sink ctx v tr' hret
    obtain ⟨c', h'⟩ := hat hret
    by_cases hz : sink = 0
    · obtain ⟨r, rfl, ⟨-, -, rfl⟩ | ⟨hne, -⟩⟩ := performs_ret h'
      · exact Or.inl ⟨hz, rfl⟩
      · exact absurd hz hne
    · exact Or.inr (remove_sink_result h' hz)
  · intro t origin header tr' hact
    obtain ⟨c', h'⟩ := hat hact
    exact sinks_at_open h'
  · intro t sink ctx v tr' hret hv
    exact not_called_after_remove h hret hv

/-- A full table: of three registrations two are kept. -/
theorem sink_table_exact_full : ∃ c tr, (system ℕ smallConfig).Run c tr ∧
    registered smallConfig c.state.sinks = [⟨1, 7⟩, ⟨1, 0⟩] ∧ TableOk smallConfig c.state.sinks := by
  obtain ⟨c, tr, hrun, -, hreg⟩ := run_from_init smallConfig quietWorld (0 : ℕ)
    [.addSink 1 ⟨1, 1, 1⟩ 7, .addSink 1 ⟨1, 1, 1⟩ 0, .addSink 2 ⟨1, 1, 1⟩ 0]
    (fun p => registered smallConfig p.1.sinks) (a := [⟨1, 7⟩, ⟨1, 0⟩]) (by decide +kernel)
  exact ⟨c, tr, hrun, hreg, (sink_table_exact hrun).1⟩

end On9log
