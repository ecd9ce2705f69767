import On9log.Isr

/-!
# The sink table (on9log.c:1492-1570)

Registration and removal, both under the emit lock. `TableIs table es` says
that every slot read in `es` was answered from `table`; with it the search and
so the result of either call is determined.
-/

namespace On9log
open Lib

/-- The callbacks of an `on9log_sink_t`; `0` is a missing one. -/
structure Sink where
  startCb : Ptr
  payloadCb : Ptr
  endCb : Ptr

def findSlot (e : SinkEntry) : List ℕ → Core (Option ℕ)
  | [] => pure none
  | i :: is => do
    let slot ← loadSlot i
    if slot = e then pure (some i) else findSlot e is

def findSink (cfg : Config) (sink ctx : Ptr) : Core (Option ℕ) :=
  findSlot ⟨sink, ctx⟩ (List.range cfg.maxSinks)

/-- `on9log_add_sink` inside the lock. -/
def addEntry (cfg : Config) (sink ctx : Ptr) : Core Err := do
  let found ← findSink cfg sink ctx
  match found with
  | some _ => pure .ok
  | none => do
    let slot ← findSink cfg 0 0
    match slot with
    | some i => do
      storeSlot i ⟨sink, ctx⟩
      pure .ok
    | none => pure .noMem

def addSink (cfg : Config) (sink : Ptr) (callbacks : Sink) (ctx : Ptr) : Core Err :=
  if sink = 0 ∨ callbacks.startCb = 0 ∨ callbacks.payloadCb = 0 ∨ callbacks.endCb = 0 then
    pure .invalidArg
  else do
    emitLock
    let result ← addEntry cfg sink ctx
    emitUnlock
    pure result

/-- `on9log_remove_sink` inside the lock. -/
def removeEntry (cfg : Config) (sink ctx : Ptr) : Core Err := do
  let slot ← findSink cfg sink ctx
  match slot with
  | some i => do
    storeSlot i SinkEntry.free
    pure .ok
  | none => pure .notFound

def removeSink (cfg : Config) (sink ctx : Ptr) : Core Err :=
  if sink = 0 then pure .notFound
  else do
    emitLock
    let result ← removeEntry cfg sink ctx
    emitUnlock
    pure result

/-! ### What these perform -/

def TableIs (table : ℕ → SinkEntry) (es : List Ev) : Prop :=
  ∀ i slot, (⟨.loadSlot i, slot⟩ : Ev) ∈ es → slot = table i

def OnlyLoads (es : List Ev) : Prop := ∀ e ∈ es, ∃ i, e.op = .loadSlot i

theorem onlyLoads_append {es₁ es₂ : List Ev} (h₁ : OnlyLoads es₁) (h₂ : OnlyLoads es₂) :
    OnlyLoads (es₁ ++ es₂) := fun e he =>
  (List.mem_append.mp he).elim (h₁ e) (h₂ e)

theorem tableIs_append {table : ℕ → SinkEntry} {es₁ es₂ : List Ev} :
    TableIs table (es₁ ++ es₂) ↔ TableIs table es₁ ∧ TableIs table es₂ := by
  simp only [TableIs, List.mem_append]
  exact ⟨fun h => ⟨fun i s hm => h i s (Or.inl hm), fun i s hm => h i s (Or.inr hm)⟩,
    fun h i s hm => hm.elim (h.1 i s) (h.2 i s)⟩

theorem findSlot_spec {e : SinkEntry} {is : List ℕ} {es : List Ev} {r : Option ℕ}
    (h : (findSlot e is).Path es r) :
    OnlyLoads es ∧ (∀ i, r = some i → i ∈ is) ∧
      ∀ table, TableIs table es → r = is.find? fun i => table i = e := by
  induction is generalizing es with
  | nil =>
    obtain ⟨rfl, rfl⟩ := (Prog.path_pure _ _ _).mp h
    exact ⟨fun _ he => absurd he List.not_mem_nil, by simp, fun _ _ => rfl⟩
  | cons i is ih =>
    obtain ⟨slot, e₁, e₂, rfl, h₁, h₂⟩ := (Prog.path_bind _ _ _ _).mp h
    rw [path_loadSlot.mp h₁]
    have hone : OnlyLoads [(⟨.loadSlot i, slot⟩ : Ev)] := by
      intro ev hev
      rw [List.mem_singleton.mp hev]
      exact ⟨i, rfl⟩
    rcases (Prog.path_ite _ _ _ _ _).mp h₂ with ⟨hs, h₂⟩ | ⟨hs, h₂⟩
    · obtain ⟨rfl, rfl⟩ := (Prog.path_pure _ _ _).mp h₂
      refine ⟨by simpa using hone, fun j hj => by simp_all, fun table ht => ?_⟩
      have hi : table i = e := by rw [← hs, ht i slot (by simp)]
      simp [hi]
    · obtain ⟨hl, hm, hr⟩ := ih h₂
      refine ⟨onlyLoads_append hone hl, fun j hj => List.mem_cons_of_mem _ (hm j hj),
        fun table ht => ?_⟩
      obtain ⟨ht₁, ht₂⟩ := tableIs_append.mp ht
      have hi : table i ≠ e := by
        rw [← ht₁ i slot (by simp)]
        exact hs
      simp [hi, hr table ht₂]

theorem findSink_spec {cfg : Config} {sink ctx : Ptr} {es : List Ev} {r : Option ℕ}
    (h : (findSink cfg sink ctx).Path es r) :
    OnlyLoads es ∧ (∀ i, r = some i → i < cfg.maxSinks) ∧ ∀ table, TableIs table es →
      (∀ i, r = some i → table i = ⟨sink, ctx⟩) ∧
      (r = none → ∀ i < cfg.maxSinks, table i ≠ ⟨sink, ctx⟩) := by
  obtain ⟨hl, hm, hr⟩ := findSlot_spec h
  refine ⟨hl, fun i hi => List.mem_range.mp (hm i hi), fun table ht =>
    ⟨fun i hi => ?_, fun hn i hi => ?_⟩⟩
  · rw [hr table ht] at hi
    simpa using List.find?_some hi
  · rw [hr table ht] at hn
    simpa using List.find?_eq_none.mp hn i (List.mem_range.mpr hi)

/-- The critical section of `on9log_add_sink` and its result. -/
inductive AddSection (cfg : Config) (e : SinkEntry) : Err → List Ev → Prop
  | present (es : List Ev) : OnlyLoads es →
      (∀ table, TableIs table es → ∃ i < cfg.maxSinks, table i = e) → AddSection cfg e .ok es
  | inserted (es : List Ev) (i : ℕ) : OnlyLoads es → i < cfg.maxSinks →
      (∀ table, TableIs table es →
        (∀ j < cfg.maxSinks, table j ≠ e) ∧ table i = SinkEntry.free) →
      AddSection cfg e .ok (es ++ [⟨.storeSlot i e, ()⟩])
  | full (es : List Ev) : OnlyLoads es →
      (∀ table, TableIs table es →
        ∀ j < cfg.maxSinks, table j ≠ e ∧ table j ≠ SinkEntry.free) →
      AddSection cfg e .noMem es

/-- The critical section of `on9log_remove_sink` and its result. -/
inductive RemoveSection (cfg : Config) (e : SinkEntry) : Err → List Ev → Prop
  | removed (es : List Ev) (i : ℕ) : OnlyLoads es → i < cfg.maxSinks →
      (∀ table, TableIs table es → table i = e) →
      RemoveSection cfg e .ok (es ++ [⟨.storeSlot i SinkEntry.free, ()⟩])
  | absent (es : List Ev) : OnlyLoads es →
      (∀ table, TableIs table es → ∀ j < cfg.maxSinks, table j ≠ e) →
      RemoveSection cfg e .notFound es

/-- Slot reads, then at most one store. -/
def TableSection (b : List Ev) : Prop :=
  OnlyLoads b ∨ ∃ l i e, OnlyLoads l ∧ b = l ++ [⟨.storeSlot i e, ()⟩]

theorem AddSection.tableSection {cfg : Config} {e : SinkEntry} {r : Err} {b : List Ev}
    (h : AddSection cfg e r b) : TableSection b := by
  cases h with
  | present _ hl _ => exact Or.inl hl
  | inserted l i hl _ _ => exact Or.inr ⟨l, i, e, hl, rfl⟩
  | full _ hl _ => exact Or.inl hl

theorem RemoveSection.tableSection {cfg : Config} {e : SinkEntry} {r : Err} {b : List Ev}
    (h : RemoveSection cfg e r b) : TableSection b := by
  cases h with
  | removed l i hl _ _ => exact Or.inr ⟨l, i, _, hl, rfl⟩
  | absent _ hl _ => exact Or.inl hl

theorem addSection_addEntry {cfg : Config} {sink ctx : Ptr} {es : List Ev} {r : Err}
    (h : (addEntry cfg sink ctx).Path es r) : AddSection cfg ⟨sink, ctx⟩ r es := by
  obtain ⟨found, e₁, _, rfl, h₁, h⟩ := (Prog.path_bind _ _ _ _).mp h
  obtain ⟨hl₁, hm₁, hs₁⟩ := findSink_spec h₁
  cases found with
  | some i =>
    obtain ⟨rfl, rfl⟩ := (Prog.path_pure _ _ _).mp h
    rw [List.append_nil]
    exact .present e₁ hl₁ fun table ht => ⟨i, hm₁ i rfl, (hs₁ table ht).1 i rfl⟩
  | none =>
    obtain ⟨slot, e₂, _, rfl, h₂, h⟩ := (Prog.path_bind _ _ _ _).mp h
    obtain ⟨hl₂, hm₂, hs₂⟩ := findSink_spec h₂
    cases slot with
    | some i =>
      obtain ⟨h₃, rfl⟩ := Prog.path_then_pure h
      rw [path_storeSlot.mp h₃, ← List.append_assoc]
      refine .inserted _ i (onlyLoads_append hl₁ hl₂) (hm₂ i rfl) fun table ht => ?_
      obtain ⟨ht₁, ht₂⟩ := tableIs_append.mp ht
      exact ⟨(hs₁ table ht₁).2 rfl, (hs₂ table ht₂).1 i rfl⟩
    | none =>
      obtain ⟨rfl, rfl⟩ := (Prog.path_pure _ _ _).mp h
      rw [List.append_nil]
      refine .full _ (onlyLoads_append hl₁ hl₂) fun table ht j hj => ?_
      obtain ⟨ht₁, ht₂⟩ := tableIs_append.mp ht
      exact ⟨(hs₁ table ht₁).2 rfl j hj, (hs₂ table ht₂).2 rfl j hj⟩

theorem removeSection_removeEntry {cfg : Config} {sink ctx : Ptr} {es : List Ev} {r : Err}
    (h : (removeEntry cfg sink ctx).Path es r) : RemoveSection cfg ⟨sink, ctx⟩ r es := by
  obtain ⟨slot, e₁, _, rfl, h₁, h⟩ := (Prog.path_bind _ _ _ _).mp h
  obtain ⟨hl, hm, hs⟩ := findSink_spec h₁
  cases slot with
  | some i =>
    obtain ⟨h₂, rfl⟩ := Prog.path_then_pure h
    rw [path_storeSlot.mp h₂]
    exact .removed e₁ i hl (hm i rfl) fun table ht => (hs table ht).1 i rfl
  | none =>
    obtain ⟨rfl, rfl⟩ := (Prog.path_pure _ _ _).mp h
    rw [List.append_nil]
    exact .absent e₁ hl fun table ht => (hs table ht).2 rfl

/-- A critical section under the emit lock, as the events of a whole call. -/
theorem path_locked {p : Core Err} {es : List Ev} {r : Err}
    (h : (do
      emitLock
      let result ← p
      emitUnlock
      pure result).Path es r) :
    ∃ b, p.Path b r ∧ es = ⟨.emitLock, ()⟩ :: b ++ [⟨.emitUnlock, ()⟩] := by
  obtain ⟨_, e₁, _, rfl, h₁, h⟩ := (Prog.path_bind _ _ _ _).mp h
  obtain ⟨result, b, _, rfl, h₂, h⟩ := (Prog.path_bind _ _ _ _).mp h
  obtain ⟨h₃, rfl⟩ := Prog.path_then_pure h
  rw [path_emitLock.mp h₁, path_emitUnlock.mp h₃]
  exact ⟨b, h₂, rfl⟩

def ValidSink (sink : Ptr) (callbacks : Sink) : Prop :=
  sink ≠ 0 ∧ callbacks.startCb ≠ 0 ∧ callbacks.payloadCb ≠ 0 ∧ callbacks.endCb ≠ 0

/-- What one `on9log_add_sink` call performs and returns. -/
theorem path_addSink {cfg : Config} {sink ctx : Ptr} {callbacks : Sink} {es : List Ev} {r : Err}
    (h : (addSink cfg sink callbacks ctx).Path es r) :
    (¬ ValidSink sink callbacks ∧ es = [] ∧ r = .invalidArg) ∨
      (ValidSink sink callbacks ∧ ∃ b, AddSection cfg ⟨sink, ctx⟩ r b ∧
        es = ⟨.emitLock, ()⟩ :: b ++ [⟨.emitUnlock, ()⟩]) := by
  unfold ValidSink
  rcases (Prog.path_ite _ _ _ _ _).mp h with ⟨hc, h⟩ | ⟨hc, h⟩
  · obtain ⟨rfl, rfl⟩ := (Prog.path_pure _ _ _).mp h
    exact Or.inl ⟨by tauto, rfl, rfl⟩
  · obtain ⟨b, hb, rfl⟩ := path_locked h
    exact Or.inr ⟨by tauto, b, addSection_addEntry hb, rfl⟩

/-- What one `on9log_remove_sink` call performs and returns. -/
theorem path_removeSink {cfg : Config} {sink ctx : Ptr} {es : List Ev} {r : Err}
    (h : (removeSink cfg sink ctx).Path es r) :
    (sink = 0 ∧ es = [] ∧ r = .notFound) ∨
      (sink ≠ 0 ∧ ∃ b, RemoveSection cfg ⟨sink, ctx⟩ r b ∧
        es = ⟨.emitLock, ()⟩ :: b ++ [⟨.emitUnlock, ()⟩]) := by
  rcases (Prog.path_ite _ _ _ _ _).mp h with ⟨hc, h⟩ | ⟨hc, h⟩
  · obtain ⟨rfl, rfl⟩ := (Prog.path_pure _ _ _).mp h
    exact Or.inl ⟨hc, rfl, rfl⟩
  · obtain ⟨b, hb, rfl⟩ := path_locked h
    exact Or.inr ⟨hc, b, removeSection_removeEntry hb, rfl⟩

end On9log
