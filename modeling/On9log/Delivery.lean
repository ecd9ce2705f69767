import On9log.Calls

/-!
# What the sinks see over a whole run

`wireOf` replays a list of events and keeps the sink table and the packets
handed to it, each with the sinks registered when its stream was opened.
`Settled` is the state between two critical sections and `Settled.sec` the
step; `Progress` is the state at any moment, in the middle of a section
included, and `progress_run` says that every run is in it.
-/

namespace On9log
open Lib Lib.LittleEndian

structure Sent where
  pkt : Packet
  sinks : List SinkEntry

structure Wire where
  table : ℕ → SinkEntry
  current : Option Sent
  sent : List Sent

/-- Every packet whose stream was started, the last one perhaps not finished. -/
def Wire.started (w : Wire) : List Sent := w.sent ++ w.current.toList

def Sent.addChunk (c : Chunk) (s : Sent) : Sent :=
  { s with pkt := { s.pkt with chunks := s.pkt.chunks ++ [c] } }

def registered (cfg : Config) (table : ℕ → SinkEntry) : List SinkEntry :=
  live table (List.range cfg.maxSinks)

def wireStep (cfg : Config) (w : Wire) (e : Ev) : Wire :=
  match e.op with
  | .storeSlot i entry => { w with table := Function.update w.table i entry }
  | .stream (.start origin header) =>
    { w with current := some ⟨⟨origin, header, []⟩, registered cfg w.table⟩ }
  | .stream (.payload c) => { w with current := w.current.map (Sent.addChunk c) }
  | .stream .finish => { w with current := none, sent := w.sent ++ w.current.toList }
  | _ => w

def wireOf (cfg : Config) (es : List Ev) : Wire :=
  es.foldl (wireStep cfg) ⟨fun _ => SinkEntry.free, none, []⟩

/-- The callbacks `es` makes to one sink. -/
def sinkCalls (e : SinkEntry) (es : List Ev) : List SinkCall :=
  es.filterMap fun ev => match ev.op with
    | .call e' c => if e' = e then some c else none
    | _ => none

/-- The callbacks of one whole packet. -/
def Packet.calls (pkt : Packet) : List SinkCall :=
  .startCb (some pkt.header) :: pkt.chunks.map .payloadCb ++ [.endCb]

/-- The packets `e` was registered for, in the order they were sent. -/
def Wire.to (w : Wire) (e : SinkEntry) : List Packet :=
  (w.sent.filter fun s => e ∈ s.sinks).map Sent.pkt

/-! ### The guarded part of the machine -/

structure Emit where
  sinks : ℕ → SinkEntry
  seq : ℕ

def emitStep (cfg : Config) (x : Emit) (e : Ev) (x' : Emit) : Prop :=
  match e with
  | ⟨.loadSlot i, slot⟩ => slot = x.sinks i ∧ x' = x
  | ⟨.storeSlot i entry, _⟩ => x' = { x with sinks := Function.update x.sinks i entry }
  | ⟨.fetchAddSeq, raw⟩ => raw = x.seq ∧ x' = { x with seq := (x.seq + 1) % 2 ^ cfg.fast16 }
  | _ => x' = x

def Shared.emit {Tid : Type} (s : Shared Tid) : Emit := ⟨s.sinks, s.seq⟩

theorem emitStep_of_step {Tid : Type} {cfg : Config} (t : Tid) (o : Op) (r : o.Ret)
    (s s' : Shared Tid) (h : step cfg t o r s s') : emitStep cfg s.emit ⟨o, r⟩ s'.emit := by
  cases o
  case emitLock =>
    obtain ⟨-, rfl⟩ := h
    rfl
  case loadSlot =>
    obtain ⟨rfl, rfl⟩ := h
    exact ⟨rfl, rfl⟩
  case fetchAddSeq =>
    obtain ⟨rfl, rfl⟩ := h
    exact ⟨rfl, rfl⟩
  case exchangeDropped =>
    obtain ⟨-, rfl⟩ := h
    rfl
  case timestampMs =>
    obtain ⟨-, rfl⟩ := h
    rfl
  all_goals
    obtain rfl := h
    rfl

theorem emit_of_unguarded {Tid : Type} {cfg : Config} (t : Tid) (o : Op) (r : o.Ret)
    (s s' : Shared Tid) (h : step cfg t o r s s') (hu : (emitLockSpec Tid).guarded o = false) :
    s'.emit = s.emit := by
  have hs := emitStep_of_step t o r s s' h
  cases o
  case loadSlot => cases hu
  case storeSlot => cases hu
  case fetchAddSeq => cases hu
  all_goals exact hs

theorem total_emitStep (cfg : Config) : Total (emitStep cfg) := by
  intro x o
  have r : o.Ret := default
  cases o
  case loadSlot i => exact ⟨x.sinks i, x, rfl, rfl⟩
  case storeSlot i e => exact ⟨(), _, rfl⟩
  case fetchAddSeq => exact ⟨x.seq, _, rfl, rfl⟩
  all_goals exact ⟨r, x, rfl⟩

/-! ### Pieces of a packet section -/

section Pieces

variable {cfg : Config} {x x' : Emit} {es : List Ev}

theorem steps_slotReads {slots : ℕ → SinkEntry} {is : List ℕ}
    (h : Steps (emitStep cfg) x (slotReads slots is) x') :
    x' = x ∧ ∀ i ∈ is, slots i = x.sinks i := by
  induction is with
  | nil => exact ⟨h, by simp⟩
  | cons i is ih =>
    obtain ⟨x₁, ⟨hi, rfl⟩, h⟩ := h
    obtain ⟨rfl, his⟩ := ih h
    refine ⟨rfl, fun j hj => ?_⟩
    rcases List.mem_cons.mp hj with rfl | hj
    · exact hi
    · exact his j hj

/-- What happens between the numbering of a packet and the end of its section. -/
def Streaming (es : List Ev) : Prop :=
  ∀ e ∈ es, (∃ m, e = ⟨.memory, m⟩) ∨ (∃ c, e = ⟨.stream c, ()⟩) ∨ ∃ s c, e = ⟨.call s c, ()⟩

theorem Streaming.append {es₁ es₂ : List Ev} (h₁ : Streaming es₁) (h₂ : Streaming es₂) :
    Streaming (es₁ ++ es₂) := fun e he => (List.mem_append.mp he).elim (h₁ e) (h₂ e)

theorem steps_streaming (h : Steps (emitStep cfg) x es x') (hes : Streaming es) : x' = x := by
  induction es generalizing x with
  | nil => exact h
  | cons e es ih =>
    obtain ⟨x₁, h₁, h⟩ := h
    rw [ih h fun e he => hes e (List.mem_cons_of_mem _ he)]
    rcases hes e (List.mem_cons_self ..) with ⟨m, rfl⟩ | ⟨c, rfl⟩ | ⟨s, c, rfl⟩
    · exact h₁
    · exact h₁
    · exact h₁

theorem streaming_stream (c : StreamCall) : Streaming [⟨.stream c, ()⟩] := by
  intro e he
  rw [List.mem_singleton.mp he]
  exact Or.inr (Or.inl ⟨c, rfl⟩)

/-- The same between the record of the header and that of the end. -/
def Inner (es : List Ev) : Prop :=
  ∀ e ∈ es, (∃ m, e = ⟨.memory, m⟩) ∨ (∃ c, e = ⟨.stream (.payload c), ()⟩) ∨
    ∃ s c, e = ⟨.call s c, ()⟩

theorem Inner.append {es₁ es₂ : List Ev} (h₁ : Inner es₁) (h₂ : Inner es₂) :
    Inner (es₁ ++ es₂) := fun e he => (List.mem_append.mp he).elim (h₁ e) (h₂ e)

theorem Inner.streaming (h : Inner es) : Streaming es := by
  intro e he
  rcases h e he with h | ⟨c, rfl⟩ | h
  · exact Or.inl h
  · exact Or.inr (Or.inl ⟨_, rfl⟩)
  · exact Or.inr (Or.inr h)

theorem inner_calls (sinks : List SinkEntry) (c : SinkCall) :
    Inner (sinks.map fun e => ⟨.call e c, ()⟩) := by
  intro e he
  obtain ⟨a, -, rfl⟩ := List.mem_map.mp he
  exact Or.inr (Or.inr ⟨a, _, rfl⟩)

theorem inner_emits {sinks : List SinkEntry} {cs : List Chunk} (h : Emits sinks es cs) :
    Inner es := by
  induction h with
  | nil => exact fun e he => absurd he List.not_mem_nil
  | memory mem _ ih =>
    intro e he
    rcases List.mem_cons.mp he with rfl | he
    · exact Or.inl ⟨mem, rfl⟩
    · exact ih e he
  | chunk c _ _ ih =>
    refine Inner.append (fun e he => ?_) ih
    rcases List.mem_cons.mp he with rfl | he
    · exact Or.inr (Or.inl ⟨c, rfl⟩)
    · exact inner_calls _ _ e he

theorem sinkCalls_append (e : SinkEntry) (es₁ es₂ : List Ev) :
    sinkCalls e (es₁ ++ es₂) = sinkCalls e es₁ ++ sinkCalls e es₂ :=
  List.filterMap_append

theorem sinkCalls_calls {sinks : List SinkEntry} (hnd : sinks.Nodup) (e : SinkEntry)
    (c : SinkCall) :
    sinkCalls e (sinks.map fun s => ⟨.call s c, ()⟩) = if e ∈ sinks then [c] else [] := by
  induction sinks with
  | nil => rfl
  | cons a sinks ih =>
    obtain ⟨ha, hnd⟩ := List.nodup_cons.mp hnd
    have ih' := ih hnd
    unfold sinkCalls at ih' ⊢
    simp only [List.map_cons, List.filterMap_cons]
    by_cases hae : a = e
    · subst hae
      simp [ih', ha]
    · have hne : ¬ e = a := fun h => hae h.symm
      simp [hae, hne, ih']

theorem sinkCalls_broadcast {sinks : List SinkEntry} (hnd : sinks.Nodup) (e : SinkEntry)
    (c : StreamCall) :
    sinkCalls e (broadcast sinks c) = if e ∈ sinks then [c.sinkCall] else [] := by
  have key := sinkCalls_calls hnd e c.sinkCall
  simpa [broadcast, sinkCalls] using key

theorem sinkCalls_finishing {sinks : List SinkEntry} (hnd : sinks.Nodup) (e : SinkEntry) :
    sinkCalls e (finishing sinks) = if e ∈ sinks then [.endCb] else [] := by
  have key := sinkCalls_calls hnd e .endCb
  unfold finishing
  rw [sinkCalls_append, key]
  exact List.append_nil _

theorem sinkCalls_emits {sinks : List SinkEntry} (hnd : sinks.Nodup) (e : SinkEntry)
    {cs : List Chunk} (h : Emits sinks es cs) :
    sinkCalls e es = if e ∈ sinks then cs.map .payloadCb else [] := by
  induction h with
  | nil => simp [sinkCalls]
  | memory mem _ ih => simpa [sinkCalls] using ih
  | chunk c _ _ ih =>
    rw [sinkCalls_append, sinkCalls_broadcast hnd, ih]
    by_cases he : e ∈ sinks <;> simp [he, StreamCall.sinkCall]

theorem foldl_wireStep_calls (w : Wire) (sinks : List SinkEntry) (c : SinkCall) :
    (sinks.map fun s => (⟨.call s c, ()⟩ : Ev)).foldl (wireStep cfg) w = w := by
  induction sinks with
  | nil => rfl
  | cons a sinks ih => exact ih

theorem foldl_wireStep_finishing (w : Wire) (sinks : List SinkEntry) :
    (finishing sinks).foldl (wireStep cfg) w =
      { w with current := none, sent := w.sent ++ w.current.toList } := by
  unfold finishing
  rw [List.foldl_append, foldl_wireStep_calls]
  rfl

theorem foldl_wireStep_broadcast (w : Wire) (sinks : List SinkEntry) (c : StreamCall) :
    (broadcast sinks c).foldl (wireStep cfg) w = wireStep cfg w ⟨.stream c, ()⟩ :=
  foldl_wireStep_calls _ sinks _

theorem foldl_wireStep_emits {w : Wire} {s : Sent} {sinks : List SinkEntry} {cs : List Chunk}
    (hw : w.current = some s) (h : Emits sinks es cs) :
    es.foldl (wireStep cfg) w =
      { w with current := some { s with pkt := { s.pkt with chunks := s.pkt.chunks ++ cs } } } := by
  induction h generalizing w s with
  | nil =>
    cases w
    simp_all
  | memory mem _ ih => exact ih hw
  | chunk c _ _ ih =>
    rw [List.foldl_append, foldl_wireStep_broadcast]
    have hstep : (wireStep cfg w ⟨.stream (.payload c), ()⟩).current = some (s.addChunk c) := by
      simp [wireStep, hw]
    rw [ih hstep]
    simp [wireStep, Sent.addChunk]

theorem foldl_wireStep_slotReads (w : Wire) (slots : ℕ → SinkEntry) (is : List ℕ) :
    (slotReads slots is).foldl (wireStep cfg) w = w := by
  induction is with
  | nil => rfl
  | cons i is ih => exact ih

theorem foldl_wireStep_numbered {origin : Origin} {header : List UInt8} {num : List Ev}
    (h : Numbered origin header num) (w : Wire) : num.foldl (wireStep cfg) w = w := by
  cases h <;> rfl

theorem sinkCalls_slotReads (e : SinkEntry) (slots : ℕ → SinkEntry) (is : List ℕ) :
    sinkCalls e (slotReads slots is) = [] := by
  induction is with
  | nil => rfl
  | cons i is ih => exact ih

theorem sinkCalls_numbered (e : SinkEntry) {origin : Origin} {header : List UInt8}
    {num : List Ev} (h : Numbered origin header num) : sinkCalls e num = [] := by
  cases h <;> rfl

end Pieces

/-! ### The table -/

structure TableOk (cfg : Config) (table : ℕ → SinkEntry) : Prop where
  free : ∀ i, (table i).sink = 0 → table i = SinkEntry.free
  distinct : ∀ i < cfg.maxSinks, ∀ j < cfg.maxSinks, (table i).sink ≠ 0 → table i = table j → i = j

theorem mem_registered {cfg : Config} {table : ℕ → SinkEntry} {e : SinkEntry} :
    e ∈ registered cfg table ↔ e.sink ≠ 0 ∧ ∃ i < cfg.maxSinks, table i = e := by
  simp only [registered, live, List.mem_filter, List.mem_map, List.mem_range, decide_eq_true_eq]
  tauto

theorem nodup_registered {cfg : Config} {table : ℕ → SinkEntry} (h : TableOk cfg table) :
    (registered cfg table).Nodup := by
  unfold registered live
  rw [List.filter_map]
  refine List.Nodup.map_on (fun i hi j hj hij => ?_) (List.nodup_range.filter _)
  simp only [List.mem_filter, List.mem_range, Function.comp_apply, decide_eq_true_eq] at hi hj
  exact h.distinct i hi.1 j hj.1 hi.2 hij

theorem live_congr {slots table : ℕ → SinkEntry} {is : List ℕ}
    (h : ∀ i ∈ is, slots i = table i) : live slots is = live table is := by
  unfold live
  rw [List.map_congr_left h]

theorem TableOk.insert {cfg : Config} {table : ℕ → SinkEntry} (h : TableOk cfg table) {i : ℕ}
    {e : SinkEntry} (he : e.sink ≠ 0) (hnew : ∀ j < cfg.maxSinks, table j ≠ e) :
    TableOk cfg (Function.update table i e) where
  free j hj := by
    by_cases hji : j = i
    · subst hji
      rw [Function.update_self] at hj
      exact absurd hj he
    · rw [Function.update_of_ne hji] at hj ⊢
      exact h.free j hj
  distinct j hj k hk hne hjk := by
    by_cases hji : j = i <;> by_cases hki : k = i
    · rw [hji, hki]
    · subst hji
      rw [Function.update_self, Function.update_of_ne hki] at hjk
      exact absurd hjk.symm (hnew k hk)
    · subst hki
      rw [Function.update_self, Function.update_of_ne hji] at hjk
      exact absurd hjk (hnew j hj)
    · rw [Function.update_of_ne hji, Function.update_of_ne hki] at hjk
      rw [Function.update_of_ne hji] at hne
      exact h.distinct j hj k hk hne hjk

theorem TableOk.remove {cfg : Config} {table : ℕ → SinkEntry} (h : TableOk cfg table) (i : ℕ) :
    TableOk cfg (Function.update table i SinkEntry.free) where
  free j hj := by
    by_cases hji : j = i
    · rw [hji, Function.update_self]
    · rw [Function.update_of_ne hji] at hj ⊢
      exact h.free j hj
  distinct j hj k hk hne hjk := by
    have hji : j ≠ i := by
      intro hji
      rw [hji, Function.update_self] at hne
      exact hne rfl
    rw [Function.update_of_ne hji] at hne hjk
    by_cases hki : k = i
    · rw [hki, Function.update_self] at hjk
      rw [hjk] at hne
      exact absurd rfl hne
    · rw [Function.update_of_ne hki] at hjk
      exact h.distinct j hj k hk hne hjk

section Loads

variable {cfg : Config} {x x' : Emit} {es : List Ev}

theorem OnlyLoads.cons_inv {e : Ev} (h : OnlyLoads (e :: es)) :
    (∃ i slot, e = ⟨.loadSlot i, slot⟩) ∧ OnlyLoads es := by
  obtain ⟨i, hi⟩ := h e (List.mem_cons_self ..)
  obtain ⟨o, r⟩ := e
  obtain rfl : o = .loadSlot i := hi
  exact ⟨⟨i, r, rfl⟩, fun e he => h e (List.mem_cons_of_mem _ he)⟩

theorem steps_onlyLoads (hl : OnlyLoads es) (h : Steps (emitStep cfg) x es x') :
    x' = x ∧ TableIs x.sinks es := by
  induction es with
  | nil => exact ⟨h, fun _ _ hm => by cases hm⟩
  | cons e es ih =>
    obtain ⟨⟨i, slot, rfl⟩, hl'⟩ := hl.cons_inv
    obtain ⟨x₁, ⟨hi, rfl⟩, h⟩ := h
    obtain ⟨rfl, ht⟩ := ih hl' h
    refine ⟨rfl, fun j s hm => ?_⟩
    rcases List.mem_cons.mp hm with hm | hm
    · cases hm
      exact hi
    · exact ht j s hm

end Loads

/-! ### Clock readings and sequence numbers -/

def readings (es : List Ev) : List ℕ :=
  es.filterMap fun ev => match ev with
    | ⟨.timestampMs, now⟩ => some now
    | _ => none

def Packet.clock (pkt : Packet) : Option ℕ :=
  match pkt.origin with
  | .built _ now => some now
  | .relayed _ => none

def Packet.isTimeSync (pkt : Packet) : Bool :=
  headerType pkt.header = PacketType.timeSync.code

/-- The sequence numbers of the packets that take part in the sequence. -/
def seqNumbers (sent : List Sent) : List ℕ :=
  (sent.filter fun s => !s.pkt.isTimeSync).map fun s => headerSeq s.pkt.header

theorem readings_append (es₁ es₂ : List Ev) :
    readings (es₁ ++ es₂) = readings es₁ ++ readings es₂ :=
  List.filterMap_append

theorem readings_eq_nil {es : List Ev} (h : ∀ e ∈ es, e.op ≠ .timestampMs) : readings es = [] := by
  refine List.filterMap_eq_nil_iff.mpr fun e he => ?_
  have hne := h e he
  obtain ⟨o, r⟩ := e
  cases o <;> simp_all

/-- What numbering a packet does to the sequence counter and the clock readings. -/
theorem steps_numbered {cfg : Config} {x x' : Emit} {pkt : Packet} {num : List Ev}
    (h : Numbered pkt.origin pkt.header num) (hs : Steps (emitStep cfg) x num x') :
    x'.sinks = x.sinks ∧ readings num = pkt.clock.toList ∧
      (pkt.isTimeSync = true → x'.seq = x.seq) ∧
      (pkt.isTimeSync = false → headerSeq pkt.header = x.seq % 65536 ∧
        x'.seq = (x.seq + 1) % 2 ^ cfg.fast16) := by
  obtain ⟨origin, header, chunks⟩ := pkt
  unfold Packet.isTimeSync Packet.clock
  dsimp only at h ⊢
  cases h with
  | built type level raw now tagId fmtId payloadLen ht =>
    obtain ⟨x₁, ⟨rfl, rfl⟩, x₂, rfl, rfl⟩ := hs
    have hne : type.code ≠ PacketType.timeSync.code := by cases type <;> first | decide | exact absurd rfl ht
    simp [hne, readings]
  | relayed packet raw ht hlen =>
    obtain ⟨x₁, ⟨rfl, rfl⟩, rfl⟩ := hs
    have hl : packetHeaderLen ≤ (packet.take packetHeaderLen).length := by
      rw [List.length_take]
      omega
    simp [ht, readings, headerSeq_renumber hl]
  | timeSync packet ht hlen =>
    obtain rfl := hs
    simp [ht, readings]

theorem readings_streaming {es : List Ev} (hes : Streaming es) : readings es = [] := by
  refine readings_eq_nil fun e he => ?_
  rcases hes e he with ⟨m, rfl⟩ | ⟨c, rfl⟩ | ⟨s, c, rfl⟩ <;> simp

theorem readings_slotReads (slots : ℕ → SinkEntry) (is : List ℕ) :
    readings (slotReads slots is) = [] := by
  induction is with
  | nil => rfl
  | cons i is ih => exact ih

/-! ### The effect of one section -/

/-- Header, chunks and end of one packet, handed to `sinks`. -/
def packetBody (sinks : List SinkEntry) (pkt : Packet) (body : List Ev) : List Ev :=
  broadcast sinks (.start pkt.origin pkt.header) ++ (body ++ finishing sinks)

/-- What happens between the record of the start of a packet and that of its end. -/
def packetInside (sinks : List SinkEntry) (pkt : Packet) (body : List Ev) : List Ev :=
  (sinks.map fun e => ⟨.call e (.startCb (some pkt.header)), ()⟩) ++
    (body ++ sinks.map fun e => ⟨.call e .endCb, ()⟩)

theorem packetBody_eq (sinks : List SinkEntry) (pkt : Packet) (body : List Ev) :
    packetBody sinks pkt body = ⟨.stream (.start pkt.origin pkt.header), ()⟩ ::
      (packetInside sinks pkt body ++ [⟨.stream .finish, ()⟩]) := by
  simp [packetBody, packetInside, broadcast, finishing, StreamCall.sinkCall]

theorem inner_packetInside {sinks : List SinkEntry} {pkt : Packet} {body : List Ev}
    (h : Emits sinks body pkt.chunks) : Inner (packetInside sinks pkt body) :=
  (inner_calls _ _).append ((inner_emits h).append (inner_calls _ _))

theorem streaming_packetBody {sinks : List SinkEntry} {pkt : Packet} {body : List Ev}
    (h : Emits sinks body pkt.chunks) : Streaming (packetBody sinks pkt body) := by
  rw [packetBody_eq]
  have hinside := (inner_packetInside h).streaming.append (streaming_stream .finish)
  exact (streaming_stream (.start pkt.origin pkt.header)).append hinside

theorem sinkCalls_packetBody {sinks : List SinkEntry} (hnd : sinks.Nodup) {pkt : Packet}
    {body : List Ev} (h : Emits sinks body pkt.chunks) (e : SinkEntry) :
    sinkCalls e (packetBody sinks pkt body) = if e ∈ sinks then pkt.calls else [] := by
  unfold packetBody Packet.calls
  rw [sinkCalls_append, sinkCalls_append, sinkCalls_broadcast hnd, sinkCalls_finishing hnd,
    sinkCalls_emits hnd e h]
  by_cases he : e ∈ sinks <;> simp [he, StreamCall.sinkCall]

theorem foldl_wireStep_packetBody {cfg : Config} {w : Wire} {sinks : List SinkEntry}
    {pkt : Packet} {body : List Ev} (h : Emits sinks body pkt.chunks) :
    (packetBody sinks pkt body).foldl (wireStep cfg) w =
      { w with current := none, sent := w.sent ++ [⟨pkt, registered cfg w.table⟩] } := by
  unfold packetBody
  rw [List.foldl_append, List.foldl_append, foldl_wireStep_broadcast,
    foldl_wireStep_emits (s := ⟨⟨pkt.origin, pkt.header, []⟩, registered cfg w.table⟩) rfl h,
    foldl_wireStep_finishing]
  rfl

theorem PacketSection.noStore {cfg : Config} {slots : ℕ → SinkEntry} {pkt : Packet} {b : List Ev}
    (h : PacketSection cfg slots pkt b) : ∀ e ∈ b, ∀ i s, e.op ≠ .storeSlot i s := by
  obtain ⟨num, body, hnum, hem, rfl⟩ := h
  intro e he i s
  rcases List.mem_append.mp he with he | he
  · obtain ⟨j, -, rfl⟩ := List.mem_map.mp he
    simp
  rcases List.mem_append.mp he with he | he
  · rcases hnum.mem he with ⟨raw, rfl⟩ | ⟨now, rfl⟩ <;> simp
  · rcases streaming_packetBody hem e he with ⟨m, rfl⟩ | ⟨c, rfl⟩ | ⟨a, c, rfl⟩ <;> simp

/-- A packet section, run from table `x.sinks`: who is called, and how the
packet is numbered. -/
theorem packetSection_steps {cfg : Config} {slots : ℕ → SinkEntry} {pkt : Packet} {b : List Ev}
    {x x' : Emit} (h : PacketSection cfg slots pkt b) (hs : Steps (emitStep cfg) x b x') :
    ∃ num body, Numbered pkt.origin pkt.header num ∧
      Emits (registered cfg x.sinks) body pkt.chunks ∧
      b = slotReads slots (List.range cfg.maxSinks) ++
        (num ++ packetBody (registered cfg x.sinks) pkt body) ∧
      Steps (emitStep cfg) x num x' := by
  obtain ⟨num, body, hnum, hem, rfl⟩ := h
  obtain ⟨x₁, h₁, hs₁⟩ := steps_append.mp hs
  obtain ⟨hx₁, hslots⟩ := steps_slotReads h₁
  rw [hx₁] at hs₁
  have hlive : live slots (List.range cfg.maxSinks) = registered cfg x.sinks := live_congr hslots
  rw [hlive] at hem hs₁ ⊢
  obtain ⟨x₂, h₂, hs₂⟩ := steps_append.mp hs₁
  have hx₂ : x' = x₂ := steps_streaming hs₂ (streaming_packetBody hem)
  rw [← hx₂] at h₂
  exact ⟨num, body, hnum, hem, rfl, h₂⟩

/-- The replayed table is the machine's. -/
theorem steps_table {cfg : Config} {es : List Ev} {x x' : Emit} {w : Wire}
    (h : Steps (emitStep cfg) x es x') (hw : w.table = x.sinks) :
    (es.foldl (wireStep cfg) w).table = x'.sinks := by
  induction es generalizing x w with
  | nil =>
    rw [show x' = x from h]
    exact hw
  | cons e es ih =>
    obtain ⟨x₁, h₁, h⟩ := h
    refine ih h ?_
    obtain ⟨o, r⟩ := e
    cases o
    case loadSlot =>
      rw [h₁.2]
      exact hw
    case storeSlot =>
      rw [show x₁ = _ from h₁, ← hw]
      rfl
    case fetchAddSeq =>
      rw [h₁.2]
      exact hw
    case stream c =>
      rw [show x₁ = x from h₁, ← hw]
      cases c <;> rfl
    all_goals
      rw [show x₁ = x from h₁]
      exact hw

theorem wireOf_append (cfg : Config) (es₁ es₂ : List Ev) :
    wireOf cfg (es₁ ++ es₂) = es₂.foldl (wireStep cfg) (wireOf cfg es₁) := List.foldl_append

theorem seqNumbers_append (l₁ l₂ : List Sent) :
    seqNumbers (l₁ ++ l₂) = seqNumbers l₁ ++ seqNumbers l₂ := by
  simp [seqNumbers]

/-- The clock readings of the packets that have one. -/
def sentClocks (sent : List Sent) : List ℕ := sent.filterMap fun s => s.pkt.clock

/-- Sequence numbers without a gap, and a counter that continues them. -/
structure InSequence (sent : List Sent) (seq : ℕ) : Prop where
  numbers : seqNumbers sent = (List.range (seqNumbers sent).length).map fun i => i % 65536
  next : seq % 65536 = (seqNumbers sent).length % 65536

theorem mod_fast16 (cfg : Config) (n : ℕ) : n % 2 ^ cfg.fast16 % 65536 = n % 65536 :=
  Nat.mod_mod_of_dvd n (pow_dvd_pow 2 cfg.fast16_ge)

/-- One more packet, numbered by the counter or left out of the sequence. -/
theorem InSequence.snoc {cfg : Config} {sent : List Sent} {s : Sent} {x x' : Emit}
    (h : InSequence sent x.seq) (hts : s.pkt.isTimeSync = true → x'.seq = x.seq)
    (hnum : s.pkt.isTimeSync = false → headerSeq s.pkt.header = x.seq % 65536 ∧
      x'.seq = (x.seq + 1) % 2 ^ cfg.fast16) :
    InSequence (sent ++ [s]) x'.seq := by
  cases ht : s.pkt.isTimeSync with
  | true =>
    have h1 : seqNumbers [s] = [] := by simp [seqNumbers, ht]
    have h2 : seqNumbers (sent ++ [s]) = seqNumbers sent := by
      rw [seqNumbers_append, h1, List.append_nil]
    refine ⟨?_, ?_⟩
    · rw [h2]
      exact h.numbers
    · rw [h2, hts ht]
      exact h.next
  | false =>
    obtain ⟨hs, hx⟩ := hnum ht
    have h1 : seqNumbers [s] = [x.seq % 65536] := by simp [seqNumbers, ht, hs]
    have h2 : seqNumbers (sent ++ [s]) = seqNumbers sent ++ [x.seq % 65536] := by
      rw [seqNumbers_append, h1]
    have hnext := h.next
    refine ⟨?_, ?_⟩
    · rw [h2, List.length_append, List.length_singleton, List.range_succ, List.map_append,
        ← h.numbers]
      simp [hnext]
    · rw [h2, hx, mod_fast16, List.length_append, List.length_singleton]
      omega

/-! ### Between two sections -/

/-- The state of the guarded part between two critical sections. -/
structure Settled (cfg : Config) (es : List Ev) (x : Emit) : Prop where
  table : (wireOf cfg es).table = x.sinks
  idle : (wireOf cfg es).current = none
  ok : TableOk cfg x.sinks
  calls : ∀ e, sinkCalls e es = ((wireOf cfg es).to e).flatMap Packet.calls
  sequence : InSequence (wireOf cfg es).sent x.seq
  clocks : sentClocks (wireOf cfg es).sent = readings es
  sound : ∀ s ∈ (wireOf cfg es).sent, s.pkt.Sound
  numbered : ∀ s ∈ (wireOf cfg es).sent, ∃ num, Numbered s.pkt.origin s.pkt.header num

theorem settled_nil (cfg : Config) : Settled cfg [] ⟨fun _ => SinkEntry.free, 0⟩ where
  table := rfl
  idle := rfl
  ok := ⟨fun _ _ => rfl, fun _ _ _ _ h _ => absurd rfl h⟩
  calls _ := rfl
  sequence := ⟨rfl, rfl⟩
  clocks := rfl
  sound _ h := by cases h
  numbered _ h := by cases h

/-- Events that are neither a stream call, nor a callback, nor a clock reading. -/
def Silent (es : List Ev) : Prop :=
  ∀ e ∈ es, (∀ c, e.op ≠ .stream c) ∧ (∀ s c, e.op ≠ .call s c) ∧ e.op ≠ .timestampMs

theorem foldl_wireStep_noStream (cfg : Config) {es : List Ev}
    (h : ∀ e ∈ es, ∀ c, e.op ≠ .stream c) (w : Wire) :
    (es.foldl (wireStep cfg) w).current = w.current ∧
      (es.foldl (wireStep cfg) w).sent = w.sent := by
  induction es generalizing w with
  | nil => exact ⟨rfl, rfl⟩
  | cons e es ih =>
    obtain ⟨h₁, h₂⟩ := ih (fun x hx => h x (List.mem_cons_of_mem _ hx)) (wireStep cfg w e)
    have he := h e (List.mem_cons_self ..)
    rw [List.foldl_cons, h₁, h₂]
    obtain ⟨o, r⟩ := e
    cases o
    case stream c => exact absurd rfl (he c)
    all_goals exact ⟨rfl, rfl⟩

theorem foldl_wireStep_noStore {cfg : Config} {es : List Ev}
    (h : ∀ e ∈ es, ∀ i s, e.op ≠ .storeSlot i s) (w : Wire) :
    (es.foldl (wireStep cfg) w).table = w.table := by
  induction es generalizing w with
  | nil => rfl
  | cons e es ih =>
    rw [List.foldl_cons, ih fun x hx => h x (List.mem_cons_of_mem _ hx)]
    have he := h e (List.mem_cons_self ..)
    obtain ⟨o, r⟩ := e
    cases o
    case storeSlot i s => exact absurd rfl (he i s)
    case stream c => cases c <;> rfl
    all_goals rfl

theorem sinkCalls_noCall {es : List Ev} (h : ∀ e ∈ es, ∀ s c, e.op ≠ .call s c) (e : SinkEntry) :
    sinkCalls e es = [] := by
  refine List.filterMap_eq_nil_iff.mpr fun ev hev => ?_
  have hne := h ev hev
  obtain ⟨o, r⟩ := ev
  cases o <;> simp_all

theorem Settled.silent {cfg : Config} {es b : List Ev} {x x' : Emit} (h : Settled cfg es x)
    (hb : Silent b) (hs : Steps (emitStep cfg) x b x') (hok : TableOk cfg x'.sinks)
    (hseq : x'.seq = x.seq) : Settled cfg (es ++ b) x' := by
  obtain ⟨hc, hsent⟩ := foldl_wireStep_noStream cfg (fun e he => (hb e he).1)
    (wireOf cfg es)
  refine ⟨?_, ?_, hok, fun e => ?_, ?_, ?_, ?_, ?_⟩
  · rw [wireOf_append]
    exact steps_table hs h.table
  · rw [wireOf_append, hc]
    exact h.idle
  · rw [sinkCalls_append, sinkCalls_noCall (fun e he => (hb e he).2.1), wireOf_append, Wire.to,
      hsent, List.append_nil]
    exact h.calls e
  · rw [wireOf_append, hsent, hseq]
    exact h.sequence
  · rw [wireOf_append, hsent, readings_append, readings_eq_nil fun e he => (hb e he).2.2,
      List.append_nil]
    exact h.clocks
  · rw [wireOf_append, hsent]
    exact h.sound
  · rw [wireOf_append, hsent]
    exact h.numbered

theorem Settled.packet {cfg : Config} {es b : List Ev} {x x' : Emit} (h : Settled cfg es x)
    {slots : ℕ → SinkEntry} {pkt : Packet} (hb : PacketSection cfg slots pkt b)
    (hp : pkt.Sound) (hs : Steps (emitStep cfg) x b x') : Settled cfg (es ++ b) x' := by
  obtain ⟨num, body, hnum, hem, rfl, hs'⟩ := packetSection_steps hb hs
  obtain ⟨hsinks, hread, hts, hseq⟩ := steps_numbered hnum hs'
  have hwire : wireOf cfg (es ++ (slotReads slots (List.range cfg.maxSinks) ++
      (num ++ packetBody (registered cfg x.sinks) pkt body))) =
      ⟨x.sinks, none, (wireOf cfg es).sent ++ [⟨pkt, registered cfg x.sinks⟩]⟩ := by
    rw [wireOf_append, List.foldl_append, List.foldl_append, foldl_wireStep_slotReads,
      foldl_wireStep_numbered hnum, foldl_wireStep_packetBody hem, h.table]
  refine ⟨by rw [hwire, hsinks], by rw [hwire], hsinks ▸ h.ok, fun e => ?_, ?_, ?_, ?_, ?_⟩
  · rw [hwire, sinkCalls_append, sinkCalls_append, sinkCalls_append, h.calls, sinkCalls_slotReads,
      sinkCalls_numbered e hnum, sinkCalls_packetBody (nodup_registered h.ok) hem]
    simp only [Wire.to, List.filter_append, List.map_append, List.flatMap_append, List.nil_append]
    by_cases he : e ∈ registered cfg x.sinks <;> simp [he]
  · rw [hwire]
    exact h.sequence.snoc hts hseq
  · rw [hwire, readings_append, readings_append, readings_append, ← h.clocks, readings_slotReads,
      hread, readings_streaming (streaming_packetBody hem)]
    cases hc : pkt.clock <;> simp [hc, sentClocks]
  · rw [hwire]
    intro s hs
    rcases List.mem_append.mp hs with hs | hs
    · exact h.sound s hs
    · rw [List.mem_singleton.mp hs]
      exact hp
  · rw [hwire]
    intro s hs
    rcases List.mem_append.mp hs with hs | hs
    · exact h.numbered s hs
    · rw [List.mem_singleton.mp hs]
      exact ⟨num, hnum⟩

end On9log
