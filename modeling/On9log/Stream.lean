import On9log.Encoder
import On9log.Lib.Prog

/-!
# Streams: numbering a packet and handing it to the sinks (on9log.c:267-338, 565-637, 938-958)

`Op` lists the shared-memory and port operations of the core. The tag-filter
lookup is one operation here, answered by any level. The callbacks of a sink
are operations on its `(sink, ctx)` pair. `stream` and its `Origin` record what
the library hands to the stream, whatever sinks are registered; they have no
effect on the shared state.
-/

namespace On9log
open Lib Lib.LittleEndian

/-- A slot of `s_sinks`; `sink = 0` marks a free one. -/
structure SinkEntry where
  sink : Ptr
  ctx : Ptr
  deriving DecidableEq

def SinkEntry.free : SinkEntry := ⟨0, 0⟩

/-- `metaData` is `ON9LOG_PAYLOAD_META_ARG_INDEX`. -/
inductive ArgIndex where
  | metaData
  | arg (i : ℕ)
  deriving DecidableEq

structure Chunk where
  bytes : List UInt8
  totalArgCnt : ℕ
  currArgIndex : ArgIndex
  deriving DecidableEq

inductive SinkCall where
  | startCb (header : Option (List UInt8))
  | payloadCb (c : Chunk)
  | endCb
  deriving DecidableEq

/-- A packet the library builds with a clock reading, or one handed to
`on9log_dispatch_packet`. -/
inductive Origin where
  | built (type : PacketType) (clock : ℕ)
  | relayed (packet : List UInt8)
  deriving DecidableEq

inductive StreamCall where
  | start (origin : Origin) (header : List UInt8)
  | payload (c : Chunk)
  | finish
  deriving DecidableEq

/-- The callback a stream call makes to each sink. -/
def StreamCall.sinkCall : StreamCall → SinkCall
  | .start _ header => .startCb (some header)
  | .payload c => .payloadCb c
  | .finish => .endCb

/-- The ID buffer after `on9log_port_image_id`, its length and its kind. -/
structure ImageIdReply where
  id : ℕ → UInt8
  len : ℕ
  kind : UInt8

inductive Op where
  | filterLevelForTag (tag : Ptr)
  | exchangeDropped
  | addDropped
  | emitLock
  | emitUnlock
  | loadSlot (i : ℕ)
  | storeSlot (i : ℕ) (e : SinkEntry)
  | fetchAddSeq
  | timestampMs
  | isrTimestampMs
  | memory
  | imageId
  | isrReady
  | isrEnqueuePacket (packet : List UInt8)
  | stream (c : StreamCall)
  | call (e : SinkEntry) (c : SinkCall)
  deriving DecidableEq

abbrev Op.Ret : Op → Type
  | .filterLevelForTag _ => ℕ
  | .exchangeDropped => ℕ
  | .addDropped => Unit
  | .emitLock => Unit
  | .emitUnlock => Unit
  | .loadSlot _ => SinkEntry
  | .storeSlot _ _ => Unit
  | .fetchAddSeq => ℕ
  | .timestampMs => ℕ
  | .isrTimestampMs => ℕ
  | .memory => Mem
  | .imageId => ImageIdReply
  | .isrReady => Bool
  | .isrEnqueuePacket _ => Bool
  | .stream _ => Unit
  | .call _ _ => Unit

instance (o : Op) : Inhabited o.Ret := by
  cases o
  case loadSlot => exact ⟨SinkEntry.free⟩
  case imageId => exact ⟨⟨fun _ => 0, 0, 0⟩⟩
  all_goals exact ⟨default⟩

abbrev Core := Prog Op Op.Ret
abbrev Ev := Event Op Op.Ret

/-! ### One operation each -/

def filterLevelForTag (tag : Ptr) : Core ℕ := Prog.op (Op.filterLevelForTag tag)
def exchangeDropped : Core ℕ := Prog.op Op.exchangeDropped
def addDropped : Core Unit := Prog.op Op.addDropped
def emitLock : Core Unit := Prog.op Op.emitLock
def emitUnlock : Core Unit := Prog.op Op.emitUnlock
def loadSlot (i : ℕ) : Core SinkEntry := Prog.op (Op.loadSlot i)
def storeSlot (i : ℕ) (e : SinkEntry) : Core Unit := Prog.op (Op.storeSlot i e)
def fetchAddSeq : Core ℕ := Prog.op Op.fetchAddSeq
def timestampMs : Core ℕ := Prog.op Op.timestampMs
def isrTimestampMs : Core ℕ := Prog.op Op.isrTimestampMs
def readMemory : Core Mem := Prog.op Op.memory
def imageId : Core ImageIdReply := Prog.op Op.imageId
def isrReady : Core Bool := Prog.op Op.isrReady
def isrEnqueuePacket (packet : List UInt8) : Core Bool := Prog.op (Op.isrEnqueuePacket packet)
def recordStream (c : StreamCall) : Core Unit := Prog.op (Op.stream c)
def callSink (e : SinkEntry) (c : SinkCall) : Core Unit := Prog.op (Op.call e c)

section Paths

variable {es : List Ev}

@[simp] theorem path_filterLevelForTag {tag : Ptr} {r : ℕ} :
    (filterLevelForTag tag).Path es r ↔ es = [⟨.filterLevelForTag tag, r⟩] :=
  Prog.path_op (Op.filterLevelForTag tag) es r

@[simp] theorem path_exchangeDropped {r : ℕ} :
    exchangeDropped.Path es r ↔ es = [⟨.exchangeDropped, r⟩] := Prog.path_op Op.exchangeDropped es r

@[simp] theorem path_addDropped {r : Unit} :
    addDropped.Path es r ↔ es = [⟨.addDropped, r⟩] := Prog.path_op Op.addDropped es r

@[simp] theorem path_emitLock {r : Unit} :
    emitLock.Path es r ↔ es = [⟨.emitLock, r⟩] := Prog.path_op Op.emitLock es r

@[simp] theorem path_emitUnlock {r : Unit} :
    emitUnlock.Path es r ↔ es = [⟨.emitUnlock, r⟩] := Prog.path_op Op.emitUnlock es r

@[simp] theorem path_loadSlot {i : ℕ} {r : SinkEntry} :
    (loadSlot i).Path es r ↔ es = [⟨.loadSlot i, r⟩] := Prog.path_op (Op.loadSlot i) es r

@[simp] theorem path_storeSlot {i : ℕ} {e : SinkEntry} {r : Unit} :
    (storeSlot i e).Path es r ↔ es = [⟨.storeSlot i e, r⟩] := Prog.path_op (Op.storeSlot i e) es r

@[simp] theorem path_fetchAddSeq {r : ℕ} :
    fetchAddSeq.Path es r ↔ es = [⟨.fetchAddSeq, r⟩] := Prog.path_op Op.fetchAddSeq es r

@[simp] theorem path_timestampMs {r : ℕ} :
    timestampMs.Path es r ↔ es = [⟨.timestampMs, r⟩] := Prog.path_op Op.timestampMs es r

@[simp] theorem path_isrTimestampMs {r : ℕ} :
    isrTimestampMs.Path es r ↔ es = [⟨.isrTimestampMs, r⟩] := Prog.path_op Op.isrTimestampMs es r

@[simp] theorem path_readMemory {r : Mem} :
    readMemory.Path es r ↔ es = [⟨.memory, r⟩] := Prog.path_op Op.memory es r

@[simp] theorem path_imageId {r : ImageIdReply} :
    imageId.Path es r ↔ es = [⟨.imageId, r⟩] := Prog.path_op Op.imageId es r

@[simp] theorem path_isrReady {r : Bool} :
    isrReady.Path es r ↔ es = [⟨.isrReady, r⟩] := Prog.path_op Op.isrReady es r

@[simp] theorem path_isrEnqueuePacket {packet : List UInt8} {r : Bool} :
    (isrEnqueuePacket packet).Path es r ↔ es = [⟨.isrEnqueuePacket packet, r⟩] :=
  Prog.path_op (Op.isrEnqueuePacket packet) es r

@[simp] theorem path_recordStream {c : StreamCall} {r : Unit} :
    (recordStream c).Path es r ↔ es = [⟨.stream c, r⟩] := Prog.path_op (Op.stream c) es r

@[simp] theorem path_callSink {e : SinkEntry} {c : SinkCall} {r : Unit} :
    (callSink e c).Path es r ↔ es = [⟨.call e c, r⟩] := Prog.path_op (Op.call e c) es r

end Paths

/-- `on9log_stream_t`. -/
structure Stream where
  sinks : List SinkEntry

def captureSlots : List ℕ → Core (List SinkEntry)
  | [] => pure []
  | i :: is => do
    let slot ← loadSlot i
    let rest ← captureSlots is
    pure (if slot.sink ≠ 0 then slot :: rest else rest)

def streamOpen (cfg : Config) : Core Stream := do
  emitLock
  let sinks ← captureSlots (List.range cfg.maxSinks)
  pure ⟨sinks⟩

def streamSendHeader (stream : Stream) (origin : Origin) (header : List UInt8) : Core Unit := do
  recordStream (.start origin header)
  forM stream.sinks fun e => callSink e (.startCb (some header))

def streamPayload (stream : Stream) (c : Chunk) : Core Unit :=
  if c.bytes.length = 0 then pure ()
  else do
    recordStream (.payload c)
    forM stream.sinks fun e => callSink e (.payloadCb c)

def streamEnd (stream : Stream) : Core Unit := do
  forM stream.sinks fun e => callSink e .endCb
  recordStream .finish
  emitUnlock

def emitEncoder (stream : Stream) (enc : Encoder) (totalArgCnt : ℕ) (currArgIndex : ArgIndex) :
    Core Unit :=
  if enc.overflow then pure () else streamPayload stream ⟨enc.data, totalArgCnt, currArgIndex⟩

def emitU8 (stream : Stream) (val : UInt8) (totalArgCnt : ℕ) (currArgIndex : ArgIndex) :
    Core Unit :=
  streamPayload stream ⟨[val], totalArgCnt, currArgIndex⟩

def emitU32 (stream : Stream) (val : UInt32) (totalArgCnt : ℕ) (currArgIndex : ArgIndex) :
    Core Unit :=
  emitEncoder stream (putU32 (Encoder.new 4) val) totalArgCnt currArgIndex

def emitU64 (stream : Stream) (val : UInt64) (totalArgCnt : ℕ) (currArgIndex : ArgIndex) :
    Core Unit :=
  emitEncoder stream (putU64 (Encoder.new 8) val) totalArgCnt currArgIndex

/-- `len` bytes of memory from `p`. -/
def readBytes (mem : Mem) (p : Ptr) (len : ℕ) : List UInt8 :=
  (List.range len).map fun i => mem (p + i)

@[simp] theorem length_readBytes (mem : Mem) (p : Ptr) (len : ℕ) :
    (readBytes mem p len).length = len := by
  simp [readBytes]

def emitStringBytes (stream : Stream) (str : Ptr) (strLen : UInt32) (totalArgCnt : ℕ)
    (currArgIndex : ArgIndex) : Core Unit := do
  emitU32 stream strLen totalArgCnt currArgIndex
  if strLen ≠ 0 then
    let mem ← readMemory
    streamPayload stream ⟨readBytes mem str strLen.toNat, totalArgCnt, currArgIndex⟩

/-- The lock, the sink snapshot, the sequence number and the time stamp, then
the header. -/
def emitHeader (cfg : Config) (type : PacketType) (level : ℕ) (tagId fmtId : UInt32)
    (payloadLen : UInt16) : Core Stream := do
  let stream ← streamOpen cfg
  let seq ← fetchAddSeq
  let now ← timestampMs
  streamSendHeader stream (.built type now)
    (encodeHeader type level (UInt16.ofNat seq) (UInt32.ofNat now) tagId fmtId payloadLen)
  pure stream

/-! ### What these perform -/

/-- One stream call: the record of it, then the callback of every sink in slot order. -/
def broadcast (sinks : List SinkEntry) (c : StreamCall) : List Ev :=
  ⟨.stream c, ()⟩ :: sinks.map fun e => ⟨.call e c.sinkCall, ()⟩

def finishing (sinks : List SinkEntry) : List Ev :=
  (sinks.map fun e => ⟨.call e .endCb, ()⟩) ++ [⟨.stream .finish, ()⟩]

/-- The slot reads of `on9log_stream_open` when slot `i` holds `slots i`. -/
def slotReads (slots : ℕ → SinkEntry) (is : List ℕ) : List Ev :=
  is.map fun i => ⟨.loadSlot i, slots i⟩

def live (slots : ℕ → SinkEntry) (is : List ℕ) : List SinkEntry :=
  (is.map slots).filter fun e => e.sink ≠ 0

theorem path_forM_call (sinks : List SinkEntry) (c : SinkCall) (es : List Ev) (v : PUnit) :
    (forM sinks fun e => callSink e c).Path es v ↔
      es = sinks.map fun e => ⟨.call e c, ()⟩ := by
  rw [Prog.path_forM_unit (g := fun e => [⟨.call e c, ()⟩]) (fun a es v => path_callSink)]
  rw [List.map_eq_flatMap]

theorem path_captureSlots {is : List ℕ} (hnd : is.Nodup) {es : List Ev} {sinks : List SinkEntry}
    (h : (captureSlots is).Path es sinks) :
    ∃ slots, es = slotReads slots is ∧ sinks = live slots is := by
  induction is generalizing es sinks with
  | nil =>
    obtain ⟨rfl, rfl⟩ := (Prog.path_pure _ _ _).mp h
    exact ⟨fun _ => SinkEntry.free, rfl, rfl⟩
  | cons i is ih =>
    simp only [captureSlots, Prog.path_bind, path_loadSlot, Prog.path_pure] at h
    obtain ⟨slot, _, es', rfl, rfl, rest, es₁, _, rfl, h₁, rfl, rfl⟩ := h
    obtain ⟨hi, his⟩ := List.nodup_cons.mp hnd
    obtain ⟨slots, rfl, rfl⟩ := ih his h₁
    have hmap : ∀ j ∈ is, Function.update slots i slot j = slots j := fun j hj =>
      Function.update_of_ne (fun e => hi (by rw [← e]; exact hj)) _ _
    refine ⟨Function.update slots i slot, ?_, ?_⟩
    · simp only [slotReads, List.map_cons, Function.update_self, List.append_nil,
        List.singleton_append, List.cons.injEq, true_and]
      exact (List.map_congr_left fun j hj => by rw [hmap j hj])
    · simp only [live, List.map_cons, Function.update_self, List.map_congr_left hmap]
      by_cases hs : slot.sink = 0 <;> simp [hs]

theorem path_streamSendHeader (stream : Stream) (origin : Origin) (header : List UInt8)
    (es : List Ev) (v : Unit) : (streamSendHeader stream origin header).Path es v ↔
      es = broadcast stream.sinks (.start origin header) := by
  simp only [streamSendHeader, Prog.path_bind, path_recordStream, path_forM_call, broadcast]
  constructor
  · rintro ⟨_, _, _, rfl, rfl, rfl⟩
    rfl
  · rintro rfl
    exact ⟨(), _, _, rfl, rfl, rfl⟩

theorem path_streamPayload (stream : Stream) (c : Chunk) (es : List Ev) (v : Unit) :
    (streamPayload stream c).Path es v ↔
      es = if c.bytes = [] then [] else broadcast stream.sinks (.payload c) := by
  unfold streamPayload
  by_cases hc : c.bytes = []
  · simp [hc]
  · simp only [List.length_eq_zero_iff, hc, if_false, Prog.path_bind, path_recordStream,
      path_forM_call, broadcast]
    constructor
    · rintro ⟨_, _, _, rfl, rfl, rfl⟩
      rfl
    · rintro rfl
      exact ⟨(), _, _, rfl, rfl, rfl⟩

theorem path_streamEnd (stream : Stream) (es : List Ev) (v : Unit) :
    (streamEnd stream).Path es v ↔ es = finishing stream.sinks ++ [⟨.emitUnlock, ()⟩] := by
  simp only [streamEnd, Prog.path_bind, path_recordStream, path_emitUnlock, path_forM_call,
    finishing, List.append_assoc]
  constructor
  · rintro ⟨_, _, _, rfl, rfl, _, _, _, rfl, rfl, rfl⟩
    rfl
  · rintro rfl
    exact ⟨⟨⟩, _, _, rfl, rfl, (), _, _, rfl, rfl, rfl⟩

/-! ### Payload chunks -/

/-- `Emits sinks es cs`: between a header and the end of its packet, `es` hands
the chunks `cs` to the stream and otherwise only looks at memory. -/
inductive Emits (sinks : List SinkEntry) : List Ev → List Chunk → Prop
  | nil : Emits sinks [] []
  | memory (mem : Mem) {es cs} : Emits sinks es cs → Emits sinks (⟨.memory, mem⟩ :: es) cs
  | chunk (c : Chunk) {es cs} : c.bytes ≠ [] → Emits sinks es cs →
      Emits sinks (broadcast sinks (.payload c) ++ es) (c :: cs)

theorem Emits.append {sinks : List SinkEntry} {es₁ es₂ : List Ev} {cs₁ cs₂ : List Chunk}
    (h₁ : Emits sinks es₁ cs₁) (h₂ : Emits sinks es₂ cs₂) :
    Emits sinks (es₁ ++ es₂) (cs₁ ++ cs₂) := by
  induction h₁ with
  | nil => exact h₂
  | memory mem _ ih => exact .memory mem ih
  | chunk c hc _ ih => simpa using Emits.chunk c hc ih

/-- All chunk bytes in order. -/
def payloadOf (cs : List Chunk) : List UInt8 := cs.flatMap Chunk.bytes

@[simp] theorem payloadOf_nil : payloadOf [] = [] := rfl

@[simp] theorem payloadOf_cons (c : Chunk) (cs : List Chunk) :
    payloadOf (c :: cs) = c.bytes ++ payloadOf cs := rfl

@[simp] theorem payloadOf_append (cs₁ cs₂ : List Chunk) :
    payloadOf (cs₁ ++ cs₂) = payloadOf cs₁ ++ payloadOf cs₂ := by
  simp [payloadOf]

/-- The chunk list of one `on9log_stream_payload` call, which skips empty chunks. -/
def chunksOf (c : Chunk) : List Chunk := if c.bytes = [] then [] else [c]

@[simp] theorem payloadOf_chunksOf (c : Chunk) : payloadOf (chunksOf c) = c.bytes := by
  unfold chunksOf
  split
  · rename_i h
    simp [payloadOf, h]
  · simp [payloadOf]

theorem emits_streamPayload {stream : Stream} {c : Chunk} {es : List Ev} {v : Unit}
    (h : (streamPayload stream c).Path es v) : Emits stream.sinks es (chunksOf c) := by
  rw [path_streamPayload] at h
  unfold chunksOf
  by_cases hc : c.bytes = []
  · rw [if_pos hc] at h ⊢
    rw [h]
    exact .nil
  · rw [if_neg hc] at h ⊢
    rw [h]
    simpa using Emits.chunk c hc .nil

theorem emits_emitU32 {stream : Stream} {val : UInt32} {n : ℕ} {i : ArgIndex} {es : List Ev}
    {v : Unit} (h : (emitU32 stream val n i).Path es v) :
    Emits stream.sinks es [⟨bytesLE 4 val.toNat, n, i⟩] := by
  have hw := (writes_putU32 val).new 4 (by simp)
  unfold emitU32 emitEncoder at h
  rw [hw.1, hw.2, if_neg (by decide)] at h
  simpa [chunksOf, bytesLE] using emits_streamPayload h

theorem emits_emitU64 {stream : Stream} {val : UInt64} {n : ℕ} {i : ArgIndex} {es : List Ev}
    {v : Unit} (h : (emitU64 stream val n i).Path es v) :
    Emits stream.sinks es [⟨bytesLE 8 val.toNat, n, i⟩] := by
  have hw := (writes_putU64 val).new 8 (by simp)
  unfold emitU64 emitEncoder at h
  rw [hw.1, hw.2, if_neg (by decide)] at h
  simpa [chunksOf, bytesLE] using emits_streamPayload h

theorem emits_emitStringBytes {stream : Stream} {str : Ptr} {len : UInt32} {n : ℕ} {i : ArgIndex}
    {es : List Ev} {v : Unit} (h : (emitStringBytes stream str len n i).Path es v) :
    ∃ mem, (len ≠ 0 → ⟨.memory, mem⟩ ∈ es) ∧
      Emits stream.sinks es
        (⟨bytesLE 4 len.toNat, n, i⟩ :: chunksOf ⟨readBytes mem str len.toNat, n, i⟩) := by
  simp only [emitStringBytes, Prog.path_bind] at h
  obtain ⟨_, es₁, es₂, rfl, h₁, h₂⟩ := h
  have hlen := emits_emitU32 h₁
  rcases (Prog.path_ite _ _ _ _ _).mp h₂ with ⟨hz, h₂⟩ | ⟨hz, h₂⟩
  · simp only [Prog.path_bind, path_readMemory] at h₂
    obtain ⟨mem, _, es₃, rfl, rfl, h₃⟩ := h₂
    refine ⟨mem, fun _ => by simp, ?_⟩
    exact hlen.append (.memory mem (emits_streamPayload h₃))
  · obtain ⟨rfl, -⟩ := (Prog.path_pure _ _ _).mp h₂
    have hz' : len = 0 := by simpa using hz
    subst hz'
    refine ⟨fun _ => 0, fun h => absurd rfl h, ?_⟩
    simpa [chunksOf, readBytes] using hlen

end On9log
