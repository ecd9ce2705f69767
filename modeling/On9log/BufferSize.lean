import On9log.BufferChunks
import On9log.EspVfs

/-!
# The size of BUFFER packets (on9log.c:2494-2516)

A transport takes 3072 bytes of header and payload and drops what is longer. The
inline tag takes room from the data, but a packet of a buffer that is not empty
carries a byte at least: a tag that leaves no room makes every packet too long.
-/

namespace On9log
open Lib

variable {cfg : Config} {es es₁ es₂ : List Ev} {mem : Mem}

def Packet.size (pkt : Packet) : ℕ := pkt.header.length + pkt.payload.length

def Packet.FitsTransport (pkt : Packet) : Prop := pkt.size ≤ transportMaxPayload

/-- The stdio sink does not drop the packet, whatever it held before. -/
def Packet.KeptByStdio (pkt : Packet) : Prop :=
  ∀ s : StdioState, ((pkt.chunks.map fun c => some c.bytes).foldl StdioState.payload
    (s.start (some pkt.header))).dropFrame = false

/-- The VFS sink does not drop the packet, whatever it held before. -/
def Packet.KeptByVfs (pkt : Packet) : Prop :=
  ∀ e : EspVfsState, ((pkt.chunks.map Chunk.bytes).foldl EspVfsState.append
    (e.start pkt.header)).overflow = false

/-! ### The sinks and the size -/

theorem Packet.length_bytes (pkt : Packet) :
    (pkt.header ++ (pkt.chunks.map Chunk.bytes).flatten).length = pkt.size := by
  unfold Packet.size Packet.payload payloadOf
  rw [List.length_append, List.flatMap_def]

theorem Packet.keptByStdio_iff {pkt : Packet} : pkt.KeptByStdio ↔ pkt.FitsTransport := by
  have hdrop : ∀ s : StdioState, ((pkt.chunks.map fun c => some c.bytes).foldl StdioState.payload
      (s.start (some pkt.header))).dropFrame =
        (fits (some (pkt.header ++ (pkt.chunks.map Chunk.bytes).flatten))).isNone := by
    intro s
    have hall := ((StdioState.collected_start s (some pkt.header)).payloads
      ((pkt.chunks.map Chunk.bytes).map some)).drop
    have hcontent := content_chunks pkt.header (pkt.chunks.map Chunk.bytes)
    unfold SinkPacket.content at hcontent
    rw [hcontent, List.map_map] at hall
    exact hall
  unfold Packet.KeptByStdio Packet.FitsTransport
  rw [← pkt.length_bytes]
  constructor
  · intro h
    have hnone := h .init
    rw [hdrop] at hnone
    by_contra hlong
    rw [fits_of_not_le hlong] at hnone
    cases hnone
  · intro hle s
    rw [hdrop, fits_of_le hle]
    rfl

theorem Packet.keptByVfs_iff {pkt : Packet} : pkt.KeptByVfs ↔ pkt.FitsTransport := by
  have hcollected : ∀ e : EspVfsState, ((pkt.chunks.map Chunk.bytes).foldl EspVfsState.append
      (e.start pkt.header)).Collected (pkt.header ++ (pkt.chunks.map Chunk.bytes).flatten) :=
    fun e => EspVfsState.collected_packet pkt.header _
  unfold EspVfsState.Collected at hcollected
  unfold Packet.KeptByVfs Packet.FitsTransport
  rw [← pkt.length_bytes]
  constructor
  · intro h
    by_contra hlong
    have hover := hcollected ⟨false, [], Nat.zero_le _⟩
    rw [if_neg hlong, h] at hover
    cases hover
  · intro hle e
    have hkept := hcollected e
    rw [if_pos hle] at hkept
    exact hkept.1

/-! ### The first look at memory -/

/-- What a call saw of memory when it looked first. -/
def firstLook (es : List Ev) : Option Mem :=
  es.findSome? fun e => match e with
    | ⟨.memory, m⟩ => some m
    | _ => none

theorem firstLook_append : firstLook (es₁ ++ es₂) = (firstLook es₁).or (firstLook es₂) :=
  List.findSome?_append

theorem mem_of_firstLook {m : Mem} (h : firstLook es = some m) : (⟨.memory, m⟩ : Ev) ∈ es := by
  obtain ⟨⟨o, r⟩, he, hlook⟩ := List.exists_of_findSome?_eq_some h
  cases o
  case memory =>
    cases hlook
    exact he
  all_goals cases hlook

theorem firstLook_calls (sinks : List SinkEntry) (c : SinkCall) :
    firstLook (sinks.map fun e => (⟨.call e c, ()⟩ : Ev)) = none := by
  induction sinks with
  | nil => rfl
  | cons e sinks ih => exact ih

theorem firstLook_broadcast (sinks : List SinkEntry) (c : StreamCall) :
    firstLook (broadcast sinks c) = none := firstLook_calls sinks c.sinkCall

theorem firstLook_slotReads (slots : ℕ → SinkEntry) (is : List ℕ) :
    firstLook (slotReads slots is) = none := by
  induction is with
  | nil => rfl
  | cons i is ih => exact ih

theorem firstLook_emitHeader {type : PacketType} {level : ℕ} {tagId fmtId : UInt32}
    {payloadLen : UInt16} {stream : Stream}
    (h : (emitHeader cfg type level tagId fmtId payloadLen).Path es stream) :
    firstLook es = none := by
  obtain ⟨stream', e₁, _, rfl, ho, h⟩ := (Prog.path_bind _ _ _ _).mp h
  obtain ⟨raw, e₂, _, rfl, hr, h⟩ := (Prog.path_bind _ _ _ _).mp h
  obtain ⟨now, e₃, _, rfl, hn, h⟩ := (Prog.path_bind _ _ _ _).mp h
  obtain ⟨_, e₄, _, rfl, hs, h⟩ := (Prog.path_bind _ _ _ _).mp h
  obtain ⟨rfl, -⟩ := (Prog.path_pure _ _ _).mp h
  obtain ⟨slots, -, rfl⟩ := path_streamOpen ho
  rw [path_fetchAddSeq.mp hr, path_timestampMs.mp hn, (path_streamSendHeader _ _ _ _ _).mp hs,
    List.append_nil]
  have hreads : firstLook ((⟨.emitLock, ()⟩ : Ev) :: slotReads slots (List.range cfg.maxSinks)) =
      none := firstLook_slotReads slots _
  rw [firstLook_append, hreads, Option.none_or]
  exact firstLook_broadcast _ _

theorem firstLook_emitU32 {stream : Stream} {val : UInt32} {n : ℕ} {i : ArgIndex} {v : Unit}
    (h : (emitU32 stream val n i).Path es v) : firstLook es = none := by
  unfold emitU32 emitEncoder at h
  rcases (Prog.path_ite _ _ _ _ _).mp h with ⟨-, h⟩ | ⟨-, h⟩
  · obtain ⟨rfl, -⟩ := (Prog.path_pure _ _ _).mp h
    rfl
  · rw [(path_streamPayload _ _ _ _).mp h]
    split
    · rfl
    · exact firstLook_broadcast _ _

/-- The notice of dropped packets does not look at memory. -/
theorem firstLook_flushDropped {v : Unit} (h : (flushDropped cfg).Path es v) :
    firstLook es = none := by
  obtain ⟨raw, e₁, e₂, rfl, h₁, h₂⟩ := (Prog.path_bind _ _ _ _).mp h
  rw [path_exchangeDropped.mp h₁]
  rcases (Prog.path_ite _ _ _ _ _).mp h₂ with ⟨-, h₂⟩ | ⟨-, h₂⟩
  · obtain ⟨stream, e₃, _, rfl, h₃, h₂⟩ := (Prog.path_bind _ _ _ _).mp h₂
    obtain ⟨_, e₄, e₅, rfl, h₄, h₅⟩ := (Prog.path_bind _ _ _ _).mp h₂
    have hend : firstLook e₅ = none := by
      rw [(path_streamEnd _ _ _).mp h₅, finishing, List.append_assoc, firstLook_append,
        firstLook_calls]
      rfl
    show firstLook (e₃ ++ (e₄ ++ e₅)) = none
    rw [firstLook_append, firstLook_append, firstLook_emitHeader h₃, firstLook_emitU32 h₄, hend]
    rfl
  · obtain ⟨rfl, -⟩ := (Prog.path_pure _ _ _).mp h₂
    rfl

theorem Gate.firstLook {level : ℕ} {tag : Ptr} {b : Bool} (h : Gate cfg level tag b es) :
    firstLook es = none := by
  cases h with
  | compileTime => rfl
  | runtime => rfl

theorem wireStr_firstLook {str : Ptr} {maxLen : ℕ} {wire : WireStr}
    (h : (wireStr cfg str maxLen).Path es wire) (hlook : ∀ m ∈ firstLook es, m = mem) :
    wire = wireStrIn cfg mem str maxLen := by
  unfold wireStr at h
  unfold wireStrIn
  rcases (Prog.path_ite _ _ _ _ _).mp h with ⟨hc, h⟩ | ⟨hc, h⟩
  · obtain ⟨m, e₁, e₂, rfl, h₁, h₂⟩ := (Prog.path_bind _ _ _ _).mp h
    obtain ⟨rfl, rfl⟩ := (Prog.path_pure _ _ _).mp h₂
    rw [path_readMemory.mp h₁] at hlook
    rw [if_pos hc, hlook m rfl]
  · obtain ⟨-, rfl⟩ := (Prog.path_pure _ _ _).mp h
    rw [if_neg hc]

/-! ### The sizes of a dump -/

/-- The bytes of a BUFFER packet with `chunkLen` bytes of data. -/
def bufferPacketSize (tagSize chunkLen : ℕ) : ℕ := packetHeaderLen + (tagSize + 3 * 4 + chunkLen)

theorem BufferPacket.size {level : ℕ} {tag bytes : Ptr} {tagWire : WireStr}
    {totalLen offset chunkLen : UInt32} {pkt : Packet}
    (h : BufferPacket cfg level tag tagWire bytes totalLen offset chunkLen pkt es) :
    pkt.size = bufferPacketSize (wireStrSize tagWire) chunkLen.toNat := by
  obtain ⟨seq, now, cs, rfl, hlen, -⟩ := h.emission
  unfold Packet.size Packet.payload builtPacket bufferPacketSize
  rw [length_headerBytes, hlen]

/-- No packet from `offset` on is larger than the first one may be, and the first is
that large. -/
theorem BufferPackets.sizes {level : ℕ} {tag bytes : Ptr} {tagWire : WireStr}
    {totalLen max offset : UInt32} {pkts : List Packet}
    (h : BufferPackets cfg level tag tagWire bytes totalLen max offset pkts es) :
    (∀ pkt ∈ pkts, pkt.size ≤ bufferPacketSize (wireStrSize tagWire)
        (min (totalLen.toNat - offset.toNat) max.toNat)) ∧
      (offset < totalLen → ∃ pkt ∈ pkts, pkt.size = bufferPacketSize (wireStrSize tagWire)
        (min (totalLen.toNat - offset.toNat) max.toNat)) := by
  induction h with
  | done offset hge => exact ⟨nofun, fun hlt => absurd hlt hge⟩
  | chunk offset pkt pkts es es' hlt hpkt _ ih =>
    have hsize := hpkt.size
    have hnext := toNat_nextOffset max hlt
    rw [toNat_nextChunkLen max hlt] at hsize
    refine ⟨fun p hp => ?_, fun _ => ⟨pkt, List.mem_cons_self, hsize⟩⟩
    rcases List.mem_cons.mp hp with rfl | hp
    · exact hsize.le
    · have hle := ih.1 p hp
      unfold bufferPacketSize at hle ⊢
      omega

/-- The largest packet of a dump. -/
def largestBufferPacket (cfg : Config) (tagSize bufferLen : ℕ) : ℕ :=
  bufferPacketSize tagSize (min bufferLen (chunkMax cfg tagSize).toNat)

theorem sizes_writeBufferPackets {level : ℕ} {tag bytes : Ptr} {totalLen : UInt32} {v : Unit}
    (hstr : cfg.maxDynamicStringLen ≤ 3048) (hlook : ∀ m ∈ firstLook es, m = mem)
    (h : (writeBufferPackets cfg level tag bytes totalLen).Path es v) :
    ∃ pkts, Effects es pkts 0 [] ∧ (∀ pkt ∈ pkts, pkt.isBuffer = true) ∧
      (∀ pkt ∈ pkts, pkt.size ≤ largestBufferPacket cfg
        (wireStrSize (wireStrIn cfg mem tag cfg.maxDynamicStringLen)) totalLen.toNat) ∧
      ∃ pkt ∈ pkts, pkt.size = largestBufferPacket cfg
        (wireStrSize (wireStrIn cfg mem tag cfg.maxDynamicStringLen)) totalLen.toNat := by
  obtain ⟨tagWire, e₁, e₂, rfl, h₁, h⟩ := (Prog.path_bind _ _ _ _).mp h
  have hle := wireStr_len_le (by have := cfg.string_le; unfold uint32Max at *; omega) h₁
  have hfit := bufferPacket_fits hstr hle
  have htag : tagWire = wireStrIn cfg mem tag cfg.maxDynamicStringLen := by
    refine wireStr_firstLook h₁ fun m hm => hlook m ?_
    rw [firstLook_append, Option.mem_def.mp hm]
    rfl
  rw [← htag]
  have hlooks := effects_memory (reads_wireStr h₁).only
  unfold largestBufferPacket
  rcases (Prog.path_ite _ _ _ _ _).mp h with ⟨hc, -⟩ | ⟨-, h⟩
  · omega
  · rcases (Prog.path_ite _ _ _ _ _).mp h with ⟨hz, h⟩ | ⟨hz, h⟩
    · subst hz
      obtain ⟨pkt, hpkt⟩ := bufferPacket_emitBufferPacket h
      obtain ⟨seq, now, cs, -, -, hem⟩ := hpkt.emission
      have hsize : pkt.size = bufferPacketSize (wireStrSize tagWire)
          (min (0 : UInt32).toNat (chunkMax cfg (wireStrSize tagWire)).toNat) := by
        rw [hpkt.size]
        exact congrArg _ (Nat.zero_min _).symm
      refine ⟨[pkt], hlooks.append hem.effects, ?_, ?_, pkt, List.mem_singleton_self _, hsize⟩
      · intro p hp
        rw [List.mem_singleton.mp hp]
        exact hpkt.isBuffer
      · intro p hp
        rw [List.mem_singleton.mp hp]
        exact hsize.le
    · obtain ⟨pkts, hpkts⟩ := bufferPackets_bufferLoop _ _ h
      have hpos : (0 : UInt32) < totalLen := UInt32.pos_iff_ne_zero.mpr hz
      obtain ⟨hall, hfirst⟩ := hpkts.sizes
      exact ⟨pkts, hlooks.append hpkts.effects.1, hpkts.isBuffer, hall, hfirst hpos⟩

/-! ### The call -/

/-- The room the tag takes in each packet. -/
def tagSizeIn (cfg : Config) (mem : Mem) (tag : Ptr) : ℕ :=
  wireStrSize (wireStrIn cfg mem tag cfg.maxDynamicStringLen)

/-- A buffer `on9log_write_buffer` counts as dropped. -/
def BufferRejected (buffer : Ptr) (bufferLen : ℕ) : Prop :=
  (buffer = 0 ∧ bufferLen ≠ 0) ∨ bufferLen > uint32Max

theorem Effects.buffersSent_nil {d : ℕ} {enq : List (List UInt8)} (h : Effects es [] d enq) :
    buffersSent es = [] := by
  unfold buffersSent
  rw [h.sentPackets]
  rfl

/-- A call sends no BUFFER packet, or some and the largest has the expected size. -/
theorem sizes_writeBuffer {level : ℕ} {tag buffer : Ptr} {bufferLen : ℕ} {v : Unit}
    (hstr : cfg.maxDynamicStringLen ≤ 3048) (hlook : ∀ m ∈ firstLook es, m = mem)
    (h : (writeBuffer cfg level tag buffer bufferLen).Path es v) :
    ((¬ Passes cfg level tag es ∨ BufferRejected buffer bufferLen) ∧ buffersSent es = []) ∨
      (Passes cfg level tag es ∧ ¬ BufferRejected buffer bufferLen ∧
        (∀ pkt ∈ buffersSent es,
          pkt.size ≤ largestBufferPacket cfg (tagSizeIn cfg mem tag) bufferLen) ∧
        ∃ pkt ∈ buffersSent es,
          pkt.size = largestBufferPacket cfg (tagSizeIn cfg mem tag) bufferLen) := by
  rcases path_gated h with ⟨hg, -⟩ | ⟨gate, rest, rfl, hg, h⟩
  · exact .inl ⟨.inl hg.blocks, hg.effects.buffersSent_nil⟩
  · rcases (Prog.path_ite _ _ _ _ _).mp h with ⟨hr, h⟩ | ⟨hr, h⟩
    · rw [path_addDropped.mp h]
      exact .inl ⟨.inr hr, (hg.effects.append effects_addDropped).buffersSent_nil⟩
    · obtain ⟨_, e₁, e₂, rfl, h₁, h₂⟩ := (Prog.path_bind _ _ _ _).mp h
      obtain ⟨raw, hf⟩ := flushed_flushDropped h₁
      obtain ⟨notices, hfe, hnot⟩ := hf.notBuffer
      have hsame : firstLook (gate ++ (e₁ ++ e₂)) = firstLook e₂ := by
        rw [firstLook_append, firstLook_append, hg.firstLook, firstLook_flushDropped h₁]
        rfl
      rw [hsame] at hlook
      obtain ⟨pkts, heff, hbuffers, hall, hlargest⟩ := sizes_writeBufferPackets hstr hlook h₂
      have hlen : (UInt32.ofNat bufferLen).toNat = bufferLen := by
        unfold uint32Max at hr
        rw [UInt32.toNat_ofNat']
        omega
      have hsent : buffersSent (gate ++ (e₁ ++ e₂)) = pkts := by
        unfold buffersSent
        rw [(hg.effects.append (hfe.append heff)).sentPackets, List.nil_append,
          filter_isBuffer hnot hbuffers]
      rw [hlen] at hall hlargest
      rw [hsent]
      exact .inr ⟨hg.passes, hr, hall, hlargest⟩

theorem largestBufferPacket_fits (hchunk : cfg.bufferChunkSize ≤ 3042) (tagSize bufferLen : ℕ) :
    largestBufferPacket cfg tagSize bufferLen ≤ transportMaxPayload ↔
      tagSize ≤ 3041 ∨ (bufferLen = 0 ∧ tagSize ≤ 3042) := by
  have hmax := toNat_chunkMax cfg tagSize
  unfold largestBufferPacket bufferPacketSize packetHeaderLen transportMaxPayload
  split at hmax <;> omega

/-- A dump fits the transports exactly when its tag leaves room for a byte of data
in the largest packet they take, or there is no data and the tag fits alone. -/
theorem buffer_fits_transport {level : ℕ} {tag buffer : Ptr} {bufferLen : ℕ} {v : Unit}
    (hchunk : cfg.bufferChunkSize ≤ 3042) (hstr : cfg.maxDynamicStringLen ≤ 3048)
    (hlook : ∀ m ∈ firstLook es, m = mem)
    (h : (writeBuffer cfg level tag buffer bufferLen).Path es v) :
    (∀ pkt ∈ buffersSent es, pkt.FitsTransport ∧ pkt.KeptByStdio ∧ pkt.KeptByVfs) ↔
      ¬ Passes cfg level tag es ∨ BufferRejected buffer bufferLen ∨
        tagSizeIn cfg mem tag ≤ 3041 ∨ (bufferLen = 0 ∧ tagSizeIn cfg mem tag ≤ 3042) := by
  have hroom := largestBufferPacket_fits hchunk (tagSizeIn cfg mem tag) bufferLen
  rcases sizes_writeBuffer hstr hlook h with ⟨hskip, hnil⟩ | ⟨hpass, hok, hall, pkt, hmem, hsize⟩
  · rw [hnil]
    constructor
    · intro _
      exact hskip.imp_right .inl
    · intro _
      exact nofun
  · rw [← hroom]
    constructor
    · intro hfit
      have hle := (hfit pkt hmem).1
      unfold Packet.FitsTransport at hle
      rw [hsize] at hle
      exact .inr (.inr hle)
    · intro hcond p hp
      have hle : largestBufferPacket cfg (tagSizeIn cfg mem tag) bufferLen ≤ transportMaxPayload := by
        rcases hcond with hblocked | hreject | hle
        · exact absurd hpass hblocked
        · exact absurd hreject hok
        · exact hle
      have hfit : p.FitsTransport := (hall p hp).trans hle
      exact ⟨hfit, Packet.keptByStdio_iff.mpr hfit, Packet.keptByVfs_iff.mpr hfit⟩

/-- What a call in a world that stands still performs. -/
theorem path_writeBuffer (cfg : Config) (w : World) {level : ℕ} {tag : Ptr} (buffer : Ptr)
    (bufferLen : ℕ) (hpass : w.Passes cfg level tag) :
    ∃ es, (writeBuffer cfg level tag buffer bufferLen).Path es () ∧
      Passes cfg level tag es ∧ ∀ m ∈ firstLook es, m = w.mem := by
  obtain ⟨s', es, v, hx⟩ := call_returns cfg w (0 : ℕ) (s := Shared.init) rfl
    (.writeBuffer level tag buffer bufferLen)
  obtain ⟨_, hpath, -⟩ := path_bind_pure (Prog.exec_path hx)
  exact ⟨es, hpath, passes_execCall hx rfl hpass,
    fun m hm => memIs_execCall hx m (mem_of_firstLook hm)⟩

theorem buffer_fits_transport_five : ∃ es, (writeBuffer smallConfig 1 0 1 5).Path es () ∧
    ∀ pkt ∈ buffersSent es, pkt.FitsTransport ∧ pkt.KeptByStdio ∧ pkt.KeptByVfs := by
  have hpass : quietWorld.Passes smallConfig 1 0 :=
    ⟨by unfold levelInRange; decide, by decide, by decide⟩
  obtain ⟨es, hpath, -, hlook⟩ := path_writeBuffer smallConfig quietWorld 1 5 hpass
  refine ⟨es, hpath, (buffer_fits_transport (by decide) (by decide) hlook hpath).mpr ?_⟩
  exact .inr (.inr (.inl (by decide)))

/-- The default chunk size with the longest strings Kconfig allows. -/
def longTagConfig : Config :=
  { smallConfig with
    bufferChunkSize := 3042
    maxDynamicStringLen := 3048
    chunk_pos := by decide
    chunk_le := by decide
    string_le := by decide }

/-- Memory without a NUL. -/
def longTagWorld : World := { quietWorld with mem := fun _ => 1 }

theorem tagSizeIn_longTag : tagSizeIn longTagConfig longTagWorld.mem 5000 = 3052 := by
  have hlen : boundedStrlen longTagWorld.mem 5000 3048 = 3048 := by
    have hle := boundedStrlen_le longTagWorld.mem 5000 3048
    by_contra hne
    exact absurd (boundedStrlen_stop longTagWorld.mem 5000 3048 (by omega)) (by decide)
  have hwire : wireStrIn longTagConfig longTagWorld.mem 5000 longTagConfig.maxDynamicStringLen =
      ⟨idInline, UInt32.ofNat (boundedStrlen longTagWorld.mem 5000 3048)⟩ :=
    if_pos ⟨by decide, by decide⟩
  unfold tagSizeIn
  rw [hwire, hlen]
  decide

/-- A tag of 3048 bytes and a buffer of one. -/
theorem buffer_exceeds_transport : ∃ es,
    (writeBuffer longTagConfig 1 5000 1 1).Path es () ∧
      ∃ pkt ∈ buffersSent es, pkt.size = 3083 ∧ ¬ pkt.FitsTransport ∧
        ¬ pkt.KeptByStdio ∧ ¬ pkt.KeptByVfs := by
  have hpass : longTagWorld.Passes longTagConfig 1 5000 :=
    ⟨by unfold levelInRange; decide, by decide, by decide⟩
  obtain ⟨es, hpath, hpasses, hlook⟩ := path_writeBuffer longTagConfig longTagWorld 1 1 hpass
  rcases sizes_writeBuffer (by decide) hlook hpath with ⟨hskip, -⟩ | ⟨-, -, -, pkt, hmem, hsize⟩
  · rcases hskip with hblocked | hreject
    · exact absurd hpasses hblocked
    · unfold BufferRejected at hreject
      exact absurd hreject (by decide)
  · rw [tagSizeIn_longTag] at hsize
    have h3083 : pkt.size = 3083 := by
      rw [hsize]
      decide
    have hlong : ¬ pkt.FitsTransport := by
      unfold Packet.FitsTransport
      rw [h3083]
      decide
    exact ⟨es, hpath, pkt, hmem, h3083, hlong, fun h => hlong (Packet.keptByStdio_iff.mp h),
      fun h => hlong (Packet.keptByVfs_iff.mp h)⟩

end On9log
