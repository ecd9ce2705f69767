import On9log.FormatScan

/-!
# Packets built in task context (on9log.c:1092-1334, 1435-1449, 1764-1821, 2052-2106, 2464-2516)

The level filter, the DROPPED notice, LOG, BUFFER, BOOT and TIME_SYNC packets
and the dispatch of finished packets, as the source writes them.
-/

namespace On9log
open Lib Lib.LittleEndian

/-! ### Filter and pending drops -/

def levelEnabled (cfg : Config) (level : ℕ) (tag : Ptr) : Core Bool :=
  if level = levelNone ∨ level > levelVerbose ∨ level > cfg.localLevel then pure false
  else do
    let runtimeLevel ← filterLevelForTag tag
    if validLevel runtimeLevel = false ∨ runtimeLevel = levelNone then pure false
    else pure (decide (level ≤ runtimeLevel))

def emitDroppedPacket (cfg : Config) (droppedCount : UInt32) : Core Unit := do
  let stream ← emitHeader cfg .dropped levelNone 0 0 4
  emitU32 stream droppedCount 1 (.arg 0)
  streamEnd stream

/-- The exchange every emitting call starts with, and the notice if it took a count. -/
def flushDropped (cfg : Config) : Core Unit := do
  let raw ← exchangeDropped
  let droppedCount := UInt32.ofNat raw
  if droppedCount ≠ 0 then emitDroppedPacket cfg droppedCount else pure ()

/-! ### LOG -/

def typeTable (argTypes : ArgTypes) (n : ℕ) : List UInt8 := (List.range n).map (argTypeAt argTypes)

def sendLogPacket (cfg : Config) (level : ℕ) (tag format : Ptr) (tagWire formatWire : WireStr)
    (argTypes : ArgTypes) (argCount : UInt8) (args : VaList) (len : ℕ → UInt32)
    (payloadLen : UInt16) : Core Unit := do
  let stream ← emitHeader cfg .log level tagWire.id formatWire.id payloadLen
  emitWireStr stream tag tagWire argCount.toNat
  emitWireStr stream format formatWire argCount.toNat
  emitU8 stream argCount argCount.toNat .metaData
  -- `on9log_stream_payload` skips the empty table of a call without arguments
  streamPayload stream ⟨typeTable argTypes argCount.toNat, argCount.toNat, .metaData⟩
  emitPayloadArgs stream argTypes len args argCount.toNat
  streamEnd stream

/-- `on9log_vwrite` behind the filter and the DROPPED notice. -/
def writeLogPacket (cfg : Config) (level : ℕ) (tag format : Ptr) (mask : UInt32)
    (argTypes : ArgTypes) (argCount : UInt8) (args : VaList) : Core Unit := do
  let tagWire ← wireStr cfg tag cfg.maxDynamicStringLen
  let formatWire ← wireStr cfg format cfg.maxDynamicStringLen
  let fits ← measurePayload cfg argTypes mask args argCount.toNat
    (wireStrSize tagWire + wireStrSize formatWire)
  match fits with
  | none => addDropped
  | some (len, payloadLen) =>
    sendLogPacket cfg level tag format tagWire formatWire argTypes argCount args len payloadLen

def vwrite (cfg : Config) (level : ℕ) (tag format : Ptr) (formatScan : Option (List UInt8))
    (argTypes : ArgTypes) (argCount : UInt8) (hasDynamicString : Bool) (args : VaList) :
    Core Unit := do
  let enabled ← levelEnabled cfg level tag
  if enabled then
    flushDropped cfg
    let mask :=
      if argCount ≠ 0 ∧ formatScan ≠ none ∧ hasDynamicString = true then
        markPrecisionStringArgs formatScan argCount.toNat
      else 0
    writeLogPacket cfg level tag format mask argTypes argCount args

def write (cfg : Config) (level : ℕ) (tag format : Ptr) (argTypes : ArgTypes)
    (args : VaList) : Core Unit :=
  vwrite cfg level tag format none argTypes (argCount argTypes) false args

def writeWithFormatScan (cfg : Config) (level : ℕ) (tag format : Ptr)
    (formatScan : Option (List UInt8)) (argTypes : ArgTypes) (args : VaList) : Core Unit :=
  vwrite cfg level tag format formatScan argTypes (argCount argTypes)
    (argTypesHaveDynamicString argTypes) args

def writeWithFormatScanMetadata (cfg : Config) (level : ℕ) (tag format : Ptr)
    (formatScan : Option (List UInt8)) (argTypes : ArgTypes) (argCount : UInt8)
    (hasDynamicString : Bool) (args : VaList) : Core Unit :=
  vwrite cfg level tag format formatScan argTypes argCount hasDynamicString args

/-! ### BUFFER -/

def emitBufferData (stream : Stream) (bytes : Ptr) (offset chunkLen : UInt32) : Core Unit :=
  if chunkLen ≠ 0 then do
    let mem ← readMemory
    streamPayload stream ⟨readBytes mem (bytes + offset.toNat) chunkLen.toNat, 1, .arg 0⟩
  else pure ()

def emitBufferPacket (cfg : Config) (level : ℕ) (tag : Ptr) (tagWire : WireStr) (bytes : Ptr)
    (totalLen offset chunkLen : UInt32) : Core Unit := do
  let stream ← emitHeader cfg .buffer level tagWire.id 0
    (UInt16.ofNat (wireStrSize tagWire + 3 * 4 + chunkLen.toNat))
  emitWireStr stream tag tagWire 1
  emitU32 stream totalLen 1 .metaData
  emitU32 stream offset 1 .metaData
  emitU32 stream chunkLen 1 .metaData
  emitBufferData stream bytes offset chunkLen
  streamEnd stream

/-- The length of the chunk at `offset`. -/
def nextChunkLen (totalLen offset chunkMax : UInt32) : UInt32 :=
  if totalLen - offset > chunkMax then chunkMax else totalLen - offset

theorem toNat_nextChunkLen {totalLen offset : UInt32} (chunkMax : UInt32) (h : offset < totalLen) :
    (nextChunkLen totalLen offset chunkMax).toNat =
      min (totalLen.toNat - offset.toNat) chunkMax.toNat := by
  have ho := UInt32.lt_iff_toNat_lt.mp h
  have hsub : (totalLen - offset).toNat = totalLen.toNat - offset.toNat :=
    UInt32.toNat_sub_of_le _ _ (UInt32.le_of_lt h)
  unfold nextChunkLen
  split
  · rename_i hgt
    have := UInt32.lt_iff_toNat_lt.mp hgt
    omega
  · rename_i hgt
    have := UInt32.le_iff_toNat_le.mp (UInt32.not_lt.mp hgt)
    omega

theorem toNat_nextOffset {totalLen offset : UInt32} (chunkMax : UInt32) (h : offset < totalLen) :
    (offset + nextChunkLen totalLen offset chunkMax).toNat =
      offset.toNat + min (totalLen.toNat - offset.toNat) chunkMax.toNat := by
  have ho := UInt32.lt_iff_toNat_lt.mp h
  have ht := totalLen.toNat_lt
  rw [UInt32.toNat_add, toNat_nextChunkLen chunkMax h]
  omega

/-- The chunk loop of `on9log_write_buffer`; a positive `chunkMax` makes it progress. -/
def bufferLoop (cfg : Config) (level : ℕ) (tag : Ptr) (tagWire : WireStr) (bytes : Ptr)
    (totalLen chunkMax : UInt32) (hmax : 0 < chunkMax) (offset : UInt32) : Core Unit :=
  if _h : offset < totalLen then do
    let chunkLen := nextChunkLen totalLen offset chunkMax
    emitBufferPacket cfg level tag tagWire bytes totalLen offset chunkLen
    bufferLoop cfg level tag tagWire bytes totalLen chunkMax hmax (offset + chunkLen)
  else pure ()
termination_by totalLen.toNat - offset.toNat
decreasing_by
  have ho := UInt32.lt_iff_toNat_lt.mp _h
  have hm : 0 < chunkMax.toNat := UInt32.lt_iff_toNat_lt.mp hmax
  rw [toNat_nextOffset chunkMax _h]
  omega

/-- The data bytes a packet has room for; an oversized tag leaves one. -/
def chunkMax (cfg : Config) (tagSize : ℕ) : UInt32 :=
  if tagSize < cfg.bufferChunkSize then UInt32.ofNat (cfg.bufferChunkSize - tagSize) else 1

theorem toNat_chunkMax (cfg : Config) (tagSize : ℕ) :
    (chunkMax cfg tagSize).toNat =
      if tagSize < cfg.bufferChunkSize then cfg.bufferChunkSize - tagSize else 1 := by
  have h := cfg.chunk_le
  unfold chunkMax
  split
  · rw [UInt32.toNat_ofNat']
    omega
  · rfl

theorem chunkMax_pos (cfg : Config) (tagSize : ℕ) : 0 < chunkMax cfg tagSize := by
  rw [UInt32.lt_iff_toNat_lt, toNat_chunkMax]
  show 0 < _
  split <;> omega

/-- `on9log_write_buffer` behind its checks and the DROPPED notice. -/
def writeBufferPackets (cfg : Config) (level : ℕ) (tag bytes : Ptr) (totalLen : UInt32) :
    Core Unit := do
  let tagWire ← wireStr cfg tag cfg.maxDynamicStringLen
  let tagSize := wireStrSize tagWire
  if tagSize + 3 * 4 + (chunkMax cfg tagSize).toNat > payloadLenMax then addDropped
  else if totalLen = 0 then emitBufferPacket cfg level tag tagWire bytes totalLen 0 0
  else
    bufferLoop cfg level tag tagWire bytes totalLen (chunkMax cfg tagSize)
      (chunkMax_pos cfg tagSize) 0

def writeBuffer (cfg : Config) (level : ℕ) (tag buffer : Ptr) (bufferLen : ℕ) :
    Core Unit := do
  let enabled ← levelEnabled cfg level tag
  if enabled then
    if (buffer = 0 ∧ bufferLen ≠ 0) ∨ bufferLen > uint32Max then addDropped
    else do
      flushDropped cfg
      writeBufferPackets cfg level tag buffer (UInt32.ofNat bufferLen)

/-! ### BOOT, TIME_SYNC and finished packets -/

/-- `on9log_image_id`: ID bytes and kind, none if the port's answer is unusable. -/
def imageIdOrNone : Core (List UInt8 × UInt8) := do
  let reply ← imageId
  if reply.len = 0 ∨ reply.len > imageIdMaxLen ∨ reply.kind = 0 then pure ([], 0)
  else pure ((List.range reply.len).map reply.id, reply.kind)

def emitBoot (cfg : Config) (bootId : UInt32) (reason : UInt8) : Core Err := do
  let (id, idKind) ← imageIdOrNone
  let stream ← emitHeader cfg .boot levelNone 0 0 (UInt16.ofNat (4 + 4 + id.length))
  emitU32 stream bootId 0 .metaData
  streamPayload stream ⟨[reason, wireFormatVersion, idKind, UInt8.ofNat id.length], 0, .metaData⟩
  streamPayload stream ⟨id, 0, .metaData⟩
  streamEnd stream
  pure .ok

/-- The bytes written to a buffer of `cap` bytes, `[]` where the source returns 0. -/
def encodeTimeSync (hasBuf : Bool) (cap : ℕ) (bootId : UInt32) : Core (List UInt8) :=
  if hasBuf = false then pure []
  else do
    let now ← timestampMs
    let enc := putHeader (Encoder.new cap) .timeSync levelNone 0 (UInt32.ofNat now) 0 0 4
    let enc := putU32 enc bootId
    pure (if enc.overflow then [] else enc.data)

/-- Bytes 2 and 3 of a header, the sequence number, overwritten. -/
def renumber (header : List UInt8) (seq : UInt16) : List UInt8 :=
  (header.set 2 (seq &&& 0xff).toUInt8).set 3 (seq >>> 8).toUInt8

/-- The packet joins the sequence now, unless it is a TIME_SYNC packet. -/
def numberHeader (header : List UInt8) : Core (List UInt8) :=
  if headerType header ≠ PacketType.timeSync.code then do
    let raw ← fetchAddSeq
    pure (renumber header (UInt16.ofNat raw))
  else pure header

def dispatchNumbered (cfg : Config) (packet : List UInt8) : Core Unit := do
  let stream ← streamOpen cfg
  let header ← numberHeader (packet.take packetHeaderLen)
  streamSendHeader stream (.relayed packet) header
  streamPayload stream ⟨packet.drop packetHeaderLen, 0, .metaData⟩
  streamEnd stream

def dispatchPacket (cfg : Config) : Option (List UInt8) → Core Err
  | none => pure .invalidArg
  | some packet =>
    if packet.length < packetHeaderLen then pure .invalidArg
    else if packet.getD 0 0 ≠ packetMagic then pure .invalidArg
    else do
      flushDropped cfg
      dispatchNumbered cfg packet
      pure .ok

end On9log
