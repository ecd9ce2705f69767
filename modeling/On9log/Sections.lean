import On9log.Packets

/-!
# What each emitting function performs

`PacketSection` is everything that happens under the emit lock for one packet,
`Emission` the same with the lock. Every function that emits is described by
one lemma here; the theorems about runs use these and never open a function.
-/

namespace On9log
open Lib Lib.LittleEndian

structure Packet where
  origin : Origin
  header : List UInt8
  chunks : List Chunk
  deriving DecidableEq

def Packet.payload (pkt : Packet) : List UInt8 := payloadOf pkt.chunks

/-- The header's length field is the payload length, and not the reserved value. -/
def Packet.Measured (pkt : Packet) : Prop :=
  headerPayloadLen pkt.header = pkt.payload.length ∧
    headerPayloadLen pkt.header ≠ payloadLenStreaming

/-- The count a DROPPED packet built by the library carries, 0 for other packets. -/
def Packet.dropCount (pkt : Packet) : ℕ :=
  match pkt.origin with
  | .built .dropped _ => valLE pkt.payload
  | _ => 0

/-- What holds of every packet that reaches a stream, whoever made it. -/
structure Packet.Sound (pkt : Packet) : Prop where
  measured : ∀ type now, pkt.origin = .built type now → pkt.Measured
  relayed : ∀ p, pkt.origin = .relayed p → pkt.payload = p.drop packetHeaderLen
  counted : ∀ now, pkt.origin = .built .dropped now → pkt.dropCount ≠ 0

/-- `Numbered origin header es`: between opening the stream and sending the
header, `es` are the steps that number (and time-stamp) it. -/
inductive Numbered : Origin → List UInt8 → List Ev → Prop
  | built (type : PacketType) (level : ℕ) (raw now : ℕ) (tagId fmtId : UInt32)
      (payloadLen : UInt16) : type ≠ .timeSync →
      Numbered (.built type now)
        (headerBytes type level (UInt16.ofNat raw) (UInt32.ofNat now) tagId fmtId payloadLen)
        [⟨.fetchAddSeq, raw⟩, ⟨.timestampMs, now⟩]
  | relayed (packet : List UInt8) (raw : ℕ) :
      headerType (packet.take packetHeaderLen) ≠ PacketType.timeSync.code →
      packetHeaderLen ≤ packet.length →
      Numbered (.relayed packet) (renumber (packet.take packetHeaderLen) (UInt16.ofNat raw))
        [⟨.fetchAddSeq, raw⟩]
  | timeSync (packet : List UInt8) :
      headerType (packet.take packetHeaderLen) = PacketType.timeSync.code →
      packetHeaderLen ≤ packet.length →
      Numbered (.relayed packet) (packet.take packetHeaderLen) []

theorem Numbered.mem {origin : Origin} {header : List UInt8} {num : List Ev} {e : Ev}
    (h : Numbered origin header num) (he : e ∈ num) :
    (∃ raw, e = ⟨.fetchAddSeq, raw⟩) ∨ ∃ now, e = ⟨.timestampMs, now⟩ := by
  cases h with
  | built _ _ raw now _ _ _ _ =>
    rcases List.mem_cons.mp he with he | he
    · exact Or.inl ⟨raw, he⟩
    · exact Or.inr ⟨now, List.mem_singleton.mp he⟩
  | relayed _ raw _ _ => exact Or.inl ⟨raw, List.mem_singleton.mp he⟩
  | timeSync _ _ _ => cases he

def PacketSection (cfg : Config) (slots : ℕ → SinkEntry) (pkt : Packet) (es : List Ev) : Prop :=
  ∃ num body, Numbered pkt.origin pkt.header num ∧
    Emits (live slots (List.range cfg.maxSinks)) body pkt.chunks ∧
    es = slotReads slots (List.range cfg.maxSinks) ++ (num ++
      (broadcast (live slots (List.range cfg.maxSinks)) (.start pkt.origin pkt.header) ++
        (body ++ finishing (live slots (List.range cfg.maxSinks)))))

def Emission (cfg : Config) (pkt : Packet) (es : List Ev) : Prop :=
  ∃ slots b, PacketSection cfg slots pkt b ∧ es = ⟨.emitLock, ()⟩ :: b ++ [⟨.emitUnlock, ()⟩]

/-! ### Opening and numbering -/

theorem path_streamOpen {cfg : Config} {es : List Ev} {stream : Stream}
    (h : (streamOpen cfg).Path es stream) :
    ∃ slots, stream.sinks = live slots (List.range cfg.maxSinks) ∧
      es = ⟨.emitLock, ()⟩ :: slotReads slots (List.range cfg.maxSinks) := by
  obtain ⟨_, es₁, _, rfl, h₁, h⟩ := (Prog.path_bind _ _ _ _).mp h
  obtain ⟨sinks, es₂, _, rfl, h₂, h⟩ := (Prog.path_bind _ _ _ _).mp h
  obtain ⟨rfl, rfl⟩ := (Prog.path_pure _ _ _).mp h
  obtain ⟨slots, rfl, rfl⟩ := path_captureSlots List.nodup_range h₂
  rw [path_emitLock.mp h₁]
  exact ⟨slots, rfl, by simp⟩

def builtPacket (type : PacketType) (level : ℕ) (raw now : ℕ) (tagId fmtId : UInt32)
    (payloadLen : UInt16) (chunks : List Chunk) : Packet :=
  ⟨.built type now,
    headerBytes type level (UInt16.ofNat raw) (UInt32.ofNat now) tagId fmtId payloadLen, chunks⟩

/-- A header sent by `on9log_emit_header`, any payload, and the end of the stream. -/
theorem emission_built {cfg : Config} {type : PacketType} {level : ℕ} {tagId fmtId : UInt32}
    {payloadLen : UInt16} {es₁ es₃ : List Ev} {stream : Stream} {v : Unit} (ht : type ≠ .timeSync)
    (h₁ : (emitHeader cfg type level tagId fmtId payloadLen).Path es₁ stream)
    (h₃ : (streamEnd stream).Path es₃ v) :
    ∃ raw now, ∀ es₂ cs, Emits stream.sinks es₂ cs →
      Emission cfg (builtPacket type level raw now tagId fmtId payloadLen cs)
        (es₁ ++ (es₂ ++ es₃)) := by
  obtain ⟨stream', e₁, _, rfl, ho, h₁⟩ := (Prog.path_bind _ _ _ _).mp h₁
  obtain ⟨raw, e₂, _, rfl, hr, h₁⟩ := (Prog.path_bind _ _ _ _).mp h₁
  obtain ⟨now, e₃, _, rfl, hn, h₁⟩ := (Prog.path_bind _ _ _ _).mp h₁
  obtain ⟨_, e₄, _, rfl, hs, h₁⟩ := (Prog.path_bind _ _ _ _).mp h₁
  obtain ⟨rfl, rfl⟩ := (Prog.path_pure _ _ _).mp h₁
  obtain ⟨slots, hsinks, rfl⟩ := path_streamOpen ho
  rw [path_fetchAddSeq.mp hr, path_timestampMs.mp hn, (path_streamSendHeader _ _ _ _ _).mp hs,
    (path_streamEnd _ _ _).mp h₃, encodeHeader_eq, hsinks]
  refine ⟨raw, now, fun es₂ cs hes => ⟨slots, _, ⟨_, es₂, .built _ _ _ _ _ _ _ ht, ?_, rfl⟩, ?_⟩⟩
  · exact hes
  · simp [builtPacket]

/-! ### DROPPED -/

def droppedPacket (seq now : ℕ) (droppedCount : UInt32) : Packet :=
  builtPacket .dropped levelNone seq now 0 0 4 [⟨bytesLE 4 droppedCount.toNat, 1, .arg 0⟩]

theorem emission_dropped {cfg : Config} {droppedCount : UInt32} {es : List Ev} {v : Unit}
    (h : (emitDroppedPacket cfg droppedCount).Path es v) :
    ∃ seq now, Emission cfg (droppedPacket seq now droppedCount) es := by
  obtain ⟨stream, e₁, _, rfl, h₁, h⟩ := (Prog.path_bind _ _ _ _).mp h
  obtain ⟨_, e₂, e₃, rfl, h₂, h₃⟩ := (Prog.path_bind _ _ _ _).mp h
  obtain ⟨seq, now, hem⟩ := emission_built (by decide) h₁ h₃
  exact ⟨seq, now, hem e₂ _ (emits_emitU32 h₂)⟩

/-- The exchange took `raw`, and a notice follows unless it is 0 in 32 bits. -/
inductive Flushed (cfg : Config) : ℕ → List Ev → Prop
  | none (raw : ℕ) : UInt32.ofNat raw = 0 → Flushed cfg raw [⟨.exchangeDropped, raw⟩]
  | notice (raw seq now : ℕ) (es : List Ev) : UInt32.ofNat raw ≠ 0 →
      Emission cfg (droppedPacket seq now (UInt32.ofNat raw)) es →
      Flushed cfg raw (⟨.exchangeDropped, raw⟩ :: es)

theorem flushed_flushDropped {cfg : Config} {es : List Ev} {v : Unit}
    (h : (flushDropped cfg).Path es v) : ∃ raw, Flushed cfg raw es := by
  obtain ⟨raw, e₁, e₂, rfl, h₁, h₂⟩ := (Prog.path_bind _ _ _ _).mp h
  rw [path_exchangeDropped.mp h₁]
  refine ⟨raw, ?_⟩
  rcases (Prog.path_ite _ _ _ _ _).mp h₂ with ⟨hc, h₂⟩ | ⟨hc, h₂⟩
  · obtain ⟨seq, now, hem⟩ := emission_dropped h₂
    exact .notice raw seq now e₂ hc hem
  · obtain ⟨rfl, -⟩ := (Prog.path_pure _ _ _).mp h₂
    exact .none raw (by simpa using hc)

/-! ### LOG -/

/-- The chunks of a LOG packet: inline tag and format, count and table as meta
data, then `parts i` for argument `i`. -/
def LogChunks (es : List Ev) (tag format : Ptr) (tagWire formatWire : WireStr)
    (argTypes : ArgTypes) (argCount : UInt8) (args : VaList) (len : ℕ → UInt32)
    (cs : List Chunk) : Prop :=
  ∃ (metaCs : List Chunk) (parts : ℕ → List Chunk),
    cs = metaCs ++ (List.range argCount.toNat).flatMap parts ∧
    Tagged argCount.toNat .metaData metaCs ∧
    (∃ t f, InlineOf es tag tagWire t ∧ InlineOf es format formatWire f ∧
      payloadOf metaCs = t ++ (f ++ (argCount :: typeTable argTypes argCount.toNat))) ∧
    ∀ i < argCount.toNat, Tagged argCount.toNat (.arg i) (parts i) ∧
      (payloadOf (parts i)).length = argSize (argTypeAt argTypes i) (len i) ∧
      ∀ mem, MemIs mem es → payloadOf (parts i) =
        argBytes mem (argTypeAt argTypes i) (len i) (vaAfter argTypes args i)

theorem length_payloadOf_parts (n : ℕ) (parts : ℕ → List Chunk) (size : ℕ → ℕ)
    (h : ∀ i < n, (payloadOf (parts i)).length = size i) :
    (payloadOf ((List.range n).flatMap parts)).length = ∑ i ∈ Finset.range n, size i := by
  induction n with
  | zero => rfl
  | succ n ih =>
    have ih' := ih fun i hi => h i (by omega)
    simp [List.range_succ, Finset.sum_range_succ, ih', h n (by omega)]

theorem LogChunks.length {es : List Ev} {tag format : Ptr} {tagWire formatWire : WireStr}
    {argTypes : ArgTypes} {argCount : UInt8} {args : VaList} {len : ℕ → UInt32} {cs : List Chunk}
    (h : LogChunks es tag format tagWire formatWire argTypes argCount args len cs) :
    (payloadOf cs).length = wireStrSize tagWire + wireStrSize formatWire + 1 + argCount.toNat +
      ∑ i ∈ Finset.range argCount.toNat, argSize (argTypeAt argTypes i) (len i) := by
  obtain ⟨metaCs, parts, rfl, -, ⟨t, f, ht, hf, hmeta⟩, hparts⟩ := h
  rw [payloadOf_append, List.length_append, hmeta,
    length_payloadOf_parts _ parts _ fun i hi => (hparts i hi).2.1]
  simp only [List.length_append, List.length_cons, typeTable, List.length_map, List.length_range,
    ht.length, hf.length]
  omega

theorem LogChunks.of_subset {es es' : List Ev} {tag format : Ptr} {tagWire formatWire : WireStr}
    {argTypes : ArgTypes} {argCount : UInt8} {args : VaList} {len : ℕ → UInt32} {cs : List Chunk}
    (h : LogChunks es tag format tagWire formatWire argTypes argCount args len cs)
    (hsub : es ⊆ es') :
    LogChunks es' tag format tagWire formatWire argTypes argCount args len cs := by
  have hm : ∀ mem, MemIs mem es' → MemIs mem es := fun mem hm m hmem => hm m (hsub hmem)
  obtain ⟨metaCs, parts, hcs, htag, ⟨t, f, ht, hf, hmeta⟩, hparts⟩ := h
  refine ⟨metaCs, parts, hcs, htag, ⟨t, f, ht.of_subset hsub, hf.of_subset hsub, hmeta⟩,
    fun i hi => ?_⟩
  obtain ⟨ht, hl, hb⟩ := hparts i hi
  exact ⟨ht, hl, fun mem h => hb mem (hm mem h)⟩

theorem emission_log {cfg : Config} {level : ℕ} {tag format : Ptr}
    {tagWire formatWire : WireStr} {argTypes : ArgTypes} {argCount : UInt8} {args : VaList}
    {len : ℕ → UInt32} {payloadLen : UInt16} {es : List Ev} {v : Unit}
    (h : (sendLogPacket cfg level tag format tagWire formatWire argTypes argCount args len
      payloadLen).Path es v) :
    ∃ seq now cs, LogChunks es tag format tagWire formatWire argTypes argCount args len cs ∧
      Emission cfg (builtPacket .log level seq now tagWire.id formatWire.id payloadLen cs) es := by
  obtain ⟨stream, e₁, _, rfl, h₁, h⟩ := (Prog.path_bind _ _ _ _).mp h
  obtain ⟨_, e₂, _, rfl, h₂, h⟩ := (Prog.path_bind _ _ _ _).mp h
  obtain ⟨_, e₃, _, rfl, h₃, h⟩ := (Prog.path_bind _ _ _ _).mp h
  obtain ⟨_, e₄, _, rfl, h₄, h⟩ := (Prog.path_bind _ _ _ _).mp h
  obtain ⟨_, e₅, _, rfl, h₅, h⟩ := (Prog.path_bind _ _ _ _).mp h
  obtain ⟨_, e₆, e₇, rfl, h₆, h₇⟩ := (Prog.path_bind _ _ _ _).mp h
  obtain ⟨seq, now, hem⟩ := emission_built (by decide) h₁ h₇
  obtain ⟨cs₂, hem₂, htag₂, ht⟩ := sends_emitWireStr h₂
  obtain ⟨cs₃, hem₃, htag₃, hf⟩ := sends_emitWireStr h₃
  have hcount := sends_emitU8 h₄
  have htable := sends_streamPayload h₅
  have hmeta := hem₂.append (hem₃.append (hcount.emits.append htable.emits))
  obtain ⟨parts, hparts, hp⟩ := emitPayloadArgs_spec h₆
  have hemit := hem _ _ (hmeta.append hparts)
  have htagged : Tagged argCount.toNat .metaData (cs₂ ++ (cs₃ ++ ([⟨[argCount], argCount.toNat,
      .metaData⟩] ++ chunksOf ⟨typeTable argTypes argCount.toNat, argCount.toNat, .metaData⟩))) := by
    intro c hc
    simp only [List.mem_append] at hc
    rcases hc with hc | hc | hc | hc
    · exact htag₂ c hc
    · exact htag₃ c hc
    · exact hcount.tagged c hc
    · exact htable.tagged c hc
  refine ⟨seq, now, _, ⟨_, parts, rfl, htagged, ⟨_, _, ht.of_subset ?_, hf.of_subset ?_, ?_⟩, ?_⟩, ?_⟩
  · intro e he
    simp only [List.mem_append]
    tauto
  · intro e he
    simp only [List.mem_append]
    tauto
  · rw [payloadOf_append, payloadOf_append, payloadOf_append, payloadOf_chunksOf, payloadOf_cons]
    rfl
  · intro i hi
    obtain ⟨ht, hl, hb⟩ := hp i hi
    refine ⟨ht, hl, fun mem hm => hb mem fun m hmem => hm m ?_⟩
    simp only [List.mem_append]
    tauto
  · simpa only [List.append_assoc] using hemit

/-- `on9log_vwrite` behind the notice: looks at memory, then either one drop or
one LOG packet whose length field is right whatever the looks saw. -/
inductive LogWritten (cfg : Config) (level : ℕ) (tag format : Ptr) (mask : UInt32)
    (argTypes : ArgTypes) (argCount : UInt8) (args : VaList) : List Ev → Prop
  | dropped (looks : List Ev) : (∀ e ∈ looks, e.op = .memory) →
      (∀ mem, MemIs mem looks → measurePayloadIn cfg mem argTypes mask args argCount.toNat
        (wireStrSize (wireStrIn cfg mem tag cfg.maxDynamicStringLen) +
          wireStrSize (wireStrIn cfg mem format cfg.maxDynamicStringLen)) = none) →
      LogWritten cfg level tag format mask argTypes argCount args (looks ++ [⟨.addDropped, ()⟩])
  | sent (looks es : List Ev) (tagWire formatWire : WireStr) (len : ℕ → UInt32)
      (payloadLen : UInt16) (seq now : ℕ) (cs : List Chunk) : (∀ e ∈ looks, e.op = .memory) →
      (∀ mem, MemIs mem looks → tagWire = wireStrIn cfg mem tag cfg.maxDynamicStringLen ∧
        formatWire = wireStrIn cfg mem format cfg.maxDynamicStringLen ∧
        measurePayloadIn cfg mem argTypes mask args argCount.toNat
          (wireStrSize tagWire + wireStrSize formatWire) = some (len, payloadLen)) →
      argCount.toNat ≤ maxArgs → payloadLen.toNat < payloadLenStreaming →
      payloadLen.toNat = (payloadOf cs).length →
      LogChunks es tag format tagWire formatWire argTypes argCount args len cs →
      Emission cfg (builtPacket .log level seq now tagWire.id formatWire.id payloadLen cs) es →
      LogWritten cfg level tag format mask argTypes argCount args (looks ++ es)

theorem logWritten_writeLogPacket {cfg : Config} {level : ℕ} {tag format : Ptr}
    {mask : UInt32} {argTypes : ArgTypes} {argCount : UInt8} {args : VaList} {es : List Ev}
    {v : Unit} (h : (writeLogPacket cfg level tag format mask argTypes argCount args).Path es v) :
    LogWritten cfg level tag format mask argTypes argCount args es := by
  obtain ⟨tagWire, e₁, _, rfl, h₁, h⟩ := (Prog.path_bind _ _ _ _).mp h
  obtain ⟨formatWire, e₂, _, rfl, h₂, h⟩ := (Prog.path_bind _ _ _ _).mp h
  obtain ⟨fits, e₃, e₄, rfl, h₃, h⟩ := (Prog.path_bind _ _ _ _).mp h
  have r₁ := reads_wireStr h₁
  have r₂ := reads_wireStr h₂
  have r₃ := reads_measurePayload h₃
  have honly : ∀ e ∈ e₁ ++ (e₂ ++ e₃), e.op = .memory := by
    intro e he
    rcases List.mem_append.mp he with he | he
    · exact r₁.only e he
    · exact (List.mem_append.mp he).elim (r₂.only e) (r₃.only e)
  have hval : ∀ mem, MemIs mem (e₁ ++ (e₂ ++ e₃)) →
      tagWire = wireStrIn cfg mem tag cfg.maxDynamicStringLen ∧
      formatWire = wireStrIn cfg mem format cfg.maxDynamicStringLen ∧
      fits = measurePayloadIn cfg mem argTypes mask args argCount.toNat
        (wireStrSize tagWire + wireStrSize formatWire) := by
    intro mem hm
    obtain ⟨hm₁, hm₂⟩ := memIs_append.mp hm
    obtain ⟨hm₂, hm₃⟩ := memIs_append.mp hm₂
    exact ⟨r₁.value mem hm₁, r₂.value mem hm₂, r₃.value mem hm₃⟩
  have hassoc : e₁ ++ (e₂ ++ (e₃ ++ e₄)) = (e₁ ++ (e₂ ++ e₃)) ++ e₄ := by
    simp only [List.append_assoc]
  rw [hassoc]
  cases fits with
  | none =>
    rw [path_addDropped.mp h]
    refine .dropped _ honly fun mem hm => ?_
    obtain ⟨ht, hf, hn⟩ := hval mem hm
    rw [← ht, ← hf, ← hn]
  | some p =>
    obtain ⟨len, payloadLen⟩ := p
    obtain ⟨seq, now, cs, hcs, hem⟩ := emission_log h
    obtain ⟨hn, hlt, hlen⟩ := measurePayload_spec h₃
    refine .sent _ _ tagWire formatWire len payloadLen seq now cs honly (fun mem hm => ?_) hn hlt
      ?_ hcs hem
    · obtain ⟨ht, hf, hs⟩ := hval mem hm
      exact ⟨ht, hf, hs.symm⟩
    · rw [hcs.length, hlen]

/-! ### The level filter -/

/-- Levels the compile-time part of the filter lets through. -/
def levelInRange (cfg : Config) (level : ℕ) : Prop :=
  levelNone < level ∧ level ≤ levelVerbose ∧ level ≤ cfg.localLevel

/-- The filter's answer and the lookup it made. -/
inductive Gate (cfg : Config) (level : ℕ) (tag : Ptr) : Bool → List Ev → Prop
  | compileTime : ¬ levelInRange cfg level → Gate cfg level tag false []
  | runtime (runtimeLevel : ℕ) : levelInRange cfg level →
      Gate cfg level tag
        (decide (levelNone < runtimeLevel ∧ runtimeLevel ≤ levelVerbose ∧ level ≤ runtimeLevel))
        [⟨.filterLevelForTag tag, runtimeLevel⟩]

theorem gate_levelEnabled {cfg : Config} {level : ℕ} {tag : Ptr} {es : List Ev} {v : Bool}
    (h : (levelEnabled cfg level tag).Path es v) : Gate cfg level tag v es := by
  unfold levelEnabled at h
  rcases (Prog.path_ite _ _ _ _ _).mp h with ⟨hc, h⟩ | ⟨hc, h⟩
  · obtain ⟨rfl, rfl⟩ := (Prog.path_pure _ _ _).mp h
    refine .compileTime fun hr => ?_
    unfold levelInRange levelNone levelVerbose at hr
    unfold levelNone levelVerbose at hc
    omega
  · obtain ⟨rl, e₁, e₂, rfl, h₁, h⟩ := (Prog.path_bind _ _ _ _).mp h
    have hr : levelInRange cfg level := by
      unfold levelInRange
      unfold levelNone levelVerbose at hc ⊢
      omega
    have hv : e₂ = [] ∧ v = decide (levelNone < rl ∧ rl ≤ levelVerbose ∧ level ≤ rl) := by
      rcases (Prog.path_ite _ _ _ _ _).mp h with ⟨hc, h⟩ | ⟨hc, h⟩
      all_goals
        rw [validLevel_eq_false] at hc
        obtain ⟨rfl, rfl⟩ := (Prog.path_pure _ _ _).mp h
        unfold levelNone levelVerbose at *
      · exact ⟨rfl, (decide_eq_false (by omega)).symm⟩
      · exact ⟨rfl, decide_eq_decide.mpr (by omega)⟩
    obtain ⟨rfl, rfl⟩ := hv
    rw [path_filterLevelForTag.mp h₁]
    exact .runtime rl hr

/-- A call behind the filter stops there or goes on behind it. -/
theorem path_gated {cfg : Config} {level : ℕ} {tag : Ptr} {α : Type} {p : Core α} {a v : α}
    {es : List Ev}
    (h : (do let enabled ← levelEnabled cfg level tag
             if enabled then p else pure a : Core α).Path es v) :
    (Gate cfg level tag false es ∧ v = a) ∨
      ∃ gate rest, es = gate ++ rest ∧ Gate cfg level tag true gate ∧ p.Path rest v := by
  obtain ⟨enabled, gate, rest, rfl, hgate, h⟩ := (Prog.path_bind _ _ _ _).mp h
  have hg := gate_levelEnabled hgate
  rcases (Prog.path_ite _ _ _ _ _).mp h with ⟨hc, h⟩ | ⟨hc, h⟩
  · rw [hc] at hg
    exact Or.inr ⟨gate, rest, rfl, hg, h⟩
  · obtain ⟨rfl, rfl⟩ := (Prog.path_pure _ _ _).mp h
    rw [Bool.not_eq_true] at hc
    rw [hc] at hg
    rw [List.append_nil]
    exact Or.inl ⟨hg, rfl⟩

/-- What one `on9log_write*` call performs. -/
inductive Written (cfg : Config) (level : ℕ) (tag format : Ptr) (mask : UInt32)
    (argTypes : ArgTypes) (argCount : UInt8) (args : VaList) : List Ev → Prop
  | blocked (gate : List Ev) : Gate cfg level tag false gate →
      Written cfg level tag format mask argTypes argCount args gate
  | passed (gate flush es : List Ev) (raw : ℕ) : Gate cfg level tag true gate →
      Flushed cfg raw flush → LogWritten cfg level tag format mask argTypes argCount args es →
      Written cfg level tag format mask argTypes argCount args (gate ++ (flush ++ es))

/-- The precision mask `on9log_vwrite` measures with. -/
def precisionMask (formatScan : Option (List UInt8)) (argCount : UInt8)
    (hasDynamicString : Bool) : UInt32 :=
  if argCount ≠ 0 ∧ formatScan ≠ none ∧ hasDynamicString = true then
    markPrecisionStringArgs formatScan argCount.toNat
  else 0

theorem written_vwrite {cfg : Config} {level : ℕ} {tag format : Ptr}
    {formatScan : Option (List UInt8)} {argTypes : ArgTypes} {argCount : UInt8}
    {hasDynamicString : Bool} {args : VaList} {es : List Ev} {v : Unit}
    (h : (vwrite cfg level tag format formatScan argTypes argCount hasDynamicString args).Path
      es v) :
    Written cfg level tag format (precisionMask formatScan argCount hasDynamicString) argTypes
      argCount args es := by
  rcases path_gated h with ⟨hg, -⟩ | ⟨gate, rest, rfl, hg, h⟩
  · exact .blocked es hg
  · obtain ⟨_, e₁, e₂, rfl, h₁, h₂⟩ := (Prog.path_bind _ _ _ _).mp h
    obtain ⟨raw, hf⟩ := flushed_flushDropped h₁
    exact .passed gate e₁ e₂ raw hg hf (logWritten_writeLogPacket h₂)

/-! ### BUFFER -/

def bufferPayload (inlineTag : List UInt8) (totalLen offset chunkLen : UInt32)
    (data : List UInt8) : List UInt8 :=
  inlineTag ++ (bytesLE 4 totalLen.toNat ++ (bytesLE 4 offset.toNat ++
    (bytesLE 4 chunkLen.toNat ++ data)))

/-- `pkt` is the BUFFER packet for the chunk at `offset`, emitted by `es`; its
data is what one look at memory saw. -/
def BufferPacket (cfg : Config) (level : ℕ) (tag : Ptr) (tagWire : WireStr) (bytes : Ptr)
    (totalLen offset chunkLen : UInt32) (pkt : Packet) (es : List Ev) : Prop :=
  ∃ seq now cs t mem,
    pkt = builtPacket .buffer level seq now tagWire.id 0
      (UInt16.ofNat (wireStrSize tagWire + 3 * 4 + chunkLen.toNat)) cs ∧
    InlineOf es tag tagWire t ∧
    (chunkLen ≠ 0 → (⟨.memory, mem⟩ : Ev) ∈ es) ∧
    payloadOf cs = bufferPayload t totalLen offset chunkLen
      (readBytes mem (bytes + offset.toNat) chunkLen.toNat) ∧
    Emission cfg pkt es

theorem BufferPacket.emission {cfg : Config} {level : ℕ} {tag : Ptr} {tagWire : WireStr}
    {bytes : Ptr} {totalLen offset chunkLen : UInt32} {pkt : Packet} {es : List Ev}
    (h : BufferPacket cfg level tag tagWire bytes totalLen offset chunkLen pkt es) :
    ∃ seq now cs, pkt = builtPacket .buffer level seq now tagWire.id 0
        (UInt16.ofNat (wireStrSize tagWire + 3 * 4 + chunkLen.toNat)) cs ∧
      (payloadOf cs).length = wireStrSize tagWire + 3 * 4 + chunkLen.toNat ∧
      Emission cfg pkt es := by
  obtain ⟨seq, now, cs, t, mem, hpkt, ht, -, hpay, hem⟩ := h
  refine ⟨seq, now, cs, hpkt, ?_, hem⟩
  simp only [hpay, bufferPayload, List.length_append, ht.length, length_bytesLE, length_readBytes]
  omega

theorem emits_emitBufferData {stream : Stream} {bytes : Ptr} {offset chunkLen : UInt32}
    {es : List Ev} {v : Unit} (h : (emitBufferData stream bytes offset chunkLen).Path es v) :
    ∃ cs mem, Emits stream.sinks es cs ∧ (chunkLen ≠ 0 → (⟨.memory, mem⟩ : Ev) ∈ es) ∧
      payloadOf cs = readBytes mem (bytes + offset.toNat) chunkLen.toNat := by
  rcases (Prog.path_ite _ _ _ _ _).mp h with ⟨hz, h⟩ | ⟨hz, h⟩
  · obtain ⟨mem, e₁, e₂, rfl, h₁, h₂⟩ := (Prog.path_bind _ _ _ _).mp h
    rw [path_readMemory.mp h₁]
    refine ⟨_, mem, .memory mem (emits_streamPayload h₂), fun _ => by simp, ?_⟩
    rw [payloadOf_chunksOf]
  · obtain ⟨rfl, -⟩ := (Prog.path_pure _ _ _).mp h
    have hz' : chunkLen = 0 := by simpa using hz
    subst hz'
    exact ⟨[], fun _ => 0, .nil, fun h0 => absurd rfl h0, rfl⟩

theorem bufferPacket_emitBufferPacket {cfg : Config} {level : ℕ} {tag : Ptr}
    {tagWire : WireStr} {bytes : Ptr} {totalLen offset chunkLen : UInt32} {es : List Ev} {v : Unit}
    (h : (emitBufferPacket cfg level tag tagWire bytes totalLen offset chunkLen).Path es v) :
    ∃ pkt, BufferPacket cfg level tag tagWire bytes totalLen offset chunkLen pkt es := by
  obtain ⟨stream, e₁, _, rfl, h₁, h⟩ := (Prog.path_bind _ _ _ _).mp h
  obtain ⟨_, e₂, _, rfl, h₂, h⟩ := (Prog.path_bind _ _ _ _).mp h
  obtain ⟨_, e₃, _, rfl, h₃, h⟩ := (Prog.path_bind _ _ _ _).mp h
  obtain ⟨_, e₄, _, rfl, h₄, h⟩ := (Prog.path_bind _ _ _ _).mp h
  obtain ⟨_, e₅, _, rfl, h₅, h⟩ := (Prog.path_bind _ _ _ _).mp h
  obtain ⟨_, e₆, e₇, rfl, h₆, h₇⟩ := (Prog.path_bind _ _ _ _).mp h
  obtain ⟨seq, now, hem⟩ := emission_built (by decide) h₁ h₇
  obtain ⟨cs₂, hem₂, -, ht⟩ := sends_emitWireStr h₂
  obtain ⟨cs₆, mem, hem₆, hmem, hdata⟩ := emits_emitBufferData h₆
  have hall := hem₂.append ((emits_emitU32 h₃).append ((emits_emitU32 h₄).append
    ((emits_emitU32 h₅).append hem₆)))
  have hemit := hem _ _ hall
  simp only [List.append_assoc] at hemit
  refine ⟨_, seq, now, _, _, mem, rfl, ht.of_subset ?_, fun hne => ?_, ?_, hemit⟩
  · intro e he
    simp only [List.mem_append]
    tauto
  · have hin := hmem hne
    simp only [List.mem_append]
    tauto
  · simp only [bufferPayload, payloadOf_append, payloadOf_cons, payloadOf_nil, List.append_nil,
      hdata]

/-- The chunk loop from `offset` on: a packet for each round. -/
inductive BufferPackets (cfg : Config) (level : ℕ) (tag : Ptr) (tagWire : WireStr)
    (bytes : Ptr) (totalLen max : UInt32) : UInt32 → List Packet → List Ev → Prop
  | done (offset : UInt32) : ¬ offset < totalLen →
      BufferPackets cfg level tag tagWire bytes totalLen max offset [] []
  | chunk (offset : UInt32) (pkt : Packet) (pkts : List Packet) (es es' : List Ev) :
      offset < totalLen →
      BufferPacket cfg level tag tagWire bytes totalLen offset
        (nextChunkLen totalLen offset max) pkt es →
      BufferPackets cfg level tag tagWire bytes totalLen max
        (offset + nextChunkLen totalLen offset max) pkts es' →
      BufferPackets cfg level tag tagWire bytes totalLen max offset (pkt :: pkts) (es ++ es')

theorem bufferPackets_bufferLoop {cfg : Config} {level : ℕ} {tag : Ptr} {tagWire : WireStr}
    {bytes : Ptr} {totalLen max : UInt32} (hmax : 0 < max) (offset : UInt32) {es : List Ev}
    {v : Unit}
    (h : (bufferLoop cfg level tag tagWire bytes totalLen max hmax offset).Path es v) :
    ∃ pkts, BufferPackets cfg level tag tagWire bytes totalLen max offset pkts es := by
  revert es
  refine bufferLoop.induct totalLen max hmax (fun offset => ∀ {es : List Ev},
    (bufferLoop cfg level tag tagWire bytes totalLen max hmax offset).Path es v →
    ∃ pkts, BufferPackets cfg level tag tagWire bytes totalLen max offset pkts es) ?_ ?_ offset
  · intro offset hlt chunkLen ih es h
    rw [bufferLoop, dif_pos hlt] at h
    obtain ⟨_, e₁, e₂, rfl, h₁, h₂⟩ := (Prog.path_bind _ _ _ _).mp h
    obtain ⟨pkt, hpkt⟩ := bufferPacket_emitBufferPacket h₁
    obtain ⟨pkts, hpkts⟩ := ih h₂
    exact ⟨pkt :: pkts, .chunk offset pkt pkts e₁ e₂ hlt hpkt hpkts⟩
  · intro offset hlt es h
    rw [bufferLoop, dif_neg hlt] at h
    obtain ⟨rfl, -⟩ := (Prog.path_pure _ _ _).mp h
    exact ⟨[], .done offset hlt⟩

/-- What `on9log_write_buffer` performs behind its checks and the notice. -/
inductive BufferWritten (cfg : Config) (level : ℕ) (tag bytes : Ptr) (totalLen : UInt32) :
    List Ev → Prop
  | dropped (looks : List Ev) (tagWire : WireStr) : (∀ e ∈ looks, e.op = .memory) →
      tagWire.len.toNat ≤ cfg.maxDynamicStringLen →
      wireStrSize tagWire + 3 * 4 + (chunkMax cfg (wireStrSize tagWire)).toNat > payloadLenMax →
      BufferWritten cfg level tag bytes totalLen (looks ++ [⟨.addDropped, ()⟩])
  | sent (looks es : List Ev) (tagWire : WireStr) (pkts : List Packet) :
      (∀ e ∈ looks, e.op = .memory) →
      (∀ mem, MemIs mem looks → tagWire = wireStrIn cfg mem tag cfg.maxDynamicStringLen) →
      wireStrSize tagWire + 3 * 4 + (chunkMax cfg (wireStrSize tagWire)).toNat ≤ payloadLenMax →
      ((totalLen = 0 ∧ ∃ pkt, pkts = [pkt] ∧
          BufferPacket cfg level tag tagWire bytes 0 0 0 pkt es) ∨
        (totalLen ≠ 0 ∧ BufferPackets cfg level tag tagWire bytes totalLen
          (chunkMax cfg (wireStrSize tagWire)) 0 pkts es)) →
      BufferWritten cfg level tag bytes totalLen (looks ++ es)

theorem bufferWritten_writeBufferPackets {cfg : Config} {level : ℕ} {tag bytes : Ptr}
    {totalLen : UInt32} {es : List Ev} {v : Unit}
    (h : (writeBufferPackets cfg level tag bytes totalLen).Path es v) :
    BufferWritten cfg level tag bytes totalLen es := by
  obtain ⟨tagWire, e₁, e₂, rfl, h₁, h⟩ := (Prog.path_bind _ _ _ _).mp h
  have r₁ := reads_wireStr h₁
  rcases (Prog.path_ite _ _ _ _ _).mp h with ⟨hc, h⟩ | ⟨hc, h⟩
  · rw [path_addDropped.mp h]
    have hle := wireStr_len_le (by have := cfg.string_le; unfold uint32Max at *; omega) h₁
    exact .dropped e₁ tagWire r₁.only hle hc
  · rcases (Prog.path_ite _ _ _ _ _).mp h with ⟨hz, h⟩ | ⟨hz, h⟩
    · subst hz
      obtain ⟨pkt, hpkt⟩ := bufferPacket_emitBufferPacket h
      exact .sent e₁ e₂ tagWire [pkt] r₁.only r₁.value (by omega) (Or.inl ⟨rfl, pkt, rfl, hpkt⟩)
    · obtain ⟨pkts, hpkts⟩ := bufferPackets_bufferLoop _ _ h
      exact .sent e₁ e₂ tagWire pkts r₁.only r₁.value (by omega) (Or.inr ⟨hz, hpkts⟩)

theorem toNat_bufferPayloadLen {cfg : Config} {tagWire : WireStr} {chunkLen : UInt32}
    (hfit : wireStrSize tagWire + 3 * 4 + (chunkMax cfg (wireStrSize tagWire)).toNat ≤
      payloadLenMax)
    (hle : chunkLen.toNat ≤ (chunkMax cfg (wireStrSize tagWire)).toNat) :
    (UInt16.ofNat (wireStrSize tagWire + 3 * 4 + chunkLen.toNat)).toNat =
        wireStrSize tagWire + 3 * 4 + chunkLen.toNat ∧
      wireStrSize tagWire + 3 * 4 + chunkLen.toNat < payloadLenStreaming := by
  unfold payloadLenMax payloadLenStreaming at *
  rw [UInt16.toNat_ofNat']
  omega

/-- What one `on9log_write_buffer` call performs. -/
inductive BufferCall (cfg : Config) (level : ℕ) (tag buffer : Ptr) (bufferLen : ℕ) :
    List Ev → Prop
  | blocked (gate : List Ev) : Gate cfg level tag false gate →
      BufferCall cfg level tag buffer bufferLen gate
  | rejected (gate : List Ev) : Gate cfg level tag true gate →
      ((buffer = 0 ∧ bufferLen ≠ 0) ∨ bufferLen > uint32Max) →
      BufferCall cfg level tag buffer bufferLen (gate ++ [⟨.addDropped, ()⟩])
  | passed (gate flush es : List Ev) (raw : ℕ) : Gate cfg level tag true gate →
      ¬ ((buffer = 0 ∧ bufferLen ≠ 0) ∨ bufferLen > uint32Max) → Flushed cfg raw flush →
      BufferWritten cfg level tag buffer (UInt32.ofNat bufferLen) es →
      BufferCall cfg level tag buffer bufferLen (gate ++ (flush ++ es))

theorem bufferCall_writeBuffer {cfg : Config} {level : ℕ} {tag buffer : Ptr} {bufferLen : ℕ}
    {es : List Ev} {v : Unit} (h : (writeBuffer cfg level tag buffer bufferLen).Path es v) :
    BufferCall cfg level tag buffer bufferLen es := by
  rcases path_gated h with ⟨hg, -⟩ | ⟨gate, rest, rfl, hg, h⟩
  · exact .blocked es hg
  · rcases (Prog.path_ite _ _ _ _ _).mp h with ⟨hr, h⟩ | ⟨hr, h⟩
    · rw [path_addDropped.mp h]
      exact .rejected gate hg hr
    · obtain ⟨_, e₁, e₂, rfl, h₁, h₂⟩ := (Prog.path_bind _ _ _ _).mp h
      obtain ⟨raw, hf⟩ := flushed_flushDropped h₁
      exact .passed gate e₁ e₂ raw hg hr hf (bufferWritten_writeBufferPackets h₂)

/-! ### BOOT and finished packets -/

def bootPayload (bootId : UInt32) (reason : UInt8) (id : List UInt8) (idKind : UInt8) :
    List UInt8 :=
  bytesLE 4 bootId.toNat ++
    ([reason, wireFormatVersion, idKind, UInt8.ofNat id.length] ++ id)

/-- What one `on9log_emit_boot` call performs, the port's answer cut to an ID. -/
def BootCall (cfg : Config) (bootId : UInt32) (reason : UInt8) (es : List Ev) : Prop :=
  ∃ reply id idKind seq now cs es', es = ⟨.imageId, reply⟩ :: es' ∧ id.length ≤ imageIdMaxLen ∧
    payloadOf cs = bootPayload bootId reason id idKind ∧
    Emission cfg (builtPacket .boot levelNone seq now 0 0 (UInt16.ofNat (4 + 4 + id.length)) cs) es'

theorem bootCall_emitBoot {cfg : Config} {bootId : UInt32} {reason : UInt8} {es : List Ev}
    {v : Err} (h : (emitBoot cfg bootId reason).Path es v) :
    BootCall cfg bootId reason es ∧ v = .ok := by
  obtain ⟨⟨id, idKind⟩, e₁, _, rfl, h₁, h'⟩ := (Prog.path_bind _ _ _ _).mp h
  obtain ⟨reply, rfl, hid⟩ : ∃ reply, e₁ = [⟨.imageId, reply⟩] ∧ id.length ≤ imageIdMaxLen := by
    obtain ⟨reply, e, e', rfl, hi, h₁⟩ := (Prog.path_bind _ _ _ _).mp h₁
    rw [path_imageId.mp hi]
    rcases (Prog.path_ite _ _ _ _ _).mp h₁ with ⟨hc, h₁⟩ | ⟨hc, h₁⟩
    · obtain ⟨rfl, he⟩ := (Prog.path_pure _ _ _).mp h₁
      rw [(Prod.mk.inj he).1]
      exact ⟨reply, rfl, Nat.zero_le _⟩
    · obtain ⟨rfl, he⟩ := (Prog.path_pure _ _ _).mp h₁
      rw [(Prod.mk.inj he).1]
      refine ⟨reply, rfl, ?_⟩
      simp only [List.length_map, List.length_range]
      omega
  obtain ⟨stream, e₂, _, rfl, h₂, h'⟩ := (Prog.path_bind _ _ _ _).mp h'
  obtain ⟨_, e₃, _, rfl, h₃, h'⟩ := (Prog.path_bind _ _ _ _).mp h'
  obtain ⟨_, e₄, _, rfl, h₄, h'⟩ := (Prog.path_bind _ _ _ _).mp h'
  obtain ⟨_, e₅, _, rfl, h₅, h'⟩ := (Prog.path_bind _ _ _ _).mp h'
  obtain ⟨h₆, rfl⟩ := Prog.path_then_pure h'
  obtain ⟨seq, now, hem⟩ := emission_built (by decide) h₂ h₆
  have hemit := hem _ _ ((emits_emitU32 h₃).append
    ((emits_streamPayload h₄).append (emits_streamPayload h₅)))
  simp only [List.append_assoc] at hemit
  refine ⟨⟨reply, id, idKind, seq, now, _, _, rfl, hid, ?_, hemit⟩, rfl⟩
  simp [bootPayload]

/-- What one `on9log_dispatch_packet` call performs. -/
inductive DispatchCall (cfg : Config) (packet : Option (List UInt8)) : Err → List Ev → Prop
  | rejected : DispatchCall cfg packet .invalidArg []
  | relayed (p header : List UInt8) (raw : ℕ) (flush es : List Ev) : packet = some p →
      Flushed cfg raw flush →
      Emission cfg ⟨.relayed p, header, chunksOf ⟨p.drop packetHeaderLen, 0, .metaData⟩⟩ es →
      DispatchCall cfg packet .ok (flush ++ es)

theorem emission_dispatch {cfg : Config} {p : List UInt8} (hlen : packetHeaderLen ≤ p.length)
    {es : List Ev} {v : Unit} (h : (dispatchNumbered cfg p).Path es v) :
    ∃ header, Emission cfg
      ⟨.relayed p, header, chunksOf ⟨p.drop packetHeaderLen, 0, .metaData⟩⟩ es := by
  obtain ⟨stream, e₁, _, rfl, h₁, h⟩ := (Prog.path_bind _ _ _ _).mp h
  obtain ⟨header, e₂, _, rfl, h₂, h⟩ := (Prog.path_bind _ _ _ _).mp h
  obtain ⟨_, e₃, _, rfl, h₃, h⟩ := (Prog.path_bind _ _ _ _).mp h
  obtain ⟨_, e₄, e₅, rfl, h₄, h₅⟩ := (Prog.path_bind _ _ _ _).mp h
  have hnum : Numbered (.relayed p) header e₂ := by
    rcases (Prog.path_ite _ _ _ _ _).mp h₂ with ⟨hc, h₂⟩ | ⟨hc, h₂⟩
    · obtain ⟨raw, e, e', rfl, hr, h₂⟩ := (Prog.path_bind _ _ _ _).mp h₂
      obtain ⟨rfl, rfl⟩ := (Prog.path_pure _ _ _).mp h₂
      rw [path_fetchAddSeq.mp hr]
      exact .relayed p raw hc hlen
    · obtain ⟨rfl, rfl⟩ := (Prog.path_pure _ _ _).mp h₂
      exact .timeSync p (by simpa using hc) hlen
  obtain ⟨slots, hsinks, rfl⟩ := path_streamOpen h₁
  rw [(path_streamSendHeader _ _ _ _ _).mp h₃, (path_streamEnd _ _ _).mp h₅, hsinks]
  have hem := emits_streamPayload h₄
  rw [hsinks] at hem
  exact ⟨header, slots, _, ⟨e₂, e₄, hnum, hem, rfl⟩, by simp⟩

theorem dispatchCall_dispatchPacket {cfg : Config} {packet : Option (List UInt8)} {es : List Ev}
    {v : Err} (h : (dispatchPacket cfg packet).Path es v) : DispatchCall cfg packet v es := by
  cases packet with
  | none =>
    obtain ⟨rfl, rfl⟩ := (Prog.path_pure _ _ _).mp h
    exact .rejected
  | some p =>
    rcases (Prog.path_ite _ _ _ _ _).mp h with ⟨hc, h⟩ | ⟨hc, h⟩
    · obtain ⟨rfl, rfl⟩ := (Prog.path_pure _ _ _).mp h
      exact .rejected
    rcases (Prog.path_ite _ _ _ _ _).mp h with ⟨hm, h⟩ | ⟨hm, h⟩
    · obtain ⟨rfl, rfl⟩ := (Prog.path_pure _ _ _).mp h
      exact .rejected
    obtain ⟨_, e₁, _, rfl, h₁, h⟩ := (Prog.path_bind _ _ _ _).mp h
    obtain ⟨h₂, rfl⟩ := Prog.path_then_pure h
    obtain ⟨raw, hf⟩ := flushed_flushDropped h₁
    obtain ⟨header, hem⟩ := emission_dispatch (by omega) h₂
    exact .relayed p header raw e₁ _ rfl hf hem

end On9log
