import On9log.System

/-!
# What a public call performs

`Performs cfg call res es` collects the lemmas about single functions: `es` is
everything the call does and `res` what it returns. `Serial cfg v es v'` forgets
which call it was and keeps what matters to the other threads: quiet steps, the
exchange of the dropped counter, and whole critical sections. `v` is the count
the thread has taken from the counter and not yet reported; a section reports
all of it or nothing.
-/

namespace On9log
open Lib Lib.LittleEndian

variable {Tid : Type} {cfg : Config} {es es₁ es₂ : List Ev}

/-- Everything a critical section can be, with the drop count it reports. -/
inductive CoreSection (cfg : Config) : ℕ → List Ev → Prop
  | packet (slots : ℕ → SinkEntry) (pkt : Packet) (es : List Ev) :
      PacketSection cfg slots pkt es → pkt.Sound → CoreSection cfg pkt.dropCount es
  | add (e : SinkEntry) (r : Err) (es : List Ev) : e.sink ≠ 0 → AddSection cfg e r es →
      CoreSection cfg 0 es
  | remove (e : SinkEntry) (r : Err) (es : List Ev) : e.sink ≠ 0 → RemoveSection cfg e r es →
      CoreSection cfg 0 es

/-- Operations that neither touch the lock, nor need it, nor take the dropped count. -/
def Op.quiet : Op → Bool
  | .emitLock => false
  | .emitUnlock => false
  | .exchangeDropped => false
  | .loadSlot _ => false
  | .storeSlot _ _ => false
  | .fetchAddSeq => false
  | .stream _ => false
  | .call _ _ => false
  | _ => true

/-- A quiet step; only encoded LOG packets enter the ring buffer. -/
def Quiet (cfg : Config) (e : Ev) : Prop :=
  e.op.quiet = true ∧ ∀ p, e.op = .isrEnqueuePacket p → IsrPacket cfg p

inductive Serial (cfg : Config) : ℕ → List Ev → ℕ → Prop
  | nil (v : ℕ) : Serial cfg v [] v
  | quiet {v v' : ℕ} {es : List Ev} (e : Ev) : Quiet cfg e → Serial cfg v es v' →
      Serial cfg v (e :: es) v'
  | exchange {v' : ℕ} {es : List Ev} (raw : ℕ) : Serial cfg (UInt32.ofNat raw).toNat es v' →
      Serial cfg 0 (⟨.exchangeDropped, raw⟩ :: es) v'
  | sec {v v' : ℕ} {es : List Ev} (b : List Ev) : CoreSection cfg v b → Serial cfg 0 es v' →
      Serial cfg v (⟨.emitLock, ()⟩ :: (b ++ ⟨.emitUnlock, ()⟩ :: es)) v'

theorem Serial.append {v v₁ v' : ℕ} (h₁ : Serial cfg v es₁ v₁) (h₂ : Serial cfg v₁ es₂ v') :
    Serial cfg v (es₁ ++ es₂) v' := by
  induction h₁ with
  | nil v => exact h₂
  | quiet e he _ ih => exact .quiet e he (ih h₂)
  | exchange raw _ ih => exact .exchange raw (ih h₂)
  | sec b hb _ ih =>
    have h := Serial.sec b hb (ih h₂)
    simpa using h

theorem Serial.of_quiet (h : ∀ e ∈ es, Quiet cfg e) (v : ℕ) : Serial cfg v es v := by
  induction es with
  | nil => exact .nil v
  | cons e es ih =>
    exact .quiet e (h e (List.mem_cons_self ..)) (ih fun x hx => h x (List.mem_cons_of_mem _ hx))

theorem quiet_of_memory (h : ∀ e ∈ es, e.op = .memory) : ∀ e ∈ es, Quiet cfg e := by
  intro e he
  unfold Quiet
  rw [h e he]
  exact ⟨rfl, by simp⟩

theorem quiet_append (h₁ : ∀ e ∈ es₁, Quiet cfg e) (h₂ : ∀ e ∈ es₂, Quiet cfg e) :
    ∀ e ∈ es₁ ++ es₂, Quiet cfg e := fun e he =>
  (List.mem_append.mp he).elim (h₁ e) (h₂ e)

theorem quiet_one {e : Ev} (h : Quiet cfg e) : ∀ e' ∈ [e], Quiet cfg e' := by
  intro e' he
  rw [List.mem_singleton.mp he]
  exact h

theorem quiet_cons {e : Ev} (h : Quiet cfg e) (hes : ∀ e ∈ es, Quiet cfg e) :
    ∀ e' ∈ e :: es, Quiet cfg e' := quiet_append (quiet_one h) hes

theorem quiet_addDropped : Quiet cfg ⟨.addDropped, ()⟩ := ⟨rfl, by simp⟩

theorem Gate.quiet {level : ℕ} {tag : Ptr} {b : Bool} (h : Gate cfg level tag b es) :
    ∀ e ∈ es, Quiet cfg e := by
  cases h with
  | compileTime => simp
  | runtime rl _ => exact quiet_one ⟨rfl, by simp⟩

/-! ### Packets that reach a stream are sound -/

theorem Emission.serial {pkt : Packet} (h : Emission cfg pkt es) (hp : pkt.Sound) :
    Serial cfg pkt.dropCount es 0 := by
  obtain ⟨slots, b, hb, rfl⟩ := h
  have h := Serial.sec b (.packet slots pkt b hb hp) (.nil 0)
  simpa using h

theorem measured_builtPacket {type : PacketType} {level raw now : ℕ} {tagId fmtId : UInt32}
    {payloadLen : UInt16} {cs : List Chunk} (hlen : payloadLen.toNat = (payloadOf cs).length)
    (hlt : payloadLen.toNat < payloadLenStreaming) :
    (builtPacket type level raw now tagId fmtId payloadLen cs).Measured := by
  unfold Packet.Measured Packet.payload builtPacket
  rw [headerPayloadLen_headerBytes]
  exact ⟨hlen, by omega⟩

theorem sound_builtPacket {type : PacketType} {level raw now : ℕ} {tagId fmtId : UInt32}
    {payloadLen : UInt16} {cs : List Chunk} (ht : type ≠ .dropped)
    (hlen : payloadLen.toNat = (payloadOf cs).length)
    (hlt : payloadLen.toNat < payloadLenStreaming) :
    (builtPacket type level raw now tagId fmtId payloadLen cs).Sound where
  measured _ _ _ := measured_builtPacket hlen hlt
  relayed p hp := by cases hp
  counted now' h := by
    cases h
    exact absurd rfl ht

/-- A built packet of another type than DROPPED reports no drops. -/
theorem Emission.serial_built {type : PacketType} {level raw now : ℕ} {tagId fmtId : UInt32}
    {payloadLen : UInt16} {cs : List Chunk}
    (h : Emission cfg (builtPacket type level raw now tagId fmtId payloadLen cs) es)
    (ht : type ≠ .dropped) (hlen : payloadLen.toNat = (payloadOf cs).length)
    (hlt : payloadLen.toNat < payloadLenStreaming) : Serial cfg 0 es 0 := by
  have hs := h.serial (sound_builtPacket ht hlen hlt)
  have hd : (builtPacket type level raw now tagId fmtId payloadLen cs).dropCount = 0 := by
    cases type
    case dropped => exact absurd rfl ht
    all_goals rfl
  rwa [hd] at hs

theorem dropCount_droppedPacket (seq now : ℕ) (n : UInt32) :
    (droppedPacket seq now n).dropCount = n.toNat := by
  show valLE (payloadOf [⟨bytesLE 4 n.toNat, 1, .arg 0⟩]) = n.toNat
  rw [payloadOf_cons, payloadOf_nil, List.append_nil]
  exact valLE_bytesLE 4 n.toNat n.toNat_lt

theorem sound_droppedPacket {seq now : ℕ} {n : UInt32} (hn : n ≠ 0) :
    (droppedPacket seq now n).Sound where
  measured _ _ _ := measured_builtPacket (by simp) (by decide)
  relayed p hp := by cases hp
  counted _ _ := by
    rw [dropCount_droppedPacket]
    intro h
    exact hn (UInt32.toNat_inj.mp h)

theorem Flushed.serial {raw : ℕ} (h : Flushed cfg raw es) : Serial cfg 0 es 0 := by
  cases h with
  | none hraw =>
    refine .exchange raw ?_
    rw [hraw]
    exact .nil 0
  | notice seq now es' hraw hem =>
    have h := hem.serial (sound_droppedPacket hraw)
    rw [dropCount_droppedPacket] at h
    exact .exchange raw h

theorem LogWritten.serial {level : ℕ} {tag format : Ptr} {mask : UInt32} {argTypes : ArgTypes}
    {argCount : UInt8} {args : VaList}
    (h : LogWritten cfg level tag format mask argTypes argCount args es) :
    Serial cfg 0 es 0 := by
  cases h with
  | dropped looks honly _ =>
    exact .of_quiet (quiet_append (quiet_of_memory honly) (quiet_one quiet_addDropped)) 0
  | sent looks es' tagWire formatWire len payloadLen seq now cs honly _ _ hlt hlen _ hem =>
    exact (Serial.of_quiet (quiet_of_memory honly) 0).append
      (hem.serial_built (by decide) hlen hlt)

theorem Written.serial {level : ℕ} {tag format : Ptr} {mask : UInt32} {argTypes : ArgTypes}
    {argCount : UInt8} {args : VaList}
    (h : Written cfg level tag format mask argTypes argCount args es) : Serial cfg 0 es 0 := by
  cases h with
  | blocked _ hg => exact .of_quiet hg.quiet 0
  | passed gate flush es' raw hg hf hw =>
    exact (Serial.of_quiet hg.quiet 0).append (hf.serial.append hw.serial)

theorem BufferPacket.serial {level : ℕ} {tag bytes : Ptr} {tagWire : WireStr}
    {totalLen offset chunkLen : UInt32} {pkt : Packet}
    (hfit : wireStrSize tagWire + 3 * 4 + (chunkMax cfg (wireStrSize tagWire)).toNat ≤
      payloadLenMax)
    (hle : chunkLen.toNat ≤ (chunkMax cfg (wireStrSize tagWire)).toNat)
    (h : BufferPacket cfg level tag tagWire bytes totalLen offset chunkLen pkt es) :
    Serial cfg 0 es 0 := by
  obtain ⟨seq, now, cs, rfl, hlen, hem⟩ := h.emission
  obtain ⟨heq, hlt⟩ := toNat_bufferPayloadLen hfit hle
  refine hem.serial_built (by decide) (heq.trans hlen.symm) ?_
  rw [heq]
  exact hlt

theorem nextChunkLen_le {totalLen offset max : UInt32} (h : offset < totalLen) :
    (nextChunkLen totalLen offset max).toNat ≤ max.toNat := by
  rw [toNat_nextChunkLen max h]
  exact Nat.min_le_right _ _

theorem BufferPackets.serial {level : ℕ} {tag bytes : Ptr} {tagWire : WireStr}
    {totalLen offset : UInt32} {pkts : List Packet}
    (hfit : wireStrSize tagWire + 3 * 4 + (chunkMax cfg (wireStrSize tagWire)).toNat ≤
      payloadLenMax)
    (h : BufferPackets cfg level tag tagWire bytes totalLen
      (chunkMax cfg (wireStrSize tagWire)) offset pkts es) : Serial cfg 0 es 0 := by
  induction h with
  | done offset _ => exact .nil 0
  | chunk offset pkt pkts es es' hlt hpkt _ ih =>
    exact (hpkt.serial hfit (nextChunkLen_le hlt)).append ih

theorem BufferWritten.serial {level : ℕ} {tag bytes : Ptr} {totalLen : UInt32}
    (h : BufferWritten cfg level tag bytes totalLen es) : Serial cfg 0 es 0 := by
  cases h with
  | dropped looks tagWire honly _ _ =>
    exact .of_quiet (quiet_append (quiet_of_memory honly) (quiet_one quiet_addDropped)) 0
  | sent looks es' tagWire pkts honly _ hfit hpkts =>
    refine (Serial.of_quiet (quiet_of_memory honly) 0).append ?_
    rcases hpkts with ⟨-, pkt, -, hpkt⟩ | ⟨-, hpkts⟩
    · exact hpkt.serial hfit (Nat.zero_le _)
    · exact hpkts.serial hfit

theorem BufferCall.serial {level : ℕ} {tag buffer : Ptr} {bufferLen : ℕ}
    (h : BufferCall cfg level tag buffer bufferLen es) : Serial cfg 0 es 0 := by
  cases h with
  | blocked _ hg => exact .of_quiet hg.quiet 0
  | rejected gate hg _ => exact .of_quiet (quiet_append hg.quiet (quiet_one quiet_addDropped)) 0
  | passed gate flush es' raw hg _ hf hw =>
    exact (Serial.of_quiet hg.quiet 0).append (hf.serial.append hw.serial)

theorem BootCall.serial {bootId : UInt32} {reason : UInt8}
    (h : BootCall cfg bootId reason es) : Serial cfg 0 es 0 := by
  obtain ⟨reply, id, idKind, seq, now, cs, es', rfl, hid, hpay, hem⟩ := h
  unfold imageIdMaxLen at hid
  have hlen : (UInt16.ofNat (4 + 4 + id.length)).toNat = 4 + 4 + id.length := by
    rw [UInt16.toNat_ofNat']
    omega
  have hpl : (payloadOf cs).length = 4 + 4 + id.length := by
    rw [hpay]
    simp [bootPayload]
    omega
  refine .quiet _ ⟨rfl, by simp⟩ (hem.serial_built (by decide) (hlen.trans hpl.symm) ?_)
  rw [hlen]
  unfold payloadLenStreaming
  omega

theorem DispatchCall.serial {packet : Option (List UInt8)} {v : Err}
    (h : DispatchCall cfg packet v es) : Serial cfg 0 es 0 := by
  cases h with
  | rejected => exact .nil 0
  | relayed p header raw flush es' _ hf hem =>
    have hs : Packet.Sound ⟨.relayed p, header, chunksOf ⟨p.drop packetHeaderLen, 0, .metaData⟩⟩ := by
      refine ⟨fun _ _ h => ?_, fun p' h => ?_, fun _ h => ?_⟩
      · cases h
      · cases h
        exact payloadOf_chunksOf _
      · cases h
    exact hf.serial.append (hem.serial hs)

theorem IsrEncoded.quiet {packetCap level : ℕ} {tag format : Ptr} {argTypes : ArgTypes}
    {args : VaList} {r : Option (List UInt8)}
    (h : IsrEncoded cfg packetCap level tag format argTypes args es r) :
    ∀ e ∈ es, Quiet cfg e := by
  obtain ⟨-, -, -, -, -, honly, -⟩ := h
  intro e he
  unfold Quiet
  rcases honly e he with h | h <;> rw [h] <;> exact ⟨rfl, by simp⟩

theorem IsrCall.quiet {level : ℕ} {tag format : Ptr} {argTypes : ArgTypes} {args : VaList}
    {v : Bool} (h : IsrCall cfg level tag format argTypes args v es) :
    ∀ e ∈ es, Quiet cfg e := by
  have hready : ∀ b, Quiet cfg ⟨.isrReady, b⟩ := fun b => ⟨rfl, by simp⟩
  cases h with
  | blocked _ hg => exact hg.quiet
  | notReady gate hg => exact quiet_append hg.quiet (quiet_one (hready _))
  | unsafeArgs gate hg _ =>
    exact quiet_append hg.quiet (quiet_cons (hready _) (quiet_one quiet_addDropped))
  | tooLong gate es' hg _ henc =>
    exact quiet_append hg.quiet (quiet_append (quiet_cons (hready _) henc.quiet)
      (quiet_one quiet_addDropped))
  | encoded gate es' packet ok hg _ henc =>
    refine quiet_append hg.quiet (quiet_append (quiet_cons (hready _) henc.quiet) ?_)
    have henq : Quiet cfg ⟨.isrEnqueuePacket packet, v⟩ := by
      refine ⟨rfl, fun p hp => ?_⟩
      cases hp
      exact henc.isrPacket
    cases v with
    | true => exact quiet_one henq
    | false => exact quiet_cons henq (quiet_one quiet_addDropped)

theorem AddSection.serial {e : SinkEntry} {r : Err} {b : List Ev} (he : e.sink ≠ 0)
    (h : AddSection cfg e r b) : Serial cfg 0 (⟨.emitLock, ()⟩ :: b ++ [⟨.emitUnlock, ()⟩]) 0 := by
  have hs := Serial.sec b (.add e r b he h) (.nil 0)
  simpa using hs

theorem RemoveSection.serial {e : SinkEntry} {r : Err} {b : List Ev} (he : e.sink ≠ 0)
    (h : RemoveSection cfg e r b) :
    Serial cfg 0 (⟨.emitLock, ()⟩ :: b ++ [⟨.emitUnlock, ()⟩]) 0 := by
  have hs := Serial.sec b (.remove e r b he h) (.nil 0)
  simpa using hs

/-! ### The calls -/

theorem path_encodeTimeSync {hasBuf : Bool} {cap : ℕ} {bootId : UInt32} {bs : List UInt8}
    (h : (encodeTimeSync hasBuf cap bootId).Path es bs) :
    (es = [] ∧ bs = []) ∨ ∃ now, es = [⟨.timestampMs, now⟩] := by
  rcases (Prog.path_ite _ _ _ _ _).mp h with ⟨-, h⟩ | ⟨-, h⟩
  · exact Or.inl ((Prog.path_pure _ _ _).mp h)
  · obtain ⟨now, e₁, _, rfl, h₁, h⟩ := (Prog.path_bind _ _ _ _).mp h
    obtain ⟨rfl, -⟩ := (Prog.path_pure _ _ _).mp h
    rw [path_timestampMs.mp h₁]
    exact Or.inr ⟨now, rfl⟩

/-- What each call performs and returns. -/
def Performs (cfg : Config) : Call → Res → List Ev → Prop
  | .write level tag format argTypes args, v, es =>
    Written cfg level tag format 0 argTypes (argCount argTypes) args es ∧ v = .unit
  | .writeWithFormatScan level tag format formatScan argTypes args, v, es =>
    Written cfg level tag format
      (precisionMask formatScan (argCount argTypes) (argTypesHaveDynamicString argTypes)) argTypes
      (argCount argTypes) args es ∧ v = .unit
  | .writeWithFormatScanMetadata level tag format formatScan argTypes argCount hasDyn args, v, es =>
    Written cfg level tag format (precisionMask formatScan argCount hasDyn) argTypes argCount args
      es ∧ v = .unit
  | .writeIsr level tag format argTypes args, v, es =>
    ∃ ok, v = .flag ok ∧ IsrCall cfg level tag format argTypes args ok es
  | .writeBuffer level tag buffer bufferLen, v, es =>
    BufferCall cfg level tag buffer bufferLen es ∧ v = .unit
  | .emitBoot bootId reason, v, es => BootCall cfg bootId reason es ∧ v = .err .ok
  | .encodeTimeSync _ _ _, v, es =>
    ∃ bs, v = .bytes bs ∧ ((es = [] ∧ bs = []) ∨ ∃ now, es = [⟨.timestampMs, now⟩])
  | .dispatchPacket packet, v, es => ∃ e, v = .err e ∧ DispatchCall cfg packet e es
  | .addSink sink callbacks ctx, v, es => ∃ r, v = .err r ∧
    ((¬ ValidSink sink callbacks ∧ es = [] ∧ r = .invalidArg) ∨
      (ValidSink sink callbacks ∧ ∃ b, AddSection cfg ⟨sink, ctx⟩ r b ∧
        es = ⟨.emitLock, ()⟩ :: b ++ [⟨.emitUnlock, ()⟩]))
  | .removeSink sink ctx, v, es => ∃ r, v = .err r ∧
    ((sink = 0 ∧ es = [] ∧ r = .notFound) ∨
      (sink ≠ 0 ∧ ∃ b, RemoveSection cfg ⟨sink, ctx⟩ r b ∧
        es = ⟨.emitLock, ()⟩ :: b ++ [⟨.emitUnlock, ()⟩]))

theorem path_bind_pure {α : Type} {p : Core α} {f : α → Res} {v : Res}
    (h : (p >>= fun a => pure (f a)).Path es v) : ∃ a, p.Path es a ∧ v = f a := by
  obtain ⟨a, e₁, _, rfl, h₁, h⟩ := (Prog.path_bind _ _ _ _).mp h
  obtain ⟨rfl, rfl⟩ := (Prog.path_pure _ _ _).mp h
  rw [List.append_nil]
  exact ⟨a, h₁, rfl⟩

theorem performs_body {c : Call} {v : Res} (h : (body cfg c).Path es v) :
    Performs cfg c v es := by
  cases c with
  | write level tag format argTypes args =>
    obtain ⟨_, hp, rfl⟩ := path_bind_pure h
    have hw := written_vwrite hp
    exact ⟨by simpa [precisionMask] using hw, rfl⟩
  | writeWithFormatScan level tag format formatScan argTypes args =>
    obtain ⟨_, hp, rfl⟩ := path_bind_pure h
    exact ⟨written_vwrite hp, rfl⟩
  | writeWithFormatScanMetadata level tag format formatScan argTypes argCount hasDyn args =>
    obtain ⟨_, hp, rfl⟩ := path_bind_pure h
    exact ⟨written_vwrite hp, rfl⟩
  | writeIsr level tag format argTypes args =>
    obtain ⟨ok, hp, rfl⟩ := path_bind_pure h
    exact ⟨ok, rfl, isrCall_vwriteIsr hp⟩
  | writeBuffer level tag buffer bufferLen =>
    obtain ⟨_, hp, rfl⟩ := path_bind_pure h
    exact ⟨bufferCall_writeBuffer hp, rfl⟩
  | emitBoot bootId reason =>
    obtain ⟨e, hp, rfl⟩ := path_bind_pure h
    obtain ⟨hb, rfl⟩ := bootCall_emitBoot hp
    exact ⟨hb, rfl⟩
  | encodeTimeSync hasBuf cap bootId =>
    obtain ⟨bs, hp, rfl⟩ := path_bind_pure h
    exact ⟨bs, rfl, path_encodeTimeSync hp⟩
  | dispatchPacket packet =>
    obtain ⟨e, hp, rfl⟩ := path_bind_pure h
    exact ⟨e, rfl, dispatchCall_dispatchPacket hp⟩
  | addSink sink callbacks ctx =>
    obtain ⟨r, hp, rfl⟩ := path_bind_pure h
    exact ⟨r, rfl, path_addSink hp⟩
  | removeSink sink ctx =>
    obtain ⟨r, hp, rfl⟩ := path_bind_pure h
    exact ⟨r, rfl, path_removeSink hp⟩

theorem Performs.serial {c : Call} {v : Res} (h : Performs cfg c v es) : Serial cfg 0 es 0 := by
  cases c with
  | write _ _ _ _ _ => exact h.1.serial
  | writeWithFormatScan _ _ _ _ _ _ => exact h.1.serial
  | writeWithFormatScanMetadata _ _ _ _ _ _ _ _ => exact h.1.serial
  | writeIsr _ _ _ _ _ =>
    obtain ⟨ok, -, h⟩ := h
    exact .of_quiet h.quiet 0
  | writeBuffer _ _ _ _ => exact h.1.serial
  | emitBoot _ _ => exact h.1.serial
  | encodeTimeSync _ _ _ =>
    obtain ⟨bs, -, ⟨rfl, -⟩ | ⟨now, rfl⟩⟩ := h
    · exact .nil 0
    · exact .quiet _ ⟨rfl, by simp⟩ (.nil 0)
  | dispatchPacket packet =>
    obtain ⟨e, -, h⟩ := h
    exact h.serial
  | addSink sink callbacks ctx =>
    obtain ⟨r, -, ⟨-, rfl, -⟩ | ⟨hv, b, hb, rfl⟩⟩ := h
    · exact .nil 0
    · exact hb.serial hv.1
  | removeSink sink ctx =>
    obtain ⟨r, -, ⟨-, rfl, -⟩ | ⟨hv, b, hb, rfl⟩⟩ := h
    · exact .nil 0
    · exact hb.serial hv

theorem serial_body {c : Call} {v : Res} (h : (body cfg c).Path es v) : Serial cfg 0 es 0 :=
  (performs_body h).serial

/-! ### The lock is used properly -/

/-- Operations a thread performs while it holds the lock. -/
def Op.inside : Op → Bool
  | .loadSlot _ => true
  | .storeSlot _ _ => true
  | .fetchAddSeq => true
  | .timestampMs => true
  | .memory => true
  | .stream _ => true
  | .call _ _ => true
  | _ => false

def Inside (es : List Ev) : Prop := ∀ e ∈ es, e.op.inside = true

theorem Inside.append (h₁ : Inside es₁) (h₂ : Inside es₂) : Inside (es₁ ++ es₂) := fun e he =>
  (List.mem_append.mp he).elim (h₁ e) (h₂ e)

theorem inside_broadcast (sinks : List SinkEntry) (c : StreamCall) :
    Inside (broadcast sinks c) := by
  intro e he
  rcases List.mem_cons.mp he with rfl | he
  · rfl
  · obtain ⟨a, -, rfl⟩ := List.mem_map.mp he
    rfl

theorem inside_finishing (sinks : List SinkEntry) : Inside (finishing sinks) := by
  intro e he
  rcases List.mem_append.mp he with he | he
  · obtain ⟨a, -, rfl⟩ := List.mem_map.mp he
    rfl
  · rw [List.mem_singleton.mp he]
    rfl

theorem inside_emits {sinks : List SinkEntry} {cs : List Chunk} (h : Emits sinks es cs) :
    Inside es := by
  induction h with
  | nil => exact fun e he => absurd he List.not_mem_nil
  | memory mem _ ih =>
    intro e he
    rcases List.mem_cons.mp he with rfl | he
    · rfl
    · exact ih e he
  | chunk c _ _ ih => exact (inside_broadcast _ _).append ih

theorem inside_packetSection {slots : ℕ → SinkEntry} {pkt : Packet}
    (h : PacketSection cfg slots pkt es) : Inside es := by
  obtain ⟨num, body, hnum, hem, rfl⟩ := h
  have hreads : Inside (slotReads slots (List.range cfg.maxSinks)) := by
    intro e he
    obtain ⟨i, -, rfl⟩ := List.mem_map.mp he
    rfl
  have hn : Inside num := by
    intro e he
    rcases hnum.mem he with ⟨raw, rfl⟩ | ⟨now, rfl⟩
    · rfl
    · rfl
  exact hreads.append (hn.append ((inside_broadcast _ _).append
    ((inside_emits hem).append (inside_finishing _))))

theorem inside_onlyLoads (h : OnlyLoads es) : Inside es := by
  intro e he
  obtain ⟨i, hi⟩ := h e he
  rw [hi]
  rfl

theorem inside_tableSection (h : TableSection es) : Inside es := by
  rcases h with h | ⟨l, i, e, h, rfl⟩
  · exact inside_onlyLoads h
  · refine (inside_onlyLoads h).append fun ev hev => ?_
    rw [List.mem_singleton.mp hev]
    rfl

theorem inside_coreSection {v : ℕ} (h : CoreSection cfg v es) : Inside es := by
  cases h with
  | packet slots pkt _ hp _ => exact inside_packetSection hp
  | add e r _ _ hadd => exact inside_tableSection hadd.tableSection
  | remove e r _ _ hrem => exact inside_tableSection hrem.tableSection

theorem Serial.isrPacket {v v' : ℕ} (h : Serial cfg v es v') {p : List UInt8} {ok : Bool}
    (he : (⟨.isrEnqueuePacket p, ok⟩ : Ev) ∈ es) : IsrPacket cfg p := by
  induction h with
  | nil v => cases he
  | quiet e hq _ ih =>
    rcases List.mem_cons.mp he with he | he
    · rw [← he] at hq
      exact hq.2 p rfl
    · exact ih he
  | exchange raw _ ih =>
    rcases List.mem_cons.mp he with he | he
    · cases he
    · exact ih he
  | sec b hb _ ih =>
    rcases List.mem_cons.mp he with he | he
    · cases he
    rcases List.mem_append.mp he with he | he
    · have hin := inside_coreSection hb _ he
      cases hin
    rcases List.mem_cons.mp he with he | he
    · cases he
    · exact ih he

theorem Serial.disciplined {v v' : ℕ} (h : Serial cfg v es v') :
    Steps ((emitLockSpec Tid).Discipline fun b => ∃ v, CoreSection cfg v b) none es none := by
  have free : ∀ o : Op, (o.quiet = true ∨ o = .exchangeDropped) →
      (emitLockSpec Tid).isLock o = false ∧ (emitLockSpec Tid).isUnlock o = false ∧
        (emitLockSpec Tid).guarded o = false := by
    intro o ho
    cases o <;> simp_all [emitLockSpec, Op.quiet]
  induction h with
  | nil v => rfl
  | quiet e he _ ih =>
    obtain ⟨h₁, h₂, h₃⟩ := free e.op (Or.inl he.1)
    exact ⟨none, Or.inr ⟨h₁, h₂, h₃, rfl⟩, ih⟩
  | exchange raw _ ih =>
    exact ⟨none, Or.inr ⟨rfl, rfl, rfl, rfl⟩, ih⟩
  | @sec v v' es b hb _ ih =>
    have hsec : Steps ((emitLockSpec Tid).Discipline fun b => ∃ v, CoreSection cfg v b) none
        (⟨.emitLock, ()⟩ :: b ++ [⟨.emitUnlock, ()⟩]) none := by
      refine (emitLockSpec Tid).steps_section rfl rfl (fun e he => ?_) ⟨v, hb⟩
      have hin := inside_coreSection hb e he
      generalize e.op = o at hin
      cases o <;> simp_all [emitLockSpec, Op.inside]
    have h := steps_append.mpr ⟨none, hsec, ih⟩
    simpa using h

theorem body_disciplined (c : Call) (es : List Ev) (v : Res) (h : (body cfg c).Path es v) :
    Steps ((emitLockSpec Tid).Discipline fun b => ∃ v, CoreSection cfg v b) none es none :=
  (serial_body h).disciplined

theorem performs_ret [DecidableEq Tid] {c : Lib.Config Tid Call Op Op.Ret Res (Shared Tid)}
    {tr : List (Label Tid Call Op Op.Ret Res)} {t : Tid} {call : Call} {v : Res}
    (h : (system Tid cfg).Run c (.ret t call v :: tr)) :
    Performs cfg call v (callEvents t tr) :=
  performs_body h.ret_path

end On9log
