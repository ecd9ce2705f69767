import On9log.Delivery

/-!
# How a call ends

`Effects es pkts d enq` counts what the events of a call leave behind: whole
packets handed to the stream, increments of the dropped counter, packets in the
ring buffer and sequence numbers. `Outcome` lists how a call can end, and
`Performs.outcome` says that every call ends in one of these ways, after at
most one DROPPED notice.
-/

namespace On9log
open Lib Lib.LittleEndian

variable {cfg : Config} {es es₁ es₂ : List Ev}

def streamCalls (es : List Ev) : List StreamCall :=
  es.filterMap fun e => match e.op with
    | .stream c => some c
    | _ => none

def drops (es : List Ev) : ℕ := es.countP fun e => e.op = .addDropped

def numbersTaken (es : List Ev) : ℕ := es.countP fun e => e.op = .fetchAddSeq

/-- The packets the ring buffer accepted. -/
def enqueued (es : List Ev) : List (List UInt8) :=
  es.filterMap fun e => match e with
    | ⟨.isrEnqueuePacket p, true⟩ => some p
    | _ => none

/-- A packet from its start to its end, as the stream gets it. -/
def Packet.streamCalls (pkt : Packet) : List StreamCall :=
  .start pkt.origin pkt.header :: pkt.chunks.map .payload ++ [.finish]

/-- The packets that take part in the sequence. -/
def inSequence (pkts : List Packet) : List Packet := pkts.filter fun pkt => !pkt.isTimeSync

structure Effects (es : List Ev) (pkts : List Packet) (d : ℕ) (enq : List (List UInt8)) :
    Prop where
  streams : streamCalls es = pkts.flatMap Packet.streamCalls
  drops : drops es = d
  enqueued : enqueued es = enq
  numbers : numbersTaken es = (inSequence pkts).length

theorem Effects.append {pkts₁ pkts₂ : List Packet} {d₁ d₂ : ℕ} {enq₁ enq₂ : List (List UInt8)}
    (h₁ : Effects es₁ pkts₁ d₁ enq₁) (h₂ : Effects es₂ pkts₂ d₂ enq₂) :
    Effects (es₁ ++ es₂) (pkts₁ ++ pkts₂) (d₁ + d₂) (enq₁ ++ enq₂) where
  streams := by
    rw [List.flatMap_append, ← h₁.streams, ← h₂.streams]
    exact List.filterMap_append
  drops := by
    rw [← h₁.drops, ← h₂.drops]
    exact List.countP_append
  enqueued := by
    rw [← h₁.enqueued, ← h₂.enqueued]
    exact List.filterMap_append
  numbers := by
    unfold inSequence
    rw [List.filter_append, List.length_append]
    show numbersTaken (es₁ ++ es₂) = (inSequence pkts₁).length + (inSequence pkts₂).length
    rw [← h₁.numbers, ← h₂.numbers]
    exact List.countP_append

/-- Operations that leave nothing behind. -/
def Op.plain : Op → Bool
  | .stream _ => false
  | .addDropped => false
  | .fetchAddSeq => false
  | .isrEnqueuePacket _ => false
  | _ => true

theorem effects_plain (h : ∀ e ∈ es, e.op.plain = true) : Effects es [] 0 [] := by
  refine ⟨?_, ?_, ?_, ?_⟩
  · refine List.filterMap_eq_nil_iff.mpr fun e he => ?_
    have hp := h e he
    obtain ⟨o, r⟩ := e
    cases o <;> simp_all [Op.plain]
  · refine List.countP_eq_zero.mpr fun e he hd => ?_
    have hp := h e he
    rw [of_decide_eq_true hd] at hp
    cases hp
  · refine List.filterMap_eq_nil_iff.mpr fun e he => ?_
    have hp := h e he
    obtain ⟨o, r⟩ := e
    cases o <;> simp_all [Op.plain]
  · refine List.countP_eq_zero.mpr fun e he hd => ?_
    have hp := h e he
    rw [of_decide_eq_true hd] at hp
    cases hp

theorem effects_memory (h : ∀ e ∈ es, e.op = .memory) : Effects es [] 0 [] :=
  effects_plain fun e he => by rw [h e he]; rfl

theorem effects_addDropped : Effects [⟨.addDropped, ()⟩] [] 1 [] := ⟨rfl, rfl, rfl, rfl⟩

theorem Gate.effects {level : ℕ} {tag : Ptr} {b : Bool} (h : Gate cfg level tag b es) :
    Effects es [] 0 [] := by
  cases h with
  | compileTime => exact effects_plain (by simp)
  | runtime rl _ => exact ⟨rfl, rfl, rfl, rfl⟩

theorem streamCalls_append (es₁ es₂ : List Ev) :
    streamCalls (es₁ ++ es₂) = streamCalls es₁ ++ streamCalls es₂ := List.filterMap_append

theorem streamCalls_calls (sinks : List SinkEntry) (c : SinkCall) :
    streamCalls (sinks.map fun e => ⟨.call e c, ()⟩) = [] := by
  induction sinks with
  | nil => rfl
  | cons a sinks ih => exact ih

theorem streamCalls_broadcast (sinks : List SinkEntry) (c : StreamCall) :
    streamCalls (broadcast sinks c) = [c] := by
  show c :: streamCalls (sinks.map fun e => (⟨.call e c.sinkCall, ()⟩ : Ev)) = [c]
  rw [streamCalls_calls]

theorem streamCalls_finishing (sinks : List SinkEntry) :
    streamCalls (finishing sinks) = [.finish] := by
  unfold finishing
  rw [streamCalls_append, streamCalls_calls]
  rfl

theorem streamCalls_emits {sinks : List SinkEntry} {cs : List Chunk} (h : Emits sinks es cs) :
    streamCalls es = cs.map .payload := by
  induction h with
  | nil => rfl
  | memory mem _ ih => exact ih
  | chunk c _ _ ih =>
    rw [streamCalls_append, streamCalls_broadcast, ih]
    rfl

theorem streamCalls_packetBody {sinks : List SinkEntry} {pkt : Packet} {body : List Ev}
    (h : Emits sinks body pkt.chunks) : streamCalls (packetBody sinks pkt body) =
      pkt.streamCalls := by
  unfold packetBody Packet.streamCalls
  rw [streamCalls_append, streamCalls_append, streamCalls_broadcast, streamCalls_finishing,
    streamCalls_emits h]
  simp

/-- Streaming a packet drops nothing, enqueues nothing and takes no number. -/
theorem effects_streaming {pkt : Packet} {b : List Ev} (hb : Streaming b)
    (hs : streamCalls b = pkt.streamCalls) :
    streamCalls b = [pkt].flatMap Packet.streamCalls ∧ drops b = 0 ∧ enqueued b = [] ∧
      numbersTaken b = 0 := by
  refine ⟨?_, ?_, ?_, ?_⟩
  · rw [hs]
    exact (List.append_nil _).symm
  · refine List.countP_eq_zero.mpr fun e he hd => ?_
    rcases hb e he with ⟨m, rfl⟩ | ⟨c, rfl⟩ | ⟨s, c, rfl⟩ <;> cases of_decide_eq_true hd
  · refine List.filterMap_eq_nil_iff.mpr fun e he => ?_
    rcases hb e he with ⟨m, rfl⟩ | ⟨c, rfl⟩ | ⟨s, c, rfl⟩ <;> rfl
  · refine List.countP_eq_zero.mpr fun e he hd => ?_
    rcases hb e he with ⟨m, rfl⟩ | ⟨c, rfl⟩ | ⟨s, c, rfl⟩ <;> cases of_decide_eq_true hd

theorem Numbered.taken {pkt : Packet} {num : List Ev} (h : Numbered pkt.origin pkt.header num) :
    streamCalls num = [] ∧ drops num = 0 ∧ enqueued num = [] ∧
      numbersTaken num = (inSequence [pkt]).length := by
  obtain ⟨origin, header, chunks⟩ := pkt
  unfold inSequence Packet.isTimeSync
  dsimp only at h ⊢
  cases h with
  | built type level raw now tagId fmtId payloadLen ht =>
    have hne : type.code ≠ PacketType.timeSync.code := by
      cases type <;> first | decide | exact absurd rfl ht
    exact ⟨rfl, rfl, rfl, by simp [numbersTaken, hne]⟩
  | relayed packet raw ht hlen => exact ⟨rfl, rfl, rfl, by simp [numbersTaken, ht]⟩
  | timeSync packet ht hlen => exact ⟨rfl, rfl, rfl, by simp [numbersTaken, ht]⟩

theorem Numbered.headerType_relayed {p header : List UInt8} {num : List Ev}
    (h : Numbered (.relayed p) header num) :
    headerType header = headerType (p.take packetHeaderLen) := by
  cases h with
  | relayed _ raw _ _ => exact headerType_renumber _ _
  | timeSync _ _ _ => rfl

theorem Emission.effects {pkt : Packet} (h : Emission cfg pkt es) : Effects es [pkt] 0 [] := by
  obtain ⟨slots, b, ⟨num, body, hnum, hem, rfl⟩, rfl⟩ := h
  have hreads : ∀ e ∈ (⟨.emitLock, ()⟩ : Ev) :: slotReads slots (List.range cfg.maxSinks),
      e.op.plain = true := by
    intro e he
    rcases List.mem_cons.mp he with rfl | he
    · rfl
    · obtain ⟨i, -, rfl⟩ := List.mem_map.mp he
      rfl
  obtain ⟨hs₁, hd₁, he₁, hn₁⟩ := hnum.taken
  obtain ⟨hs₂, hd₂, he₂, hn₂⟩ :=
    effects_streaming (streaming_packetBody hem) (streamCalls_packetBody hem)
  have hmid : Effects (num ++ packetBody (live slots (List.range cfg.maxSinks)) pkt body) [pkt] 0
      [] := by
    refine ⟨?_, ?_, ?_, ?_⟩
    · rw [streamCalls_append, hs₁, hs₂]
      rfl
    · show List.countP _ (_ ++ _) = 0
      rw [List.countP_append]
      exact Nat.add_eq_zero_iff.mpr ⟨hd₁, hd₂⟩
    · show List.filterMap _ (_ ++ _) = []
      rw [List.filterMap_append]
      exact List.append_eq_nil_iff.mpr ⟨he₁, he₂⟩
    · show List.countP _ (_ ++ _) = _
      rw [List.countP_append, ← hn₁]
      show numbersTaken num + numbersTaken _ = numbersTaken num
      rw [hn₂, Nat.add_zero]
  have hend : Effects [(⟨.emitUnlock, ()⟩ : Ev)] [] 0 [] := ⟨rfl, rfl, rfl, rfl⟩
  have hall := ((effects_plain hreads).append hmid).append hend
  simpa [packetBody] using hall

/-! ### Calls -/

def Packet.IsNotice (pkt : Packet) : Prop := ∃ now, pkt.origin = .built .dropped now

/-- What a call sends before its own packets: nothing, or one DROPPED notice. -/
def Notice (pkts : List Packet) : Prop := pkts.length ≤ 1 ∧ ∀ pkt ∈ pkts, pkt.IsNotice

theorem notice_nil : Notice [] := ⟨Nat.zero_le _, by simp⟩

theorem Flushed.effects {raw : ℕ} (h : Flushed cfg raw es) :
    ∃ notices, Notice notices ∧ Effects es notices 0 [] := by
  have hx : ∀ raw, Effects [(⟨.exchangeDropped, raw⟩ : Ev)] [] 0 [] := fun _ => ⟨rfl, rfl, rfl, rfl⟩
  cases h with
  | none _ => exact ⟨[], notice_nil, hx raw⟩
  | notice seq now es' _ hem =>
    refine ⟨[droppedPacket seq now (UInt32.ofNat raw)], ⟨Nat.le_refl 1, fun pkt hpkt => ?_⟩,
      (hx raw).append hem.effects⟩
    rw [List.mem_singleton.mp hpkt]
    exact ⟨now, rfl⟩

/-- The level and tag a logging call is filtered by. -/
def Call.filter : Call → Option (ℕ × Ptr)
  | .write level tag _ _ _ => some (level, tag)
  | .writeWithFormatScan level tag _ _ _ _ => some (level, tag)
  | .writeWithFormatScanMetadata level tag _ _ _ _ _ _ => some (level, tag)
  | .writeIsr level tag _ _ _ => some (level, tag)
  | .writeBuffer level tag _ _ => some (level, tag)
  | _ => none

def Call.isIsr : Call → Bool
  | .writeIsr _ _ _ _ _ => true
  | _ => false

/-- The level filter let the call through: the compile-time check, and the
run-time level it read. -/
def Passes (cfg : Config) (level : ℕ) (tag : Ptr) (es : List Ev) : Prop :=
  levelInRange cfg level ∧ ∃ rl, (⟨.filterLevelForTag tag, rl⟩ : Ev) ∈ es ∧
    levelNone < rl ∧ rl ≤ levelVerbose ∧ level ≤ rl

theorem Gate.passes {level : ℕ} {tag : Ptr} (h : Gate cfg level tag true es₁) :
    Passes cfg level tag (es₁ ++ es₂) := by
  generalize hb : true = b at h
  cases h with
  | compileTime _ => cases hb
  | runtime rl hr =>
    exact ⟨hr, rl, by simp, of_decide_eq_true hb.symm⟩

theorem Gate.blocks {level : ℕ} {tag : Ptr} (h : Gate cfg level tag false es) :
    ¬ Passes cfg level tag es := by
  rintro ⟨hr, rl, hmem, hrl⟩
  generalize hb : false = b at h
  cases h with
  | compileTime hc => exact hc hr
  | runtime rl' _ =>
    cases List.mem_singleton.mp hmem
    exact absurd hrl (of_decide_eq_false hb.symm)

/-- The packets a log or buffer call sends on its own account: one LOG packet,
or BUFFER packets that carry all bytes of the buffer. -/
def OwnPackets : Call → List Packet → Prop
  | .writeBuffer _ _ _ bufferLen, pkts => pkts ≠ [] ∧
    (∀ pkt ∈ pkts, ∃ now, pkt.origin = .built .buffer now) ∧
    ∃ pre, (∀ pkt ∈ pkts, pre ≤ pkt.payload.length) ∧
      (pkts.map fun pkt => pkt.payload.length - pre).sum = bufferLen
  | _, pkts => ∃ pkt now, pkts = [pkt] ∧ pkt.origin = .built .log now

theorem OwnPackets.ne_nil {call : Call} {pkts : List Packet} (h : OwnPackets call pkts) :
    pkts ≠ [] := by
  cases call
  case writeBuffer => exact h.1
  all_goals
    obtain ⟨pkt, now, rfl, -⟩ := h
    exact List.cons_ne_nil _ _

/-- `Outcome cfg call v es notices pkts d enq`: a call with events `es` that
returned `v` sent `notices` and then `pkts`, counted `d` drops and put `enq`
into the ring buffer. -/
inductive Outcome (cfg : Config) (call : Call) : Res → List Ev → List Packet → List Packet →
    ℕ → List (List UInt8) → Prop
  | filtered (v : Res) (es : List Ev) (level : ℕ) (tag : Ptr) : call.filter = some (level, tag) →
      ¬ Passes cfg level tag es → Outcome cfg call v es [] [] 0 []
  | emitted (v : Res) (es : List Ev) (level : ℕ) (tag : Ptr) (notices pkts : List Packet) :
      call.filter = some (level, tag) → call.isIsr = false → Passes cfg level tag es →
      Notice notices → OwnPackets call pkts → Outcome cfg call v es notices pkts 0 []
  | dropped (v : Res) (es : List Ev) (level : ℕ) (tag : Ptr) (notices : List Packet) :
      call.filter = some (level, tag) → Passes cfg level tag es → Notice notices →
      Outcome cfg call v es notices [] 1 []
  | enqueued (v : Res) (es : List Ev) (level : ℕ) (tag : Ptr) (p : List UInt8) :
      call.filter = some (level, tag) → call.isIsr = true → Passes cfg level tag es →
      Outcome cfg call v es [] [] 0 [p]
  | noBackend (v : Res) (es : List Ev) : call.isIsr = true → (⟨.isrReady, false⟩ : Ev) ∈ es →
      Outcome cfg call v es [] [] 0 []
  | relayed (es : List Ev) (p : List UInt8) (pkt : Packet) (notices : List Packet) :
      call = .dispatchPacket (some p) → pkt.origin = .relayed p →
      headerType pkt.header = headerType (p.take packetHeaderLen) → Notice notices →
      Outcome cfg call (.err .ok) es notices [pkt] 0 []
  | boot (es : List Ev) (bootId : UInt32) (reason : UInt8) (pkt : Packet) :
      call = .emitBoot bootId reason → Outcome cfg call (.err .ok) es [] [pkt] 0 []
  | silent (v : Res) (es : List Ev) : call.filter = none → Outcome cfg call v es [] [] 0 []

def Ends (cfg : Config) (call : Call) (v : Res) (es : List Ev) : Prop :=
  ∃ notices pkts d enq, Outcome cfg call v es notices pkts d enq ∧
    Effects es (notices ++ pkts) d enq

theorem Written.ends {call : Call} {v : Res} {level : ℕ} {tag format : Ptr} {mask : UInt32}
    {argTypes : ArgTypes} {argCount : UInt8} {args : VaList}
    (hc : call.filter = some (level, tag)) (hi : call.isIsr = false)
    (hown : ∀ pkt now, pkt.origin = .built .log now → OwnPackets call [pkt])
    (h : Written cfg level tag format mask argTypes argCount args es) : Ends cfg call v es := by
  cases h with
  | blocked _ hg => exact ⟨[], [], 0, [], .filtered v es level tag hc hg.blocks, hg.effects⟩
  | passed gate flush es' raw hg hf hw =>
    obtain ⟨notices, hn, hfe⟩ := hf.effects
    cases hw with
    | dropped looks honly _ =>
      refine ⟨notices, [], 1, [], .dropped v _ level tag notices hc hg.passes hn, ?_⟩
      have h := hg.effects.append (hfe.append ((effects_memory honly).append effects_addDropped))
      simpa using h
    | sent looks es'' tagWire formatWire len payloadLen seq now cs honly _ _ _ _ _ hem =>
      refine ⟨notices, _, 0, [], .emitted v _ level tag notices _ hc hi hg.passes hn
        (hown (builtPacket .log level seq now tagWire.id formatWire.id payloadLen cs) now rfl), ?_⟩
      have h := hg.effects.append (hfe.append ((effects_memory honly).append hem.effects))
      simpa using h

theorem BufferPackets.effects {level : ℕ} {tag bytes : Ptr} {tagWire : WireStr}
    {totalLen max offset : UInt32} {pkts : List Packet}
    (h : BufferPackets cfg level tag tagWire bytes totalLen max offset pkts es) :
    Effects es pkts 0 [] ∧ (∀ pkt ∈ pkts, ∃ now, pkt.origin = .built .buffer now) ∧
      (∀ pkt ∈ pkts, wireStrSize tagWire + 3 * 4 ≤ pkt.payload.length) ∧
      (pkts.map fun pkt => pkt.payload.length - (wireStrSize tagWire + 3 * 4)).sum =
        totalLen.toNat - offset.toNat := by
  induction h with
  | done offset hlt =>
    have hle := UInt32.le_iff_toNat_le.mp (UInt32.not_lt.mp hlt)
    refine ⟨effects_plain (by simp), by simp, by simp, ?_⟩
    simp only [List.map_nil, List.sum_nil]
    omega
  | chunk offset pkt pkts es es' hlt hpkt _ ih =>
    obtain ⟨seq, now, cs, rfl, hlen, hem⟩ := hpkt.emission
    obtain ⟨heff, hown, hle, hsum⟩ := ih
    refine ⟨hem.effects.append heff, ?_, ?_, ?_⟩
    · intro pkt hpkt
      rcases List.mem_cons.mp hpkt with rfl | hpkt
      · exact ⟨now, rfl⟩
      · exact hown pkt hpkt
    · intro pkt hpkt
      rcases List.mem_cons.mp hpkt with rfl | hpkt
      · show _ ≤ (payloadOf cs).length
        omega
      · exact hle pkt hpkt
    · have hnext := toNat_nextOffset max hlt
      have hchunk := toNat_nextChunkLen max hlt
      rw [List.map_cons, List.sum_cons, hsum]
      show (payloadOf cs).length - _ + _ = _
      omega

theorem BufferCall.ends {v : Res} {level : ℕ} {tag buffer : Ptr} {bufferLen : ℕ}
    (h : BufferCall cfg level tag buffer bufferLen es) :
    Ends cfg (.writeBuffer level tag buffer bufferLen) v es := by
  cases h with
  | blocked _ hg => exact ⟨[], [], 0, [], .filtered v es level tag rfl hg.blocks, hg.effects⟩
  | rejected gate hg _ =>
    refine ⟨[], [], 1, [], .dropped v _ level tag [] rfl hg.passes notice_nil, ?_⟩
    exact hg.effects.append effects_addDropped
  | passed gate flush es' raw hg hok hf hw =>
    obtain ⟨notices, hn, hfe⟩ := hf.effects
    have hlen : (UInt32.ofNat bufferLen).toNat = bufferLen := by
      unfold uint32Max at hok
      rw [UInt32.toNat_ofNat']
      omega
    cases hw with
    | dropped looks tagWire honly _ _ =>
      refine ⟨notices, [], 1, [], .dropped v _ level tag notices rfl hg.passes hn, ?_⟩
      have h := hg.effects.append (hfe.append ((effects_memory honly).append effects_addDropped))
      simpa using h
    | sent looks es'' tagWire pkts honly _ _ hpkts =>
      obtain ⟨heff, hown⟩ : Effects es'' pkts 0 [] ∧
          OwnPackets (.writeBuffer level tag buffer bufferLen) pkts := by
        rcases hpkts with ⟨hz, pkt, rfl, hpkt⟩ | ⟨hz, hpkts⟩
        · obtain ⟨seq, now, cs, rfl, hl, hem⟩ := hpkt.emission
          refine ⟨hem.effects, List.cons_ne_nil _ _, ?_, wireStrSize tagWire + 3 * 4, ?_, ?_⟩
          · intro pkt hpkt
            rw [List.mem_singleton.mp hpkt]
            exact ⟨now, rfl⟩
          · intro pkt hpkt
            rw [List.mem_singleton.mp hpkt]
            show _ ≤ (payloadOf cs).length
            omega
          · have h0 : bufferLen = 0 := by
              rw [← hlen, hz]
              rfl
            have hzero : (0 : UInt32).toNat = 0 := rfl
            simp only [List.map_cons, List.map_nil, List.sum_cons, List.sum_nil]
            show (payloadOf cs).length - _ + 0 = _
            omega
        · obtain ⟨heff, horig, hle, hsum⟩ := hpkts.effects
          have hzero : (0 : UInt32).toNat = 0 := rfl
          rw [hlen, hzero, Nat.sub_zero] at hsum
          refine ⟨heff, ?_, horig, _, hle, hsum⟩
          intro hnil
          rw [hnil] at hsum
          have h0 : bufferLen = 0 := hsum.symm
          rw [h0] at hz
          exact hz rfl
      refine ⟨notices, pkts, 0, [], .emitted v _ level tag notices pkts rfl rfl hg.passes hn hown, ?_⟩
      have h := hg.effects.append (hfe.append ((effects_memory honly).append heff))
      simpa using h

theorem effects_isrReady (b : Bool) : Effects [(⟨.isrReady, b⟩ : Ev)] [] 0 [] :=
  ⟨rfl, rfl, rfl, rfl⟩

theorem IsrEncoded.effects {packetCap level : ℕ} {tag format : Ptr} {argTypes : ArgTypes}
    {args : VaList} {r : Option (List UInt8)}
    (h : IsrEncoded cfg packetCap level tag format argTypes args es r) : Effects es [] 0 [] := by
  obtain ⟨-, -, -, -, -, honly, -⟩ := h
  apply effects_plain
  intro e he
  rcases honly e he with h | h <;> rw [h] <;> rfl

theorem IsrCall.ends {level : ℕ} {tag format : Ptr} {argTypes : ArgTypes} {args : VaList}
    {ok : Bool} {v : Res} (h : IsrCall cfg level tag format argTypes args ok es) :
    Ends cfg (.writeIsr level tag format argTypes args) v es := by
  cases h with
  | blocked _ hg => exact ⟨[], [], 0, [], .filtered v es level tag rfl hg.blocks, hg.effects⟩
  | notReady gate hg =>
    refine ⟨[], [], 0, [], .noBackend v _ rfl (by simp), ?_⟩
    exact hg.effects.append (effects_isrReady false)
  | unsafeArgs gate hg _ =>
    refine ⟨[], [], 1, [], .dropped v _ level tag [] rfl hg.passes notice_nil, ?_⟩
    exact hg.effects.append ((effects_isrReady true).append effects_addDropped)
  | tooLong gate es' hg _ he =>
    refine ⟨[], [], 1, [], .dropped v _ level tag [] rfl hg.passes notice_nil, ?_⟩
    exact hg.effects.append (((effects_isrReady true).append he.effects).append effects_addDropped)
  | encoded gate es' packet ok hg _ he =>
    cases ok with
    | true =>
      refine ⟨[], [], 0, [packet], .enqueued v _ level tag packet rfl rfl hg.passes, ?_⟩
      have hput : Effects [(⟨.isrEnqueuePacket packet, true⟩ : Ev)] [] 0 [packet] :=
        ⟨rfl, rfl, rfl, rfl⟩
      exact hg.effects.append (((effects_isrReady true).append he.effects).append hput)
    | false =>
      refine ⟨[], [], 1, [], .dropped v _ level tag [] rfl hg.passes notice_nil, ?_⟩
      have hput : Effects [(⟨.isrEnqueuePacket packet, false⟩ : Ev)] [] 0 [] :=
        ⟨rfl, rfl, rfl, rfl⟩
      exact hg.effects.append (((effects_isrReady true).append he.effects).append
        (hput.append effects_addDropped))

theorem TableSection.effects {b : List Ev} (h : TableSection b) :
    Effects (⟨.emitLock, ()⟩ :: b ++ [⟨.emitUnlock, ()⟩]) [] 0 [] := by
  have hl : ∀ {l : List Ev}, OnlyLoads l → ∀ e ∈ l, e.op.plain = true := by
    intro l hl e he
    obtain ⟨i, hi⟩ := hl e he
    rw [hi]
    rfl
  refine effects_plain fun ev hev => ?_
  rcases List.mem_append.mp hev with hev | hev
  · rcases List.mem_cons.mp hev with rfl | hev
    · rfl
    rcases h with h | ⟨l, i, e, h, rfl⟩
    · exact hl h ev hev
    · rcases List.mem_append.mp hev with hev | hev
      · exact hl h ev hev
      · rw [List.mem_singleton.mp hev]
        rfl
  · rw [List.mem_singleton.mp hev]
    rfl

theorem Performs.ends {call : Call} {v : Res} (h : Performs cfg call v es) :
    Ends cfg call v es := by
  cases call with
  | write _ _ _ _ _ => exact h.1.ends rfl rfl fun pkt now ho => ⟨pkt, now, rfl, ho⟩
  | writeWithFormatScan _ _ _ _ _ _ => exact h.1.ends rfl rfl fun pkt now ho => ⟨pkt, now, rfl, ho⟩
  | writeWithFormatScanMetadata _ _ _ _ _ _ _ _ =>
    exact h.1.ends rfl rfl fun pkt now ho => ⟨pkt, now, rfl, ho⟩
  | writeIsr _ _ _ _ _ =>
    obtain ⟨ok, -, h⟩ := h
    exact h.ends
  | writeBuffer _ _ _ _ => exact h.1.ends
  | emitBoot bootId reason =>
    obtain ⟨⟨reply, id, idKind, seq, now, cs, es', rfl, -, -, hem⟩, rfl⟩ := h
    have himage : Effects [(⟨.imageId, reply⟩ : Ev)] [] 0 [] := ⟨rfl, rfl, rfl, rfl⟩
    exact ⟨[], _, 0, [], .boot _ bootId reason _ rfl, himage.append hem.effects⟩
  | encodeTimeSync _ _ _ =>
    refine ⟨[], [], 0, [], .silent v es rfl, ?_⟩
    obtain ⟨bs, -, ⟨rfl, -⟩ | ⟨now, rfl⟩⟩ := h
    · exact ⟨rfl, rfl, rfl, rfl⟩
    · exact ⟨rfl, rfl, rfl, rfl⟩
  | dispatchPacket packet =>
    obtain ⟨e, rfl, h⟩ := h
    cases h with
    | rejected => exact ⟨[], [], 0, [], .silent _ _ rfl, ⟨rfl, rfl, rfl, rfl⟩⟩
    | relayed p header raw flush es' hp hf hem =>
      obtain ⟨notices, hn, hfe⟩ := hf.effects
      rw [hp]
      have ht : headerType header = headerType (p.take packetHeaderLen) := by
        obtain ⟨slots, b, ⟨num, body, hnum, -, -⟩, -⟩ := hem
        exact hnum.headerType_relayed
      refine ⟨notices, [⟨.relayed p, header, chunksOf ⟨p.drop packetHeaderLen, 0, .metaData⟩⟩], 0,
        [], ?_, hfe.append hem.effects⟩
      exact .relayed _ p _ notices rfl rfl ht hn
  | addSink sink callbacks ctx =>
    refine ⟨[], [], 0, [], .silent v es rfl, ?_⟩
    obtain ⟨r, -, ⟨-, rfl, -⟩ | ⟨-, b, hb, rfl⟩⟩ := h
    · exact ⟨rfl, rfl, rfl, rfl⟩
    · exact hb.tableSection.effects
  | removeSink sink ctx =>
    refine ⟨[], [], 0, [], .silent v es rfl, ?_⟩
    obtain ⟨r, -, ⟨-, rfl, -⟩ | ⟨-, b, hb, rfl⟩⟩ := h
    · exact ⟨rfl, rfl, rfl, rfl⟩
    · exact hb.tableSection.effects

/-- A call that is filtered asks the filter first. -/
theorem Performs.gate {call : Call} {v : Res} {level : ℕ} {tag : Ptr} (h : Performs cfg call v es)
    (hc : call.filter = some (level, tag)) :
    ∃ b gate rest, Gate cfg level tag b gate ∧ es = gate ++ rest := by
  have written : ∀ {l : ℕ} {tg format : Ptr} {mask : UInt32} {argTypes : ArgTypes} {n : UInt8}
      {args : VaList}, Written cfg l tg format mask argTypes n args es →
      ∃ b gate rest, Gate cfg l tg b gate ∧ es = gate ++ rest := by
    intro l tg format mask argTypes n args h
    cases h with
    | blocked _ hg => exact ⟨false, es, [], hg, (List.append_nil es).symm⟩
    | passed gate flush es' raw hg _ _ => exact ⟨true, gate, _, hg, rfl⟩
  cases call
  case write =>
    cases hc
    exact written h.1
  case writeWithFormatScan =>
    cases hc
    exact written h.1
  case writeWithFormatScanMetadata =>
    cases hc
    exact written h.1
  case writeIsr =>
    cases hc
    obtain ⟨ok, -, h⟩ := h
    cases h with
    | blocked _ hg => exact ⟨false, es, [], hg, (List.append_nil es).symm⟩
    | notReady gate hg => exact ⟨true, gate, _, hg, rfl⟩
    | unsafeArgs gate hg _ => exact ⟨true, gate, _, hg, rfl⟩
    | tooLong gate es' hg _ _ => exact ⟨true, gate, _, hg, rfl⟩
    | encoded gate es' packet ok hg _ _ => exact ⟨true, gate, _, hg, rfl⟩
  case writeBuffer =>
    cases hc
    cases h.1 with
    | blocked _ hg => exact ⟨false, es, [], hg, (List.append_nil es).symm⟩
    | rejected gate hg _ => exact ⟨true, gate, _, hg, rfl⟩
    | passed gate flush es' raw hg _ _ _ => exact ⟨true, gate, _, hg, rfl⟩
  all_goals cases hc

end On9log
