import On9log.Sending
import On9log.Solo

/-!
# The argument limit (on9log.h:584-590)

A LOG packet carries its argument count behind the inline tag and format. The
task paths drop a call with more than `maxArgs` arguments while measuring it;
the ISR path only drops a packet that does not fit its buffer, so that a large
enough buffer lets such a call through. `arg_limit` says exactly when.
-/

namespace On9log
open Lib Lib.LittleEndian

variable {cfg : Config} {call : Call} {es : List Ev}

/-- The argument count a LOG packet carries. -/
def packetArgCount (header payload : List UInt8) : ℕ :=
  ((skipInline (headerFmtId header) (skipInline (headerTagId header) payload)).getD 0 0).toNat

theorem packetArgCount_headerBytes {type : PacketType} {level : ℕ} {seq : UInt16}
    {timeMs : UInt32} {payloadLen : UInt16} {tag format : Ptr} {tagWire formatWire : WireStr}
    {t f rest : List UInt8} {n : UInt8} (ht : InlineOf es tag tagWire t)
    (hf : InlineOf es format formatWire f) :
    packetArgCount (headerBytes type level seq timeMs tagWire.id formatWire.id payloadLen)
      (t ++ (f ++ (n :: rest))) = n.toNat := by
  unfold packetArgCount
  rw [headerTagId_headerBytes, headerFmtId_headerBytes, skipInline_append ht, skipInline_append hf]
  rfl

/-! ### The limit -/

/-- How many arguments the type table of a call describes. -/
def Call.argTotal : Call → Option ℕ
  | .write _ _ _ argTypes _ => some (argCount argTypes).toNat
  | .writeWithFormatScan _ _ _ _ argTypes _ => some (argCount argTypes).toNat
  | .writeWithFormatScanMetadata _ _ _ _ _ argCount _ _ => some argCount.toNat
  | .writeIsr _ _ _ argTypes _ => some (argCount argTypes).toNat
  | _ => none

/-- The level filter passed the call, and an ISR call found its backend ready. -/
def Enabled (cfg : Config) (call : Call) (es : List Ev) : Prop :=
  ∃ level tag, call.filter = some (level, tag) ∧ Passes cfg level tag es ∧
    (call.isIsr = true → (⟨.isrReady, true⟩ : Ev) ∈ es)

/-- A call with `n` arguments that performed `es` keeps to the limit. -/
structure ArgLimit (cfg : Config) (call : Call) (n : ℕ) (es : List Ev) : Prop where
  sent : ∀ pkt ∈ sentPackets es, (∃ now, pkt.origin = .built .log now) →
    packetArgCount pkt.header pkt.payload ≤ maxArgs
  enqueued : ∀ p ∈ enqueued es,
    packetArgCount (p.take packetHeaderLen) (p.drop packetHeaderLen) ≤ maxArgs
  dropped : Enabled cfg call es → maxArgs < n →
    (∀ pkt ∈ sentPackets es, pkt.IsNotice) ∧ On9log.enqueued es = [] ∧ drops es = 1

/-- The size of the packet `on9log_write_isr` encodes for ISR-safe arguments. -/
def isrPacketLen (cfg : Config) (mem : Mem) (tag format : Ptr) (argTypes : ArgTypes) : ℕ :=
  let inlineMax := min cfg.isrPacketMax cfg.maxDynamicStringLen
  packetHeaderLen + wireStrSize (wireStrIn cfg mem tag inlineMax) +
    wireStrSize (wireStrIn cfg mem format inlineMax) + 1 + (argCount argTypes).toNat +
    ∑ i ∈ Finset.range (argCount argTypes).toNat, argSize (argTypeAt argTypes i) 0

/-- An enabled ISR call with too many ISR-safe arguments for which there is room
in the packet buffer and in the ring buffer. -/
def IsrOverrun (cfg : Config) (mem : Mem) (es : List Ev) : Call → Prop
  | .writeIsr level tag format argTypes args =>
    Enabled cfg (.writeIsr level tag format argTypes args) es ∧
      maxArgs < (argCount argTypes).toNat ∧ argTypesAreIsrSafe argTypes = true ∧
      isrPacketLen cfg mem tag format argTypes ≤ cfg.isrPacketMax ∧
      ∀ p, (⟨.isrEnqueuePacket p, false⟩ : Ev) ∉ es
  | _ => False

/-! ### Task calls -/

theorem ArgLimit.of_sent {pkts : List Packet} {n : ℕ} (h : Effects es pkts 0 [])
    (hn : n ≤ maxArgs) (hpkts : ∀ pkt ∈ pkts, (∃ now, pkt.origin = .built .log now) →
      packetArgCount pkt.header pkt.payload ≤ maxArgs) : ArgLimit cfg call n es where
  sent := by
    rw [h.sentPackets]
    exact hpkts
  enqueued p hp := by
    rw [h.enqueued] at hp
    cases hp
  dropped _ hlt := by omega

theorem ArgLimit.of_drop {notices : List Packet} {n : ℕ} (h : Effects es notices 1 [])
    (hn : Notice notices) : ArgLimit cfg call n es where
  sent pkt hpkt := by
    rw [h.sentPackets] at hpkt
    rintro ⟨now, ho⟩
    obtain ⟨now', ho'⟩ := hn.2 pkt hpkt
    rw [ho] at ho'
    cases ho'
  enqueued p hp := by
    rw [h.enqueued] at hp
    cases hp
  dropped _ _ := by
    rw [h.sentPackets]
    exact ⟨hn.2, h.enqueued, h.drops⟩

theorem ArgLimit.of_silent {n : ℕ} (h : Effects es [] 0 []) (hen : ¬ Enabled cfg call es) :
    ArgLimit cfg call n es where
  sent pkt hpkt := by
    rw [h.sentPackets] at hpkt
    cases hpkt
  enqueued p hp := by
    rw [h.enqueued] at hp
    cases hp
  dropped he := absurd he hen

theorem not_enabled {level : ℕ} {tag : Ptr} (hc : call.filter = some (level, tag))
    (h : ¬ Passes cfg level tag es) : ¬ Enabled cfg call es := by
  rintro ⟨level', tag', hc', hp, -⟩
  rw [hc] at hc'
  cases hc'
  exact h hp

theorem LogChunks.argCount_le {tag format : Ptr} {tagWire formatWire : WireStr}
    {argTypes : ArgTypes} {n : UInt8} {args : VaList} {len : ℕ → UInt32} {cs : List Chunk}
    (h : LogChunks es tag format tagWire formatWire argTypes n args len cs) (level seq now : ℕ)
    (payloadLen : UInt16) : packetArgCount
      (builtPacket .log level seq now tagWire.id formatWire.id payloadLen cs).header
      (builtPacket .log level seq now tagWire.id formatWire.id payloadLen cs).payload = n.toNat := by
  obtain ⟨metaCs, parts, rfl, -, ⟨t, f, ht, hf, hmeta⟩, -⟩ := h
  unfold Packet.payload builtPacket
  rw [payloadOf_append, hmeta]
  simp only [List.append_assoc, List.cons_append]
  exact packetArgCount_headerBytes ht hf

theorem Written.argLimit {level : ℕ} {tag format : Ptr} {mask : UInt32} {argTypes : ArgTypes}
    {n : UInt8} {args : VaList} (hc : call.filter = some (level, tag))
    (h : Written cfg level tag format mask argTypes n args es) :
    ArgLimit cfg call n.toNat es := by
  cases h with
  | blocked _ hg => exact .of_silent hg.effects (not_enabled hc hg.blocks)
  | passed gate flush es' raw hg hf hw =>
    obtain ⟨notices, hn, hfe⟩ := hf.effects
    cases hw with
    | dropped looks honly _ =>
      have h := hg.effects.append (hfe.append ((effects_memory honly).append effects_addDropped))
      simp only [List.append_nil, List.nil_append, Nat.zero_add] at h
      exact .of_drop h hn
    | sent looks es'' tagWire formatWire len payloadLen seq now cs honly _ hle _ _ hcs hem =>
      have h := hg.effects.append (hfe.append ((effects_memory honly).append hem.effects))
      simp only [List.append_nil, List.nil_append, Nat.zero_add] at h
      refine .of_sent h hle fun pkt hpkt hlog => ?_
      rcases List.mem_append.mp hpkt with hpkt | hpkt
      · obtain ⟨now₁, ho₁⟩ := hlog
        obtain ⟨now₂, ho₂⟩ := hn.2 pkt hpkt
        rw [ho₁] at ho₂
        cases ho₂
      · rw [List.mem_singleton.mp hpkt, hcs.argCount_le]
        exact hle

/-! ### ISR calls -/

theorem length_scalarArgs {argTypes : ArgTypes} {n : ℕ}
    (h : ∀ i < n, IsrSafeCode (argTypeAt argTypes i)) (args : VaList) :
    (scalarArgs argTypes args n).length =
      ∑ i ∈ Finset.range n, argSize (argTypeAt argTypes i) 0 := by
  induction n with
  | zero => rfl
  | succ n ih =>
    have hn : (scalarBytes (argTypeAt argTypes n) (vaAfter argTypes args n)).length =
        argSize (argTypeAt argTypes n) 0 := by
      unfold scalarBytes argSize
      rcases h n (by omega) with h | h | h
      all_goals simp only [h, length_bytesLE]
    have ih' := ih fun i hi => h i (by omega)
    unfold scalarArgs at ih' ⊢
    simp only [List.range_succ, List.flatMap_append, List.flatMap_singleton, List.length_append,
      Finset.sum_range_succ, hn, ih']

theorem length_isrPayload {mem : Mem} {tag format : Ptr} {argTypes : ArgTypes} {t f : List UInt8}
    (hsafe : argTypesAreIsrSafe argTypes = true) (args : VaList)
    (ht : t.length = wireStrSize (wireStrIn cfg mem tag
      (min cfg.isrPacketMax cfg.maxDynamicStringLen)))
    (hf : f.length = wireStrSize (wireStrIn cfg mem format
      (min cfg.isrPacketMax cfg.maxDynamicStringLen))) :
    packetHeaderLen + (isrPayload (t ++ f) argTypes args).length =
      isrPacketLen cfg mem tag format argTypes := by
  have hargs := length_scalarArgs (isrSafe_code hsafe) args
  unfold isrPacketLen isrPayload typeTable
  simp only [List.length_append, List.length_cons, List.length_map, List.length_range, ht, hf, hargs]
  omega

/-- The argument count of an encoded packet, and when there is one. -/
theorem IsrEncoded.limit {level : ℕ} {tag format : Ptr} {argTypes : ArgTypes} {args : VaList}
    {r : Option (List UInt8)} (hsafe : argTypesAreIsrSafe argTypes = true)
    (h : IsrEncoded cfg cfg.isrPacketMax level tag format argTypes args es r) :
    (∀ mem, MemIs mem es →
      (r.isSome = true ↔ isrPacketLen cfg mem tag format argTypes ≤ cfg.isrPacketMax)) ∧
    ∀ p, r = some p → packetArgCount (p.take packetHeaderLen) (p.drop packetHeaderLen) =
      (argCount argTypes).toNat := by
  obtain ⟨now, tagWire, formatWire, t, f, -, -, -, -, ht, hf, hmem, rfl⟩ := h
  refine ⟨fun mem hm => ?_, fun p hp => ?_⟩
  · obtain ⟨htag, hformat⟩ := hmem mem hm
    have hlen := length_isrPayload hsafe args (ht.length.trans (by rw [htag]))
      (hf.length.trans (by rw [hformat]))
    rw [hlen]
    split
    · simp only [Option.isSome_none, Bool.false_eq_true, false_iff]
      omega
    · simp only [Option.isSome_some, true_iff]
      omega
  · split at hp
    · cases hp
    · rw [← Option.some.inj hp, List.take_left' (length_headerBytes ..),
        List.drop_left' (length_headerBytes ..)]
      unfold isrPayload
      simp only [List.append_assoc, List.cons_append]
      exact packetArgCount_headerBytes ht hf

theorem ArgLimit.of_encoded {level : ℕ} {tag format : Ptr} {argTypes : ArgTypes} {args : VaList}
    {es' : List Ev} {p : List UInt8} (hn : (argCount argTypes).toNat ≤ maxArgs)
    (hsafe : argTypesAreIsrSafe argTypes = true)
    (henc : IsrEncoded cfg cfg.isrPacketMax level tag format argTypes args es' (some p))
    (h : Effects es [] 0 [p]) : ArgLimit cfg call (argCount argTypes).toNat es where
  sent pkt hpkt := by
    rw [h.sentPackets] at hpkt
    cases hpkt
  enqueued q hq := by
    rw [h.enqueued, List.mem_singleton] at hq
    rw [hq, (henc.limit hsafe).2 p rfl]
    exact hn
  dropped _ hlt := by omega

theorem Gate.only {level : ℕ} {tag : Ptr} {b : Bool} (h : Gate cfg level tag b es) {e : Ev}
    (he : e ∈ es) : e.op = .filterLevelForTag tag := by
  cases h with
  | compileTime => cases he
  | runtime rl _ => rw [List.mem_singleton.mp he]

theorem IsrCall.argLimit {level : ℕ} {tag format : Ptr} {argTypes : ArgTypes} {args : VaList}
    {ok : Bool} {mem : Mem} (hm : MemIs mem es)
    (h : IsrCall cfg level tag format argTypes args ok es) :
    ArgLimit cfg (.writeIsr level tag format argTypes args) (argCount argTypes).toNat es ↔
      ¬ IsrOverrun cfg mem es (.writeIsr level tag format argTypes args) := by
  have hfilter : (Call.writeIsr level tag format argTypes args).filter = some (level, tag) := rfl
  cases h with
  | blocked _ hg =>
    have hen := not_enabled hfilter hg.blocks
    exact iff_of_true (.of_silent hg.effects hen) fun hover => hen hover.1
  | notReady gate hg =>
    have hen : ¬ Enabled cfg (.writeIsr level tag format argTypes args)
        (gate ++ [⟨.isrReady, false⟩]) := by
      rintro ⟨level', tag', -, -, hready⟩
      rcases List.mem_append.mp (hready rfl) with hmem | hmem
      · cases hg.only hmem
      · cases List.mem_singleton.mp hmem
    exact iff_of_true (.of_silent (hg.effects.append (effects_isrReady false)) hen)
      fun hover => hen hover.1
  | unsafeArgs gate hg hs =>
    have he := hg.effects.append ((effects_isrReady true).append effects_addDropped)
    refine iff_of_true (.of_drop he notice_nil) fun hover => ?_
    have hsafe := hover.2.2.1
    rw [hs] at hsafe
    cases hsafe
  | tooLong gate es' hg hs henc =>
    have he := hg.effects.append (((effects_isrReady true).append henc.effects).append
      effects_addDropped)
    refine iff_of_true (.of_drop he notice_nil) fun hover => ?_
    have hmem : MemIs mem es' := fun m h => hm m (by simp [h])
    have hsome := ((henc.limit hs).1 mem hmem).mpr hover.2.2.2.1
    cases hsome
  | encoded gate es' packet ok hg hs henc =>
    have hmem : MemIs mem es' := fun m h => hm m (by simp [h])
    have hfit := ((henc.limit hs).1 mem hmem).mp rfl
    cases ok with
    | false =>
      have hput : Effects [(⟨.isrEnqueuePacket packet, false⟩ : Ev)] [] 0 [] :=
        ⟨rfl, rfl, rfl, rfl⟩
      have he := hg.effects.append (((effects_isrReady true).append henc.effects).append
        (hput.append effects_addDropped))
      refine iff_of_true (.of_drop he notice_nil) fun hover => ?_
      exact hover.2.2.2.2 packet (by simp)
    | true =>
      have hput : Effects [(⟨.isrEnqueuePacket packet, true⟩ : Ev)] [] 0 [packet] :=
        ⟨rfl, rfl, rfl, rfl⟩
      have he := hg.effects.append (((effects_isrReady true).append henc.effects).append hput)
      simp only [if_true]
      have hen : Enabled cfg (.writeIsr level tag format argTypes args)
          (gate ++ (⟨.isrReady, true⟩ :: es' ++ [⟨.isrEnqueuePacket packet, true⟩])) :=
        ⟨level, tag, rfl, hg.passes, fun _ => by simp⟩
      by_cases hn : (argCount argTypes).toNat ≤ maxArgs
      · refine iff_of_true (.of_encoded hn hs henc he) fun hover => ?_
        have hlt := hover.2.1
        omega
      · refine iff_of_false (fun hlimit => ?_) (not_not.mpr ⟨hen, by omega, hs, hfit, ?_⟩)
        · have henq : packet ∈ enqueued (gate ++
              (⟨.isrReady, true⟩ :: es' ++ [⟨.isrEnqueuePacket packet, true⟩])) := by
            have h := he.enqueued
            simp only [List.singleton_append] at h
            rw [h]
            simp
          have hone := hlimit.enqueued packet henq
          rw [(henc.limit hs).2 packet rfl] at hone
          exact hn hone
        · -- the only answer of the ring buffer is the one that accepted
          intro p hp
          simp only [List.cons_append, List.mem_append, List.mem_cons, List.not_mem_nil,
            or_false] at hp
          rcases hp with hp | hp | hp | hp
          · cases hg.only hp
          · cases hp
          · obtain ⟨-, -, -, -, -, honly, -⟩ := henc
            rcases honly _ hp with h | h <;> cases h
          · cases hp

/-! ### In a run -/

/-- A returned call keeps to the argument limit exactly if it is not an ISR call
with more than 32 ISR-safe arguments that both buffers have room for. `mem` is
what the call sees of its tag and format. -/
theorem arg_limit {Tid : Type} [DecidableEq Tid]
    {c : Lib.Config Tid Call Op Op.Ret Res (Shared Tid)}
    {tr : List (Label Tid Call Op Op.Ret Res)} {t : Tid} {v : Res} {n : ℕ} {mem : Mem}
    (h : (system Tid cfg).Run c (.ret t call v :: tr)) (hn : call.argTotal = some n)
    (hm : MemIs mem (callEvents t tr)) :
    ArgLimit cfg call n (callEvents t tr) ↔ ¬ IsrOverrun cfg mem (callEvents t tr) call := by
  have hp := performs_ret h
  cases call with
  | write level tag format argTypes args =>
    cases hn
    exact iff_of_true (hp.1.argLimit rfl) fun hover => hover
  | writeWithFormatScan level tag format formatScan argTypes args =>
    cases hn
    exact iff_of_true (hp.1.argLimit rfl) fun hover => hover
  | writeWithFormatScanMetadata level tag format formatScan argTypes argCount hasDyn args =>
    cases hn
    exact iff_of_true (hp.1.argLimit rfl) fun hover => hover
  | writeIsr level tag format argTypes args =>
    cases hn
    obtain ⟨ok, -, hp⟩ := hp
    exact hp.argLimit hm
  | _ => cases hn

/-- An ISR packet buffer with room for 33 arguments. -/
def wideIsrConfig : Config := { smallConfig with isrPacketMax := 256, isr_ge := by decide }

/-- Thirty-three words. -/
def manyWords : Call := .writeIsr 1 0 0 (some (List.replicate 33 1)) (List.replicate 33 (.u32 0))

/-- A call with 33 arguments reaches the ring buffer. -/
theorem arg_limit_exceeded : ∃ c tr v,
    (system ℕ wideIsrConfig).Run c (.ret 0 manyWords v :: tr) ∧ manyWords.argTotal = some 33 ∧
      ¬ ArgLimit wideIsrConfig manyWords 33 (callEvents 0 tr) := by
  obtain ⟨c, tr, v, hrun, -, -, hx⟩ := run_call wideIsrConfig quietWorld (0 : ℕ) manyWords
    (fun p => (enqueued p.1).map fun p => packetArgCount (p.take packetHeaderLen)
      (p.drop packetHeaderLen)) (a := [33]) (by decide +kernel)
  refine ⟨c, tr, v, hrun, by decide +kernel, fun hlimit => ?_⟩
  obtain ⟨p, hp, hcount⟩ : ∃ p ∈ enqueued (callEvents 0 tr),
      packetArgCount (p.take packetHeaderLen) (p.drop packetHeaderLen) = 33 := by
    apply List.mem_map.mp
    rw [hx]
    exact List.mem_singleton_self 33
  have hle := hlimit.enqueued p hp
  rw [hcount] at hle
  exact absurd hle (by decide)

/-- A task call with 33 arguments is dropped and counted. -/
theorem arg_limit_task : ∃ c tr v, (system ℕ smallConfig).Run c
      (.ret 0 (.write 1 0 0 (some (List.replicate 33 1)) []) v :: tr) ∧
    ArgLimit smallConfig (.write 1 0 0 (some (List.replicate 33 1)) []) 33 (callEvents 0 tr) ∧
    drops (callEvents 0 tr) = 1 := by
  obtain ⟨c, tr, v, hrun, hm, -, hx⟩ := run_call smallConfig quietWorld (0 : ℕ)
    (.write 1 0 0 (some (List.replicate 33 1)) []) (fun p => drops p.1) (a := 1) (by decide +kernel)
  exact ⟨c, tr, v, hrun, (arg_limit hrun (by decide +kernel) hm).mpr fun hover => hover, hx⟩

end On9log
