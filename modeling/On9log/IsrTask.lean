import On9log.LogPacket
import On9log.Solo

/-!
# The ISR path and the task path send the same packet

An ISR packet is encoded by code of its own, with its own limit for the string
scan, and numbered when it is dispatched. `isr_same_packet` says that a sink
still receives what `on9log_write` would have sent.
-/

namespace On9log
open Lib Lib.LittleEndian

variable {cfg : Config} {mem : Mem} {level : ℕ} {tag format : Ptr} {argTypes : ArgTypes}
  {args : VaList} {es : List Ev}

/-! ### The scan limit -/

/-- A scan that stops before its limit finds the same with a larger one. -/
theorem boundedStrlen_limit {str : Ptr} {a b : ℕ} (h : boundedStrlen mem str a < a)
    (hab : a ≤ b) : boundedStrlen mem str b = boundedStrlen mem str a := by
  induction a generalizing str b with
  | zero => omega
  | succ a ih =>
    obtain ⟨b, rfl⟩ : ∃ b', b = b' + 1 := ⟨b - 1, by omega⟩
    unfold boundedStrlen at h ⊢
    split
    · rfl
    · rename_i hne
      rw [if_neg hne] at h
      have hrec : boundedStrlen mem (str + 1) b = boundedStrlen mem (str + 1) a :=
        ih (by omega) (by omega)
      rw [hrec]

theorem wireStrIn_limit {str : Ptr} {a b : ℕ} (ha : a ≤ uint32Max)
    (h : wireStrSize (wireStrIn cfg mem str a) ≤ a) (hab : a ≤ b) :
    wireStrIn cfg mem str a = wireStrIn cfg mem str b := by
  unfold wireStrIn at h ⊢
  by_cases hc : str ≠ 0 ∧ cfg.addrInImage str = false
  · rw [if_pos hc] at h ⊢
    rw [if_pos hc]
    have hle := boundedStrlen_le mem str a
    have hlen : (UInt32.ofNat (boundedStrlen mem str a)).toNat = boundedStrlen mem str a := by
      unfold uint32Max at ha
      rw [UInt32.toNat_ofNat']
      omega
    unfold wireStrSize at h
    rw [if_pos rfl, hlen] at h
    rw [boundedStrlen_limit (by omega) hab]
  · rw [if_neg hc, if_neg hc]

/-- What fits the ISR buffer was scanned as far as a task would have. -/
theorem wireStrIn_isr {str : Ptr}
    (h : wireStrSize (wireStrIn cfg mem str (min cfg.isrPacketMax cfg.maxDynamicStringLen)) ≤
      cfg.isrPacketMax) :
    wireStrIn cfg mem str (min cfg.isrPacketMax cfg.maxDynamicStringLen) = tagWireIn cfg mem str := by
  have hstr := cfg.string_le
  by_cases hle : cfg.maxDynamicStringLen ≤ cfg.isrPacketMax
  · rw [Nat.min_eq_right hle]
    rfl
  · have hmin : min cfg.isrPacketMax cfg.maxDynamicStringLen = cfg.isrPacketMax :=
      Nat.min_eq_left (by omega)
    rw [hmin] at h ⊢
    apply wireStrIn_limit _ h (by omega)
    unfold uint32Max at *
    omega

/-! ### The encoded packet -/

theorem argWire_scalar {mask : UInt32} {i : ℕ} (h : IsrSafeCode (argTypeAt argTypes i)) :
    argWire cfg mem argTypes mask args i =
      scalarBytes (argTypeAt argTypes i) (vaAfter argTypes args i) := by
  unfold argWire argBytes scalarBytes
  rcases h with h | h | h
  all_goals simp only [h]

theorem IsrEncoded.exact {p : List UInt8} (hsafe : argTypesAreIsrSafe argTypes = true)
    (hm : MemIs mem es) (mask : UInt32)
    (h : IsrEncoded cfg cfg.isrPacketMax level tag format argTypes args es (some p)) :
    ∃ now, (⟨.isrTimestampMs, now⟩ : Ev) ∈ es ∧ p.length ≤ cfg.isrPacketMax ∧
      p = (logPacket cfg mem level tag format mask argTypes (argCount argTypes) args 0 now).1 ++
        (logPacket cfg mem level tag format mask argTypes (argCount argTypes) args 0 now).2 := by
  obtain ⟨now, tagWire, formatWire, t, f, -, hnow, -, -, ht, hf, hmem, hr⟩ := h
  obtain ⟨htag, hformat⟩ := hmem mem hm
  refine ⟨now, hnow, ?_⟩
  split at hr
  · cases hr
  rename_i hfit
  have hlen : t.length + f.length ≤ (isrPayload (t ++ f) argTypes args).length := by
    unfold isrPayload
    rw [List.length_append, List.length_append]
    omega
  have htlen := ht.length
  have hflen := hf.length
  rw [htag] at htlen
  rw [hformat] at hflen
  rw [wireStrIn_isr (by omega)] at htag
  rw [wireStrIn_isr (by omega)] at hformat
  subst htag hformat
  have hpay : isrPayload (t ++ f) argTypes args =
      logPayload cfg mem tag format mask argTypes (argCount argTypes) args := by
    have hargs : scalarArgs argTypes args (argCount argTypes).toNat =
        (List.range (argCount argTypes).toNat).flatMap (argWire cfg mem argTypes mask args) := by
      unfold scalarArgs
      apply List.flatMap_congr
      intro i hi
      exact (argWire_scalar (isrSafe_code hsafe i (List.mem_range.mp hi))).symm
    unfold isrPayload logPayload
    rw [hargs, ht.bytes hm, hf.bytes hm]
    simp only [List.append_assoc]
  rw [hpay] at hr hfit
  rw [Option.some.inj hr]
  refine ⟨?_, rfl⟩
  rw [List.length_append, length_headerBytes]
  omega

/-! ### Dispatch -/

/-- `on9log_dispatch_packet` accepts a packet with a header and the magic byte. -/
theorem dispatch_accepts {p : List UInt8} {v : Err} (hlen : packetHeaderLen ≤ p.length)
    (hmagic : p.getD 0 0 = packetMagic) (h : (dispatchPacket cfg (some p)).Path es v) :
    v = .ok := by
  rcases (Prog.path_ite _ _ _ _ _).mp h with ⟨hc, h⟩ | ⟨-, h⟩
  · omega
  rcases (Prog.path_ite _ _ _ _ _).mp h with ⟨hc, h⟩ | ⟨-, h⟩
  · exact absurd hmagic hc
  obtain ⟨_, e₁, e₂, rfl, -, h⟩ := (Prog.path_bind _ _ _ _).mp h
  exact (Prog.path_then_pure h).2

theorem dispatch_numbers {p header : List UInt8} {num : List Ev}
    (hnum : Numbered (.relayed p) header num)
    (ht : headerType (p.take packetHeaderLen) ≠ PacketType.timeSync.code) :
    ∃ raw, header = renumber (p.take packetHeaderLen) (UInt16.ofNat raw) := by
  cases hnum with
  | relayed _ raw _ _ => exact ⟨raw, rfl⟩
  | timeSync _ h _ => exact absurd h ht

/-- Dispatching the packet of an ISR call sends its payload, and its header with
the next sequence number. -/
theorem dispatch_exact {mask : UInt32} {n : UInt8} {now : ℕ} {p : List UInt8} {v : Err}
    (hp : p = (logPacket cfg mem level tag format mask argTypes n args 0 now).1 ++
      (logPacket cfg mem level tag format mask argTypes n args 0 now).2)
    (h : (dispatchPacket cfg (some p)).Path es v) :
    ∃ notices pkt raw, Notice notices ∧ sentPackets es = notices ++ [pkt] ∧
      (pkt.header, pkt.payload) =
        logPacket cfg mem level tag format mask argTypes n args raw now := by
  have hhead : ∀ seq, (logPacket cfg mem level tag format mask argTypes n args seq now).1.length =
      packetHeaderLen := fun seq => length_headerBytes ..
  have htake : p.take packetHeaderLen =
      (logPacket cfg mem level tag format mask argTypes n args 0 now).1 := by
    rw [hp]
    exact List.take_left' (hhead 0)
  have hdrop : p.drop packetHeaderLen =
      (logPacket cfg mem level tag format mask argTypes n args 0 now).2 := by
    rw [hp]
    exact List.drop_left' (hhead 0)
  have hlen : packetHeaderLen ≤ p.length := by
    rw [hp, List.length_append, hhead]
    omega
  have hmagic : p.getD 0 0 = packetMagic := by
    rw [hp]
    rfl
  have hok := dispatch_accepts hlen hmagic h
  generalize hpkt : some p = packet at h
  have hcall := dispatchCall_dispatchPacket h
  cases hcall with
  | rejected => cases hok
  | relayed p' header raw flush es' hpacket hf hem =>
    rw [hpacket] at hpkt
    cases hpkt
    obtain ⟨notices, hn, hfe⟩ := hf.effects
    have hall := (hfe.append hem.effects).sentPackets
    obtain ⟨slots, b, ⟨num, body, hnum, -, -⟩, -⟩ := hem
    have htype : headerType (p.take packetHeaderLen) ≠ PacketType.timeSync.code := by
      rw [htake]
      show headerType (headerBytes ..) ≠ _
      rw [headerType_headerBytes]
      decide
    obtain ⟨raw', rfl⟩ := dispatch_numbers hnum htype
    refine ⟨notices, _, raw', hn, hall, ?_⟩
    unfold Packet.payload
    rw [payloadOf_chunksOf, htake, hdrop]
    show (renumber (headerBytes ..) _, _) = _
    rw [renumber_headerBytes]
    rfl

/-! ### The same packet -/

theorem Effects.not_enqueued {pkts : List Packet} {d : ℕ} (h : Effects es pkts d [])
    (p : List UInt8) : p ∉ On9log.enqueued es := by
  rw [h.enqueued]
  exact List.not_mem_nil

/-- What an ISR call that reached the ring buffer put there. -/
theorem IsrCall.exact {ok : Bool} {p : List UInt8} (hm : MemIs mem es) (hp : p ∈ enqueued es)
    (mask : UInt32) (h : IsrCall cfg level tag format argTypes args ok es) :
    argTypesAreIsrSafe argTypes = true ∧
      ∃ now, (⟨.isrTimestampMs, now⟩ : Ev) ∈ es ∧ p.length ≤ cfg.isrPacketMax ∧
        p = (logPacket cfg mem level tag format mask argTypes (argCount argTypes) args 0 now).1 ++
          (logPacket cfg mem level tag format mask argTypes (argCount argTypes) args 0 now).2 := by
  cases h with
  | blocked _ hg => exact absurd hp (hg.effects.not_enqueued p)
  | notReady gate hg =>
    exact absurd hp ((hg.effects.append (effects_isrReady false)).not_enqueued p)
  | unsafeArgs gate hg _ =>
    have he := hg.effects.append ((effects_isrReady true).append effects_addDropped)
    exact absurd hp (he.not_enqueued p)
  | tooLong gate es' hg _ henc =>
    have he := hg.effects.append (((effects_isrReady true).append henc.effects).append
      effects_addDropped)
    exact absurd hp (he.not_enqueued p)
  | encoded gate es' packet _ hg hs henc =>
    have hm' : MemIs mem es' := fun m h => hm m (by simp [h])
    obtain ⟨now, hnow, hfit, hpacket⟩ := henc.exact hs hm' mask
    have hbefore := hg.effects.append ((effects_isrReady true).append henc.effects)
    cases ok with
    | false =>
      have hput : Effects [(⟨.isrEnqueuePacket packet, false⟩ : Ev), ⟨.addDropped, ()⟩] [] 1 [] :=
        ⟨rfl, rfl, rfl, rfl⟩
      have he := hbefore.append hput
      rw [List.append_assoc] at he
      exact absurd hp (he.not_enqueued p)
    | true =>
      have hput : Effects [(⟨.isrEnqueuePacket packet, true⟩ : Ev)] [] 0 [packet] :=
        ⟨rfl, rfl, rfl, rfl⟩
      have he := (hbefore.append hput).enqueued
      rw [List.append_assoc] at he
      have hpp : p ∈ [packet] := by
        rw [← show enqueued _ = [packet] from he]
        exact hp
      rw [List.mem_singleton.mp hpp]
      exact ⟨hs, now, by simp [hnow], hfit, hpacket⟩

theorem logPacket_seq {mask : UInt32} {n : UInt8} {seq now : ℕ} {header payload : List UInt8}
    (h : (header, payload) = logPacket cfg mem level tag format mask argTypes n args seq now) :
    headerSeq header = (UInt16.ofNat seq).toNat ∧ headerTimeMs header = (UInt32.ofNat now).toNat ∧
      payload = logPayload cfg mem tag format mask argTypes n args := by
  unfold logPacket at h
  cases h
  exact ⟨headerSeq_headerBytes .., headerTimeMs_headerBytes .., rfl⟩

/-- The packet of an ISR call that reached the ring buffer, once dispatched, is
the one `on9log_write` sends for the same call, but for its sequence number and
with the time stamp of the ISR. `mem` is what both calls see of the tag and the
format. -/
theorem isr_same_packet {Tid : Type} [DecidableEq Tid]
    {c₁ c₂ c₃ : Lib.Config Tid Call Op Op.Ret Res (Shared Tid)}
    {tr₁ tr₂ tr₃ : List (Label Tid Call Op Op.Ret Res)} {t₁ t₂ t₃ : Tid} {v₁ v₂ v₃ : Res}
    {p : List UInt8} (hmax : cfg.isrPacketMax ≤ 3072)
    (hn : (argCount argTypes).toNat ≤ maxArgs)
    (h₁ : (system Tid cfg).Run c₁ (.ret t₁ (.writeIsr level tag format argTypes args) v₁ :: tr₁))
    (hm₁ : MemIs mem (callEvents t₁ tr₁)) (hp : p ∈ enqueued (callEvents t₁ tr₁))
    (h₂ : (system Tid cfg).Run c₂ (.ret t₂ (.dispatchPacket (some p)) v₂ :: tr₂))
    (h₃ : (system Tid cfg).Run c₃ (.ret t₃ (.write level tag format argTypes args) v₃ :: tr₃))
    (hm₃ : MemIs mem (callEvents t₃ tr₃)) (hpass : Passes cfg level tag (callEvents t₃ tr₃)) :
    ∃ notices₂ pkt₂ notices₃ pkt₃ now, (⟨.isrTimestampMs, now⟩ : Ev) ∈ callEvents t₁ tr₁ ∧
      Notice notices₂ ∧ sentPackets (callEvents t₂ tr₂) = notices₂ ++ [pkt₂] ∧
      Notice notices₃ ∧ sentPackets (callEvents t₃ tr₃) = notices₃ ++ [pkt₃] ∧
      headerTimeMs pkt₂.header = now % 2 ^ 32 ∧
      (headerSeq pkt₂.header = headerSeq pkt₃.header →
        headerTimeMs pkt₂.header = headerTimeMs pkt₃.header →
        pkt₂.header = pkt₃.header ∧ pkt₂.payload = pkt₃.payload) := by
  obtain ⟨ok, -, hisr⟩ := performs_ret h₁
  obtain ⟨hsafe, now, hnow, hfit, hpacket⟩ := hisr.exact hm₁ hp 0
  obtain ⟨e, hdispatch, -⟩ := path_bind_pure h₂.ret_path
  obtain ⟨notices₂, pkt₂, raw, hn₂, hs₂, hpkt₂⟩ := dispatch_exact hpacket hdispatch
  obtain ⟨notices₃, hn₃, hwritten⟩ := (performs_ret h₃).1.exact hm₃ hpass
  obtain ⟨hseq₂, htime₂, hpay₂⟩ := logPacket_seq hpkt₂
  have hlen : (logPayload cfg mem tag format 0 argTypes (argCount argTypes) args).length ≤
      payloadLenMax := by
    have hle : (logPacket cfg mem level tag format 0 argTypes (argCount argTypes) args 0 now).2.length ≤
        p.length := by
      rw [hpacket, List.length_append]
      omega
    show (logPacket cfg mem level tag format 0 argTypes (argCount argTypes) args 0 now).2.length ≤ _
    unfold payloadLenMax payloadLenStreaming
    omega
  rcases hwritten with ⟨hbig, -⟩ | ⟨-, -, pkt₃, seq₃, now₃, -, -, he₃, -, -, -, hpkt₃⟩
  · omega
  obtain ⟨hseq₃, htime₃, hpay₃⟩ := logPacket_seq hpkt₃
  refine ⟨notices₂, pkt₂, notices₃, pkt₃, now, hnow, hn₂, hs₂, hn₃, he₃.sentPackets, ?_,
    fun hseq htime => ⟨?_, ?_⟩⟩
  · rw [htime₂, UInt32.toNat_ofNat']
  · rw [hseq₂, hseq₃] at hseq
    rw [htime₂, htime₃] at htime
    have hh₂ := congrArg Prod.fst hpkt₂
    have hh₃ := congrArg Prod.fst hpkt₃
    unfold logPacket at hh₂ hh₃
    dsimp only at hh₂ hh₃
    rw [UInt16.toNat_inj.mp hseq, UInt32.toNat_inj.mp htime] at hh₂
    rw [hh₂, hh₃]
  · rw [hpay₂, hpay₃]

/-- A call without arguments, from an ISR and from a task. -/
theorem isr_same_packet_plain : ∃ c₁ c₂ c₃ tr₁ tr₂ tr₃ v₁ v₂ v₃ p,
    (system ℕ smallConfig).Run c₁ (.ret 0 (.writeIsr 1 0 0 none []) v₁ :: tr₁) ∧
    p ∈ enqueued (callEvents 0 tr₁) ∧
    (system ℕ smallConfig).Run c₂ (.ret 0 (.dispatchPacket (some p)) v₂ :: tr₂) ∧
    (system ℕ smallConfig).Run c₃ (.ret 0 (.write 1 0 0 none []) v₃ :: tr₃) ∧
    ∃ pkt₂ ∈ sentPackets (callEvents 0 tr₂), ∃ pkt₃ ∈ sentPackets (callEvents 0 tr₃),
      headerSeq pkt₂.header = headerSeq pkt₃.header →
        headerTimeMs pkt₂.header = headerTimeMs pkt₃.header →
        pkt₂.header = pkt₃.header ∧ pkt₂.payload = pkt₃.payload := by
  obtain ⟨c₁, tr₁, v₁, h₁, hm₁, -, hp⟩ := run_call smallConfig quietWorld (0 : ℕ)
    (.writeIsr 1 0 0 none []) (fun p => enqueued p.1)
    (a := [[0x9a, 1, 0, 0, 0, 0, 0, 0, 0, 0, 0, 0, 0, 0, 0, 0, 1, 0, 0]]) (by decide +kernel)
  obtain ⟨c₂, tr₂, v₂, h₂, -, -, -⟩ := run_call smallConfig quietWorld (0 : ℕ)
    (.dispatchPacket (some [0x9a, 1, 0, 0, 0, 0, 0, 0, 0, 0, 0, 0, 0, 0, 0, 0, 1, 0, 0]))
    (fun p => drops p.1) (a := 0) (by decide +kernel)
  obtain ⟨c₃, tr₃, v₃, h₃, hm₃, hpass, -⟩ := run_call smallConfig quietWorld (0 : ℕ)
    (.write 1 0 0 none []) (fun p => drops p.1) (a := 0) (by decide +kernel)
  have hp₁ := List.mem_singleton_self
    ([0x9a, 1, 0, 0, 0, 0, 0, 0, 0, 0, 0, 0, 0, 0, 0, 0, 1, 0, 0] : List UInt8)
  rw [← hp] at hp₁
  have hopen := hpass 1 0 rfl ⟨by unfold levelInRange; decide, by decide, by decide⟩
  obtain ⟨notices₂, pkt₂, notices₃, pkt₃, now, -, -, hs₂, -, hs₃, -, hsame⟩ :=
    isr_same_packet (by decide) (by decide) h₁ hm₁ hp₁ h₂ h₃ hm₃ hopen
  refine ⟨c₁, c₂, c₃, tr₁, tr₂, tr₃, v₁, v₂, v₃, _, h₁, hp₁, h₂, h₃, pkt₂, ?_, pkt₃, ?_, hsame⟩
  · rw [hs₂]
    simp
  · rw [hs₃]
    simp

end On9log
