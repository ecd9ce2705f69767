import On9log.Progress
import On9log.Solo

/-!
# The payload length field

Every packet the library builds announces exactly the payload bytes its sinks
then receive. Task packets are measured before they are sent (`Packet.Sound`);
an ISR packet is measured when it is encoded, and dispatching changes only its
sequence number.
-/

namespace On9log
open Lib Lib.LittleEndian

variable {Tid : Type} [DecidableEq Tid] {cfg : Config}
  {c : Lib.Config Tid Call Op Op.Ret Res (Shared Tid)}
  {tr : List (Label Tid Call Op Op.Ret Res)}

/-- A packet built by the library: in task context, or by an ISR call that
handed it to the ring buffer. -/
def Packet.Own (pkt : Packet) (es : List Ev) : Prop :=
  (∃ type now, pkt.origin = .built type now) ∨
    ∃ p ok, pkt.origin = .relayed p ∧ (⟨.isrEnqueuePacket p, ok⟩ : Ev) ∈ es

theorem isrPacket_of_enqueued (h : (system Tid cfg).Run c tr) {p : List UInt8} {ok : Bool}
    (he : (⟨.isrEnqueuePacket p, ok⟩ : Ev) ∈ actEvents tr) : IsrPacket cfg p := by
  obtain ⟨call, es, v, hp, hmem⟩ := h.mem_actEvents he
  exact (serial_body hp).isrPacket hmem

/-- Numbering a finished packet keeps its length field. -/
theorem Numbered.payloadLen {header p : List UInt8} {num : List Ev}
    (h : Numbered (.relayed p) header num) :
    headerPayloadLen header = headerPayloadLen (p.take packetHeaderLen) := by
  cases h with
  | relayed _ raw _ hlen =>
    refine headerPayloadLen_renumber ?_ _
    rw [List.length_take]
    omega
  | timeSync _ _ _ => rfl

theorem IsrPacket.measured {p : List UInt8} (hstr : cfg.maxDynamicStringLen ≤ 3048)
    (h : IsrPacket cfg p) {pkt : Packet} {num : List Ev} (horigin : pkt.origin = .relayed p)
    (hs : pkt.Sound) (hnum : Numbered pkt.origin pkt.header num) : pkt.Measured := by
  obtain ⟨level, now, tagId, fmtId, payload, rfl, hlen, -⟩ := h
  have hpayload := hs.relayed _ horigin
  rw [horigin] at hnum
  have hheader := hnum.payloadLen
  rw [List.take_append_of_le_length (by rw [length_headerBytes]), List.take_of_length_le
    (by rw [length_headerBytes]), headerPayloadLen_headerBytes, UInt16.toNat_ofNat'] at hheader
  rw [List.drop_append_of_le_length (by rw [length_headerBytes]), List.drop_of_length_le
    (by rw [length_headerBytes]), List.nil_append] at hpayload
  unfold Packet.Measured payloadLenStreaming
  rw [hheader, hpayload]
  omega

/-- What a sink has received of a packet the library built: as many payload
bytes as the header says, never announced by the reserved length. -/
theorem payload_len_exact (hstr : cfg.maxDynamicStringLen ≤ 3048)
    (h : (system Tid cfg).Run c tr) (e : SinkEntry) :
    SeesWhole (wireOf cfg (actEvents tr)) e (sinkCalls e (actEvents tr)) ∧
      ∀ pkt ∈ (wireOf cfg (actEvents tr)).to e, pkt.Own (actEvents tr) →
        headerPayloadLen pkt.header = (payloadOf pkt.chunks).length ∧
          headerPayloadLen pkt.header ≠ payloadLenStreaming := by
  obtain ⟨hp, -⟩ := progress_run h
  refine ⟨hp.calls e, fun pkt hpkt hown => ?_⟩
  obtain ⟨s, hs, rfl⟩ := List.mem_map.mp hpkt
  have hsent := (List.mem_filter.mp hs).1
  have hsound := hp.sound s hsent
  rcases hown with ⟨type, now, ho⟩ | ⟨p, ok, ho, hmem⟩
  · exact hsound.measured type now ho
  · obtain ⟨num, hnum⟩ := hp.numbered s (List.mem_append_left _ hsent)
    exact (isrPacket_of_enqueued h hmem).measured hstr ho hsound hnum

/-- A sink is registered, then a BOOT packet is emitted. -/
theorem payload_len_exact_boot : ∃ c tr, (system ℕ smallConfig).Run c tr ∧
    ∃ pkt ∈ (wireOf smallConfig (actEvents tr)).to ⟨1, 7⟩, pkt.Own (actEvents tr) ∧
      headerPayloadLen pkt.header = (payloadOf pkt.chunks).length := by
  obtain ⟨c, tr, hrun, -, hto⟩ := run_from_init smallConfig quietWorld (0 : ℕ)
    [.addSink 1 ⟨1, 1, 1⟩ 7, .emitBoot 3 1] (fun p => (wireOf smallConfig (actEvents p.2)).to ⟨1, 7⟩)
    (a := [⟨.built .boot 0, [0x9a, 0x30, 0, 0, 0, 0, 0, 0, 0, 0, 0, 0, 0, 0, 0, 0, 8, 0],
      [⟨[3, 0, 0, 0], 0, .metaData⟩, ⟨[1, 1, 0, 0], 0, .metaData⟩]⟩]) (by decide +kernel)
  obtain ⟨pkt, ho, hpkt⟩ : ∃ pkt : Packet, pkt.origin = .built .boot 0 ∧
      (wireOf smallConfig (actEvents tr)).to ⟨1, 7⟩ = [pkt] := ⟨_, rfl, hto⟩
  have hmem : pkt ∈ (wireOf smallConfig (actEvents tr)).to ⟨1, 7⟩ := by
    rw [hpkt]
    exact List.mem_singleton_self pkt
  have hown : pkt.Own (actEvents tr) := Or.inl ⟨.boot, 0, ho⟩
  exact ⟨c, tr, hrun, pkt, hmem, hown,
    ((payload_len_exact (by decide) hrun ⟨1, 7⟩).2 pkt hmem hown).1⟩

end On9log
