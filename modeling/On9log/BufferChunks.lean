import On9log.Sending
import On9log.Solo

/-!
# Buffer dumps (on9log.c:1310-1334, 2452-2518)

`on9log_write_buffer` cuts a buffer into BUFFER packets. `bufferChunk` reads a
packet back the way a receiver does, and `Dump` says that the chunks tile the
buffer.
-/

namespace On9log
open Lib Lib.LittleEndian

variable {cfg : Config} {es : List Ev} {mem : Mem}

structure BufferChunk where
  totalLen : ℕ
  offset : ℕ
  chunkLen : ℕ
  data : List UInt8
  deriving DecidableEq

/-- The fields of a BUFFER packet, behind the inline tag. -/
def bufferChunk (pkt : Packet) : BufferChunk :=
  let fields := skipInline (headerTagId pkt.header) pkt.payload
  ⟨valLE (fields.take 4), valLE ((fields.drop 4).take 4), valLE ((fields.drop 8).take 4),
    fields.drop 12⟩

def Packet.isBuffer (pkt : Packet) : Bool := headerType pkt.header = PacketType.buffer.code

/-- The chunks follow each other from `offset` on. -/
def Contiguous : ℕ → List BufferChunk → Prop
  | _, [] => True
  | offset, b :: bs => b.offset = offset ∧ Contiguous (offset + b.chunkLen) bs

/-- `pkts` carry the bytes `data` of a buffer of `total` bytes. -/
structure Dump (total : ℕ) (data : List UInt8) (pkts : List Packet) : Prop where
  contiguous : Contiguous 0 (pkts.map bufferChunk)
  chunk : ∀ pkt ∈ pkts, (bufferChunk pkt).totalLen = total ∧
    (bufferChunk pkt).chunkLen = (bufferChunk pkt).data.length ∧
    (total ≠ 0 → 1 ≤ (bufferChunk pkt).chunkLen)
  fits : ∀ pkt ∈ pkts, headerPayloadLen pkt.header = pkt.payload.length ∧
    pkt.payload.length ≤ payloadLenMax
  data : (pkts.flatMap fun pkt => (bufferChunk pkt).data) = data
  empty : total = 0 → pkts.length = 1

/-! ### One packet -/

theorem readBytes_add (mem : Mem) (p : Ptr) (m n : ℕ) :
    readBytes mem p (m + n) = readBytes mem p m ++ readBytes mem (p + m) n := by
  unfold readBytes
  rw [List.range_add, List.map_append, List.map_map]
  congr 1
  apply List.map_congr_left
  intro i _
  simp only [Function.comp, Nat.add_assoc]

theorem bufferChunk_of_payload {pkt : Packet} {tag : Ptr} {tagWire : WireStr} {t : List UInt8}
    {totalLen offset chunkLen : UInt32} {data : List UInt8}
    (hid : headerTagId pkt.header = tagWire.id.toNat) (ht : InlineOf es tag tagWire t)
    (hpay : pkt.payload = bufferPayload t totalLen offset chunkLen data) :
    bufferChunk pkt = ⟨totalLen.toNat, offset.toNat, chunkLen.toNat, data⟩ := by
  have hskip : skipInline (headerTagId pkt.header) pkt.payload =
      bytesLE 4 totalLen.toNat ++ (bytesLE 4 offset.toNat ++ (bytesLE 4 chunkLen.toNat ++ data)) := by
    rw [hid, hpay]
    exact skipInline_append ht _
  have hlen : ∀ v : UInt32, (bytesLE 4 v.toNat).length = 4 := fun v => length_bytesLE 4 _
  have hval : ∀ v : UInt32, valLE (bytesLE 4 v.toNat) = v.toNat := fun v =>
    valLE_bytesLE 4 _ v.toNat_lt
  have hdrop : ∀ (v : UInt32) (n : ℕ) (rest : List UInt8),
      (bytesLE 4 v.toNat ++ rest).drop (n + 4) = rest.drop n := by
    intro v n rest
    rw [Nat.add_comm, ← List.drop_drop, List.drop_left' (hlen v)]
  have h4 := hdrop totalLen 0
  have h8 := hdrop totalLen 4
  have h12 := hdrop totalLen 8
  unfold bufferChunk
  simp only [hskip]
  rw [h4, h8, h12, hdrop offset 0, hdrop offset 4, hdrop chunkLen 0]
  simp only [List.drop_zero, List.take_left' (hlen _), hval]

theorem BufferPacket.chunk {level : ℕ} {tag bytes : Ptr} {tagWire : WireStr}
    {totalLen offset chunkLen : UInt32} {pkt : Packet} (hm : MemIs mem es)
    (h : BufferPacket cfg level tag tagWire bytes totalLen offset chunkLen pkt es) :
    bufferChunk pkt = ⟨totalLen.toNat, offset.toNat, chunkLen.toNat,
      readBytes mem (bytes + offset.toNat) chunkLen.toNat⟩ := by
  obtain ⟨seq, now, cs, t, mem', rfl, ht, hmem, hpay, -⟩ := h
  have hdata : readBytes mem' (bytes + offset.toNat) chunkLen.toNat =
      readBytes mem (bytes + offset.toNat) chunkLen.toNat := by
    by_cases hz : chunkLen = 0
    · rw [hz]
      rfl
    · rw [hm mem' (hmem hz)]
  rw [← hdata]
  refine bufferChunk_of_payload ?_ ht hpay
  exact headerTagId_headerBytes ..

theorem BufferPacket.fits {level : ℕ} {tag bytes : Ptr} {tagWire : WireStr}
    {totalLen offset chunkLen : UInt32} {pkt : Packet}
    (hfit : wireStrSize tagWire + 3 * 4 + (chunkMax cfg (wireStrSize tagWire)).toNat ≤
      payloadLenMax)
    (hle : chunkLen.toNat ≤ (chunkMax cfg (wireStrSize tagWire)).toNat)
    (h : BufferPacket cfg level tag tagWire bytes totalLen offset chunkLen pkt es) :
    headerPayloadLen pkt.header = pkt.payload.length ∧ pkt.payload.length ≤ payloadLenMax := by
  obtain ⟨seq, now, cs, rfl, hlen, -⟩ := h.emission
  obtain ⟨heq, -⟩ := toNat_bufferPayloadLen hfit hle
  unfold Packet.payload builtPacket
  rw [headerPayloadLen_headerBytes, heq, hlen]
  exact ⟨rfl, by omega⟩

/-! ### The loop -/

theorem BufferPackets.dump {level : ℕ} {tag bytes : Ptr} {tagWire : WireStr}
    {totalLen offset : UInt32} {pkts : List Packet} (hm : MemIs mem es)
    (hfit : wireStrSize tagWire + 3 * 4 + (chunkMax cfg (wireStrSize tagWire)).toNat ≤
      payloadLenMax)
    (h : BufferPackets cfg level tag tagWire bytes totalLen
      (chunkMax cfg (wireStrSize tagWire)) offset pkts es) :
    Contiguous offset.toNat (pkts.map bufferChunk) ∧
      (∀ pkt ∈ pkts, ((bufferChunk pkt).totalLen = totalLen.toNat ∧
        (bufferChunk pkt).chunkLen = (bufferChunk pkt).data.length ∧
        1 ≤ (bufferChunk pkt).chunkLen) ∧
        headerPayloadLen pkt.header = pkt.payload.length ∧ pkt.payload.length ≤ payloadLenMax) ∧
      (pkts.flatMap fun pkt => (bufferChunk pkt).data) =
        readBytes mem (bytes + offset.toNat) (totalLen.toNat - offset.toNat) := by
  induction h with
  | done offset hge =>
    have hle := UInt32.le_iff_toNat_le.mp (UInt32.not_lt.mp hge)
    have hz : totalLen.toNat - offset.toNat = 0 := by omega
    rw [hz]
    exact ⟨trivial, by simp, rfl⟩
  | chunk offset pkt pkts es es' hlt hpkt _ ih =>
    obtain ⟨hm₁, hm₂⟩ := memIs_append.mp hm
    obtain ⟨hcont, hall, hdata⟩ := ih hm₂
    have hpos := UInt32.lt_iff_toNat_lt.mp (chunkMax_pos cfg (wireStrSize tagWire))
    have hofs := UInt32.lt_iff_toNat_lt.mp hlt
    have hlen := toNat_nextChunkLen (chunkMax cfg (wireStrSize tagWire)) hlt
    have hnext := toNat_nextOffset (chunkMax cfg (wireStrSize tagWire)) hlt
    have hchunk := hpkt.chunk hm₁
    have hz : (0 : UInt32).toNat = 0 := rfl
    rw [← hlen] at hnext
    refine ⟨⟨by rw [hchunk], ?_⟩, fun p hp => ?_, ?_⟩
    · rw [hchunk]
      show Contiguous (offset.toNat + _) _
      rw [← hnext]
      exact hcont
    · rcases List.mem_cons.mp hp with rfl | hp
      · refine ⟨?_, hpkt.fits hfit (nextChunkLen_le hlt)⟩
        rw [hchunk]
        refine ⟨rfl, (length_readBytes _ _ _).symm, ?_⟩
        show 1 ≤ (nextChunkLen totalLen offset (chunkMax cfg (wireStrSize tagWire))).toNat
        omega
      · exact hall p hp
    · rw [List.flatMap_cons, hdata, hchunk, hnext]
      show readBytes mem _ _ ++ _ = _
      rw [← Nat.add_assoc, ← readBytes_add]
      congr 1
      omega

theorem BufferPacket.isBuffer {level : ℕ} {tag bytes : Ptr} {tagWire : WireStr}
    {totalLen offset chunkLen : UInt32} {pkt : Packet}
    (h : BufferPacket cfg level tag tagWire bytes totalLen offset chunkLen pkt es) :
    pkt.isBuffer = true := by
  obtain ⟨seq, now, cs, rfl, -⟩ := h.emission
  exact decide_eq_true (headerType_headerBytes ..)

theorem BufferPackets.isBuffer {level : ℕ} {tag bytes : Ptr} {tagWire : WireStr}
    {totalLen max offset : UInt32} {pkts : List Packet}
    (h : BufferPackets cfg level tag tagWire bytes totalLen max offset pkts es) :
    ∀ pkt ∈ pkts, pkt.isBuffer = true := by
  induction h with
  | done => simp
  | chunk offset pkt pkts es es' _ hpkt _ ih =>
    intro p hp
    rcases List.mem_cons.mp hp with rfl | hp
    · exact hpkt.isBuffer
    · exact ih p hp

/-! ### The call -/

/-- No configuration with strings of at most 3048 bytes drops a buffer for its tag. -/
theorem bufferPacket_fits {tagWire : WireStr} (hstr : cfg.maxDynamicStringLen ≤ 3048)
    (hle : tagWire.len.toNat ≤ cfg.maxDynamicStringLen) :
    wireStrSize tagWire + 3 * 4 + (chunkMax cfg (wireStrSize tagWire)).toNat ≤ payloadLenMax := by
  have hsize := wireStrSize_le hle
  have hchunk := cfg.chunk_le
  have hmax := toNat_chunkMax cfg (wireStrSize tagWire)
  unfold payloadLenMax payloadLenStreaming
  split at hmax <;> omega

theorem BufferWritten.dump {level : ℕ} {tag bytes : Ptr} {totalLen : UInt32}
    (hstr : cfg.maxDynamicStringLen ≤ 3048) (hm : MemIs mem es)
    (h : BufferWritten cfg level tag bytes totalLen es) :
    ∃ pkts, Effects es pkts 0 [] ∧ (∀ pkt ∈ pkts, pkt.isBuffer = true) ∧
      Dump totalLen.toNat (readBytes mem bytes totalLen.toNat) pkts := by
  cases h with
  | dropped looks tagWire _ hle hbig =>
    have hfit := bufferPacket_fits hstr hle
    omega
  | sent looks es' tagWire pkts honly _ hfit hpkts =>
    obtain ⟨-, hm'⟩ := memIs_append.mp hm
    have hlooks := effects_memory honly
    rcases hpkts with ⟨hz, pkt, rfl, hpkt⟩ | ⟨hz, hpkts⟩
    · obtain ⟨seq, now, cs, -, -, hem⟩ := hpkt.emission
      have hchunk := hpkt.chunk hm'
      have hlen := hpkt.fits hfit (Nat.zero_le _)
      refine ⟨[pkt], hlooks.append hem.effects, ?_, ?_⟩
      · intro p hp
        rw [List.mem_singleton.mp hp]
        exact hpkt.isBuffer
      · rw [hz]
        constructor
        · rw [List.map_singleton, hchunk]
          exact ⟨rfl, trivial⟩
        · intro p hp
          rw [List.mem_singleton.mp hp, hchunk]
          exact ⟨rfl, rfl, fun h0 => absurd rfl h0⟩
        · intro p hp
          rw [List.mem_singleton.mp hp]
          exact hlen
        · rw [List.flatMap_singleton, hchunk]
          rfl
        · exact fun _ => rfl
    · obtain ⟨hcont, hall, hdata⟩ := hpkts.dump hm' hfit
      refine ⟨pkts, hlooks.append hpkts.effects.1, hpkts.isBuffer, ?_⟩
      constructor
      · exact hcont
      · intro p hp
        obtain ⟨⟨htotal, hlen, hpos⟩, -⟩ := hall p hp
        exact ⟨htotal, hlen, fun _ => hpos⟩
      · exact fun p hp => (hall p hp).2
      · exact hdata
      · intro h0
        exact absurd (UInt32.toNat_inj.mp h0) hz

/-- The BUFFER packets among those a call sent. -/
def buffersSent (es : List Ev) : List Packet := (sentPackets es).filter Packet.isBuffer

theorem Flushed.notBuffer {raw : ℕ} (h : Flushed cfg raw es) :
    ∃ notices, Effects es notices 0 [] ∧ ∀ pkt ∈ notices, pkt.isBuffer = false := by
  have hx : Effects [(⟨.exchangeDropped, raw⟩ : Ev)] [] 0 [] := ⟨rfl, rfl, rfl, rfl⟩
  cases h with
  | none _ => exact ⟨[], hx, by simp⟩
  | notice seq now es' _ hem =>
    refine ⟨_, hx.append hem.effects, fun pkt hpkt => ?_⟩
    rw [List.mem_singleton.mp hpkt]
    apply decide_eq_false
    unfold droppedPacket builtPacket
    rw [headerType_headerBytes]
    decide

theorem filter_isBuffer {notices pkts : List Packet}
    (hnotices : ∀ pkt ∈ notices, pkt.isBuffer = false) (hpkts : ∀ pkt ∈ pkts, pkt.isBuffer = true) :
    (notices ++ pkts).filter Packet.isBuffer = pkts := by
  have hnil : notices.filter Packet.isBuffer = [] := by
    apply List.filter_eq_nil_iff.mpr
    intro pkt hpkt
    rw [hnotices pkt hpkt]
    decide
  rw [List.filter_append, hnil, List.filter_eq_self.mpr hpkts, List.nil_append]

/-- A call that passed the filter and whose buffer can be described sends a dump
of it, whatever the other threads do meanwhile. -/
theorem BufferCall.dump {level : ℕ} {tag buffer : Ptr} {bufferLen : ℕ}
    (hstr : cfg.maxDynamicStringLen ≤ 3048) (hm : MemIs mem es)
    (hgate : ∀ gate, Gate cfg level tag false gate → ¬ gate ⊆ es)
    (hbuf : buffer ≠ 0 ∨ bufferLen = 0) (hlen : bufferLen ≤ uint32Max)
    (h : BufferCall cfg level tag buffer bufferLen es) :
    Dump bufferLen (readBytes mem buffer bufferLen) (buffersSent es) := by
  cases h with
  | blocked _ hg => exact absurd (List.Subset.refl es) (hgate es hg)
  | rejected gate _ hr =>
    rcases hr with ⟨hnull, hne⟩ | hlong
    · rcases hbuf with hbuf | hbuf
      · exact absurd hnull hbuf
      · exact absurd hbuf hne
    · exact absurd hlen (Nat.not_le.mpr hlong)
  | passed gate flush es' raw hg _ hf hw =>
    obtain ⟨-, hm'⟩ := memIs_append.mp hm
    obtain ⟨-, hm'⟩ := memIs_append.mp hm'
    obtain ⟨notices, hfe, hnot⟩ := hf.notBuffer
    obtain ⟨pkts, heff, hbuffers, hdump⟩ := hw.dump hstr hm'
    have htotal : (UInt32.ofNat bufferLen).toNat = bufferLen := by
      unfold uint32Max at hlen
      rw [UInt32.toNat_ofNat']
      omega
    have hall := hg.effects.append (hfe.append heff)
    rw [htotal] at hdump
    unfold buffersSent
    rw [hall.sentPackets, List.nil_append, filter_isBuffer hnot hbuffers]
    exact hdump

/-- With no one else running, a call that passes the filter returns, and its
BUFFER packets are a dump of the buffer. -/
theorem buffer_dumped {Tid : Type} [DecidableEq Tid] (t : Tid) (w : World) {s : Shared Tid}
    {level : ℕ} {tag buffer : Ptr} {bufferLen : ℕ} (hstr : cfg.maxDynamicStringLen ≤ 3048)
    (hfree : s.emitOwner = none) (hpass : w.Passes cfg level tag)
    (hbuf : buffer ≠ 0 ∨ bufferLen = 0) (hlen : bufferLen ≤ uint32Max) :
    ∃ s' es, execCall cfg w t s (.writeBuffer level tag buffer bufferLen) = some (s', es, .unit) ∧
      Dump bufferLen (readBytes w.mem buffer bufferLen) (buffersSent es) := by
  obtain ⟨s', es, v, hx⟩ := call_returns cfg w t hfree (.writeBuffer level tag buffer bufferLen)
  obtain ⟨hcall, rfl⟩ := performs_body (Prog.exec_path hx)
  refine ⟨s', es, hx, hcall.dump hstr (memIs_execCall hx) (fun gate hg hsub => ?_) hbuf hlen⟩
  exact absurd (gate_execCall hx hpass hg hsub) (by decide)

/-- Five bytes with room for four in a packet. -/
theorem buffer_dumped_five : ∃ s' es,
    execCall smallConfig quietWorld (0 : ℕ) Shared.init (.writeBuffer 1 0 1 5) = some (s', es, .unit) ∧
      Dump 5 [0, 0, 0, 0, 0] (buffersSent es) :=
  buffer_dumped 0 quietWorld (by decide) rfl ⟨by unfold levelInRange; decide, by decide, by decide⟩
    (by decide) (by decide)

end On9log
