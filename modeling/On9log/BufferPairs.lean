import Mathlib.Algebra.Order.Floor.Div
import Mathlib.Data.Sym.Sym2
import On9log.BufferChunks
import On9log.Decode
import On9log.SentBy

/-!
# Two dumps at once (on9log.c:1310-1334, 2452-2518)

A BUFFER packet has no dump identity: level, tag, total length and offset are
all that ties it to its buffer. Packets of two dumps that differ in one of the
first three are told apart; of two that do not, a receiver learns the two pieces
at each offset and not which is whose.
-/

namespace On9log
open Lib Lib.LittleEndian

/-! ### Buffers in pieces -/

/-- The level of a dump, and its tag as the packets carry it. -/
structure DumpTag where
  level : ℕ
  tagId : ℕ
  inlineTag : List UInt8
  deriving DecidableEq

/-- A dumped buffer, as far as packets can tell. -/
structure Logged where
  tag : DumpTag
  data : List UInt8
  deriving DecidableEq

/-- What a receiver reads in one BUFFER packet. -/
structure BufferInfo where
  tag : DumpTag
  totalLen : ℕ
  offset : ℕ
  data : List UInt8
  deriving DecidableEq

variable {cfg : Config}

def chunkSize (cfg : Config) (tag : DumpTag) : ℕ := (chunkMax cfg tag.inlineTag.length).toNat

def Logged.key (d : Logged) : DumpTag × ℕ := (d.tag, d.data.length)

def BufferInfo.key (b : BufferInfo) : DumpTag × ℕ := (b.tag, b.totalLen)

def Logged.piece (cfg : Config) (d : Logged) (k : ℕ) : List UInt8 :=
  (d.data.drop (k * chunkSize cfg d.tag)).take (chunkSize cfg d.tag)

/-- An empty buffer has one packet. -/
def pieceCount (cfg : Config) (key : DumpTag × ℕ) : ℕ := max 1 (key.2 ⌈/⌉ chunkSize cfg key.1)

def Logged.info (cfg : Config) (d : Logged) (k : ℕ) : BufferInfo :=
  ⟨d.tag, d.data.length, k * chunkSize cfg d.tag, d.piece cfg k⟩

def Logged.infos (cfg : Config) (d : Logged) : List BufferInfo :=
  (List.range (pieceCount cfg d.key)).map (d.info cfg)

theorem chunkSize_pos (cfg : Config) (tag : DumpTag) : 0 < chunkSize cfg tag :=
  UInt32.lt_iff_toNat_lt.mp (chunkMax_pos cfg tag.inlineTag.length)

theorem piece_beyond {d : Logged} {k : ℕ} (hk : pieceCount cfg d.key ≤ k) : d.piece cfg k = [] := by
  have hceil : d.data.length ⌈/⌉ chunkSize cfg d.tag ≤ k := (le_max_right 1 _).trans hk
  have hlen : d.data.length ≤ chunkSize cfg d.tag * k :=
    (ceilDiv_le_iff_le_mul (chunkSize_pos cfg d.tag)).mp hceil
  unfold Logged.piece
  rw [Nat.mul_comm, List.drop_of_length_le hlen, List.take_nil]

/-- A buffer is its pieces. -/
theorem eq_of_pieces (cfg : Config) {d d' : Logged} (ht : d.tag = d'.tag)
    (h : ∀ k, d.piece cfg k = d'.piece cfg k) : d = d' := by
  have hdata : d.data = d'.data := by
    apply List.ext_getElem?
    intro i
    have hpos := chunkSize_pos cfg d.tag
    have hsplit : i / chunkSize cfg d.tag * chunkSize cfg d.tag + i % chunkSize cfg d.tag = i := by
      rw [Nat.mul_comm]
      exact Nat.div_add_mod i _
    have hlt := Nat.mod_lt i hpos
    have hi := congrArg (fun l => l[i % chunkSize cfg d.tag]?) (h (i / chunkSize cfg d.tag))
    unfold Logged.piece at hi
    rw [← ht] at hi
    simpa only [List.getElem?_take_of_lt hlt, List.getElem?_drop, hsplit] using hi
  cases d
  cases d'
  simp_all

theorem filter_range (n k : ℕ) :
    (List.range n).filter (fun j => decide (j = k)) = if k < n then [k] else [] := by
  induction n with
  | zero => simp
  | succ n ih =>
    rw [List.range_succ, List.filter_append, ih]
    by_cases hk : k < n
    · have hne : n ≠ k := by omega
      simp [hk, hne, Nat.lt_succ_of_lt hk]
    · by_cases hn : n = k
      · simp [hn]
      · have hlt : ¬ k < n + 1 := by omega
        simp [hk, hn, hlt]

/-- Where a piece of a dump with key `key` is found. -/
def BufferInfo.at (cfg : Config) (key : DumpTag × ℕ) (k : ℕ) (b : BufferInfo) : Bool :=
  decide (b.key = key ∧ b.offset = k * chunkSize cfg key.1)

theorem filter_infos (d : Logged) (key : DumpTag × ℕ) (k : ℕ) :
    (d.infos cfg).filter (BufferInfo.at cfg key k) =
      if d.key = key ∧ k < pieceCount cfg key then [d.info cfg k] else [] := by
  unfold Logged.infos
  rw [List.filter_map]
  by_cases hkey : d.key = key
  · subst hkey
    have hat : ∀ j, (BufferInfo.at cfg d.key k ∘ d.info cfg) j = decide (j = k) := by
      intro j
      have hpos := chunkSize_pos cfg d.tag
      have hmul : j * chunkSize cfg d.tag = k * chunkSize cfg d.tag ↔ j = k :=
        Nat.mul_left_inj (by omega)
      simp [BufferInfo.at, Logged.info, BufferInfo.key, Logged.key, hmul]
    rw [show (BufferInfo.at cfg d.key k ∘ d.info cfg) = fun j => decide (j = k) from funext hat,
      filter_range]
    by_cases hk : k < pieceCount cfg d.key
    · simp [hk]
    · simp [hk]
  · have hnone : ∀ j, (BufferInfo.at cfg key k ∘ d.info cfg) j = false := by
      intro j
      exact decide_eq_false fun h => hkey h.1
    rw [show (BufferInfo.at cfg key k ∘ d.info cfg) = fun _ => false from funext hnone]
    simp [hkey]

/-! ### What two dumps have in common with two others -/

variable {a b a' b' : Logged}

theorem pair_of_perm {α : Type} {x y x' y' : α} (h : [x, y].Perm [x', y']) :
    s(x, y) = s(x', y') := by
  have hx : x = x' ∨ x = y' := by simpa using h.subset (List.mem_cons_self ..)
  rw [Sym2.eq_iff]
  rcases hx with rfl | rfl
  · have hy : [y].Perm [y'] := h.cons_inv
    exact Or.inl ⟨rfl, by simpa using hy⟩
  · have hswap : [x, y].Perm [x, x'] := h.trans (List.Perm.swap _ _ _)
    have hy : [y].Perm [x'] := hswap.cons_inv
    exact Or.inr ⟨rfl, by simpa using hy⟩

theorem infos_key {d : Logged} {key : DumpTag × ℕ} :
    (∃ i ∈ d.infos cfg, i.key = key) ↔ d.key = key := by
  constructor
  · rintro ⟨i, hi, rfl⟩
    obtain ⟨k, -, rfl⟩ := List.mem_map.mp hi
    rfl
  · intro h
    have hpos : 0 < pieceCount cfg d.key := le_max_left 1 _
    exact ⟨d.info cfg 0, List.mem_map_of_mem (List.mem_range.mpr hpos), h⟩

/-- The packets show the two levels, tags and lengths. -/
theorem keys_determined (h : (a.infos cfg ++ b.infos cfg).Perm (a'.infos cfg ++ b'.infos cfg)) :
    s(a.key, b.key) = s(a'.key, b'.key) := by
  have hmem : ∀ (x y : Logged) (key : DumpTag × ℕ),
      key ∈ s(x.key, y.key) ↔ ∃ i ∈ x.infos cfg ++ y.infos cfg, i.key = key := by
    intro x y key
    rw [Sym2.mem_iff]
    simp only [List.mem_append, or_and_right, exists_or, infos_key]
    exact or_congr eq_comm eq_comm
  apply Sym2.ext
  intro key
  rw [hmem, hmem]
  exact exists_congr fun i => and_congr_left fun _ => h.mem_iff

/-- Pieces of dumps whose keys are matched up. -/
theorem pieces_of_keys (ha : a.key = a'.key) (hb : b.key = b'.key)
    (h : (a.infos cfg ++ b.infos cfg).Perm (a'.infos cfg ++ b'.infos cfg)) :
    (a.key ≠ b.key → a = a' ∧ b = b') ∧
      ∀ k, s(a.piece cfg k, b.piece cfg k) = s(a'.piece cfg k, b'.piece cfg k) := by
  have hfilter : ∀ key k,
      ((if a.key = key ∧ k < pieceCount cfg key then [a.info cfg k] else []) ++
        if b.key = key ∧ k < pieceCount cfg key then [b.info cfg k] else []).Perm
      ((if a'.key = key ∧ k < pieceCount cfg key then [a'.info cfg k] else []) ++
        if b'.key = key ∧ k < pieceCount cfg key then [b'.info cfg k] else []) := by
    intro key k
    have hk := h.filter (BufferInfo.at cfg key k)
    simpa only [List.filter_append, filter_infos] using hk
  have hbeyond : ∀ {x y : Logged}, x.key = y.key → ∀ {k}, ¬ k < pieceCount cfg x.key →
      x.piece cfg k = y.piece cfg k := by
    intro x y hxy k hk
    rw [piece_beyond (Nat.not_lt.mp hk), piece_beyond (by rw [← hxy]; exact Nat.not_lt.mp hk)]
  have htag : ∀ {x y : Logged}, x.key = y.key → x.tag = y.tag := fun hxy => congrArg Prod.fst hxy
  have hsplit : a.key ≠ b.key → a = a' ∧ b = b' := by
    intro hne
    constructor
    · apply eq_of_pieces cfg (htag ha)
      intro k
      by_cases hk : k < pieceCount cfg a.key
      · have hperm := hfilter a.key k
        have hb1 : ¬ (b.key = a.key) := Ne.symm hne
        have hb2 : ¬ (b'.key = a.key) := fun hba => hne (hba.symm.trans hb.symm)
        simp only [hk, ha.symm, hb1, hb2, and_true, and_self, if_true, if_false,
          List.append_nil] at hperm
        have hinfo : a.info cfg k = a'.info cfg k := by simpa using hperm
        exact congrArg BufferInfo.data hinfo
      · exact hbeyond ha hk
    · apply eq_of_pieces cfg (htag hb)
      intro k
      by_cases hk : k < pieceCount cfg b.key
      · have hperm := hfilter b.key k
        have ha2 : ¬ (a'.key = b.key) := fun hab => hne (ha.trans hab)
        simp only [hk, hb.symm, hne, ha2, and_true, and_self, if_true, if_false,
          List.nil_append] at hperm
        have hinfo : b.info cfg k = b'.info cfg k := by simpa using hperm
        exact congrArg BufferInfo.data hinfo
      · exact hbeyond hb hk
  refine ⟨hsplit, fun k => ?_⟩
  by_cases hab : a.key = b.key
  · by_cases hk : k < pieceCount cfg a.key
    · have hperm := hfilter a.key k
      simp only [hk, hab.symm, ha.symm, hb.symm, and_self, if_true] at hperm
      have hpair : [a.info cfg k, b.info cfg k].Perm [a'.info cfg k, b'.info cfg k] := by
        simpa using hperm
      exact pair_of_perm (hpair.map BufferInfo.data)
    · rw [hbeyond ha hk, hbeyond hb (by rw [← hab]; exact hk)]
  · obtain ⟨rfl, rfl⟩ := hsplit hab
    rfl

/-- Two dumps that differ in level, tag or length are known from their packets;
of any two the level, tag and length are, and both pieces at each offset. -/
theorem dumps_determined (h : (a.infos cfg ++ b.infos cfg).Perm (a'.infos cfg ++ b'.infos cfg)) :
    s(a.key, b.key) = s(a'.key, b'.key) ∧ (a.key ≠ b.key → s(a, b) = s(a', b')) ∧
      ∀ k, s(a.piece cfg k, b.piece cfg k) = s(a'.piece cfg k, b'.piece cfg k) := by
  have hkeys := keys_determined h
  refine ⟨hkeys, ?_⟩
  rcases Sym2.eq_iff.mp hkeys with ⟨ha, hb⟩ | ⟨ha, hb⟩
  · obtain ⟨hsplit, hpieces⟩ := pieces_of_keys ha hb h
    refine ⟨fun hne => ?_, hpieces⟩
    obtain ⟨rfl, rfl⟩ := hsplit hne
    rfl
  · have hswap := h.trans List.perm_append_comm
    obtain ⟨hsplit, hpieces⟩ := pieces_of_keys ha hb hswap
    refine ⟨fun hne => ?_, fun k => ?_⟩
    · obtain ⟨rfl, rfl⟩ := hsplit hne
      exact Sym2.eq_swap
    · rw [hpieces k]
      exact Sym2.eq_swap

/-! ### From packets to pieces -/

variable {mem : Mem} {es : List Ev} {level : ℕ} {tag bytes : Ptr}

/-- The inline tag in front of a payload. -/
def inlinePart (id : ℕ) (payload : List UInt8) : List UInt8 :=
  payload.take (payload.length - (skipInline id payload).length)

/-- A BUFFER packet as a receiver reads it. -/
def bufferInfo (pkt : Packet) : BufferInfo :=
  ⟨⟨(headerLevel pkt.header).toNat, headerTagId pkt.header,
      inlinePart (headerTagId pkt.header) pkt.payload⟩,
    (bufferChunk pkt).totalLen, (bufferChunk pkt).offset, (bufferChunk pkt).data⟩

/-- The tag of a dump. -/
def dumpTag (cfg : Config) (mem : Mem) (level : ℕ) (tag : Ptr) : DumpTag :=
  ⟨level, (tagWireIn cfg mem tag).id.toNat, wireStrBytes mem tag (tagWireIn cfg mem tag)⟩

def loggedBuffer (cfg : Config) (mem : Mem) (level : ℕ) (tag buffer : Ptr) (bufferLen : ℕ) :
    Logged :=
  ⟨dumpTag cfg mem level tag, readBytes mem buffer bufferLen⟩

theorem inlinePart_append {wire : WireStr} {bs : List UInt8} (h : InlineOf es tag wire bs)
    (rest : List UInt8) : inlinePart wire.id.toNat (bs ++ rest) = bs := by
  unfold inlinePart
  rw [skipInline_append h, List.length_append, Nat.add_sub_cancel]
  exact List.take_left

theorem BufferPacket.info {totalLen offset chunkLen : UInt32} {pkt : Packet}
    (hm : MemIs mem es) (hlevel : level ≤ levelVerbose)
    (h : BufferPacket cfg level tag (tagWireIn cfg mem tag) bytes totalLen offset chunkLen pkt es) :
    bufferInfo pkt = ⟨dumpTag cfg mem level tag, totalLen.toNat, offset.toNat,
      readBytes mem (bytes + offset.toNat) chunkLen.toNat⟩ := by
  have hchunk := h.chunk hm
  obtain ⟨seq, now, cs, t, mem', rfl, ht, -, hpay, -⟩ := h
  have hlow : (UInt8.ofNat level &&& 0x0f).toNat = level :=
    toNat_ofNat_levelNibble hlevel
  have hid : headerTagId (headerBytes .buffer level (UInt16.ofNat seq) (UInt32.ofNat now)
      (tagWireIn cfg mem tag).id 0 (UInt16.ofNat (wireStrSize (tagWireIn cfg mem tag) + 3 * 4 +
        chunkLen.toNat))) = (tagWireIn cfg mem tag).id.toNat := headerTagId_headerBytes ..
  unfold bufferInfo dumpTag
  rw [hchunk]
  unfold builtPacket Packet.payload
  rw [hid, headerLevel_headerBytes, hlow, hpay]
  unfold bufferPayload
  rw [inlinePart_append ht, ht.bytes hm]

theorem readBytes_drop (mem : Mem) (p : Ptr) (n i : ℕ) :
    (readBytes mem p n).drop i = readBytes mem (p + i) (n - i) := by
  by_cases hi : i ≤ n
  · have hsum : n = i + (n - i) := by omega
    conv => lhs; rw [hsum]
    rw [readBytes_add, List.drop_left' (length_readBytes ..)]
  · have hz : n - i = 0 := by omega
    rw [hz, List.drop_of_length_le (by rw [length_readBytes]; omega)]
    rfl

theorem piece_loggedBuffer (n k : ℕ) :
    (loggedBuffer cfg mem level tag bytes n).piece cfg k =
      readBytes mem (bytes + k * chunkSize cfg (dumpTag cfg mem level tag))
        (min (n - k * chunkSize cfg (dumpTag cfg mem level tag))
          (chunkSize cfg (dumpTag cfg mem level tag))) := by
  show ((readBytes mem bytes n).drop _).take _ = _
  rw [readBytes_drop]
  rcases Nat.le_total (chunkSize cfg (dumpTag cfg mem level tag))
    (n - k * chunkSize cfg (dumpTag cfg mem level tag)) with h | h
  · rw [Nat.min_eq_right h]
    exact readBytes_take _ _ _ _ h
  · rw [Nat.min_eq_left h]
    exact List.take_of_length_le (by rwa [length_readBytes])

theorem chunkSize_dumpTag (cfg : Config) (mem : Mem) (level : ℕ) (tag : Ptr) :
    chunkSize cfg (dumpTag cfg mem level tag) =
      (chunkMax cfg (wireStrSize (tagWireIn cfg mem tag))).toNat := by
  unfold chunkSize dumpTag
  rw [length_wireStrBytes]

/-- From round `k` of the loop on, the packets are the pieces from `k` on. -/
theorem BufferPackets.infos {totalLen offset : UInt32} {pkts : List Packet} {k : ℕ}
    (hm : MemIs mem es) (hlevel : level ≤ levelVerbose)
    (h : BufferPackets cfg level tag (tagWireIn cfg mem tag) bytes totalLen
      (chunkMax cfg (wireStrSize (tagWireIn cfg mem tag))) offset pkts es)
    (hk : offset.toNat = min (k * chunkSize cfg (dumpTag cfg mem level tag)) totalLen.toNat) :
    pkts.map bufferInfo =
      (List.range' k (totalLen.toNat ⌈/⌉ chunkSize cfg (dumpTag cfg mem level tag) - k)).map
        ((loggedBuffer cfg mem level tag bytes totalLen.toNat).info cfg) := by
  have hpos := chunkSize_pos cfg (dumpTag cfg mem level tag)
  have hceil : ∀ j, totalLen.toNat ⌈/⌉ chunkSize cfg (dumpTag cfg mem level tag) ≤ j ↔
      totalLen.toNat ≤ j * chunkSize cfg (dumpTag cfg mem level tag) := by
    intro j
    rw [Nat.mul_comm]
    exact ceilDiv_le_iff_le_mul hpos
  induction h generalizing k with
  | done offset hge =>
    have hle := UInt32.le_iff_toNat_le.mp (UInt32.not_lt.mp hge)
    have hz := (hceil k).mpr (by omega)
    rw [Nat.sub_eq_zero_of_le hz]
    rfl
  | chunk offset pkt pkts es es' hlt hpkt _ ih =>
    obtain ⟨hm₁, hm₂⟩ := memIs_append.mp hm
    have hofs := UInt32.lt_iff_toNat_lt.mp hlt
    have hlen := toNat_nextChunkLen (chunkMax cfg (wireStrSize (tagWireIn cfg mem tag))) hlt
    have hnext := toNat_nextOffset (chunkMax cfg (wireStrSize (tagWireIn cfg mem tag))) hlt
    rw [← chunkSize_dumpTag cfg mem level tag] at hlen hnext
    have hmul := Nat.succ_mul k (chunkSize cfg (dumpTag cfg mem level tag))
    have hmore : k < totalLen.toNat ⌈/⌉ chunkSize cfg (dumpTag cfg mem level tag) := by
      have := hceil k
      omega
    have hhead : bufferInfo pkt =
        (loggedBuffer cfg mem level tag bytes totalLen.toNat).info cfg k := by
      have hat : offset.toNat = k * chunkSize cfg (dumpTag cfg mem level tag) := by omega
      rw [hpkt.info hm₁ hlevel, hlen, hat]
      unfold Logged.info
      rw [piece_loggedBuffer]
      unfold loggedBuffer
      rw [length_readBytes]
    have htail := ih hm₂ (k := k + 1) (by rw [hnext, Nat.succ_eq_add_one] at *; omega)
    have hcount : totalLen.toNat ⌈/⌉ chunkSize cfg (dumpTag cfg mem level tag) - k =
        totalLen.toNat ⌈/⌉ chunkSize cfg (dumpTag cfg mem level tag) - (k + 1) + 1 := by omega
    rw [List.map_cons, hhead, htail, hcount, List.range'_succ, List.map_cons]

theorem BufferWritten.infos {totalLen : UInt32} (hm : MemIs mem es) (hlevel : level ≤ levelVerbose)
    (h : BufferWritten cfg level tag bytes totalLen es) :
    ∃ pkts d, Effects es pkts d [] ∧ (pkts ≠ [] → (∀ pkt ∈ pkts, pkt.isBuffer = true) ∧
      pkts.map bufferInfo = (loggedBuffer cfg mem level tag bytes totalLen.toNat).infos cfg) := by
  cases h with
  | dropped looks tagWire honly _ _ =>
    exact ⟨_, _, (effects_memory honly).append effects_addDropped, fun hne => absurd rfl hne⟩
  | sent looks es' tagWire pkts honly hwire hfit hpkts =>
    obtain ⟨hm₁, hm₂⟩ := memIs_append.mp hm
    obtain rfl : tagWire = tagWireIn cfg mem tag := hwire mem hm₁
    have hlooks := effects_memory honly
    have hpos := chunkSize_pos cfg (dumpTag cfg mem level tag)
    have hlen : (loggedBuffer cfg mem level tag bytes totalLen.toNat).data.length =
        totalLen.toNat := length_readBytes ..
    have hcount : pieceCount cfg (loggedBuffer cfg mem level tag bytes totalLen.toNat).key =
        max 1 (totalLen.toNat ⌈/⌉ chunkSize cfg (dumpTag cfg mem level tag)) := by
      unfold pieceCount Logged.key
      rw [hlen]
      rfl
    rcases hpkts with ⟨rfl, pkt, rfl, hpkt⟩ | ⟨hz, hpkts⟩
    · obtain ⟨seq, now, cs, -, -, hem⟩ := hpkt.emission
      refine ⟨[pkt], 0, hlooks.append hem.effects, fun _ => ⟨fun p hp => ?_, ?_⟩⟩
      · rw [List.mem_singleton.mp hp]
        exact hpkt.isBuffer
      · have hnone : pieceCount cfg (loggedBuffer cfg mem level tag bytes (0 : UInt32).toNat).key
            = 1 := by
          rw [hcount]
          simp
        unfold Logged.infos
        rw [hnone, List.map_singleton, hpkt.info hm₂ hlevel, List.range_one, List.map_singleton]
        unfold Logged.info
        rw [piece_loggedBuffer, hlen]
        simp [loggedBuffer, readBytes]
    · refine ⟨pkts, 0, hlooks.append hpkts.effects.1, fun _ => ⟨hpkts.isBuffer, ?_⟩⟩
      have hinfos := hpkts.infos (k := 0) hm₂ hlevel (by simp)
      have hne : totalLen.toNat ≠ 0 := fun h0 => hz (UInt32.toNat_inj.mp h0)
      have hsome : 1 ≤ totalLen.toNat ⌈/⌉ chunkSize cfg (dumpTag cfg mem level tag) := by
        have hle := ceilDiv_le_iff_le_mul (b := totalLen.toNat) (c := 0) hpos
        omega
      unfold Logged.infos
      rw [hinfos, hcount, Nat.max_eq_right hsome, Nat.sub_zero, List.range_eq_range']

/-- The BUFFER packets of a call are the pieces of its buffer, if it sent any. -/
theorem BufferCall.infos {buffer : Ptr} {bufferLen : ℕ} (hm : MemIs mem es)
    (hlog : buffersSent es ≠ []) (h : BufferCall cfg level tag buffer bufferLen es) :
    (buffersSent es).map bufferInfo =
      (loggedBuffer cfg mem level tag buffer bufferLen).infos cfg := by
  cases h with
  | blocked _ hg =>
    unfold buffersSent at hlog
    rw [hg.effects.sentPackets] at hlog
    exact absurd rfl hlog
  | rejected gate hg _ =>
    unfold buffersSent at hlog
    rw [(hg.effects.append effects_addDropped).sentPackets] at hlog
    exact absurd rfl hlog
  | passed gate flush es' raw hg hok hf hw =>
    have hpass : Passes cfg level tag (gate ++ []) := hg.passes
    have hlevel : level ≤ levelVerbose := hpass.1.2.1
    obtain ⟨-, hm'⟩ := memIs_append.mp hm
    obtain ⟨-, hm'⟩ := memIs_append.mp hm'
    obtain ⟨notices, hfe, hnot⟩ := hf.notBuffer
    obtain ⟨pkts, d, heff, hinfos⟩ := hw.infos hm' hlevel
    have htotal : (UInt32.ofNat bufferLen).toNat = bufferLen := by
      unfold uint32Max at hok
      rw [UInt32.toNat_ofNat']
      omega
    have hall := hg.effects.append (hfe.append heff)
    unfold buffersSent at hlog ⊢
    rw [hall.sentPackets, List.nil_append] at hlog ⊢
    by_cases hne : pkts = []
    · rw [hne, List.append_nil] at hlog
      have hnil : notices.filter Packet.isBuffer = [] :=
        List.filter_eq_nil_iff.mpr fun pkt hpkt => by simp [hnot pkt hpkt]
      exact absurd hnil hlog
    · obtain ⟨hbuffers, hpieces⟩ := hinfos hne
      rw [filter_isBuffer hnot hbuffers, hpieces, htotal]

/-! ### In a run -/

section Runs

variable {Tid : Type} [DecidableEq Tid] {c c' : Lib.Config Tid Call Op Op.Ret Res (Shared Tid)}
  {tr tr' : List (Label Tid Call Op Op.Ret Res)} {t u t' u' : Tid}

def Call.setsSinks : Call → Bool
  | .addSink _ _ _ => true
  | .removeSink _ _ => true
  | _ => false

theorem setsSinks_silent {call : Call} {v : Res} (hc : call.setsSinks = true)
    (h : Performs cfg call v es) : streamCalls es = [] := by
  cases call with
  | addSink sink callbacks ctx =>
    obtain ⟨r, -, ⟨-, rfl, -⟩ | ⟨-, b, hb, rfl⟩⟩ := h
    · rfl
    · exact hb.tableSection.effects.streams
  | removeSink sink ctx =>
    obtain ⟨r, -, ⟨-, rfl, -⟩ | ⟨-, b, hb, rfl⟩⟩ := h
    · rfl
    · exact hb.tableSection.effects.streams
  | _ => cases hc

/-- A thread that only sets sinks sends nothing. -/
theorem sentPackets_of_setsSinks (h : (system Tid cfg).Run c tr)
    (hc : ∀ call ∈ callsOf t tr, call.setsSinks = true) : sentPackets (threadEvents t tr) = [] := by
  have hnone : streamCalls (threadEvents t tr) = [] := by
    unfold streamCalls
    rw [List.filterMap_eq_nil_iff]
    intro e he
    obtain ⟨call, hcall, es, v, hp, hmem⟩ := h.mem_threadEvents he
    have hsilent := setsSinks_silent (hc call hcall) (performs_body hp)
    unfold streamCalls at hsilent
    exact List.filterMap_eq_nil_iff.mp hsilent e hmem
  unfold sentPackets
  rw [hnone]
  rfl

/-- Thread `t` made one call, which dumped the buffer `a`; its strings and the
buffer did not change meanwhile. -/
def DumpedOnce (cfg : Config) (c : Lib.Config Tid Call Op Op.Ret Res (Shared Tid))
    (tr : List (Label Tid Call Op Op.Ret Res)) (t : Tid) (a : Logged) : Prop :=
  c.thread t = none ∧ buffersSent (threadEvents t tr) ≠ [] ∧
    ∃ level tag buffer bufferLen mem, callsOf t tr = [.writeBuffer level tag buffer bufferLen] ∧
      MemIs mem (threadEvents t tr) ∧ a = loggedBuffer cfg mem level tag buffer bufferLen

theorem DumpedOnce.infos {a : Logged} (h : (system Tid cfg).Run c tr)
    (hd : DumpedOnce cfg c tr t a) :
    (buffersSent (threadEvents t tr)).map bufferInfo = a.infos cfg := by
  obtain ⟨hidle, hlog, level, tag, buffer, bufferLen, mem, hcall, hm, rfl⟩ := hd
  obtain ⟨v, hp⟩ := h.only_call hcall hidle
  have hperf : Performs cfg (.writeBuffer level tag buffer bufferLen) v (threadEvents t tr) :=
    performs_body hp
  exact hperf.1.infos hm hlog

/-- Two threads dumped a buffer each, in any interleaving; all others only set
sinks. -/
structure TwoDumps (cfg : Config) (c : Lib.Config Tid Call Op Op.Ret Res (Shared Tid))
    (tr : List (Label Tid Call Op Op.Ret Res)) (a b : Logged) : Prop where
  run : (system Tid cfg).Run c tr
  dumps : ∃ t u, t ≠ u ∧ DumpedOnce cfg c tr t a ∧ DumpedOnce cfg c tr u b ∧
    ∀ w, w ≠ t → w ≠ u → ∀ call ∈ callsOf w tr, call.setsSinks = true

/-- The bytes of the BUFFER packets a sink was sent. -/
def buffersReceived (cfg : Config) (e : SinkEntry) (tr : List (Label Tid Call Op Op.Ret Res)) :
    List (List UInt8 × List UInt8) :=
  (((wireOf cfg (actEvents tr)).to e).filter Packet.isBuffer).map fun pkt =>
    (pkt.header, pkt.payload)

/-- `e` was registered for every BUFFER packet. -/
def SeesBuffers (cfg : Config) (e : SinkEntry) (tr : List (Label Tid Call Op Op.Ret Res)) : Prop :=
  ∀ s ∈ (wireOf cfg (actEvents tr)).sent, s.pkt.isBuffer = true → e ∈ s.sinks

/-- `bufferInfo` looks at nothing but the bytes. -/
def readInfo (p : List UInt8 × List UInt8) : BufferInfo :=
  bufferInfo ⟨.relayed [], p.1, [⟨p.2, 0, .metaData⟩]⟩

theorem readInfo_bytes (pkt : Packet) : readInfo (pkt.header, pkt.payload) = bufferInfo pkt := by
  have hpay : Packet.payload ⟨.relayed [], pkt.header, [⟨pkt.payload, 0, .metaData⟩]⟩ =
      pkt.payload := List.append_nil _
  unfold readInfo bufferInfo bufferChunk
  simp only [hpay]

theorem TwoDumps.perm {a b : Logged} {e : SinkEntry} (h : TwoDumps cfg c tr a b)
    (he : SeesBuffers cfg e tr) :
    ((buffersReceived cfg e tr).map readInfo).Perm (a.infos cfg ++ b.infos cfg) := by
  obtain ⟨t, u, htu, ha, hb, hothers⟩ := h.dumps
  have hperm := sent_perm h.run htu fun w hwt hwu =>
    sentPackets_of_setsSinks h.run (hothers w hwt hwu)
  have hall : ((wireOf cfg (actEvents tr)).to e).filter Packet.isBuffer =
      ((wireOf cfg (actEvents tr)).sent.map Sent.pkt).filter Packet.isBuffer := by
    unfold Wire.to
    rw [List.filter_map, List.filter_map, List.filter_filter]
    congr 1
    apply List.filter_congr
    intro s hs
    cases hbuf : s.pkt.isBuffer with
    | true => simp [hbuf, he s hs hbuf]
    | false => simp [hbuf]
  have hread : (buffersReceived cfg e tr).map readInfo =
      (((wireOf cfg (actEvents tr)).sent.map Sent.pkt).filter Packet.isBuffer).map bufferInfo := by
    unfold buffersReceived
    rw [List.map_map, hall]
    exact List.map_congr_left fun pkt _ => readInfo_bytes pkt
  rw [hread, ← ha.infos h.run, ← hb.infos h.run, ← List.map_append]
  have hfilter := hperm.filter Packet.isBuffer
  rw [List.filter_append] at hfilter
  exact hfilter.map bufferInfo

end Runs

/-! ### Two dumps that another pair passes for -/

/-- A sink, and tasks 0 and 1 that dump the eight bytes at `x` and `y`. -/
def dumpPair (x y : Ptr) (turns : List (Turn ℕ Call)) : List (Turn ℕ Call) :=
  [.invoke 2 (.addSink 1 ⟨1, 1, 1⟩ 0), .perform 2 6, .ret 2,
    .invoke 0 (.writeBuffer 3 0 x 8), .perform 0 21, .invoke 1 (.writeBuffer 3 0 y 8)] ++ turns

/-- What a finished schedule shows of its end. -/
def dumpsSeen (q : Point ℕ Call Op Op.Ret Res (Shared ℕ)) :
    Bool × List (List UInt8 × List UInt8) :=
  ((q.1.thread 0).isNone && (q.1.thread 1).isNone &&
      !(buffersSent (threadEvents 0 q.2)).isEmpty && !(buffersSent (threadEvents 1 q.2)).isEmpty &&
      (wireOf smallConfig (actEvents q.2)).sent.all fun s => decide (⟨1, 0⟩ ∈ s.sinks),
    buffersReceived smallConfig ⟨1, 0⟩ q.2)

theorem twoDumps_of_schedule {w : World} {x y : Ptr} {turns : List (Turn ℕ Call)}
    {seen : List (List UInt8 × List UInt8)} (hcalls : ∀ t, callsIn t turns = [])
    (h : (System.schedule (system ℕ smallConfig) (reply smallConfig w) (dumpPair x y turns)).map
      dumpsSeen = some (true, seen)) :
    ∃ (tr : List (Label ℕ Call Op Op.Ret Res)) (c : _), TwoDumps smallConfig c tr
        (loggedBuffer smallConfig w.mem 3 0 x 8)
        (loggedBuffer smallConfig w.mem 3 0 y 8) ∧
      SeesBuffers smallConfig ⟨1, 0⟩ tr ∧ buffersReceived smallConfig ⟨1, 0⟩ tr = seen := by
  obtain ⟨⟨c, tr⟩, hq, hseen⟩ := Option.map_eq_some_iff.mp h
  have hrun := System.run_schedule (fun t => step_of_reply) hq
  obtain ⟨hc, ha⟩ := schedule_calls hq
  have hcall : ∀ t, callsOf t tr = callsIn t (dumpPair x y turns) := hc
  have hsplit : ∀ t, callsIn t (dumpPair x y turns) = (if 2 = t then
      [Call.addSink 1 ⟨1, 1, 1⟩ 0] else []) ++ ((if 0 = t then [Call.writeBuffer 3 0 x 8] else []) ++
        if 1 = t then [Call.writeBuffer 3 0 y 8] else []) := by
    intro t
    have hrest := hcalls t
    unfold callsIn at hrest ⊢
    unfold dumpPair
    rw [List.filterMap_append, hrest, List.append_nil]
    by_cases h0 : 0 = t <;> by_cases h1 : 1 = t <;> by_cases h2 : 2 = t <;> simp_all
  have hmem : ∀ t, MemIs w.mem (threadEvents t tr) := by
    intro t m hm
    obtain ⟨s, s', hr⟩ := ha t _ (act_of_mem_threadEvents hm)
    simp only [reply, Option.some.injEq, Prod.mk.injEq] at hr
    exact hr.1.symm
  unfold dumpsSeen at hseen
  simp only [Prod.mk.injEq, Bool.and_eq_true, Option.isNone_iff_eq_none, Bool.not_eq_true',
    List.isEmpty_eq_false_iff, List.all_eq_true, decide_eq_true_eq] at hseen
  obtain ⟨⟨⟨⟨⟨h0, h1⟩, hd0⟩, hd1⟩, hall⟩, hbytes⟩ := hseen
  refine ⟨tr, c, ⟨hrun, 0, 1, by decide, ⟨h0, hd0, 3, 0, x, 8, w.mem, ?_, hmem 0, rfl⟩,
    ⟨h1, hd1, 3, 0, y, 8, w.mem, ?_, hmem 1, rfl⟩, fun t ht hu call hin => ?_⟩,
    fun s hs _ => hall s hs, hbytes⟩
  · rw [hcall, hsplit]
    rfl
  · rw [hcall, hsplit]
    rfl
  · rw [hcall, hsplit, if_neg (Ne.symm ht), if_neg (Ne.symm hu), List.append_nil,
      List.append_nil] at hin
    split at hin
    · rw [List.mem_singleton.mp hin]
      rfl
    · cases hin

/-- Four bytes of one letter at 2000, 2004, and so on. -/
def letterBlocks (p : Ptr) : UInt8 :=
  match p / 4 with
  | 500 | 1000 => chr 'a'
  | 501 | 1251 => chr 'b'
  | 750 | 1250 => chr 'c'
  | 751 | 1001 => chr 'd'
  | _ => 0

def letterMemory : World := { quietWorld with mem := letterBlocks }

def nestedDumps : List (Turn ℕ Call) :=
  dumpPair 2000 3000 [.perform 1 40, .ret 1, .perform 0 19, .ret 0]

def crossedDumps : List (Turn ℕ Call) :=
  dumpPair 4000 5000 [.perform 1 21, .perform 0 19, .ret 0, .perform 1 19, .ret 1]

theorem nested_crossed : ∃ (tr tr' : List (Label ℕ Call Op Op.Ret Res)) (c c' : _),
    TwoDumps smallConfig c tr (loggedBuffer smallConfig letterBlocks 3 0 2000 8)
        (loggedBuffer smallConfig letterBlocks 3 0 3000 8) ∧
      TwoDumps smallConfig c' tr' (loggedBuffer smallConfig letterBlocks 3 0 4000 8)
        (loggedBuffer smallConfig letterBlocks 3 0 5000 8) ∧
      SeesBuffers smallConfig ⟨1, 0⟩ tr ∧ SeesBuffers smallConfig ⟨1, 0⟩ tr' ∧
      buffersReceived smallConfig ⟨1, 0⟩ tr = buffersReceived smallConfig ⟨1, 0⟩ tr' := by
  have hsame : (System.schedule (system ℕ smallConfig) (reply smallConfig letterMemory)
        nestedDumps).map dumpsSeen =
      (System.schedule (system ℕ smallConfig) (reply smallConfig letterMemory)
        crossedDumps).map dumpsSeen := by
    decide +kernel
  have hok : ((System.schedule (system ℕ smallConfig) (reply smallConfig letterMemory)
      nestedDumps).map dumpsSeen).map Prod.fst = some true := by
    decide +kernel
  obtain ⟨⟨ok, seen⟩, hseen, rfl⟩ := Option.map_eq_some_iff.mp hok
  rw [hseen] at hsame
  obtain ⟨tr, c, h, he, hbytes⟩ := twoDumps_of_schedule (fun t => rfl) hseen
  obtain ⟨tr', c', h', he', hbytes'⟩ := twoDumps_of_schedule (fun t => rfl) hsame.symm
  exact ⟨tr, tr', c, c', h, h', he, he', hbytes.trans hbytes'.symm⟩

end On9log
