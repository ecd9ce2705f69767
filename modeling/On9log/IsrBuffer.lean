import On9log.Decode

/-!
# The ISR encoder on its buffer (on9log.c:67-80, 141-202, 734-740, 1031-1087)

The encoder as it stores bytes through a pointer, with no promise that its
length is within its capacity and with `size_t` subtraction that wraps. `Models`
ties it to `Encoder`, which carries that promise; `written` lists the addresses
stored to. A packet is encoded iff it fits, and no store is outside the buffer.
-/

namespace On9log
open Lib Lib.LittleEndian

/-- Memory, and the encoder `on9log_encoder_t` in it. -/
structure PacketBuffer where
  mem : Mem
  written : List Ptr
  overflow : Bool
  len : ℕ
  cap : ℕ
  data : Ptr

namespace PacketBuffer

def new (mem : Mem) (packet : Ptr) (packetCap : ℕ) : PacketBuffer :=
  ⟨mem, [], false, 0, packetCap, packet⟩

variable (s : PacketBuffer)

def poke (p : Ptr) (val : UInt8) : PacketBuffer :=
  { s with mem := Function.update s.mem p val, written := p :: s.written }

def advance (n : ℕ) : PacketBuffer := { s with len := s.len + n }

def putU8 (val : UInt8) : PacketBuffer :=
  if s.len ≥ s.cap then { s with overflow := true } else (s.poke (s.data + s.len) val).advance 1

def putU16 (val : UInt16) : PacketBuffer :=
  (s.putU8 (val &&& 0xff).toUInt8).putU8 (val >>> 8).toUInt8

def putU32 (val : UInt32) : PacketBuffer :=
  (((s.putU8 (val &&& 0xff).toUInt8).putU8 ((val >>> 8) &&& 0xff).toUInt8).putU8
    ((val >>> 16) &&& 0xff).toUInt8).putU8 (val >>> 24).toUInt8

def putU64 (val : UInt64) : PacketBuffer :=
  (s.putU32 (val &&& 0xffffffff).toUInt32).putU32 (val >>> 32).toUInt32

/-- `memcpy`. -/
def copy (s : PacketBuffer) (p : Ptr) : List UInt8 → PacketBuffer
  | [] => s
  | b :: bs => (s.poke p b).copy (p + 1) bs

/-- `size_t` has `sizeBits` bits. -/
def sizeSub (sizeBits a b : ℕ) : ℕ := (a + 2 ^ sizeBits - b) % 2 ^ sizeBits

def putBytes (sizeBits : ℕ) (bytes : List UInt8) : PacketBuffer :=
  if bytes.length = 0 then s
  else if bytes.length > sizeSub sizeBits s.cap s.len then { s with overflow := true }
  else (s.copy (s.data + s.len) bytes).advance bytes.length

def putHeader (type : PacketType) (level : ℕ) (seq : UInt16) (timeMs tagId fmtId : UInt32)
    (payloadLen : UInt16) : PacketBuffer :=
  let s := s.putU8 packetMagic
  let s := s.putU8 (typeLevel type level)
  let s := s.putU16 seq
  let s := s.putU32 timeMs
  let s := s.putU32 tagId
  let s := s.putU32 fmtId
  s.putU16 payloadLen

def putWireStr (sizeBits : ℕ) (str : Ptr) (wire : WireStr) : Core PacketBuffer :=
  if wire.id = idInline then do
    let mem ← readMemory
    pure ((s.putU32 wire.len).putBytes sizeBits (readBytes mem str wire.len.toNat))
  else pure s

def putArg (argTypes : ArgTypes) (st : PacketBuffer × VaList) (idx : ℕ) : PacketBuffer × VaList :=
  match ArgsType.ofCode (argTypeAt argTypes idx) with
  | some .bits32 => (st.1.putU32 (vaU32 st.2), st.2.tail)
  | some .bits64 => (st.1.putU64 (vaU64 st.2), st.2.tail)
  | some .pointer => (st.1.putU32 (UInt32.ofNat (vaVoidPtr st.2)), st.2.tail)
  | _ => ({ st.1 with overflow := true }, st.2)

def putArgs (argTypes : ArgTypes) (argCount : UInt8) (args : VaList) : PacketBuffer :=
  let s := s.putU8 argCount
  let s := (List.range argCount.toNat).foldl (fun s idx => s.putU8 (argTypeAt argTypes idx)) s
  ((List.range argCount.toNat).foldl (putArg argTypes) (s, args)).1

/-- The payload length in the last two bytes of the header. -/
def patch (sizeBits : ℕ) : PacketBuffer :=
  let payloadLen := sizeSub sizeBits s.len packetHeaderLen
  (s.poke (s.data + (packetHeaderLen - 2)) (UInt8.ofNat (payloadLen &&& 0xff))).poke
    (s.data + (packetHeaderLen - 1)) (UInt8.ofNat (payloadLen >>> 8))

end PacketBuffer

/-- `on9log_encode_isr_log_packet`: `*packet_len` where it returns true, and the
memory it leaves. -/
def encodeIsrLogPacketAt (cfg : Config) (sizeBits : ℕ) (mem : Mem) (packet : Ptr) (packetCap : ℕ)
    (level : ℕ) (tag format : Ptr) (argTypes : ArgTypes) (args : VaList) :
    Core (Option ℕ × PacketBuffer) := do
  let inlineMax :=
    if packetCap < cfg.maxDynamicStringLen then packetCap else cfg.maxDynamicStringLen
  let tagWire ← wireStr cfg tag inlineMax
  let formatWire ← wireStr cfg format inlineMax
  let now ← isrTimestampMs
  let s := (PacketBuffer.new mem packet packetCap).putHeader .log level 0 (UInt32.ofNat now)
    tagWire.id formatWire.id 0
  let s ← s.putWireStr sizeBits tag tagWire
  let s ← s.putWireStr sizeBits format formatWire
  let s := s.putArgs argTypes (argCount argTypes) args
  pure (if s.overflow then (none, s) else (some s.len, s.patch sizeBits))

/-! ### The buffer and the encoder -/

/-- What is in memory is what `enc` holds; stores were inside the buffer at `base`, and
elsewhere memory is as it was. -/
structure Models (mem₀ : Mem) (base : Ptr) (s : PacketBuffer) (enc : Encoder) : Prop where
  overflow : s.overflow = enc.overflow
  cap : s.cap = enc.cap
  data : s.data = base
  len : s.len = enc.data.length
  bytes : readBytes s.mem base s.len = enc.data
  inside : ∀ p ∈ s.written, base ≤ p ∧ p < base + s.cap
  frame : ∀ p, p ∉ s.written → s.mem p = mem₀ p

variable {mem₀ : Mem} {base : Ptr} {s : PacketBuffer} {enc : Encoder} {sizeBits : ℕ}

theorem readBytes_update_after (mem : Mem) (base : Ptr) (n : ℕ) (b : UInt8) :
    readBytes (Function.update mem (base + n) b) base (n + 1) = readBytes mem base n ++ [b] := by
  unfold readBytes
  rw [List.range_succ, List.map_append, List.map_singleton, Function.update_self]
  congr 1
  apply List.map_congr_left
  intro i hi
  have hlt := List.mem_range.mp hi
  have hne : base + i ≠ base + n := fun h => Nat.ne_of_lt hlt (Nat.add_left_cancel h)
  exact Function.update_of_ne hne _ _

theorem models_new (mem : Mem) (packet : Ptr) (packetCap : ℕ) :
    Models mem packet (PacketBuffer.new mem packet packetCap) (Encoder.new packetCap) where
  overflow := rfl
  cap := rfl
  data := rfl
  len := rfl
  bytes := rfl
  inside _ hp := absurd hp List.not_mem_nil
  frame _ _ := rfl

theorem Models.overflowed (h : Models mem₀ base s enc) :
    Models mem₀ base { s with overflow := true } { enc with overflow := true } :=
  ⟨rfl, h.cap, h.data, h.len, h.bytes, h.inside, h.frame⟩

theorem Models.putU8 (h : Models mem₀ base s enc) (val : UInt8) :
    Models mem₀ base (s.putU8 val) (putU8 enc val) := by
  have hlen := h.len
  have hcap := h.cap
  unfold PacketBuffer.putU8 On9log.putU8
  by_cases hfull : enc.data.length ≥ enc.cap
  · rw [if_pos (by omega), dif_pos hfull]
    exact h.overflowed
  · rw [if_neg (by omega), dif_neg hfull]
    refine ⟨h.overflow, h.cap, h.data, ?_, ?_, ?_, ?_⟩
    · show s.len + 1 = (enc.data ++ [val]).length
      rw [List.length_append, List.length_singleton, hlen]
    · show readBytes (Function.update s.mem (s.data + s.len) val) base (s.len + 1) = _
      rw [h.data, readBytes_update_after, h.bytes]
    · intro p hp
      rcases List.mem_cons.mp hp with rfl | hp
      · have hlt : s.len < s.cap := by omega
        rw [h.data]
        exact ⟨Nat.le_add_right base s.len, Nat.add_lt_add_left hlt base⟩
      · exact h.inside p hp
    · intro p hp
      obtain ⟨hne, hp⟩ := not_or.mp (fun hor => hp (List.mem_cons.mpr hor))
      exact (Function.update_of_ne hne _ _).trans (h.frame p hp)

theorem Models.putU16 (h : Models mem₀ base s enc) (val : UInt16) :
    Models mem₀ base (s.putU16 val) (putU16 enc val) := (h.putU8 _).putU8 _

theorem Models.putU32 (h : Models mem₀ base s enc) (val : UInt32) :
    Models mem₀ base (s.putU32 val) (putU32 enc val) := (((h.putU8 _).putU8 _).putU8 _).putU8 _

theorem Models.putU64 (h : Models mem₀ base s enc) (val : UInt64) :
    Models mem₀ base (s.putU64 val) (putU64 enc val) := (h.putU32 _).putU32 _

theorem Models.putHeader (h : Models mem₀ base s enc) (type : PacketType) (level : ℕ) (seq : UInt16)
    (timeMs tagId fmtId : UInt32) (payloadLen : UInt16) :
    Models mem₀ base (s.putHeader type level seq timeMs tagId fmtId payloadLen)
      (putHeader enc type level seq timeMs tagId fmtId payloadLen) :=
  ((((((h.putU8 _).putU8 _).putU16 _).putU32 _).putU32 _).putU32 _).putU16 _

theorem copy_advance (s : PacketBuffer) (p : Ptr) (bytes : List UInt8) (n : ℕ) :
    (s.copy p bytes).advance n = (s.advance n).copy p bytes := by
  induction bytes generalizing s p with
  | nil => rfl
  | cons b bytes ih => exact ih (s.poke p b) (p + 1)

/-- A copy that fits stores byte after byte. -/
theorem Models.copy (h : Models mem₀ base s enc) {bytes : List UInt8}
    (hroom : enc.data.length + bytes.length ≤ enc.cap) :
    Models mem₀ base ((s.copy (s.data + s.len) bytes).advance bytes.length)
      (bytes.foldl On9log.putU8 enc) := by
  induction bytes generalizing s enc with
  | nil => exact h
  | cons b bytes ih =>
    rw [List.length_cons] at hroom
    have hput := h.putU8 b
    have hstored : s.putU8 b = (s.poke (s.data + s.len) b).advance 1 := by
      have hlen := h.len
      have hcap := h.cap
      exact if_neg (by omega)
    have hnext : (On9log.putU8 enc b).data.length + bytes.length ≤ (On9log.putU8 enc b).cap := by
      unfold On9log.putU8
      rw [dif_neg (by omega)]
      simp only [List.length_append, List.length_singleton]
      omega
    have hrest := ih hput hnext
    rw [hstored, copy_advance] at hrest
    rw [copy_advance]
    have hadvance : ((s.poke (s.data + s.len) b).advance 1).advance bytes.length =
        (s.poke (s.data + s.len) b).advance (bytes.length + 1) := by
      simp only [PacketBuffer.advance, Nat.add_assoc, Nat.add_comm 1]
    rw [hadvance] at hrest
    exact hrest

theorem foldl_putU8_data {bytes : List UInt8} (h : enc.data.length + bytes.length ≤ enc.cap) :
    (bytes.foldl putU8 enc).overflow = enc.overflow ∧ (bytes.foldl putU8 enc).cap = enc.cap ∧
      (bytes.foldl putU8 enc).data = enc.data ++ bytes := by
  induction bytes generalizing enc with
  | nil => exact ⟨rfl, rfl, (List.append_nil _).symm⟩
  | cons b bytes ih =>
    rw [List.length_cons] at h
    have hput : putU8 enc b = ⟨enc.overflow, enc.cap, enc.data ++ [b], by
        rw [List.length_append, List.length_singleton]
        omega⟩ := dif_neg (by omega)
    rw [List.foldl_cons, hput]
    obtain ⟨ho, hc, hd⟩ := @ih ⟨enc.overflow, enc.cap, enc.data ++ [b], by
      rw [List.length_append, List.length_singleton]
      omega⟩ (by simp only [List.length_append, List.length_singleton]; omega)
    refine ⟨ho, hc, ?_⟩
    rw [hd, List.append_assoc, List.singleton_append]

theorem sizeSub_eq {a b : ℕ} (hab : b ≤ a) (ha : a < 2 ^ sizeBits) :
    PacketBuffer.sizeSub sizeBits a b = a - b := by
  have hsum : a + 2 ^ sizeBits - b = a - b + 2 ^ sizeBits := by omega
  rw [PacketBuffer.sizeSub, hsum, Nat.add_mod_right]
  exact Nat.mod_eq_of_lt (by omega)

theorem Models.of_same {enc' : Encoder} (h : Models mem₀ base s enc) (ho : enc'.overflow = enc.overflow)
    (hc : enc'.cap = enc.cap) (hd : enc'.data = enc.data) : Models mem₀ base s enc' :=
  ⟨by rw [h.overflow, ho], by rw [h.cap, hc], h.data, by rw [h.len, hd], by rw [h.bytes, hd],
    h.inside, h.frame⟩

theorem Models.putBytes (h : Models mem₀ base s enc) (hcap : enc.cap < 2 ^ sizeBits)
    (bytes : List UInt8) :
    Models mem₀ base (s.putBytes sizeBits bytes) (On9log.putBytes enc bytes) := by
  have hroom : PacketBuffer.sizeSub sizeBits s.cap s.len = enc.cap - enc.data.length := by
    rw [h.cap, h.len]
    exact sizeSub_eq enc.len_le hcap
  unfold PacketBuffer.putBytes On9log.putBytes
  rw [hroom]
  by_cases hempty : bytes.length = 0
  · rw [if_pos hempty, if_pos hempty]
    exact h
  by_cases hbig : bytes.length > enc.cap - enc.data.length
  · rw [if_neg hempty, if_neg hempty, if_pos hbig, dif_pos hbig]
    exact h.overflowed
  · rw [if_neg hempty, if_neg hempty, if_neg hbig, dif_neg hbig]
    have hle := enc.len_le
    have hfits : enc.data.length + bytes.length ≤ enc.cap := by omega
    obtain ⟨ho, hc, hd⟩ := foldl_putU8_data hfits
    exact (h.copy hfits).of_same ho.symm hc.symm hd.symm

theorem Models.foldl {α : Type} {f : PacketBuffer → α → PacketBuffer} {g : Encoder → α → Encoder}
    (hstep : ∀ {s enc}, Models mem₀ base s enc → ∀ a, Models mem₀ base (f s a) (g enc a))
    (h : Models mem₀ base s enc) (l : List α) : Models mem₀ base (l.foldl f s) (l.foldl g enc) := by
  induction l generalizing s enc with
  | nil => exact h
  | cons a l ih => exact ih (hstep h a)

theorem Models.putArg (argTypes : ArgTypes) {st : PacketBuffer × VaList} {st' : Encoder × VaList}
    (h : Models mem₀ base st.1 st'.1 ∧ st.2 = st'.2) (idx : ℕ) :
    Models mem₀ base (PacketBuffer.putArg argTypes st idx).1 (putIsrArg argTypes st' idx).1 ∧
      (PacketBuffer.putArg argTypes st idx).2 = (putIsrArg argTypes st' idx).2 := by
  obtain ⟨hm, hargs⟩ := h
  unfold PacketBuffer.putArg putIsrArg
  rw [hargs]
  cases ArgsType.ofCode (argTypeAt argTypes idx) with
  | none =>
    dsimp only
    exact ⟨hm.overflowed, rfl⟩
  | some t =>
    cases t
    all_goals dsimp only
    case bits32 => exact ⟨hm.putU32 _, rfl⟩
    case bits64 => exact ⟨hm.putU64 _, rfl⟩
    case pointer => exact ⟨hm.putU32 _, rfl⟩
    all_goals exact ⟨hm.overflowed, rfl⟩

theorem Models.putArgs (h : Models mem₀ base s enc) (argTypes : ArgTypes) (argCount : UInt8)
    (args : VaList) :
    Models mem₀ base (s.putArgs argTypes argCount args) (putIsrArgs argTypes argCount args enc) := by
  have htypes := (h.putU8 argCount).foldl (f := fun s idx => s.putU8 (argTypeAt argTypes idx))
    (g := fun enc idx => On9log.putU8 enc (argTypeAt argTypes idx)) (fun hm idx => hm.putU8 _)
    (List.range argCount.toNat)
  have hargs : ∀ (l : List ℕ) (st : PacketBuffer × VaList) (st' : Encoder × VaList),
      Models mem₀ base st.1 st'.1 ∧ st.2 = st'.2 →
      Models mem₀ base (l.foldl (PacketBuffer.putArg argTypes) st).1
        (l.foldl (putIsrArg argTypes) st').1 := by
    intro l
    induction l with
    | nil => exact fun st st' hst => hst.1
    | cons idx l ih => exact fun st st' hst => ih _ _ (Models.putArg argTypes hst idx)
  exact hargs _ _ _ ⟨htypes, rfl⟩

theorem Models.putWireStr (h : Models mem₀ base s enc) (hcap : enc.cap < 2 ^ sizeBits) {str : Ptr}
    {wire : WireStr} {es : List Ev} {s' : PacketBuffer}
    (hp : (s.putWireStr sizeBits str wire).Path es s') :
    ∃ enc', (putWireStr enc str wire).Path es enc' ∧ Models mem₀ base s' enc' ∧ enc'.cap = enc.cap := by
  unfold PacketBuffer.putWireStr at hp
  unfold On9log.putWireStr
  split at hp
  · rename_i hi
    obtain ⟨mem, e₁, e₂, rfl, h₁, h₂⟩ := (Prog.path_bind _ _ _ _).mp hp
    obtain ⟨rfl, rfl⟩ := (Prog.path_pure _ _ _).mp h₂
    have hu32 := (writes_putU32 wire.len).cap enc
    rw [if_pos hi]
    refine ⟨_, (Prog.path_bind _ _ _ _).mpr ⟨mem, e₁, [], rfl, h₁,
      (Prog.path_pure _ _ _).mpr ⟨rfl, rfl⟩⟩, ?_, ?_⟩
    · exact (h.putU32 wire.len).putBytes (by rw [hu32]; exact hcap) _
    · rw [(writes_putBytes _).cap, hu32]
  · rename_i hi
    obtain ⟨rfl, rfl⟩ := (Prog.path_pure _ _ _).mp hp
    rw [if_neg hi]
    exact ⟨enc, (Prog.path_pure _ _ _).mpr ⟨rfl, rfl⟩, h, rfl⟩

/-! ### Packets that fit -/

theorem readBytes_update (mem : Mem) (base : Ptr) (n k : ℕ) (b : UInt8) :
    readBytes (Function.update mem (base + k) b) base n = (readBytes mem base n).set k b := by
  apply List.ext_getElem?
  intro i
  unfold readBytes
  rw [List.getElem?_set, List.getElem?_map, List.getElem?_map, List.length_map, List.length_range]
  by_cases hi : i < n
  · rw [List.getElem?_range hi, Option.map_some, Option.map_some]
    by_cases hk : k = i
    · subst hk
      rw [if_pos rfl, if_pos hi, Function.update_self]
    · have hne : base + i ≠ base + k := fun h => hk (Nat.add_left_cancel h).symm
      rw [if_neg hk, Function.update_of_ne hne]
  · rw [List.getElem?_eq_none (by rw [List.length_range]; omega)]
    by_cases hk : k = i
    · subst hk
      rw [if_pos rfl, if_neg hi]
      rfl
    · rw [if_neg hk]
      rfl

theorem Models.patch (h : Models mem₀ base s enc) (hcap : enc.cap < 2 ^ sizeBits)
    (hlen : packetHeaderLen ≤ enc.data.length) :
    readBytes (s.patch sizeBits).mem base s.len = patchPayloadLen enc.data ∧
      (∀ p ∈ (s.patch sizeBits).written, base ≤ p ∧ p < base + s.cap) ∧
      ∀ p, p ∉ (s.patch sizeBits).written → (s.patch sizeBits).mem p = mem₀ p := by
  have hle := enc.len_le
  have hsub : PacketBuffer.sizeSub sizeBits s.len packetHeaderLen =
      enc.data.length - packetHeaderLen := by
    rw [h.len]
    exact sizeSub_eq hlen (by omega)
  have hfit : packetHeaderLen ≤ s.cap := by
    rw [h.cap]
    omega
  unfold packetHeaderLen at hfit
  unfold PacketBuffer.patch
  rw [hsub, h.data]
  refine ⟨?_, ?_, ?_⟩
  · show readBytes (Function.update (Function.update s.mem _ _) _ _) base s.len = _
    rw [readBytes_update, readBytes_update, h.bytes]
    rfl
  · intro p hp
    rcases List.mem_cons.mp hp with rfl | hp
    · exact ⟨Nat.le_add_right base _, Nat.add_lt_add_left (by unfold packetHeaderLen; omega) base⟩
    · rcases List.mem_cons.mp hp with rfl | hp
      · exact ⟨Nat.le_add_right base _, Nat.add_lt_add_left (by unfold packetHeaderLen; omega) base⟩
      · exact h.inside p hp
  · intro p hp
    obtain ⟨hne₁, hp⟩ := not_or.mp (fun hor => hp (List.mem_cons.mpr hor))
    obtain ⟨hne₂, hp⟩ := not_or.mp (fun hor => hp (List.mem_cons.mpr hor))
    exact ((Function.update_of_ne hne₁ _ _).trans (Function.update_of_ne hne₂ _ _)).trans
      (h.frame p hp)

variable {cfg : Config} {mem : Mem} {packet : Ptr} {packetCap level : ℕ} {tag format : Ptr}
  {argTypes : ArgTypes} {args : VaList} {es : List Ev} {r : Option ℕ}

/-- The encoder on its buffer does what `encodeIsrLogPacket` says: the bytes of its packet are
in memory, and no store was outside the buffer. -/
theorem encodeIsrLogPacketAt_refines (hcap : packetCap < 2 ^ sizeBits)
    (hsafe : argTypesAreIsrSafe argTypes = true)
    (h : (encodeIsrLogPacketAt cfg sizeBits mem packet packetCap level tag format argTypes
      args).Path es (r, s)) :
    (encodeIsrLogPacket cfg packetCap level tag format argTypes args).Path es
        (r.map (readBytes s.mem packet)) ∧
      (∀ p ∈ s.written, packet ≤ p ∧ p < packet + packetCap) ∧
      ∀ p, p ∉ s.written → s.mem p = mem p := by
  unfold encodeIsrLogPacketAt at h
  dsimp only at h
  obtain ⟨tagWire, e₁, _, rfl, h₁, h⟩ := (Prog.path_bind _ _ _ _).mp h
  obtain ⟨formatWire, e₂, _, rfl, h₂, h⟩ := (Prog.path_bind _ _ _ _).mp h
  obtain ⟨now, e₃, _, rfl, h₃, h⟩ := (Prog.path_bind _ _ _ _).mp h
  obtain ⟨s₄, e₄, _, rfl, h₄, h⟩ := (Prog.path_bind _ _ _ _).mp h
  obtain ⟨s₅, e₅, _, rfl, h₅, h⟩ := (Prog.path_bind _ _ _ _).mp h
  obtain ⟨rfl, hr⟩ := (Prog.path_pure _ _ _).mp h
  have hheader := writes_putHeader .log level 0 (UInt32.ofNat now) tagWire.id formatWire.id 0
  have hm₃ := (models_new mem packet packetCap).putHeader .log level 0 (UInt32.ofNat now)
    tagWire.id formatWire.id 0
  have hcap₃ := hheader.cap (Encoder.new packetCap)
  obtain ⟨enc₄, hp₄, hm₄, hcap₄⟩ := hm₃.putWireStr (by rw [hcap₃]; exact hcap) h₄
  obtain ⟨enc₅, hp₅, hm₅, hcap₅⟩ := hm₄.putWireStr (by rw [hcap₄, hcap₃]; exact hcap) h₅
  have hm₆ := hm₅.putArgs argTypes (argCount argTypes) args
  have hargs := writes_putIsrArgs (isrSafe_code hsafe) args
  have hcap₆ : (putIsrArgs argTypes (argCount argTypes) args enc₅).cap = packetCap := by
    rw [hargs.cap, hcap₅, hcap₄, hcap₃]
    rfl
  -- a packet that did not overflow starts with a whole header
  have hlen : (putIsrArgs argTypes (argCount argTypes) args enc₅).overflow = false →
      packetHeaderLen ≤ (putIsrArgs argTypes (argCount argTypes) args enc₅).data.length := by
    obtain ⟨-, f₄, bs₄, hw₄, rfl, -⟩ := putWireStr_spec hp₄
    obtain ⟨-, f₅, bs₅, hw₅, rfl, -⟩ := putWireStr_spec hp₅
    intro ho
    rw [(((hheader.comp hw₄).comp hw₅).comp hargs).data _ ho]
    simp only [List.length_append, length_headerBytes]
    omega
  have hpath : (encodeIsrLogPacket cfg packetCap level tag format argTypes args).Path
      (e₁ ++ (e₂ ++ (e₃ ++ (e₄ ++ (e₅ ++ [])))))
      (if (putIsrArgs argTypes (argCount argTypes) args enc₅).overflow then none
        else some (patchPayloadLen (putIsrArgs argTypes (argCount argTypes) args enc₅).data)) :=
    (Prog.path_bind _ _ _ _).mpr ⟨tagWire, e₁, _, rfl, h₁,
      (Prog.path_bind _ _ _ _).mpr ⟨formatWire, e₂, _, rfl, h₂,
        (Prog.path_bind _ _ _ _).mpr ⟨now, e₃, _, rfl, h₃,
          (Prog.path_bind _ _ _ _).mpr ⟨enc₄, e₄, _, rfl, hp₄,
            (Prog.path_bind _ _ _ _).mpr ⟨enc₅, e₅, [], rfl, hp₅,
              (Prog.path_pure _ _ _).mpr ⟨rfl, rfl⟩⟩⟩⟩⟩⟩
  rw [hm₆.overflow] at hr
  have hinside := hm₆.inside
  rw [hm₆.cap, hcap₆] at hinside
  cases ho : (putIsrArgs argTypes (argCount argTypes) args enc₅).overflow with
  | true =>
    rw [ho, if_pos rfl] at hr hpath
    obtain ⟨rfl, rfl⟩ := Prod.mk.inj hr
    exact ⟨hpath, hinside, hm₆.frame⟩
  | false =>
    rw [ho, if_neg nofun] at hr hpath
    obtain ⟨rfl, rfl⟩ := Prod.mk.inj hr
    obtain ⟨hbytes, hwritten, hframe⟩ := hm₆.patch (by rw [hcap₆]; exact hcap) (hlen ho)
    rw [hm₆.cap, hcap₆] at hwritten
    rw [Option.map_some, hbytes]
    exact ⟨hpath, hwritten, hframe⟩

/-- Header, inline tag and format, count, table and values. -/
def isrPacketSize (tagWire formatWire : WireStr) (argTypes : ArgTypes) : ℕ :=
  packetHeaderLen + wireStrSize tagWire + wireStrSize formatWire + 1 + (argCount argTypes).toNat +
    ∑ i ∈ Finset.range (argCount argTypes).toNat, argSize (argTypeAt argTypes i) 0

theorem length_scalarBytes {argType : UInt8} (h : IsrSafeCode argType) (args : VaList) :
    (scalarBytes argType args).length = argSize argType 0 := by
  unfold scalarBytes argSize
  rcases h with h | h | h <;> simp only [h, length_bytesLE]

variable (args) in
theorem length_isrPacket {pre : List UInt8} {tagWire formatWire : WireStr}
    (hsafe : argTypesAreIsrSafe argTypes = true)
    (hpre : pre.length = wireStrSize tagWire + wireStrSize formatWire) :
    packetHeaderLen + (isrPayload pre argTypes args).length =
      isrPacketSize tagWire formatWire argTypes := by
  have hvalues : (scalarArgs argTypes args (argCount argTypes).toNat).length =
      ∑ i ∈ Finset.range (argCount argTypes).toNat, argSize (argTypeAt argTypes i) 0 := by
    unfold scalarArgs
    rw [length_flatMap_range]
    apply Finset.sum_congr rfl
    intro i hi
    exact length_scalarBytes (isrSafe_code hsafe i (Finset.mem_range.mp hi)) _
  unfold isrPacketSize isrPayload typeTable
  simp only [List.length_append, List.length_cons, List.length_map, List.length_range, hvalues,
    hpre]
  omega

theorem headerPayloadLen_readBytes (mem : Mem) (packet : Ptr) {len : ℕ}
    (h : packetHeaderLen ≤ len) :
    headerPayloadLen (readBytes mem packet len) =
      valLE [mem (packet + 16), mem (packet + 17)] := by
  have hsplit : readBytes mem packet len = readBytes mem packet 18 ++
      (readBytes mem packet len).drop 18 := by
    unfold packetHeaderLen at h
    rw [← readBytes_take mem packet 18 len h, List.take_append_drop]
  unfold headerPayloadLen
  rw [hsplit]
  rfl

theorem headerPayloadLen_append {header : List UInt8} (h : header.length = packetHeaderLen)
    (payload : List UInt8) : headerPayloadLen (header ++ payload) = headerPayloadLen header := by
  unfold packetHeaderLen at h
  have hrest : 2 ≤ (header.drop 16).length := by
    rw [List.length_drop]
    omega
  unfold headerPayloadLen
  rw [List.drop_append_of_le_length (by omega), List.take_append_of_le_length hrest]

/-- The ISR encoder is exact about what fits, and never leaves the buffer. -/
theorem isr_encode_exact (hbits : 16 ≤ sizeBits) (hmin : 32 ≤ packetCap) (hmax : packetCap ≤ 3072)
    (hsafe : argTypesAreIsrSafe argTypes = true)
    (h : (encodeIsrLogPacketAt cfg sizeBits mem packet packetCap level tag format argTypes
      args).Path es (r, s)) :
    (∀ p ∈ s.written, packet ≤ p ∧ p < packet + packetCap) ∧
    (∀ p, p < packet ∨ packet + packetCap ≤ p → s.mem p = mem p) ∧
    ∃ tagWire formatWire : WireStr,
      (∀ m, MemIs m es →
        tagWire = wireStrIn cfg m tag (min packetCap cfg.maxDynamicStringLen) ∧
        formatWire = wireStrIn cfg m format (min packetCap cfg.maxDynamicStringLen)) ∧
      (r.isSome = true ↔ isrPacketSize tagWire formatWire argTypes ≤ packetCap) ∧
      ∀ len, r = some len → len = isrPacketSize tagWire formatWire argTypes ∧
        valLE [s.mem (packet + 16), s.mem (packet + 17)] = len - packetHeaderLen := by
  have hpow : 2 ^ 16 ≤ 2 ^ sizeBits := Nat.pow_le_pow_right (by omega) hbits
  obtain ⟨hpath, hinside, hframe⟩ := encodeIsrLogPacketAt_refines (by omega) hsafe h
  refine ⟨hinside, fun p hp => hframe p fun hmem => ?_, ?_⟩
  · obtain ⟨hlow, hhigh⟩ := hinside p hmem
    rcases hp with hp | hp
    · exact absurd hlow (Nat.not_le.mpr hp)
    · exact absurd hhigh (Nat.not_lt.mpr hp)
  obtain ⟨now, tagWire, formatWire, t, f, -, -, -, -, ht, hf, hwire, hr⟩ :=
    isrEncoded_encodeIsrLogPacket hsafe hpath
  have hpre : (t ++ f).length = wireStrSize tagWire + wireStrSize formatWire := by
    rw [List.length_append, ht.length, hf.length]
  have hsize := length_isrPacket args hsafe hpre
  refine ⟨tagWire, formatWire, hwire, ?_, ?_⟩
  · rw [hsize] at hr
    cases r with
    | none =>
      by_cases hbig : packetCap < isrPacketSize tagWire formatWire argTypes
      · simpa using hbig
      · rw [if_neg hbig] at hr
        cases hr
    | some len =>
      by_cases hbig : packetCap < isrPacketSize tagWire formatWire argTypes
      · rw [if_pos hbig] at hr
        cases hr
      · simpa using hbig
  · rintro len rfl
    rw [Option.map_some] at hr
    split at hr
    · cases hr
    · rename_i hfit
      have hbytes := Option.some.inj hr
      have hlen := congrArg List.length hbytes
      rw [length_readBytes, List.length_append, length_headerBytes] at hlen
      refine ⟨hlen.trans hsize, ?_⟩
      have hfull : packetHeaderLen ≤ len := by omega
      rw [← headerPayloadLen_readBytes s.mem packet hfull, hbytes]
      rw [headerPayloadLen_append (length_headerBytes ..), headerPayloadLen_headerBytes,
        UInt16.toNat_ofNat']
      unfold packetHeaderLen at hlen hfit ⊢
      omega

/-- An empty tag inline and one number, in the smallest buffer. -/
theorem isr_encode_exact_small : ∃ es s,
    (encodeIsrLogPacketAt smallConfig 32 quietWorld.mem 5000 32 1 2000 0 (some [1])
      [.u32 7]).Path es (some 28, s) ∧
    (∀ p ∈ s.written, 5000 ≤ p ∧ p < 5032) ∧ valLE [s.mem 5016, s.mem 5017] = 10 := by
  have hx : (((encodeIsrLogPacketAt smallConfig 32 quietWorld.mem 5000 32 1 2000 0 (some [1])
      [.u32 7]).exec (reply smallConfig quietWorld (0 : ℕ)) Shared.init).map fun p => p.2.2.1) =
      some (some 28) := by decide +kernel
  obtain ⟨⟨s', es, r, s⟩, hp, hr⟩ := Option.map_eq_some_iff.mp hx
  obtain rfl : r = some 28 := hr
  have hpath := Prog.exec_path hp
  obtain ⟨hinside, -, _, _, -, -, hlen⟩ :=
    isr_encode_exact (by decide) (by decide) (by decide) (by decide) hpath
  exact ⟨es, s, hpath, hinside, (hlen 28 rfl).2⟩

end On9log
