import On9log.Config
import On9log.Lib.LittleEndian

/-!
# Byte encoder and packet header (on9log.c:67-202, 853-923)

`Encoder` is `on9log_encoder_t` with its length bound as a field. `Writes bs f`
says that the put operation `f` appends `bs` when they fit and otherwise sets
the sticky overflow flag; puts compose by `Writes.comp`.
-/

namespace On9log
open Lib.LittleEndian

structure Encoder where
  overflow : Bool
  cap : ℕ
  data : List UInt8
  len_le : data.length ≤ cap

def Encoder.new (cap : ℕ) : Encoder := ⟨false, cap, [], Nat.zero_le _⟩

def putU8 (enc : Encoder) (val : UInt8) : Encoder :=
  if h : enc.data.length ≥ enc.cap then { enc with overflow := true }
  else ⟨enc.overflow, enc.cap, enc.data ++ [val], by
    simp only [List.length_append, List.length_singleton]; omega⟩

def putU16 (enc : Encoder) (val : UInt16) : Encoder :=
  putU8 (putU8 enc (val &&& 0xff).toUInt8) (val >>> 8).toUInt8

def putU32 (enc : Encoder) (val : UInt32) : Encoder :=
  putU8 (putU8 (putU8 (putU8 enc (val &&& 0xff).toUInt8) ((val >>> 8) &&& 0xff).toUInt8)
    ((val >>> 16) &&& 0xff).toUInt8) (val >>> 24).toUInt8

def putU64 (enc : Encoder) (val : UInt64) : Encoder :=
  putU32 (putU32 enc (val &&& 0xffffffff).toUInt32) (val >>> 32).toUInt32

def putBytes (enc : Encoder) (bytes : List UInt8) : Encoder :=
  if bytes.length = 0 then enc
  else if h : bytes.length > enc.cap - enc.data.length then { enc with overflow := true }
  else ⟨enc.overflow, enc.cap, enc.data ++ bytes, by
    have := enc.len_le
    simp only [List.length_append]; omega⟩

/-- `type_level`: packet type in the high nibble, level in the low one. -/
def typeLevel (type : PacketType) (level : ℕ) : UInt8 :=
  ((type.code &&& 0x0f) <<< 4) ||| (UInt8.ofNat level &&& 0x0f)

def putHeader (enc : Encoder) (type : PacketType) (level : ℕ) (seq : UInt16)
    (timeMs tagId fmtId : UInt32) (payloadLen : UInt16) : Encoder :=
  let enc := putU8 enc packetMagic
  let enc := putU8 enc (typeLevel type level)
  let enc := putU16 enc seq
  let enc := putU32 enc timeMs
  let enc := putU32 enc tagId
  let enc := putU32 enc fmtId
  putU16 enc payloadLen

/-- The header buffer filled by `on9log_encode_header`. -/
def encodeHeader (type : PacketType) (level : ℕ) (seq : UInt16)
    (timeMs tagId fmtId : UInt32) (payloadLen : UInt16) : List UInt8 :=
  (putHeader (Encoder.new packetHeaderLen) type level seq timeMs tagId fmtId payloadLen).data

/-! ### What a put operation writes -/

structure Writes (bs : List UInt8) (f : Encoder → Encoder) : Prop where
  cap : ∀ enc, (f enc).cap = enc.cap
  overflow : ∀ enc, (f enc).overflow = true ↔
    enc.overflow = true ∨ enc.cap < enc.data.length + bs.length
  data : ∀ enc, (f enc).overflow = false → (f enc).data = enc.data ++ bs

theorem Writes.comp {bs cs : List UInt8} {f g : Encoder → Encoder} (hf : Writes bs f)
    (hg : Writes cs g) : Writes (bs ++ cs) fun enc => g (f enc) where
  cap enc := by rw [hg.cap, hf.cap]
  overflow enc := by
    rw [hg.overflow, hf.cap]
    cases ho : (f enc).overflow with
    | true =>
      simp only [List.length_append, true_or, true_iff]
      rcases (hf.overflow enc).mp ho with h | h
      · exact Or.inl h
      · exact Or.inr (by omega)
    | false =>
      have h : ¬ enc.overflow = true := fun h => by
        simp [(hf.overflow enc).mpr (Or.inl h)] at ho
      rw [hf.data enc ho]
      simp only [Bool.false_eq_true, false_or, List.length_append, h, Nat.add_assoc]
  data enc ho := by
    have hfo : (f enc).overflow = false := by
      by_contra h
      have : (g (f enc)).overflow = true := (hg.overflow _).mpr (Or.inl (by simpa using h))
      rw [ho] at this
      exact absurd this (by decide)
    rw [hg.data _ ho, hf.data enc hfo, List.append_assoc]

theorem writes_putU8 (val : UInt8) : Writes [val] fun enc => putU8 enc val where
  cap enc := by unfold putU8; split <;> rfl
  overflow enc := by
    unfold putU8
    simp only [List.length_singleton]
    split
    · simp only [true_iff]; omega
    · constructor
      · exact fun h => Or.inl h
      · rintro (h | h)
        · exact h
        · omega
  data enc ho := by
    unfold putU8 at ho ⊢
    split
    · rename_i h
      simp [h] at ho
    · rfl

theorem writes_putBytes (bytes : List UInt8) : Writes bytes fun enc => putBytes enc bytes where
  cap enc := by
    unfold putBytes
    split
    · rfl
    · split <;> rfl
  overflow enc := by
    have hle := enc.len_le
    unfold putBytes
    split
    · rename_i h
      constructor
      · exact fun h => Or.inl h
      · rintro (h | h)
        · exact h
        · omega
    · split
      · simp only [true_iff]; omega
      · constructor
        · exact fun h => Or.inl h
        · rintro (h | h)
          · exact h
          · omega
  data enc ho := by
    unfold putBytes at ho ⊢
    split
    · rename_i h
      simp [List.eq_nil_of_length_eq_zero h]
    · rename_i hn
      split
      · rename_i h
        simp [hn, h] at ho
      · rfl

theorem writes_putU16 (val : UInt16) :
    Writes (bytesLE 2 val.toNat) fun enc => putU16 enc val := by
  have h := (writes_putU8 (val &&& 0xff).toUInt8).comp (writes_putU8 (val >>> 8).toUInt8)
  have e : [(val &&& 0xff).toUInt8] ++ [(val >>> 8).toUInt8] = bytesLE 2 val.toNat := by
    have hv := val.toNat_lt
    simp only [bytesLE, List.singleton_append, List.cons.injEq, and_true]
    refine ⟨?_, ?_⟩ <;> apply UInt8.toNat_inj.mp <;>
      simp only [UInt16.toNat_toUInt8, UInt8.toNat_ofNat', UInt16.toNat_and, UInt16.toNat_shiftRight,
        UInt16.reduceToNat, Nat.shiftRight_eq_div_pow, Nat.reduceMod, Nat.reducePow, and_byte]
    omega
  rwa [e] at h

theorem writes_putU32 (val : UInt32) :
    Writes (bytesLE 4 val.toNat) fun enc => putU32 enc val := by
  have h := (((writes_putU8 (val &&& 0xff).toUInt8).comp
    (writes_putU8 ((val >>> 8) &&& 0xff).toUInt8)).comp
    (writes_putU8 ((val >>> 16) &&& 0xff).toUInt8)).comp (writes_putU8 (val >>> 24).toUInt8)
  have e : [(val &&& 0xff).toUInt8] ++ [((val >>> 8) &&& 0xff).toUInt8] ++
      [((val >>> 16) &&& 0xff).toUInt8] ++ [(val >>> 24).toUInt8] = bytesLE 4 val.toNat := by
    have hv := val.toNat_lt
    simp only [bytesLE, List.cons_append, List.nil_append, List.cons.injEq, and_true]
    refine ⟨?_, ?_, ?_, ?_⟩ <;> apply UInt8.toNat_inj.mp <;>
      simp only [UInt32.toNat_toUInt8, UInt8.toNat_ofNat', UInt32.toNat_and, UInt32.toNat_shiftRight,
        UInt32.reduceToNat, Nat.shiftRight_eq_div_pow, Nat.reduceMod, Nat.reducePow,
        and_byte] <;>
      omega
  rwa [e] at h

theorem writes_putU64 (val : UInt64) :
    Writes (bytesLE 8 val.toNat) fun enc => putU64 enc val := by
  have h := (writes_putU32 (val &&& 0xffffffff).toUInt32).comp
    (writes_putU32 (val >>> 32).toUInt32)
  have e : bytesLE 4 (val &&& 0xffffffff).toUInt32.toNat ++ bytesLE 4 (val >>> 32).toUInt32.toNat =
      bytesLE 8 val.toNat := by
    have hv := val.toNat_lt
    simp only [bytesLE, List.cons_append, List.nil_append, List.cons.injEq, and_true]
    refine ⟨?_, ?_, ?_, ?_, ?_, ?_, ?_, ?_⟩ <;> apply UInt8.toNat_inj.mp <;>
      simp only [UInt64.toNat_toUInt32, UInt8.toNat_ofNat', UInt64.toNat_and,
        UInt64.toNat_shiftRight, UInt64.reduceToNat, Nat.shiftRight_eq_div_pow, Nat.reduceMod,
        Nat.reducePow, and_word] <;>
      omega
  rwa [e] at h

/-! ### The header -/

def headerBytes (type : PacketType) (level : ℕ) (seq : UInt16)
    (timeMs tagId fmtId : UInt32) (payloadLen : UInt16) : List UInt8 :=
  [packetMagic] ++ [typeLevel type level] ++ bytesLE 2 seq.toNat ++ bytesLE 4 timeMs.toNat ++
    bytesLE 4 tagId.toNat ++ bytesLE 4 fmtId.toNat ++ bytesLE 2 payloadLen.toNat

theorem writes_putHeader (type : PacketType) (level : ℕ) (seq : UInt16)
    (timeMs tagId fmtId : UInt32) (payloadLen : UInt16) :
    Writes (headerBytes type level seq timeMs tagId fmtId payloadLen)
      fun enc => putHeader enc type level seq timeMs tagId fmtId payloadLen := by
  have h1 := (writes_putU8 packetMagic).comp (writes_putU8 (typeLevel type level))
  have h2 := h1.comp (writes_putU16 seq)
  have h3 := h2.comp (writes_putU32 timeMs)
  have h4 := h3.comp (writes_putU32 tagId)
  have h5 := h4.comp (writes_putU32 fmtId)
  have h6 := h5.comp (writes_putU16 payloadLen)
  exact h6

@[simp] theorem length_headerBytes (type : PacketType) (level : ℕ) (seq : UInt16)
    (timeMs tagId fmtId : UInt32) (payloadLen : UInt16) :
    (headerBytes type level seq timeMs tagId fmtId payloadLen).length = packetHeaderLen := by
  simp [headerBytes, packetHeaderLen]

/-- A put into a fresh encoder with enough room writes exactly its bytes. -/
theorem Writes.new {bs : List UInt8} {f : Encoder → Encoder} (hf : Writes bs f) (cap : ℕ)
    (h : bs.length ≤ cap) :
    (f (Encoder.new cap)).overflow = false ∧ (f (Encoder.new cap)).data = bs := by
  have ho : (f (Encoder.new cap)).overflow = false := by
    by_contra hc
    have h' := (hf.overflow _).mp (by simpa using hc)
    simp [Encoder.new] at h'
    omega
  exact ⟨ho, by simpa [Encoder.new] using hf.data _ ho⟩

theorem encodeHeader_eq (type : PacketType) (level : ℕ) (seq : UInt16)
    (timeMs tagId fmtId : UInt32) (payloadLen : UInt16) :
    encodeHeader type level seq timeMs tagId fmtId payloadLen =
      headerBytes type level seq timeMs tagId fmtId payloadLen :=
  ((writes_putHeader type level seq timeMs tagId fmtId payloadLen).new _
    (by rw [length_headerBytes])).2

/-- Fields of a received header, by the offsets of `on9log_packet_header_t`. -/
def headerType (h : List UInt8) : UInt8 := h.getD 1 0 >>> 4
def headerLevel (h : List UInt8) : UInt8 := h.getD 1 0 &&& 0x0f
def headerSeq (h : List UInt8) : ℕ := valLE ((h.drop 2).take 2)
def headerTimeMs (h : List UInt8) : ℕ := valLE ((h.drop 4).take 4)
def headerTagId (h : List UInt8) : ℕ := valLE ((h.drop 8).take 4)
def headerFmtId (h : List UInt8) : ℕ := valLE ((h.drop 12).take 4)
def headerPayloadLen (h : List UInt8) : ℕ := valLE ((h.drop 16).take 2)

section Fields

variable (type : PacketType) (level : ℕ) (seq : UInt16) (timeMs tagId fmtId : UInt32)
  (payloadLen : UInt16)

theorem typeLevel_type : typeLevel type level >>> 4 = type.code := by
  have key : ∀ l : UInt8, (((type.code &&& 0x0f) <<< 4) ||| (l &&& 0x0f)) >>> 4 = type.code := by
    cases type <;> exact forall_byte (by decide +kernel)
  exact key (UInt8.ofNat level)

theorem typeLevel_level : typeLevel type level &&& 0x0f = UInt8.ofNat level &&& 0x0f := by
  have key : ∀ l : UInt8,
      (((type.code &&& 0x0f) <<< 4) ||| (l &&& 0x0f)) &&& 0x0f = l &&& 0x0f := by
    cases type <;> exact forall_byte (by decide +kernel)
  exact key (UInt8.ofNat level)

@[simp] theorem headerType_headerBytes :
    headerType (headerBytes type level seq timeMs tagId fmtId payloadLen) = type.code :=
  typeLevel_type type level

@[simp] theorem headerLevel_headerBytes :
    headerLevel (headerBytes type level seq timeMs tagId fmtId payloadLen) =
      UInt8.ofNat level &&& 0x0f :=
  typeLevel_level type level

@[simp] theorem headerSeq_headerBytes :
    headerSeq (headerBytes type level seq timeMs tagId fmtId payloadLen) = seq.toNat :=
  valLE_bytesLE 2 seq.toNat seq.toNat_lt

@[simp] theorem headerTimeMs_headerBytes :
    headerTimeMs (headerBytes type level seq timeMs tagId fmtId payloadLen) = timeMs.toNat :=
  valLE_bytesLE 4 timeMs.toNat timeMs.toNat_lt

@[simp] theorem headerTagId_headerBytes :
    headerTagId (headerBytes type level seq timeMs tagId fmtId payloadLen) = tagId.toNat :=
  valLE_bytesLE 4 tagId.toNat tagId.toNat_lt

@[simp] theorem headerFmtId_headerBytes :
    headerFmtId (headerBytes type level seq timeMs tagId fmtId payloadLen) = fmtId.toNat :=
  valLE_bytesLE 4 fmtId.toNat fmtId.toNat_lt

@[simp] theorem headerPayloadLen_headerBytes :
    headerPayloadLen (headerBytes type level seq timeMs tagId fmtId payloadLen) =
      payloadLen.toNat :=
  valLE_bytesLE 2 payloadLen.toNat payloadLen.toNat_lt

end Fields

end On9log
