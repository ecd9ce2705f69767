import Mathlib.Data.List.Basic
import On9log.Lib.Crc

/-!
# Frames (on9log_unix_stdio.c:20-97, esp_stdio_log_vfs.c:51-63, 176-233)

A frame is a start byte, the type, the payload and a CRC-16 of both, and an end
byte; the bytes that mark a frame, the escape byte and the two line ends are
escaped inside. The stdio sink and the VFS transport each have a CRC of their
own, bit by bit and from a table.
-/

namespace On9log
open Lib

/-- `ON9LOG_TRANSPORT_MAX_PAYLOAD`. -/
def transportMaxPayload : ℕ := 3072

def frameStart : UInt8 := 0xa5
def frameEnd : UInt8 := 0xc0
def frameEscape : UInt8 := 0xdb

/-- `ESP_STDIO_LOG_VFS_FRAME_TYPE_ON9LOG`, `ON9LOG_UNIX_FRAME_TYPE_BINARY`. -/
def frameTypeOn9log : UInt8 := 0x01

/-- `ESP_STDIO_LOG_VFS_FRAME_TYPE_TEXT`. -/
def frameTypeText : UInt8 := 0x02

/-! ### CRC-16 -/

/-- One turn of the loop in `on9log_unix_crc16_update`. -/
def crc16Bit (crc : BitVec 16) : BitVec 16 :=
  if crc &&& 0x8000#16 ≠ 0 then crc <<< 1 ^^^ 0x1021#16 else crc <<< 1

/-- `on9log_unix_crc16_update`. -/
def unixCrc16Update (crc : BitVec 16) (byte : UInt8) : BitVec 16 :=
  crc16Bit^[8] (crc ^^^ byte.toBitVec.setWidth 16 <<< 8)

def crc16CcittTable : List (BitVec 16) :=
  [0x0000, 0x1021, 0x2042, 0x3063, 0x4084, 0x50a5, 0x60c6, 0x70e7,
   0x8108, 0x9129, 0xa14a, 0xb16b, 0xc18c, 0xd1ad, 0xe1ce, 0xf1ef,
   0x1231, 0x0210, 0x3273, 0x2252, 0x52b5, 0x4294, 0x72f7, 0x62d6,
   0x9339, 0x8318, 0xb37b, 0xa35a, 0xd3bd, 0xc39c, 0xf3ff, 0xe3de,
   0x2462, 0x3443, 0x0420, 0x1401, 0x64e6, 0x74c7, 0x44a4, 0x5485,
   0xa56a, 0xb54b, 0x8528, 0x9509, 0xe5ee, 0xf5cf, 0xc5ac, 0xd58d,
   0x3653, 0x2672, 0x1611, 0x0630, 0x76d7, 0x66f6, 0x5695, 0x46b4,
   0xb75b, 0xa77a, 0x9719, 0x8738, 0xf7df, 0xe7fe, 0xd79d, 0xc7bc,
   0x48c4, 0x58e5, 0x6886, 0x78a7, 0x0840, 0x1861, 0x2802, 0x3823,
   0xc9cc, 0xd9ed, 0xe98e, 0xf9af, 0x8948, 0x9969, 0xa90a, 0xb92b,
   0x5af5, 0x4ad4, 0x7ab7, 0x6a96, 0x1a71, 0x0a50, 0x3a33, 0x2a12,
   0xdbfd, 0xcbdc, 0xfbbf, 0xeb9e, 0x9b79, 0x8b58, 0xbb3b, 0xab1a,
   0x6ca6, 0x7c87, 0x4ce4, 0x5cc5, 0x2c22, 0x3c03, 0x0c60, 0x1c41,
   0xedae, 0xfd8f, 0xcdec, 0xddcd, 0xad2a, 0xbd0b, 0x8d68, 0x9d49,
   0x7e97, 0x6eb6, 0x5ed5, 0x4ef4, 0x3e13, 0x2e32, 0x1e51, 0x0e70,
   0xff9f, 0xefbe, 0xdfdd, 0xcffc, 0xbf1b, 0xaf3a, 0x9f59, 0x8f78,
   0x9188, 0x81a9, 0xb1ca, 0xa1eb, 0xd10c, 0xc12d, 0xf14e, 0xe16f,
   0x1080, 0x00a1, 0x30c2, 0x20e3, 0x5004, 0x4025, 0x7046, 0x6067,
   0x83b9, 0x9398, 0xa3fb, 0xb3da, 0xc33d, 0xd31c, 0xe37f, 0xf35e,
   0x02b1, 0x1290, 0x22f3, 0x32d2, 0x4235, 0x5214, 0x6277, 0x7256,
   0xb5ea, 0xa5cb, 0x95a8, 0x8589, 0xf56e, 0xe54f, 0xd52c, 0xc50d,
   0x34e2, 0x24c3, 0x14a0, 0x0481, 0x7466, 0x6447, 0x5424, 0x4405,
   0xa7db, 0xb7fa, 0x8799, 0x97b8, 0xe75f, 0xf77e, 0xc71d, 0xd73c,
   0x26d3, 0x36f2, 0x0691, 0x16b0, 0x6657, 0x7676, 0x4615, 0x5634,
   0xd94c, 0xc96d, 0xf90e, 0xe92f, 0x99c8, 0x89e9, 0xb98a, 0xa9ab,
   0x5844, 0x4865, 0x7806, 0x6827, 0x18c0, 0x08e1, 0x3882, 0x28a3,
   0xcb7d, 0xdb5c, 0xeb3f, 0xfb1e, 0x8bf9, 0x9bd8, 0xabbb, 0xbb9a,
   0x4a75, 0x5a54, 0x6a37, 0x7a16, 0x0af1, 0x1ad0, 0x2ab3, 0x3a92,
   0xfd2e, 0xed0f, 0xdd6c, 0xcd4d, 0xbdaa, 0xad8b, 0x9de8, 0x8dc9,
   0x7c26, 0x6c07, 0x5c64, 0x4c45, 0x3ca2, 0x2c83, 0x1ce0, 0x0cc1,
   0xef1f, 0xff3e, 0xcf5d, 0xdf7c, 0xaf9b, 0xbfba, 0x8fd9, 0x9ff8,
   0x6e17, 0x7e36, 0x4e55, 0x5e74, 0x2e93, 0x3eb2, 0x0ed1, 0x1ef0]

/-- One turn of the loop in `esp_stdio_log_vfs_crc16_ccitt_update`. -/
def espCrc16Byte (crc : BitVec 16) (byte : UInt8) : BitVec 16 :=
  crc <<< 8 ^^^
    crc16CcittTable.getD ((crc >>> 8 ^^^ byte.toBitVec.setWidth 16) &&& 0xff#16).toNat 0

/-- `esp_stdio_log_vfs_crc16_ccitt_update`. -/
def espCrc16CcittUpdate (crc : BitVec 16) (data : List UInt8) : BitVec 16 :=
  data.foldl espCrc16Byte crc

/-- The CRC of a whole frame, `crc16_ccitt` (tests/on9log_test.cpp:191-201). -/
def crc16Ccitt (bytes : List UInt8) : BitVec 16 := bytes.foldl unixCrc16Update 0xffff#16

theorem crc16Bit_eq : crc16Bit = crcShift 0x1021#16 := by
  funext crc
  unfold crc16Bit crcShift
  have htop : crc &&& 0x8000#16 ≠ 0 ↔ crc.msb = true := by
    rw [BitVec.msb_eq_getLsbD_last]
    have hmask : (0x8000#16) = BitVec.twoPow 16 15 := rfl
    rw [hmask, BitVec.and_twoPow]
    cases crc.getLsbD 15 <;> simp
  by_cases h : crc.msb = true
  · rw [if_pos (htop.mpr h), if_pos h]
  · rw [if_neg fun hne => h (htop.mp hne), if_neg h]

theorem unixCrc16Update_eq (crc : BitVec 16) (byte : UInt8) :
    unixCrc16Update crc byte = crcByte 0x1021#16 crc byte.toBitVec := by
  rw [unixCrc16Update, crc16Bit_eq]
  rfl

theorem crc16CcittTable_entry (i : BitVec 8) :
    crc16CcittTable.getD i.toNat 0 = crcEntry 0x1021#16 i := by
  have hall : ∀ i : Fin 256,
      crc16CcittTable.getD i.val 0 = crc16Bit^[8] ((BitVec.ofNat 8 i.val).setWidth 16 <<< 8) := by
    decide +kernel
  have hi := hall ⟨i.toNat, i.isLt⟩
  rw [BitVec.ofNat_toNat, BitVec.setWidth_eq] at hi
  rw [crcEntry, ← crc16Bit_eq]
  exact hi

theorem index_eq (x : BitVec 16) : (x &&& 0xff#16).toNat = (x.setWidth 8).toNat := by
  rw [BitVec.toNat_and, BitVec.toNat_setWidth]
  exact Nat.and_two_pow_sub_one_eq_mod x.toNat 8

/-- The table gives what the loop gives. -/
theorem espCrc16Byte_eq (crc : BitVec 16) (byte : UInt8) :
    espCrc16Byte crc byte = unixCrc16Update crc byte := by
  have hindex : (crc >>> 8 ^^^ byte.toBitVec.setWidth 16).setWidth 8 =
      (crc >>> 8).setWidth 8 ^^^ byte.toBitVec := by
    rw [BitVec.setWidth_xor, BitVec.setWidth_setWidth_of_le _ (by omega), BitVec.setWidth_eq]
  rw [unixCrc16Update_eq, crcByte_eq_entry (by omega), espCrc16Byte, index_eq, hindex,
    crc16CcittTable_entry]

theorem espCrc16CcittUpdate_eq (crc : BitVec 16) (data : List UInt8) :
    espCrc16CcittUpdate crc data = data.foldl unixCrc16Update crc := by
  unfold espCrc16CcittUpdate
  induction data generalizing crc with
  | nil => rfl
  | cons byte data ih => rw [List.foldl_cons, List.foldl_cons, espCrc16Byte_eq, ih]

/-! ### The bytes of a frame -/

/-- What stands for a byte inside a frame. -/
def slip (byte : UInt8) : List UInt8 :=
  if byte = 0xa5 then [frameEscape, 0xde]
  else if byte = 0xc0 then [frameEscape, 0xdc]
  else if byte = 0xdb then [frameEscape, 0xdd]
  else if byte = 0x0d then [frameEscape, 0xd0]
  else if byte = 0x0a then [frameEscape, 0xd1]
  else [byte]

def crcLow (crc : BitVec 16) : UInt8 := ⟨(crc &&& 0xff#16).setWidth 8⟩

def crcHigh (crc : BitVec 16) : UInt8 := ⟨(crc >>> 8).setWidth 8⟩

/-- The bytes between the marks, before they are escaped. -/
def frameBody (type : UInt8) (payload : List UInt8) : List UInt8 :=
  type :: payload ++
    [crcLow (crc16Ccitt (type :: payload)), crcHigh (crc16Ccitt (type :: payload))]

def frameBytes (type : UInt8) (payload : List UInt8) : List UInt8 :=
  frameStart :: (frameBody type payload).flatMap slip ++ [frameEnd]

/-- A byte that never stands inside a frame. -/
def Reserved (byte : UInt8) : Prop :=
  byte = 0xa5 ∨ byte = 0xc0 ∨ byte = 0x0d ∨ byte = 0x0a

theorem not_mem_slip {r : UInt8} (hr : Reserved r) (byte : UInt8) : r ∉ slip byte := by
  intro hmem
  unfold slip frameEscape at hmem
  rcases hr with rfl | rfl | rfl | rfl <;> split_ifs at hmem <;> simp_all

theorem not_mem_body {r : UInt8} (hr : Reserved r) (type : UInt8) (payload : List UInt8) :
    r ∉ (frameBody type payload).flatMap slip := by
  intro hmem
  obtain ⟨byte, -, hbyte⟩ := List.mem_flatMap.mp hmem
  exact not_mem_slip hr byte hbyte

end On9log
