import Mathlib.Tactic

/-!
# Constants, configuration and plain data (on9log.h, on9log_fmt.h, on9log_config.h)

Compile-time options are the fields of `Config`, with the `#error` checks of
`on9log_config.h` as proofs, so that every `Config` is one the library compiles
with. Addresses are natural numbers, `0` is NULL. `size_t` values are natural
numbers: every sum formed below is bounded by a few configured lengths.
`on9log_level_t` has no negative enumerator, so its values are natural numbers.
-/

namespace On9log

abbrev Ptr := ℕ

/-- What a task sees in memory at one moment. -/
abbrev Mem := Ptr → UInt8

def uint32Max : ℕ := 4294967295

/-! ### on9log_fmt.h -/

def packetMagic : UInt8 := 0x9a

def payloadLenStreaming : ℕ := 0xffff

def idInline : UInt32 := 0xffffffff

def wireFormatVersion : UInt8 := 1

def imageIdMaxLen : ℕ := 32

/-- `sizeof(on9log_packet_header_t)`, a packed struct. -/
def packetHeaderLen : ℕ := 18

inductive PacketType where
  | log
  | dropped
  | timeSync
  | boot
  | buffer
  deriving DecidableEq, Repr

def PacketType.code : PacketType → UInt8
  | .log => 0
  | .dropped => 1
  | .timeSync => 2
  | .boot => 3
  | .buffer => 4

/-! ### on9log.h -/

inductive Err where
  | ok
  | fail
  | invalidArg
  | noMem
  | notFound
  | invalidSize
  deriving DecidableEq, Repr

def levelNone : ℕ := 0
def levelVerbose : ℕ := 5

/-- `on9log_valid_level` (on9log.c:1345-1348). -/
def validLevel (level : ℕ) : Bool := decide (levelNone ≤ level ∧ level ≤ levelVerbose)

theorem validLevel_eq_false {level : ℕ} : validLevel level = false ↔ levelVerbose < level := by
  unfold validLevel levelNone
  rw [decide_eq_false_iff_not]
  omega

inductive ArgsType where
  | none
  | bits32
  | bits64
  | pointer
  | dynamicString
  | dynamicStringView
  deriving DecidableEq, Repr

def ArgsType.code : ArgsType → UInt8
  | .none => 0
  | .bits32 => 1
  | .bits64 => 2
  | .pointer => 3
  | .dynamicString => 4
  | .dynamicStringView => 5

/-- The `case` a type byte selects; other bytes take `default`. -/
def ArgsType.ofCode (c : UInt8) : Option ArgsType :=
  if c = 0 then some .none
  else if c = 1 then some .bits32
  else if c = 2 then some .bits64
  else if c = 3 then some .pointer
  else if c = 4 then some .dynamicString
  else if c = 5 then some .dynamicStringView
  else Option.none

theorem ArgsType.ofCode_code (t : ArgsType) : ArgsType.ofCode t.code = some t := by
  cases t <;> decide

def maxArgs : ℕ := 32

/-- A NUL-terminated string by its bytes before the NUL. -/
structure CStr where
  bytes : List UInt8
  nonzero : 0 ∉ bytes
  deriving DecidableEq

/-! ### on9log_config.h -/

structure Config where
  maxSinks : ℕ
  bufferChunkSize : ℕ
  maxDynamicStringLen : ℕ
  isrPacketMax : ℕ
  localLevel : ℕ
  /-- Widths of `uint_fast16_t` and `uint_fast32_t`, the types of `s_seq` and
  `s_dropped_count`. -/
  fast16 : ℕ
  fast32 : ℕ
  /-- `on9log_port_addr_in_image`. -/
  addrInImage : Ptr → Bool
  chunk_pos : 1 ≤ bufferChunkSize
  chunk_le : bufferChunkSize ≤ 0xffff - 1 - 12
  string_le : maxDynamicStringLen ≤ uint32Max - 1
  isr_ge : 32 ≤ isrPacketMax
  fast16_ge : 16 ≤ fast16
  fast32_ge : 32 ≤ fast32

end On9log
