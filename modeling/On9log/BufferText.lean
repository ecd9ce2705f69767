import On9log.TextDigits

/-!
# A buffer as text (on9log.c:2411-2437)

The dump collects three characters for each byte in a local array of 96 and
hands it over whenever it is full. Ninety-six is a multiple of three, so it is
full exactly behind a byte, and no store leaves it. The text gives the buffer
back.
-/

namespace On9log
open Lib

/-- `char encoded[3u * 32u]`. -/
def encodedSize : ℕ := 96

/-- The table `hex`. -/
def hexTable : Text :=
  chars ['0', '1', '2', '3', '4', '5', '6', '7', '8', '9', 'a', 'b', 'c', 'd', 'e', 'f']

/-- The local variables of the formatter, with what it has handed over. -/
structure BufferDump where
  encoded : List UInt8
  encodedLen : ℕ
  out : List Text

/-- One turn of its loop. -/
def dumpByte (s : BufferDump) (byte : UInt8) : Option BufferDump := do
  let encoded ← storeAt s.encoded s.encodedLen (chr ' ')
  let high ← hexTable[(byte >>> 4).toNat]?
  let encoded ← storeAt encoded (s.encodedLen + 1) high
  let low ← hexTable[(byte &&& 0x0f).toNat]?
  let encoded ← storeAt encoded (s.encodedLen + 2) low
  some (if s.encodedLen + 3 = encodedSize then ⟨encoded, 0, s.out ++ [encoded.take (s.encodedLen + 3)]⟩
    else ⟨encoded, s.encodedLen + 3, s.out⟩)

def bufferOpen : Text := chars ['b', 'u', 'f', 'f', 'e', 'r', '[']

def bufferClose : Text := chars [']', ':']

/-- `on9log_buffer_text_formatter`, `none` if it leaves one of its arrays.
`digits` and `encoded` are what the arrays hold at first. -/
def bufferTextFormatter (digits encoded bytes : List UInt8) : Option (List Text) := do
  let len ← outputU32 digits (UInt32.ofNat bytes.length)
  let s ← bytes.foldlM dumpByte ⟨encoded, 0, [bufferOpen, len, bufferClose]⟩
  some (s.out ++ if s.encodedLen ≠ 0 then [s.encoded.take s.encodedLen] else [])

/-! ### The text -/

/-- Lower-case hexadecimal. -/
def hexDigit (n : ℕ) : UInt8 := UInt8.ofNat (if n < 10 then 48 + n else 87 + n)

def hexByte (byte : UInt8) : Text :=
  [chr ' ', hexDigit (byte.toNat / 16), hexDigit (byte.toNat % 16)]

def bufferText (bytes : List UInt8) : Text :=
  bufferOpen ++ textU32 bytes.length ++ bufferClose ++ bytes.flatMap hexByte

theorem hexTable_digit (i : ℕ) (h : i < 16) : hexTable[i]? = some (hexDigit i) := by
  interval_cases i <;> decide

theorem hexTable_byte (byte : UInt8) :
    hexTable[(byte >>> 4).toNat]? = some (hexDigit (byte.toNat / 16)) ∧
      hexTable[(byte &&& 0x0f).toNat]? = some (hexDigit (byte.toNat % 16)) := by
  have hlt := byte.toNat_lt
  have hhigh : (byte >>> 4).toNat = byte.toNat / 16 := by
    rw [UInt8.toNat_shiftRight]
    exact Nat.shiftRight_eq_div_pow _ 4
  have hlow : (byte &&& 0x0f).toNat = byte.toNat % 16 := by
    rw [UInt8.toNat_and]
    exact Nat.and_two_pow_sub_one_eq_mod byte.toNat 4
  rw [hhigh, hlow]
  exact ⟨hexTable_digit _ (by omega), hexTable_digit _ (by omega)⟩

/-- Between two turns: whole bytes are in the array, and there is room for one more. -/
structure BufferDump.Holds (s : BufferDump) (text : Text) : Prop where
  size : s.encoded.length = encodedSize
  whole : s.encodedLen % 3 = 0
  room : s.encodedLen < encodedSize
  text : s.out.flatten ++ s.encoded.take s.encodedLen = text

/-- Three stores one behind the other. -/
theorem storeAt_three {a : List UInt8} {i : ℕ} (h : i + 3 ≤ a.length) (x y z : UInt8) :
    ∃ b, (do
      let a ← storeAt a i x
      let a ← storeAt a (i + 1) y
      storeAt a (i + 2) z) = some b ∧ b.length = a.length ∧ b.take (i + 3) = a.take i ++ [x, y, z] := by
  have h₁ : i < a.length := by omega
  have h₂ : i + 1 < (a.set i x).length := by
    rw [List.length_set]
    omega
  have h₃ : i + 1 + 1 < ((a.set i x).set (i + 1) y).length := by
    rw [List.length_set, List.length_set]
    omega
  refine ⟨((a.set i x).set (i + 1) y).set (i + 1 + 1) z, ?_, ?_, ?_⟩
  · simp only [Option.bind_eq_bind, storeAt_eq h₁, Option.bind_some, storeAt_eq h₂]
    exact storeAt_eq h₃ z
  · simp only [List.length_set]
  · rw [take_set_self h₃, take_set_self h₂, take_set_self h₁]
    simp only [List.append_assoc, List.cons_append, List.nil_append]

theorem dumpByte_holds {s : BufferDump} {text : Text} (h : s.Holds text) (byte : UInt8) :
    ∃ s', dumpByte s byte = some s' ∧ s'.Holds (text ++ hexByte byte) := by
  have hwhole := h.whole
  have hroom := h.room
  unfold encodedSize at hroom
  have hfits : s.encodedLen + 3 ≤ s.encoded.length := by
    rw [h.size, encodedSize]
    omega
  obtain ⟨hhigh, hlow⟩ := hexTable_byte byte
  obtain ⟨encoded, hstores, hlen, htake⟩ := storeAt_three hfits (chr ' ')
    (hexDigit (byte.toNat / 16)) (hexDigit (byte.toNat % 16))
  have hrun : dumpByte s byte = some (if s.encodedLen + 3 = encodedSize then
      ⟨encoded, 0, s.out ++ [encoded.take (s.encodedLen + 3)]⟩
        else ⟨encoded, s.encodedLen + 3, s.out⟩) := by
    unfold dumpByte
    simp only [Option.bind_eq_bind, hhigh, hlow, Option.bind_some] at hstores ⊢
    obtain ⟨a₁, h₁, hstores⟩ := Option.bind_eq_some_iff.mp hstores
    obtain ⟨a₂, h₂, hstores⟩ := Option.bind_eq_some_iff.mp hstores
    simp only [h₁, h₂, hstores, Option.bind_some]
  have hsize : encoded.length = encodedSize := by rw [hlen, h.size]
  have hbytes : s.out.flatten ++ encoded.take (s.encodedLen + 3) = text ++ hexByte byte := by
    rw [htake, ← List.append_assoc, h.text]
    rfl
  refine ⟨_, hrun, ?_⟩
  by_cases hfull : s.encodedLen + 3 = encodedSize
  · rw [if_pos hfull]
    refine ⟨hsize, rfl, Nat.succ_pos _, ?_⟩
    rw [List.take_zero, List.append_nil, List.flatten_append, List.flatten_singleton]
    exact hbytes
  · rw [if_neg hfull]
    refine ⟨hsize, ?_, ?_, hbytes⟩
    · show (s.encodedLen + 3) % 3 = 0
      omega
    · show s.encodedLen + 3 < encodedSize
      unfold encodedSize at hfull ⊢
      omega

theorem foldlM_dumpByte {s : BufferDump} {text : Text} (h : s.Holds text) (bytes : List UInt8) :
    ∃ s', bytes.foldlM dumpByte s = some s' ∧ s'.Holds (text ++ bytes.flatMap hexByte) := by
  induction bytes generalizing s text with
  | nil => exact ⟨s, rfl, by simpa using h⟩
  | cons byte bytes ih =>
    obtain ⟨s₁, hrun₁, h₁⟩ := dumpByte_holds h byte
    obtain ⟨s₂, hrun₂, h₂⟩ := ih h₁
    refine ⟨s₂, ?_, ?_⟩
    · rw [List.foldlM_cons, hrun₁]
      exact hrun₂
    · rwa [List.append_assoc, ← List.flatMap_cons] at h₂

theorem toNat_length {bytes : List UInt8} (h : bytes.length ≤ uint32Max) :
    (UInt32.ofNat bytes.length).toNat = bytes.length := by
  unfold uint32Max at h
  rw [UInt32.toNat_ofNat']
  omega

theorem bufferTextFormatter_eq {digits encoded bytes : List UInt8}
    (hdigits : digits.length = digitsSize) (hencoded : encoded.length = encodedSize)
    (hlen : bytes.length ≤ uint32Max) : ∃ pieces,
      bufferTextFormatter digits encoded bytes = some pieces ∧ pieces.flatten = bufferText bytes := by
  have hstart : (BufferDump.mk encoded 0 [bufferOpen, textU32 bytes.length, bufferClose]).Holds
      (bufferOpen ++ textU32 bytes.length ++ bufferClose) := by
    refine ⟨hencoded, rfl, Nat.succ_pos _, ?_⟩
    simp only [List.flatten_cons, List.flatten_nil, List.take_zero, List.append_nil,
      List.append_assoc]
  obtain ⟨s, hrun, h⟩ := foldlM_dumpByte hstart bytes
  have hout := outputU32_eq hdigits (UInt32.ofNat bytes.length)
  rw [toNat_length hlen] at hout
  refine ⟨s.out ++ if s.encodedLen ≠ 0 then [s.encoded.take s.encodedLen] else [], ?_, ?_⟩
  · rw [bufferTextFormatter, hout]
    simp only [Option.bind_eq_bind, Option.bind_some, hrun]
  · rw [bufferText, ← h.text, List.flatten_append]
    by_cases hz : s.encodedLen ≠ 0
    · rw [if_pos hz, List.flatten_singleton]
    · rw [if_neg hz, not_not.mp hz, List.take_zero, List.flatten_nil]

/-! ### Reading the dump back -/

theorem hexDigit_injective {m n : ℕ} (hm : m < 16) (hn : n < 16) (h : hexDigit m = hexDigit n) :
    m = n := by
  have hval := congrArg UInt8.toNat h
  unfold hexDigit at hval
  rw [UInt8.toNat_ofNat', UInt8.toNat_ofNat'] at hval
  split_ifs at hval <;> omega

theorem hexByte_injective : Function.Injective hexByte := by
  intro byte byte' h
  unfold hexByte at h
  simp only [List.cons.injEq, true_and, and_true] at h
  have hlt := byte.toNat_lt
  have hlt' := byte'.toNat_lt
  have hhigh := hexDigit_injective (by omega) (by omega) h.1
  have hlow := hexDigit_injective (by omega) (by omega) h.2
  apply UInt8.toNat_inj.mp
  omega

theorem flatMap_hexByte_injective {bytes bytes' : List UInt8}
    (h : bytes.flatMap hexByte = bytes'.flatMap hexByte) : bytes = bytes' := by
  induction bytes generalizing bytes' with
  | nil =>
    cases bytes' with
    | nil => rfl
    | cons byte' bytes' => cases h
  | cons byte bytes ih =>
    cases bytes' with
    | nil => cases h
    | cons byte' bytes' =>
      rw [List.flatMap_cons, List.flatMap_cons] at h
      obtain ⟨hbyte, hrest⟩ := List.append_inj h rfl
      rw [hexByte_injective hbyte, ih hrest]

theorem bracket_notMem {text : Text} (h : IsDigits text) : chr ']' ∉ text := fun hmem =>
  absurd (h _ hmem).2 (by decide)

theorem hexDigit_ne_bracket (n : ℕ) (h : n < 16) : hexDigit n ≠ chr ']' := by
  interval_cases n <;> decide

theorem bracket_notMem_hex (bytes : List UInt8) : chr ']' ∉ chr ':' :: bytes.flatMap hexByte := by
  intro hmem
  rcases List.mem_cons.mp hmem with hcolon | hmem
  · exact absurd hcolon (by decide)
  · obtain ⟨byte, -, hbyte⟩ := List.mem_flatMap.mp hmem
    have hlt := byte.toNat_lt
    simp only [hexByte, List.mem_cons, List.not_mem_nil, or_false] at hbyte
    rcases hbyte with hspace | hhigh | hlow
    · exact absurd hspace (by decide)
    · exact hexDigit_ne_bracket _ (by omega) hhigh.symm
    · exact hexDigit_ne_bracket _ (by omega) hlow.symm

/-- The bracket ends the length, and the rest is three characters for each byte. -/
theorem bufferText_injective {bytes bytes' : List UInt8} (h : bytes.length ≤ uint32Max)
    (heq : bufferText bytes = bufferText bytes') : bytes = bytes' := by
  have hdigits := isDigits_textU32 (UInt32.ofNat bytes.length)
  rw [toNat_length h] at hdigits
  have hclose : ∀ rest : Text, bufferClose ++ rest = chr ']' :: (chr ':' :: rest) := fun _ => rfl
  unfold bufferText at heq
  rw [List.append_assoc, List.append_assoc, List.append_assoc, List.append_assoc] at heq
  have htail := List.append_cancel_left heq
  rw [hclose, hclose] at htail
  have hparts := (List.append_cons_inj_of_notMem (bracket_notMem hdigits)
    (bracket_notMem_hex bytes)).mp htail
  exact flatMap_hexByte_injective (List.tail_eq_of_cons_eq hparts.2.2)

/-- The dump stays in its arrays and its text is the length and every byte of
the buffer, so that it determines the buffer. -/
theorem buffer_text_lossless {digits encoded bytes : List UInt8}
    (hdigits : digits.length = digitsSize) (hencoded : encoded.length = encodedSize)
    (hlen : bytes.length ≤ uint32Max) : ∃ pieces len,
      bufferTextFormatter digits encoded bytes = some pieces ∧
      pieces.flatten = bufferOpen ++ len ++ bufferClose ++ bytes.flatMap hexByte ∧
      IsDigits len ∧ decimalValue len = bytes.length ∧
      (len.head? = some (chr '0') → len = [chr '0']) ∧
      ∀ digits' encoded' bytes' pieces', digits'.length = digitsSize →
        encoded'.length = encodedSize → bytes'.length ≤ uint32Max →
        bufferTextFormatter digits' encoded' bytes' = some pieces' →
        pieces'.flatten = pieces.flatten → bytes' = bytes := by
  obtain ⟨pieces, hrun, htext⟩ := bufferTextFormatter_eq hdigits hencoded hlen
  have hvalue := decimalValue_textU32 (UInt32.ofNat bytes.length)
  have hisDigits := isDigits_textU32 (UInt32.ofNat bytes.length)
  have hhead := head_textU32 (UInt32.ofNat bytes.length)
  rw [toNat_length hlen] at hvalue hisDigits hhead
  refine ⟨pieces, textU32 bytes.length, hrun, htext, hisDigits, hvalue, fun hzero => ?_, ?_⟩
  · have hempty : bytes.length = 0 := by
      by_contra hne
      exact hhead hne hzero
    rw [hempty]
    decide
  · intro digits' encoded' bytes' pieces' hdigits' hencoded' hlen' hrun' hsame
    obtain ⟨pieces₂, hrun₂, htext₂⟩ := bufferTextFormatter_eq hdigits' hencoded' hlen'
    rw [hrun₂] at hrun'
    rw [← Option.some.inj hrun', htext₂, htext] at hsame
    exact bufferText_injective hlen' hsame

/-- A buffer of one byte more than the array holds. -/
theorem buffer_text_lossless_flush : ∃ pieces len,
    bufferTextFormatter (List.replicate 10 0) (List.replicate 96 0) (List.replicate 33 0xaf) =
      some pieces ∧
    pieces.flatten =
      bufferOpen ++ len ++ bufferClose ++ (List.replicate 33 0xaf).flatMap hexByte ∧
    decimalValue len = 33 := by
  have hlen : (List.replicate 33 (0xaf : UInt8)).length ≤ uint32Max := by decide
  obtain ⟨pieces, len, hrun, htext, -, hvalue, -⟩ :=
    buffer_text_lossless (List.length_replicate (n := 10) (a := 0))
      (List.length_replicate (n := 96) (a := 0)) hlen
  exact ⟨pieces, len, hrun, htext, hvalue⟩

end On9log
