import On9log.FrameDecode

/-!
# What the frame CRC catches (esp_stdio_log_vfs.c:182-233, on9log_unix_stdio.c:43-52,
tests/on9log_test.cpp:190-245)

A frame body in which one byte changed, or two adjacent bytes of the type and
the payload, never passes the check of `decode_frames`, whichever of the two
writers computed its CRC.
-/

namespace On9log
open Lib

/-- A body as a writer puts it together: the data and the two bytes of a CRC. -/
def checkedBody (data : List UInt8) (crc : BitVec 16) : List UInt8 := data ++ [crcLow crc, crcHigh crc]

/-- The CRC of one of the two writers. -/
def WriterCrc (data : List UInt8) (crc : BitVec 16) : Prop :=
  crc = data.foldl unixCrc16Update 0xffff#16 ∨ crc = espCrc16CcittUpdate 0xffff#16 data

/-- What changes on the way: one byte anywhere, or bytes of the data next to each other. -/
inductive Corrupted (data body body' : List UInt8) : Prop
  | byte (i : ℕ) : (∀ j, body[j]? ≠ body'[j]? ↔ j = i) → Corrupted data body body'
  | pair (i : ℕ) : i + 1 < data.length → body ≠ body' →
      (∀ j, j ≠ i → j ≠ i + 1 → body[j]? = body'[j]?) → Corrupted data body body'

theorem crc16Ccitt_eq (data : List UInt8) :
    crc16Ccitt data = (data.map UInt8.toBitVec).foldl (crcByte 0x1021#16) 0xffff#16 := by
  unfold crc16Ccitt
  rw [List.foldl_map]
  congr 1
  funext crc byte
  exact unixCrc16Update_eq crc byte

theorem WriterCrc.eq {data : List UInt8} {crc : BitVec 16} (h : WriterCrc data crc) :
    crc = crc16Ccitt data := by
  rcases h with rfl | rfl
  · rfl
  · exact espCrc16CcittUpdate_eq _ data

/-- Data that differ in at most two adjacent bytes have different CRCs. -/
theorem crc16Ccitt_window {data data' : List UInt8} {i : ℕ} (hlen : data.length = data'.length)
    (hsame : ∀ j, j ≠ i → j ≠ i + 1 → data[j]? = data'[j]?)
    (h : crc16Ccitt data = crc16Ccitt data') : data = data' := by
  rw [crc16Ccitt_eq, crc16Ccitt_eq] at h
  have hmap : data.map UInt8.toBitVec = data'.map UInt8.toBitVec := by
    apply foldl_crcByte_window (by omega) (by decide) (i := i) ?_ (fun j hj hj' => ?_) h
    · rw [List.length_map, List.length_map, hlen]
    · rw [List.getElem?_map, List.getElem?_map, hsame j hj hj']
  exact List.map_injective_iff.mpr (fun _ _ => UInt8.toBitVec_inj.mp) hmap

/-! ### A body with a wrong byte -/

/-- The CRC a reader finds in the last two bytes. -/
def joinCrc (low high : UInt8) : BitVec 16 :=
  low.toBitVec.setWidth 16 ||| high.toBitVec.setWidth 16 <<< 8

theorem joinCrc_low (low high : UInt8) : crcLow (joinCrc low high) = low := by
  apply UInt8.toBitVec_inj.mp
  apply BitVec.eq_of_getLsbD_eq
  intro i hi
  simp only [crcLow, joinCrc, BitVec.getLsbD_setWidth, BitVec.getLsbD_and, BitVec.getLsbD_or,
    BitVec.getLsbD_shiftLeft]
  rw [getLsbD_mask]
  simp [hi, show i < 16 by omega]

theorem joinCrc_high (low high : UInt8) : crcHigh (joinCrc low high) = high := by
  apply UInt8.toBitVec_inj.mp
  apply BitVec.eq_of_getLsbD_eq
  intro i hi
  have hlow : low.toBitVec.getLsbD (8 + i) = false := BitVec.getLsbD_of_ge _ _ (by omega)
  simp only [crcHigh, joinCrc, BitVec.getLsbD_setWidth, BitVec.getLsbD_ushiftRight,
    BitVec.getLsbD_or, BitVec.getLsbD_shiftLeft, hlow]
  simp [hi, show 8 + i < 16 by omega, show i < 16 by omega]

theorem frameRead_crc {data rest : List UInt8} {low high : UInt8} {clean ended : Bool} :
    FrameRead.crc ⟨data ++ [low, high], clean, ended, rest⟩ = joinCrc low high := by
  have hlen : (data ++ [low, high]).length = data.length + 2 := by simp
  have hlast : data.length + 2 - 1 = data.length + 1 := rfl
  unfold FrameRead.crc joinCrc
  dsimp only
  rw [hlen, Nat.add_sub_cancel, hlast]
  simp

/-- The check of `decode_frames`, by the parts of the body. -/
theorem frameRead_valid {data rest : List UInt8} {low high : UInt8} {clean ended : Bool}
    (h : (FrameRead.frame ⟨data ++ [low, high], clean, ended, rest⟩).valid = true) :
    joinCrc low high = crc16Ccitt data := by
  have htake : (data ++ [low, high]).take ((data ++ [low, high]).length - 2) = data := by
    simp
  unfold FrameRead.frame at h
  split at h
  · dsimp only at h
    rw [frameRead_crc, htake] at h
    exact of_decide_eq_true (Bool.and_eq_true_iff.mp h).2
  · cases h

theorem getElem?_body {data tail : List UInt8} {j : ℕ} (h : j < data.length) :
    (data ++ tail)[j]? = data[j]? := List.getElem?_append_left h

/-- What a small corruption leaves of the data and of the CRC: one of them as it was, and the
data changed at two adjacent places at most. -/
theorem Corrupted.parts {data data' : List UInt8} {low high low' high' : UInt8}
    (hlen : data.length = data'.length)
    (h : Corrupted data (data ++ [low, high]) (data' ++ [low', high'])) :
    (data ++ [low, high] ≠ data' ++ [low', high']) ∧
      (data = data' ∨ low = low' ∧ high = high') ∧
      ∃ i, ∀ j, j ≠ i → j ≠ i + 1 → data[j]? = data'[j]? := by
  have hinside : ∀ {j : ℕ}, (data ++ [low, high])[j]? = (data' ++ [low', high'])[j]? →
      data[j]? = data'[j]? := by
    intro j hj
    by_cases hlt : j < data.length
    · rwa [getElem?_body hlt, getElem?_body (by omega)] at hj
    · rw [List.getElem?_eq_none (by omega), List.getElem?_eq_none (by omega)]
  have hlast : ∀ k : ℕ, (data ++ [low, high])[data.length + k]? = [low, high][k]? ∧
      (data' ++ [low', high'])[data.length + k]? = [low', high'][k]? := by
    intro k
    constructor
    · rw [List.getElem?_append_right (by omega), Nat.add_sub_cancel_left]
    · rw [List.getElem?_append_right (by omega), hlen, Nat.add_sub_cancel_left]
  have htail : ∀ {i : ℕ}, i < data.length →
      (∀ j : ℕ, data.length ≤ j → (data ++ [low, high])[j]? = (data' ++ [low', high'])[j]?) →
      low = low' ∧ high = high' := by
    intro i _ hsame
    have h₀ := hsame (data.length + 0) (by omega)
    have h₁ := hsame (data.length + 1) (by omega)
    rw [(hlast 0).1, (hlast 0).2] at h₀
    rw [(hlast 1).1, (hlast 1).2] at h₁
    exact ⟨Option.some.inj h₀, Option.some.inj h₁⟩
  cases h with
  | byte i hi =>
    have hother : ∀ j, j ≠ i → (data ++ [low, high])[j]? = (data' ++ [low', high'])[j]? :=
      fun j hj => by
        by_contra hne
        exact hj ((hi j).mp hne)
    refine ⟨fun heq => (hi i).mpr rfl (by rw [heq]), ?_, i, fun j hj _ => hinside (hother j hj)⟩
    by_cases hlt : i < data.length
    · exact Or.inr (htail hlt fun j hj => hother j (by omega))
    · left
      apply List.ext_getElem?
      intro j
      by_cases hj : j = i
      · rw [hj, List.getElem?_eq_none (by omega), List.getElem?_eq_none (by omega)]
      · exact hinside (hother j hj)
  | pair i hi hne hother =>
    refine ⟨hne, Or.inr ?_, i, fun j hj hj' => hinside (hother j hj hj')⟩
    exact htail (i := i) (by omega) fun j hj => hother j (by omega) (by omega)

/-- No small corruption of a frame body passes the CRC check. -/
theorem crc_catches {type : UInt8} {payload body' rest : List UInt8} {crc : BitVec 16}
    {clean ended : Bool} (hcrc : WriterCrc (type :: payload) crc)
    (hlen : body'.length = (checkedBody (type :: payload) crc).length)
    (hcorrupted : Corrupted (type :: payload) (checkedBody (type :: payload) crc) body') :
    (FrameRead.frame ⟨body', clean, ended, rest⟩).valid = false := by
  have hdata := hcrc.eq
  generalize type :: payload = data at *
  subst hdata
  have hsplit : ∃ data' low' high', body' = data' ++ [low', high'] ∧ data.length = data'.length := by
    rw [checkedBody, List.length_append] at hlen
    have hdrop : (body'.drop data.length).length = 2 := by
      rw [List.length_drop, hlen]
      exact Nat.add_sub_cancel_left ..
    obtain ⟨low', high', hpair⟩ := List.length_eq_two.mp hdrop
    refine ⟨body'.take data.length, low', high', ?_, ?_⟩
    · rw [← hpair, List.take_append_drop]
    · rw [List.length_take, hlen]
      simp
  obtain ⟨data', low', high', rfl, hsame⟩ := hsplit
  obtain ⟨hne, hpart, i, hwindow⟩ := hcorrupted.parts hsame
  by_contra hvalid
  have hcheck := frameRead_valid (Bool.not_eq_false _ ▸ hvalid)
  rcases hpart with rfl | ⟨rfl, rfl⟩
  · apply hne
    rw [← hcheck, joinCrc_low, joinCrc_high]
  · have hjoin : joinCrc (crcLow (crc16Ccitt data)) (crcHigh (crc16Ccitt data)) =
        crc16Ccitt data := crc_split _
    rw [hjoin] at hcheck
    rw [crc16Ccitt_window hsame hwindow hcheck] at hne
    exact hne rfl

/-- Two bytes of a payload exchanged. -/
theorem crc_catches_pair : ∃ crc, WriterCrc [1, 0x41, 0x42] crc ∧
    (FrameRead.frame ⟨[1, 0x42, 0x41, crcLow crc, crcHigh crc], true, true, []⟩).valid = false := by
  refine ⟨_, Or.inl rfl, ?_⟩
  apply @crc_catches 1 [0x41, 0x42] _ _ _ _ _ (Or.inl rfl)
  · rfl
  · refine .pair 1 (by decide) (by decide) fun j hj hj' => ?_
    match j with
    | 0 => rfl
    | 1 => exact absurd rfl hj
    | 2 => exact absurd rfl hj'
    | j + 3 => rfl

end On9log
