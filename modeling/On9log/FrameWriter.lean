import On9log.Framing

/-!
# The batched frame writer (esp_stdio_log_vfs.c:262-446)

Bytes of a frame gather in a buffer of 128 and go to the outputs when it is full
and at the end. `flushed` are the buffers that went, oldest first; what writes
them to the outputs is elsewhere.
-/

namespace On9log

/-- `ESP_STDIO_LOG_VFS_WRITE_BATCH`. -/
def writeBatch : ℕ := 128

/-- `esp_stdio_log_vfs_frame_writer_t`: the part of `bytes` that is in use. -/
structure FrameWriter where
  flushed : List (List UInt8)
  bytes : List UInt8
  bytes_le : bytes.length ≤ writeBatch

namespace FrameWriter

def init : FrameWriter := ⟨[], [], Nat.zero_le _⟩

variable (w : FrameWriter)

/-- `esp_stdio_log_vfs_frame_writer_flush`. -/
def flush : FrameWriter :=
  if w.bytes = [] then w else ⟨w.flushed ++ [w.bytes], [], Nat.zero_le _⟩

/-- The `memcpy` of a chunk that fits. -/
def append (data : List UInt8) (h : data.length ≤ writeBatch - w.bytes.length) : FrameWriter where
  flushed := w.flushed
  bytes := w.bytes ++ data
  bytes_le := by
    have hle := w.bytes_le
    rw [List.length_append]
    omega

/-- What fits of the data. -/
def fill (data : List UInt8) : FrameWriter :=
  w.append (data.take (min data.length (writeBatch - w.bytes.length))) (by
    rw [List.length_take]
    omega)

/-- One turn of the loop leaves less of the data. -/
def putRawFrom : ℕ → FrameWriter → List UInt8 → FrameWriter
  | 0, w, _ | _, w, [] => w
  | n + 1, w, data =>
    let w := if w.bytes.length = writeBatch then w.flush else w
    putRawFrom n (w.fill data) (data.drop (min data.length (writeBatch - w.bytes.length)))

/-- `esp_stdio_log_vfs_frame_writer_put_raw`. -/
def putRaw (data : List UInt8) : FrameWriter := putRawFrom data.length w data

/-- `esp_stdio_log_vfs_frame_writer_put_raw_byte`. -/
def putRawByte (byte : UInt8) : FrameWriter := w.putRaw [byte]

/-- `esp_stdio_log_vfs_frame_writer_put_slip_byte`. -/
def putSlipByte (byte : UInt8) : FrameWriter :=
  if byte = frameStart then w.putRaw [frameEscape, 0xde]
  else if byte = frameEnd then w.putRaw [frameEscape, 0xdc]
  else if byte = frameEscape then w.putRaw [frameEscape, 0xdd]
  else if byte = 0x0d then w.putRaw [frameEscape, 0xd0]
  else if byte = 0x0a then w.putRaw [frameEscape, 0xd1]
  else w.putRawByte byte

/-- `esp_stdio_log_vfs_frame_writer_put_slip`. -/
def putSlip (data : List UInt8) : FrameWriter := data.foldl putSlipByte w

/-- What `esp_stdio_log_vfs_write_frame` puts through the writer. -/
def frame (type : UInt8) (payload : List UInt8) : FrameWriter :=
  let crc := espCrc16CcittUpdate (espCrc16CcittUpdate 0xffff#16 [type]) payload
  (((((((init.putRawByte frameStart).putSlipByte type).putSlip payload).putSlipByte
    (crcLow crc)).putSlipByte (crcHigh crc)).putRawByte frameEnd).flush)

/-! ### Nothing is lost in the buffer -/

/-- All that was put into the writer. -/
def sent : List UInt8 := w.flushed.flatten ++ w.bytes

variable {w}

/-- What goes to the outputs: pieces of 128 bytes at most, none of them empty. -/
def Batched (w : FrameWriter) : Prop := ∀ b ∈ w.flushed, b ≠ [] ∧ b.length ≤ writeBatch

theorem sent_flush : w.flush.sent = w.sent := by
  unfold flush
  split
  · rfl
  · simp [sent]

theorem flush_bytes : w.flush.bytes = [] := by
  unfold flush
  split
  · assumption
  · rfl

theorem Batched.flush (h : w.Batched) : w.flush.Batched := by
  unfold FrameWriter.flush
  split
  · exact h
  · rename_i hne
    intro b hb
    rcases List.mem_append.mp hb with hb | hb
    · exact h b hb
    · rw [List.mem_singleton.mp hb]
      exact ⟨hne, w.bytes_le⟩

theorem putRawFrom_ok {n : ℕ} {data : List UInt8} (hn : data.length ≤ n) (h : w.Batched) :
    (putRawFrom n w data).sent = w.sent ++ data ∧ (putRawFrom n w data).Batched := by
  induction n generalizing w data with
  | zero =>
    have hnil : data = [] := List.eq_nil_of_length_eq_zero (by omega)
    subst hnil
    exact ⟨(List.append_nil _).symm, h⟩
  | succ n ih =>
    cases hdata : data with
    | nil => exact ⟨(List.append_nil _).symm, h⟩
    | cons byte rest =>
      rw [← hdata]
      have hpos : 0 < data.length := by
        rw [hdata]
        exact Nat.succ_pos _
      have hroom : ∃ w' : FrameWriter, w'.sent = w.sent ∧ w'.Batched ∧
          w'.bytes.length < writeBatch ∧
          w' = if w.bytes.length = writeBatch then w.flush else w := by
        by_cases hfull : w.bytes.length = writeBatch
        · refine ⟨w.flush, sent_flush, h.flush, ?_, (if_pos hfull).symm⟩
          rw [flush_bytes]
          exact Nat.succ_pos _
        · have hle := w.bytes_le
          exact ⟨w, rfl, h, by omega, (if_neg hfull).symm⟩
      obtain ⟨w', hsent, hbatched, hlt, he⟩ := hroom
      have hturn : putRawFrom (n + 1) w data = putRawFrom n (w'.fill data)
          (data.drop (min data.length (writeBatch - w'.bytes.length))) := by
        rw [hdata, he]
        rfl
      have hleft : (data.drop (min data.length (writeBatch - w'.bytes.length))).length ≤ n := by
        rw [List.length_drop]
        omega
      have hfill : (w'.fill data).sent =
          w'.sent ++ data.take (min data.length (writeBatch - w'.bytes.length)) := by
        unfold fill append sent
        exact (List.append_assoc ..).symm
      have hrest := ih hleft (w := w'.fill data) hbatched
      rw [hturn]
      refine ⟨?_, hrest.2⟩
      rw [hrest.1, hfill, hsent, List.append_assoc, List.take_append_drop]

theorem putRaw_ok (h : w.Batched) (data : List UInt8) :
    (w.putRaw data).sent = w.sent ++ data ∧ (w.putRaw data).Batched :=
  putRawFrom_ok (Nat.le_refl _) h

theorem putRawByte_ok (h : w.Batched) (byte : UInt8) :
    (w.putRawByte byte).sent = w.sent ++ [byte] ∧ (w.putRawByte byte).Batched := putRaw_ok h [byte]

theorem putSlipByte_ok (h : w.Batched) (byte : UInt8) :
    (w.putSlipByte byte).sent = w.sent ++ slip byte ∧ (w.putSlipByte byte).Batched := by
  unfold putSlipByte slip frameStart frameEnd frameEscape
  split_ifs
  · exact putRaw_ok h _
  · exact putRaw_ok h _
  · exact putRaw_ok h _
  · exact putRaw_ok h _
  · exact putRaw_ok h _
  · exact putRawByte_ok h byte

theorem putSlip_ok (h : w.Batched) (data : List UInt8) :
    (w.putSlip data).sent = w.sent ++ data.flatMap slip ∧ (w.putSlip data).Batched := by
  unfold putSlip
  induction data generalizing w with
  | nil => exact ⟨(List.append_nil _).symm, h⟩
  | cons byte data ih =>
    have hone := putSlipByte_ok h byte
    have hrest := ih hone.2
    refine ⟨?_, hrest.2⟩
    rw [List.foldl_cons, hrest.1, hone.1, List.flatMap_cons, List.append_assoc]

theorem frame_ok (type : UInt8) (payload : List UInt8) :
    (frame type payload).flushed.flatten = frameBytes type payload ∧
      (frame type payload).Batched := by
  have hcrc : espCrc16CcittUpdate (espCrc16CcittUpdate 0xffff#16 [type]) payload =
      crc16Ccitt (type :: payload) := by
    rw [espCrc16CcittUpdate_eq, espCrc16CcittUpdate_eq]
    rfl
  have hstart := putRawByte_ok (w := init) nofun frameStart
  have htype := putSlipByte_ok hstart.2 type
  have hpayload := putSlip_ok htype.2 payload
  have hlow := putSlipByte_ok hpayload.2 (crcLow (crc16Ccitt (type :: payload)))
  have hhigh := putSlipByte_ok hlow.2 (crcHigh (crc16Ccitt (type :: payload)))
  have hend := putRawByte_ok hhigh.2 frameEnd
  unfold frame
  dsimp only
  rw [hcrc]
  refine ⟨?_, hend.2.flush⟩
  -- the last flush leaves the buffer empty
  have hempty : ∀ w : FrameWriter, w.flush.flushed.flatten = w.sent := by
    intro w
    rw [← sent_flush, sent, flush_bytes, List.append_nil]
  have hbody : frameBody type payload = [type] ++ (payload ++
      [crcLow (crc16Ccitt (type :: payload)), crcHigh (crc16Ccitt (type :: payload))]) := rfl
  rw [hempty, hend.1, hhigh.1, hlow.1, hpayload.1, htype.1, hstart.1,
    frameBytes, hbody, List.flatMap_append, List.flatMap_append]
  simp [sent, init]

end FrameWriter

/-- The buffers a frame goes out in. -/
def frameBatches (type : UInt8) (payload : List UInt8) : List (List UInt8) :=
  (FrameWriter.frame type payload).flushed

theorem frameBatches_flatten (type : UInt8) (payload : List UInt8) :
    (frameBatches type payload).flatten = frameBytes type payload :=
  (FrameWriter.frame_ok type payload).1

end On9log
