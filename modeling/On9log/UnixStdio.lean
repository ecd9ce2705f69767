import On9log.Framing

/-!
# The stdio sink (on9log_unix_stdio.c:28-166)

The sink collects the header and the payload chunks of a packet and writes the
frame at its end. `fputc n` says whether the `n`-th call of `fputc` succeeds.
A pointer that is NULL with a length that is not zero is `none`.
-/

namespace On9log

/-- What a sink is given of one packet. -/
structure SinkPacket where
  header : Option (List UInt8)
  chunks : List (Option (List UInt8))
  deriving DecidableEq

def addChunk (content chunk : Option (List UInt8)) : Option (List UInt8) :=
  content.bind fun bytes => chunk.map (bytes ++ ·)

/-- The bytes of a packet without NULL pointers. -/
def SinkPacket.content (p : SinkPacket) : Option (List UInt8) := p.chunks.foldl addChunk p.header

/-- The bytes a frame has room for. -/
def fits (content : Option (List UInt8)) : Option (List UInt8) :=
  content.filter fun bytes => bytes.length ≤ transportMaxPayload

theorem fits_some {content : Option (List UInt8)} {bytes : List UInt8}
    (h : fits content = some bytes) :
    content = some bytes ∧ bytes.length ≤ transportMaxPayload := by
  obtain ⟨hsome, hle⟩ := Option.filter_eq_some_iff.mp h
  exact ⟨hsome, of_decide_eq_true hle⟩

theorem fits_of_le {bytes : List UInt8} (h : bytes.length ≤ transportMaxPayload) :
    fits (some bytes) = some bytes := Option.filter_some_pos (decide_eq_true h)

theorem fits_of_not_le {bytes : List UInt8} (h : ¬ bytes.length ≤ transportMaxPayload) :
    fits (some bytes) = none := Option.filter_some_neg (by simpa using h)

/-- What has not fitted so far does not fit with more. -/
theorem fits_addChunk {content : Option (List UInt8)} (h : fits content = none)
    (chunk : Option (List UInt8)) : fits (addChunk content chunk) = none := by
  cases content with
  | none => rfl
  | some bytes =>
    cases chunk with
    | none => rfl
    | some chunk =>
      have hlong : ¬ bytes.length ≤ transportMaxPayload := by
        intro hle
        rw [fits_of_le hle] at h
        cases h
      apply fits_of_not_le
      rw [List.length_append]
      omega

/-- `on9log_unix_stdio_state_t`: the part of `frame_payload` that is in use, and
what has gone to the stream. -/
structure StdioState where
  stream : List UInt8
  puts : ℕ
  crc : BitVec 16
  framePayload : List UInt8
  framePayload_le : framePayload.length ≤ transportMaxPayload
  dropFrame : Bool
  writeFailed : Bool

namespace StdioState

def init : StdioState := ⟨[], 0, 0, [], Nat.zero_le _, false, false⟩

variable (fputc : ℕ → Bool) (s : StdioState)

/-- `on9log_unix_write_raw`. -/
def writeRaw (byte : UInt8) : StdioState :=
  if s.writeFailed then s
  else if fputc s.puts then { s with stream := s.stream ++ [byte], puts := s.puts + 1 }
  else { s with puts := s.puts + 1, writeFailed := true }

/-- `on9log_unix_write_escaped`. -/
def writeEscaped (byte : UInt8) : StdioState :=
  if byte = 0xa5 then (s.writeRaw fputc frameEscape).writeRaw fputc 0xde
  else if byte = 0xc0 then (s.writeRaw fputc frameEscape).writeRaw fputc 0xdc
  else if byte = 0xdb then (s.writeRaw fputc frameEscape).writeRaw fputc 0xdd
  else if byte = 0x0d then (s.writeRaw fputc frameEscape).writeRaw fputc 0xd0
  else if byte = 0x0a then (s.writeRaw fputc frameEscape).writeRaw fputc 0xd1
  else s.writeRaw fputc byte

def setCrc (crc : BitVec 16) : StdioState := { s with crc := crc }

/-- `on9log_unix_write_binary_bytes`. -/
def writeBinaryBytes (data : List UInt8) : StdioState :=
  data.foldl (fun s byte => (s.setCrc (unixCrc16Update s.crc byte)).writeEscaped fputc byte) s

/-- `on9log_unix_stdio_start`. -/
def start (header : Option (List UInt8)) : StdioState :=
  match header with
  | none =>
    { s with framePayload := [], framePayload_le := Nat.zero_le _, dropFrame := true,
             writeFailed := false }
  | some header =>
    if h : header.length ≤ transportMaxPayload then
      { s with framePayload := header, framePayload_le := h, dropFrame := false,
               writeFailed := false }
    else
      { s with framePayload := [], framePayload_le := Nat.zero_le _, dropFrame := true,
               writeFailed := false }

def drop : StdioState :=
  { s with framePayload := [], framePayload_le := Nat.zero_le _, dropFrame := true }

/-- `on9log_unix_stdio_payload`. -/
def payload (payload : Option (List UInt8)) : StdioState :=
  if s.dropFrame then s
  else
    match payload with
    | none => s.drop
    | some payload =>
      if h : payload.length ≤ transportMaxPayload - s.framePayload.length then
        { s with framePayload := s.framePayload ++ payload,
                 framePayload_le := by
                   have hle := s.framePayload_le
                   rw [List.length_append]
                   omega }
      else s.drop

/-- The two bytes of the CRC, low byte first. -/
def writeCrc : StdioState :=
  let s := s.writeEscaped fputc (crcLow s.crc)
  s.writeEscaped fputc (crcHigh s.crc)

/-- `on9log_unix_stdio_end`. -/
def finish : StdioState :=
  if s.dropFrame then s
  else
    let started := (s.setCrc 0xffff#16).writeRaw fputc frameStart
    let typed := started.writeBinaryBytes fputc [frameTypeOn9log]
    let body := typed.writeBinaryBytes fputc typed.framePayload
    (body.writeCrc fputc).writeRaw fputc frameEnd

/-- A packet as the core delivers it. -/
def deliver (p : SinkPacket) : StdioState :=
  (p.chunks.foldl payload (s.start p.header)).finish fputc

/-! ### What one packet writes -/

theorem writeRaw_setCrc (crc : BitVec 16) (byte : UInt8) :
    (s.setCrc crc).writeRaw fputc byte = (s.writeRaw fputc byte).setCrc crc := by
  unfold writeRaw setCrc
  split_ifs <;> rfl

theorem foldl_writeRaw_setCrc (crc : BitVec 16) (bytes : List UInt8) :
    bytes.foldl (writeRaw fputc) (s.setCrc crc) =
      (bytes.foldl (writeRaw fputc) s).setCrc crc := by
  induction bytes generalizing s with
  | nil => rfl
  | cons byte bytes ih => rw [List.foldl_cons, List.foldl_cons, writeRaw_setCrc, ih]

theorem foldl_writeRaw_crc (bytes : List UInt8) :
    (bytes.foldl (writeRaw fputc) s).crc = s.crc := by
  induction bytes generalizing s with
  | nil => rfl
  | cons byte bytes ih =>
    rw [List.foldl_cons, ih]
    unfold writeRaw
    split_ifs <;> rfl

theorem foldl_writeRaw_framePayload (bytes : List UInt8) :
    (bytes.foldl (writeRaw fputc) s).framePayload = s.framePayload := by
  induction bytes generalizing s with
  | nil => rfl
  | cons byte bytes ih =>
    rw [List.foldl_cons, ih]
    unfold writeRaw
    split_ifs <;> rfl

theorem writeEscaped_eq (byte : UInt8) :
    s.writeEscaped fputc byte = (slip byte).foldl (writeRaw fputc) s := by
  unfold writeEscaped slip
  split_ifs <;> rfl

theorem writeBinaryBytes_eq (data : List UInt8) : s.writeBinaryBytes fputc data =
    ((data.flatMap slip).foldl (writeRaw fputc) s).setCrc (data.foldl unixCrc16Update s.crc) := by
  unfold writeBinaryBytes
  induction data generalizing s with
  | nil => rfl
  | cons byte data ih =>
    rw [List.foldl_cons, ih, writeEscaped_eq, foldl_writeRaw_setCrc, foldl_writeRaw_setCrc,
      List.flatMap_cons, List.foldl_append]
    rfl

theorem writeCrc_eq : s.writeCrc fputc =
    ([crcLow s.crc, crcHigh s.crc].flatMap slip).foldl (writeRaw fputc) s := by
  unfold writeCrc
  dsimp only
  rw [writeEscaped_eq, writeEscaped_eq, foldl_writeRaw_crc, List.flatMap_cons,
    List.flatMap_singleton, List.foldl_append]

theorem foldl_writeRaw_append (crc : BitVec 16) (first bytes : List UInt8) :
    bytes.foldl (writeRaw fputc) ((first.foldl (writeRaw fputc) s).setCrc crc) =
      ((first ++ bytes).foldl (writeRaw fputc) s).setCrc crc := by
  rw [foldl_writeRaw_setCrc, List.foldl_append]

/-- A frame that is not dropped is put byte by byte, whether `fputc` fails or not. -/
theorem finish_eq (hkeep : s.dropFrame = false) : ∃ crc, s.finish fputc =
    ((frameBytes frameTypeOn9log s.framePayload).foldl (writeRaw fputc) s).setCrc crc := by
  let crc := crc16Ccitt (frameTypeOn9log :: s.framePayload)
  let started := (s.setCrc 0xffff#16).writeRaw fputc frameStart
  let typed := started.writeBinaryBytes fputc [frameTypeOn9log]
  let body := typed.writeBinaryBytes fputc typed.framePayload
  have hstart : started = ([frameStart].foldl (writeRaw fputc) s).setCrc 0xffff#16 :=
    writeRaw_setCrc fputc s _ _
  have htype : typed = (([frameStart] ++ [frameTypeOn9log].flatMap slip).foldl (writeRaw fputc)
      s).setCrc ([frameTypeOn9log].foldl unixCrc16Update 0xffff#16) := by
    show started.writeBinaryBytes fputc [frameTypeOn9log] = _
    rw [hstart, writeBinaryBytes_eq, foldl_writeRaw_append]
    rfl
  have hsame : typed.framePayload = s.framePayload := by
    rw [htype]
    exact foldl_writeRaw_framePayload fputc s _
  have hbody : body = (([frameStart] ++ [frameTypeOn9log].flatMap slip ++
      s.framePayload.flatMap slip).foldl (writeRaw fputc) s).setCrc crc := by
    show typed.writeBinaryBytes fputc typed.framePayload = _
    rw [hsame, htype, writeBinaryBytes_eq, foldl_writeRaw_append]
    rfl
  have hcrc : body.writeCrc fputc = (([frameStart] ++ [frameTypeOn9log].flatMap slip ++
      s.framePayload.flatMap slip ++ [crcLow crc, crcHigh crc].flatMap slip).foldl (writeRaw fputc)
        s).setCrc crc := by
    rw [hbody, writeCrc_eq, foldl_writeRaw_append]
    rfl
  have hall : frameBytes frameTypeOn9log s.framePayload = [frameStart] ++
      [frameTypeOn9log].flatMap slip ++ s.framePayload.flatMap slip ++
        [crcLow crc, crcHigh crc].flatMap slip ++ [frameEnd] := by
    have hcons : frameBody frameTypeOn9log s.framePayload =
        [frameTypeOn9log] ++ (s.framePayload ++ [crcLow crc, crcHigh crc]) := rfl
    rw [frameBytes, hcons, List.flatMap_append, List.flatMap_append]
    simp only [List.append_assoc, List.cons_append, List.nil_append]
  refine ⟨crc, ?_⟩
  rw [hall, ← foldl_writeRaw_append fputc s crc, ← hcrc]
  unfold finish
  rw [hkeep, if_neg nofun]
  rfl

theorem finish_drop (hdrop : s.dropFrame = true) : s.finish fputc = s := by
  unfold finish
  rw [hdrop, if_pos rfl]

variable {fputc s}

/-- The state after `bytes` have gone to the stream. -/
structure Wrote (s : StdioState) (bytes : List UInt8) (s' : StdioState) : Prop where
  stream : s'.stream = s.stream ++ bytes
  ok : s'.writeFailed = false
  framePayload : s'.framePayload = s.framePayload

theorem foldl_writeRaw_ok (hputs : ∀ n, fputc n = true) (hok : s.writeFailed = false)
    (bytes : List UInt8) : s.Wrote bytes (bytes.foldl (writeRaw fputc) s) := by
  induction bytes generalizing s with
  | nil => exact ⟨(List.append_nil _).symm, hok, rfl⟩
  | cons byte bytes ih =>
    have hput : s.writeRaw fputc byte =
        { s with stream := s.stream ++ [byte], puts := s.puts + 1 } := by
      rw [writeRaw, hok, if_neg nofun, if_pos (hputs s.puts)]
    rw [List.foldl_cons, hput]
    have hrest := @ih { s with stream := s.stream ++ [byte], puts := s.puts + 1 } hok
    refine ⟨?_, hrest.ok, hrest.framePayload⟩
    rw [hrest.stream, List.append_assoc]
    rfl

/-- A frame that is not dropped is written whole. -/
theorem finish_ok (hputs : ∀ n, fputc n = true) (hok : s.writeFailed = false)
    (hkeep : s.dropFrame = false) :
    (s.finish fputc).stream = s.stream ++ frameBytes frameTypeOn9log s.framePayload := by
  obtain ⟨crc, heq⟩ := finish_eq fputc s hkeep
  rw [heq]
  exact (foldl_writeRaw_ok hputs hok _).stream

/-! ### What the sink collects -/

/-- The sink holds `content`, or has dropped it. -/
structure Collected (s : StdioState) (stream : List UInt8) (content : Option (List UInt8)) :
    Prop where
  stream : s.stream = stream
  ok : s.writeFailed = false
  drop : s.dropFrame = (fits content).isNone
  framePayload : ∀ bytes, fits content = some bytes → s.framePayload = bytes

theorem collected_start (s : StdioState) (header : Option (List UInt8)) :
    (s.start header).Collected s.stream header := by
  cases header with
  | none => exact ⟨rfl, rfl, rfl, nofun⟩
  | some header =>
    unfold start
    dsimp only
    by_cases h : header.length ≤ transportMaxPayload
    · rw [dif_pos h]
      refine ⟨rfl, rfl, ?_, fun bytes hb => ?_⟩
      · rw [fits_of_le h]
        rfl
      · rw [fits_of_le h] at hb
        exact Option.some.inj hb
    · rw [dif_neg h]
      refine ⟨rfl, rfl, ?_, fun bytes hb => ?_⟩
      · rw [fits_of_not_le h]
        rfl
      · rw [fits_of_not_le h] at hb
        cases hb

theorem Collected.payload {stream : List UInt8} {content : Option (List UInt8)}
    (h : s.Collected stream content) (chunk : Option (List UInt8)) :
    (s.payload chunk).Collected stream (addChunk content chunk) := by
  have hdropped : ∀ s' : StdioState, s'.stream = s.stream → s'.writeFailed = s.writeFailed →
      s'.dropFrame = true → ∀ o, fits o = none → s'.Collected stream o := by
    intro s' hstream hok hdrop o ho
    refine ⟨hstream.trans h.stream, hok.trans h.ok, ?_, fun bytes hb => ?_⟩
    · rw [ho]
      exact hdrop
    · rw [ho] at hb
      cases hb
  unfold StdioState.payload
  rw [h.drop]
  cases hfits : fits content with
  | none =>
    rw [Option.isNone_none, if_pos rfl]
    refine hdropped s rfl rfl ?_ _ (fits_addChunk hfits chunk)
    rw [h.drop, hfits]
    rfl
  | some bytes =>
    have hbytes := h.framePayload bytes hfits
    obtain ⟨rfl, hle⟩ := fits_some hfits
    rw [Option.isNone_some, if_neg nofun]
    cases chunk with
    | none => exact hdropped s.drop rfl rfl rfl _ rfl
    | some chunk =>
      have hadd : addChunk (some bytes) (some chunk) = some (bytes ++ chunk) := rfl
      dsimp only
      rw [hadd]
      by_cases hroom : chunk.length ≤ transportMaxPayload - s.framePayload.length
      · rw [dif_pos hroom]
        have hfit : (bytes ++ chunk).length ≤ transportMaxPayload := by
          rw [hbytes] at hroom
          rw [List.length_append]
          omega
        refine ⟨h.stream, h.ok, ?_, fun all hall => ?_⟩
        · rw [fits_of_le hfit]
          rfl
        · rw [fits_of_le hfit] at hall
          cases hall
          exact congrArg (· ++ chunk) hbytes
      · rw [dif_neg hroom]
        have hlong : ¬ (bytes ++ chunk).length ≤ transportMaxPayload := by
          rw [hbytes] at hroom
          rw [List.length_append]
          omega
        exact hdropped s.drop rfl rfl rfl _ (fits_of_not_le hlong)

theorem Collected.payloads {stream : List UInt8} {content : Option (List UInt8)}
    (h : s.Collected stream content) (chunks : List (Option (List UInt8))) :
    (chunks.foldl StdioState.payload s).Collected stream (chunks.foldl addChunk content) := by
  induction chunks generalizing s content with
  | nil => exact h
  | cons chunk chunks ih => exact ih (h.payload chunk)

/-- A packet writes its frame, or nothing. -/
theorem deliver_stream (hputs : ∀ n, fputc n = true) (s : StdioState) (p : SinkPacket) :
    (s.deliver fputc p).stream =
      s.stream ++ (fits p.content).elim [] (frameBytes frameTypeOn9log) := by
  have h := (collected_start s p.header).payloads p.chunks
  rw [← SinkPacket.content] at h
  unfold deliver
  cases hfits : fits p.content with
  | none =>
    have hdrop := h.drop
    rw [hfits] at hdrop
    rw [finish_drop _ _ hdrop, h.stream]
    exact (List.append_nil _).symm
  | some bytes =>
    have hkeep := h.drop
    rw [hfits] at hkeep
    rw [finish_ok hputs h.ok hkeep, h.stream, h.framePayload bytes hfits]
    rfl

/-! ### When `fputc` fails -/

section Failing

variable (fputc : ℕ → Bool) (s : StdioState)

theorem foldl_writeRaw_failed (hfail : s.writeFailed = true) (bytes : List UInt8) :
    bytes.foldl (writeRaw fputc) s = s := by
  induction bytes with
  | nil => rfl
  | cons byte bytes ih =>
    rw [List.foldl_cons, writeRaw, if_pos hfail]
    exact ih

/-- Nothing is put behind a byte that failed. -/
theorem foldl_writeRaw_prefix (bytes : List UInt8) :
    ∃ got, (bytes.foldl (writeRaw fputc) s).stream = s.stream ++ got ∧ got <+: bytes := by
  induction bytes generalizing s with
  | nil => exact ⟨[], (List.append_nil _).symm, List.prefix_rfl⟩
  | cons byte bytes ih =>
    by_cases hfail : s.writeFailed = true
    · rw [foldl_writeRaw_failed fputc s hfail]
      exact ⟨[], (List.append_nil _).symm, List.nil_prefix⟩
    · rw [List.foldl_cons, writeRaw, if_neg hfail]
      by_cases hput : fputc s.puts = true
      · rw [if_pos hput]
        obtain ⟨got, hstream, hgot⟩ := ih
          { s with stream := s.stream ++ [byte], puts := s.puts + 1 }
        rw [hstream, List.append_assoc]
        exact ⟨byte :: got, rfl, List.cons_prefix_cons.mpr ⟨rfl, hgot⟩⟩
      · rw [if_neg hput, foldl_writeRaw_failed fputc _ rfl]
        exact ⟨[], (List.append_nil _).symm, List.nil_prefix⟩

/-- What the stream receives of a packet is cut short at most. -/
theorem finish_prefix : ∃ got, (s.finish fputc).stream = s.stream ++ got ∧
    got <+: frameBytes frameTypeOn9log s.framePayload := by
  by_cases hdrop : s.dropFrame = true
  · rw [finish_drop _ _ hdrop]
    exact ⟨[], (List.append_nil _).symm, List.nil_prefix⟩
  · obtain ⟨crc, heq⟩ := s.finish_eq fputc (Bool.not_eq_true _ ▸ hdrop)
    rw [heq]
    exact s.foldl_writeRaw_prefix fputc _

end Failing

end StdioState

end On9log
