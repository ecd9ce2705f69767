import On9log.TextFilter
import On9log.Outcome
import On9log.Solo

/-!
# Plain-text lines (on9log.c:340-366, 399-563, 1087-1127, 1451-1486, 1764-1821, 2242-2285)

With `ON9LOG_PLAIN_TEXT` a message is one line: prefix, body and suffix through
the CR filter. The task path hands the line to the sinks as it is written; the
ISR path collects it in a packet, which a task dispatches later. A formatter is
the list of the pieces it writes.
-/

namespace On9log
open Lib

/-! ### The parts of a line -/

def levelError : ℕ := 1
def levelWarn : ℕ := 2
def levelInfo : ℕ := 3
def levelDebug : ℕ := 4

/-- The text of a string literal. -/
def chars (s : List Char) : Text := s.map chr

def ansi (code : List Char) : Text := 0x1b :: chars ('[' :: code ++ ['m'])

def ansiRed : Text := ansi ['0', ';', '3', '1']
def ansiGreen : Text := ansi ['0', ';', '3', '2']
def ansiYellow : Text := ansi ['0', ';', '3', '3']
def ansiCyan : Text := ansi ['0', ';', '3', '6']
def ansiWhite : Text := ansi ['0', ';', '3', '7']
def ansiBold : Text := ansi ['1']
def ansiNormal : Text := ansi ['2', '2']
def ansiReset : Text := ansi ['0']

def textLevelColor (level : ℕ) : Text :=
  if level = levelError then ansiRed
  else if level = levelWarn then ansiYellow
  else if level = levelInfo then ansiGreen
  else if level = levelDebug then ansiCyan
  else ansiWhite

def textLevelLetter (level : ℕ) : UInt8 :=
  if level ≥ levelError ∧ level ≤ levelVerbose then
    (chars ['?', 'E', 'W', 'I', 'D', 'V']).getD level 0
  else chr '?'

def textDigit (value : ℕ) : UInt8 := UInt8.ofNat (48 + value % 10)

/-- The digits of a value, last one first; ten are enough for 32 bits. -/
def digitsReversed : ℕ → ℕ → Text
  | 0, _ => []
  | n + 1, value =>
    textDigit value :: if value / 10 ≠ 0 then digitsReversed n (value / 10) else []

/-- `on9log_text_output_u32`; its second loop reverses the digits in place. -/
def textU32 (value : ℕ) : Text := (digitsReversed 10 value).reverse

def textPadded : ℕ → ℕ → Text
  | _, 0 => []
  | value, width + 1 => textPadded (value / 10) width ++ [textDigit value]

def hasFlag (flags flag : UInt8) : Bool := decide (flags &&& flag ≠ 0)

def timestampPieces (timestampMs : UInt32) : List Text :=
  let hours := timestampMs.toNat / 3600000
  let remainder := timestampMs.toNat % 3600000
  let minutes := remainder / 60000
  let remainder := remainder % 60000
  let seconds := remainder / 1000
  let millis := remainder % 1000
  [if hours < 100 then textPadded hours 2 else textU32 hours, [chr ':'], textPadded minutes 2,
    [chr ':'], textPadded seconds 2, [chr '.'], textPadded millis 3]

/-- What `on9log_text_output_prefix` writes; `none` is a NULL tag. -/
def prefixPieces (level : ℕ) (timestampMs : UInt32) (tag : Option CStr) (flags : UInt8) :
    List Text :=
  let safeTag := match tag with
    | some str => str.bytes
    | none => []
  let color := if hasFlag flags (textPretty ||| textPrettyLine) then
    [ansiBold, textLevelColor level] else []
  let hasField := hasFlag flags textShowTimestamp
  let timestamp := if hasField then timestampPieces timestampMs else []
  let letter := if hasFlag flags textShowLevel then
    (if hasField then [[chr ' ']] else []) ++ [[textLevelLetter level]] else []
  let hasField := hasField || hasFlag flags textShowLevel
  let topic := if hasFlag flags textShowTopic then
    (if hasField then [[chr ' ']] else []) ++ [[chr '['], safeTag, [chr ']']] else []
  let hasField := hasField || hasFlag flags textShowTopic
  let colon := if hasField then [chars [':', ' ']] else []
  let plain := if hasFlag flags textPrettyLine then [ansiNormal]
    else if hasFlag flags textPretty then [ansiReset] else []
  color ++ timestamp ++ letter ++ topic ++ colon ++ plain

def suffixPieces (flags : UInt8) : List Text :=
  [lf] :: if hasFlag flags textPrettyLine then [ansiReset] else []

/-- What goes into the filter of a line, one piece for each call. -/
def linePieces (level : ℕ) (timestampMs : UInt32) (tag : Option CStr) (flags : UInt8)
    (body : List Text) : List Text :=
  prefixPieces level timestampMs tag flags ++ body ++ suffixPieces flags

/-- The chunks the filter passes on to the output of the line. -/
def lineChunks (level : ℕ) (timestampMs : UInt32) (tag : Option CStr) (flags : UInt8)
    (body : List Text) : List Text :=
  filterLine flags (linePieces level timestampMs tag flags body)

def textLine (level : ℕ) (timestampMs : UInt32) (tag : Option CStr) (flags : UInt8)
    (body : Text) : Text :=
  let text := (prefixPieces level timestampMs tag flags).flatten ++ body ++
    (suffixPieces flags).flatten
  if flags &&& textCr = 0 then text else crInserted text

/-- The chunks make up the line, however the body is cut. -/
theorem flatten_lineChunks (level : ℕ) (timestampMs : UInt32) (tag : Option CStr) (flags : UInt8)
    (body : List Text) :
    (lineChunks level timestampMs tag flags body).flatten =
      textLine level timestampMs tag flags body.flatten := by
  rw [lineChunks, filterLine_text, textLine, linePieces, List.flatten_append, List.flatten_append]

/-! ### Lines in task context -/

/-- A tag argument: the pointer the filter looks up and the string it points to. -/
structure TagArg where
  ptr : Ptr
  str : CStr

def TagArg.text (tag : TagArg) : Option CStr := if tag.ptr = 0 then none else some tag.str

/-- `on9log_stream_send_header` without a header. -/
def streamSendNoHeader (stream : Stream) : Core Unit :=
  forM stream.sinks fun e => callSink e (.startCb none)

def textStreamOutput (stream : Stream) (data : Text) : Core Unit :=
  streamPayload stream ⟨data, 0, .metaData⟩

def dispatchTextLine (cfg : Config) (level : ℕ) (tag : Option CStr) (flags : UInt8)
    (formatter : Option (List Text)) : Core Unit := do
  let stream ← streamOpen cfg
  streamSendNoHeader stream
  let now ← timestampMs
  let body := formatter.getD []
  forM (lineChunks level (UInt32.ofNat now) tag flags body) (textStreamOutput stream)
  streamEnd stream

def on9logTag : CStr := ⟨chars ['o', 'n', '9', 'l', 'o', 'g'], by decide⟩

def droppedTextFormatter (count : UInt32) : List Text :=
  [textU32 count.toNat, chars [' ', 'l', 'o', 'g', ' ', 'm', 'e', 's', 's', 'a', 'g', 'e', '(', 's',
    ')', ' ', 'd', 'r', 'o', 'p', 'p', 'e', 'd']]

/-- The exchange of the counter, and the line about it if it was not zero. -/
def flushDroppedText (cfg : Config) : Core Unit := do
  let raw ← exchangeDropped
  let droppedCount := UInt32.ofNat raw
  if droppedCount ≠ 0 then
    dispatchTextLine cfg levelWarn (some on9logTag) textDefaultFlags
      (some (droppedTextFormatter droppedCount))
  else pure ()

def writeTextWithFlags (cfg : Config) (level : ℕ) (tag : TagArg) (textFlags : UInt8)
    (formatter : Option (List Text)) : Core Unit := do
  let enabled ← levelEnabled cfg level tag.ptr
  if enabled then do
    flushDroppedText cfg
    dispatchTextLine cfg level tag.text textFlags formatter
  else pure ()

/-- `on9log_dispatch_packet`; `none` is a NULL packet. -/
def dispatchTextPacket (cfg : Config) : Option Text → Core Err
  | none => pure .invalidArg
  | some packet =>
    if packet.length = 0 then pure .invalidArg
    else do
      flushDroppedText cfg
      let stream ← streamOpen cfg
      streamSendNoHeader stream
      streamPayload stream ⟨packet, 0, .metaData⟩
      streamEnd stream
      pure .ok

/-! ### Lines in ISR context -/

/-- `text` is `none` for a NULL pointer with a length. -/
def writeTextIsrWithFlags (cfg : Config) (level : ℕ) (tag : TagArg) (textFlags : UInt8)
    (text : Option Text) : Core Bool := do
  let enabled ← levelEnabled cfg level tag.ptr
  if enabled = false then pure true
  else do
    let ready ← isrReady
    if ready = false then pure true
    else
      match text with
      | none => do
        addDropped
        pure false
      | some text => do
        let now ← isrTimestampMs
        let enc := (lineChunks level (UInt32.ofNat now) tag.text textFlags [text]).foldl putBytes
          (Encoder.new cfg.isrPacketMax)
        if enc.overflow then do
          addDropped
          pure false
        else do
          let ok ← isrEnqueuePacket enc.data
          if ok = true then pure true
          else do
            addDropped
            pure false

def writeTextIsr (cfg : Config) (level : ℕ) (tag : TagArg) (text : Option Text) : Core Bool :=
  writeTextIsrWithFlags cfg level tag textDefaultFlags text

/-! ### What these perform -/

variable {cfg : Config} {es : List Ev}

/-- One line handed to the sinks under the emit lock; `clock` is the reading of its time. -/
def LineEmission (cfg : Config) (clock : List Ev) (line : Text) (es : List Ev) : Prop :=
  ∃ slots cs body, Emits (live slots (List.range cfg.maxSinks)) body cs ∧ payloadOf cs = line ∧
    es = ⟨.emitLock, ()⟩ :: (slotReads slots (List.range cfg.maxSinks) ++
      ((live slots (List.range cfg.maxSinks)).map (fun e => ⟨.call e (.startCb none), ()⟩) ++
        (clock ++ (body ++ (finishing (live slots (List.range cfg.maxSinks)) ++
          [⟨.emitUnlock, ()⟩])))))

theorem emits_chunks {stream : Stream} {chunks : List Text} {v : PUnit}
    (h : (forM chunks (textStreamOutput stream)).Path es v) :
    ∃ cs, Emits stream.sinks es cs ∧ payloadOf cs = chunks.flatten := by
  induction chunks generalizing es v with
  | nil =>
    obtain ⟨rfl, -⟩ := (Prog.path_pure _ _ _).mp h
    exact ⟨[], .nil, rfl⟩
  | cons chunk chunks ih =>
    rw [List.forM_cons] at h
    obtain ⟨_, e₁, e₂, rfl, h₁, h₂⟩ := (Prog.path_bind _ _ _ _).mp h
    obtain ⟨cs, hcs, hbytes⟩ := ih h₂
    exact ⟨_, (emits_streamPayload h₁).append hcs, by
      rw [payloadOf_append, payloadOf_chunksOf, hbytes, List.flatten_cons]⟩

theorem lineEmission_dispatchTextLine {level : ℕ} {tag : Option CStr} {flags : UInt8}
    {formatter : Option (List Text)} {v : Unit}
    (h : (dispatchTextLine cfg level tag flags formatter).Path es v) :
    ∃ now, LineEmission cfg [⟨.timestampMs, now⟩]
      (textLine level (UInt32.ofNat now) tag flags (formatter.getD []).flatten) es := by
  obtain ⟨stream, e₁, _, rfl, h₁, h⟩ := (Prog.path_bind _ _ _ _).mp h
  obtain ⟨_, e₂, _, rfl, h₂, h⟩ := (Prog.path_bind _ _ _ _).mp h
  obtain ⟨now, e₃, _, rfl, h₃, h⟩ := (Prog.path_bind _ _ _ _).mp h
  obtain ⟨_, e₄, e₅, rfl, h₄, h₅⟩ := (Prog.path_bind _ _ _ _).mp h
  obtain ⟨slots, hsinks, rfl⟩ := path_streamOpen h₁
  obtain ⟨cs, hcs, hbytes⟩ := emits_chunks h₄
  rw [hsinks] at hcs
  rw [flatten_lineChunks] at hbytes
  refine ⟨now, slots, cs, e₄, hcs, hbytes, ?_⟩
  rw [(path_forM_call _ _ _ _).mp h₂, path_timestampMs.mp h₃, (path_streamEnd _ _ _).mp h₅, hsinks]
  simp only [List.cons_append]

/-- What the flush performs: the exchange, and a line about a count that is not zero. -/
inductive FlushedText (cfg : Config) : List Ev → Prop
  | none (raw : ℕ) : UInt32.ofNat raw = 0 → FlushedText cfg [⟨.exchangeDropped, raw⟩]
  | line (raw now : ℕ) (es : List Ev) : UInt32.ofNat raw ≠ 0 →
      LineEmission cfg [⟨.timestampMs, now⟩]
        (textLine levelWarn (UInt32.ofNat now) (some on9logTag) textDefaultFlags
          (droppedTextFormatter (UInt32.ofNat raw)).flatten) es →
      FlushedText cfg (⟨.exchangeDropped, raw⟩ :: es)

theorem flushedText_flushDroppedText {v : Unit} (h : (flushDroppedText cfg).Path es v) :
    FlushedText cfg es := by
  obtain ⟨raw, e₁, e₂, rfl, h₁, h₂⟩ := (Prog.path_bind _ _ _ _).mp h
  rw [path_exchangeDropped.mp h₁]
  rcases (Prog.path_ite _ _ _ _ _).mp h₂ with ⟨hc, h₂⟩ | ⟨hc, h₂⟩
  · obtain ⟨now, hem⟩ := lineEmission_dispatchTextLine h₂
    exact .line raw now e₂ hc hem
  · obtain ⟨rfl, -⟩ := (Prog.path_pure _ _ _).mp h₂
    exact .none raw (not_not.mp hc)

/-- What one call of the task path performs. -/
inductive TextWritten (cfg : Config) (level : ℕ) (tag : TagArg) (flags : UInt8) (body : Text) :
    List Ev → Prop
  | blocked (gate : List Ev) : Gate cfg level tag.ptr false gate →
      TextWritten cfg level tag flags body gate
  | passed (gate flush es : List Ev) (now : ℕ) : Gate cfg level tag.ptr true gate →
      FlushedText cfg flush →
      LineEmission cfg [⟨.timestampMs, now⟩]
        (textLine level (UInt32.ofNat now) tag.text flags body) es →
      TextWritten cfg level tag flags body (gate ++ (flush ++ es))

theorem textWritten_writeTextWithFlags {level : ℕ} {tag : TagArg} {flags : UInt8}
    {formatter : Option (List Text)} {v : Unit}
    (h : (writeTextWithFlags cfg level tag flags formatter).Path es v) :
    TextWritten cfg level tag flags (formatter.getD []).flatten es := by
  rcases path_gated h with ⟨hg, -⟩ | ⟨gate, rest, rfl, hg, h⟩
  · exact .blocked es hg
  · obtain ⟨_, e₁, e₂, rfl, h₁, h₂⟩ := (Prog.path_bind _ _ _ _).mp h
    obtain ⟨now, hem⟩ := lineEmission_dispatchTextLine h₂
    exact .passed gate e₁ e₂ now hg (flushedText_flushDroppedText h₁) hem

/-- A packet that is not empty goes to the sinks as it is. -/
theorem lineEmission_dispatchTextPacket {packet : Text} {v : Err} (hne : packet ≠ [])
    (h : (dispatchTextPacket cfg (some packet)).Path es v) :
    v = .ok ∧ ∃ flush rest, es = flush ++ rest ∧ FlushedText cfg flush ∧
      LineEmission cfg [] packet rest := by
  have hlen : ¬packet.length = 0 := fun h => hne (List.length_eq_zero_iff.mp h)
  rw [dispatchTextPacket, if_neg hlen] at h
  obtain ⟨_, e₁, _, rfl, h₁, h⟩ := (Prog.path_bind _ _ _ _).mp h
  obtain ⟨stream, e₂, _, rfl, h₂, h⟩ := (Prog.path_bind _ _ _ _).mp h
  obtain ⟨_, e₃, _, rfl, h₃, h⟩ := (Prog.path_bind _ _ _ _).mp h
  obtain ⟨_, e₄, _, rfl, h₄, h⟩ := (Prog.path_bind _ _ _ _).mp h
  obtain ⟨h₅, rfl⟩ := Prog.path_then_pure h
  obtain ⟨slots, hsinks, rfl⟩ := path_streamOpen h₂
  have hcs := emits_streamPayload h₄
  rw [hsinks] at hcs
  refine ⟨rfl, e₁, _, rfl, flushedText_flushDroppedText h₁, slots, _, e₄, hcs,
    payloadOf_chunksOf _, ?_⟩
  rw [(path_forM_call _ _ _ _).mp h₃, (path_streamEnd _ _ _).mp h₅, hsinks]
  simp only [List.cons_append, List.nil_append]

theorem writes_foldl_putBytes (chunks : List Text) :
    Writes chunks.flatten fun enc => chunks.foldl putBytes enc := by
  induction chunks with
  | nil => exact .nil
  | cons chunk chunks ih => exact (writes_putBytes chunk).comp ih

/-- What one call of the ISR path performs and returns. -/
inductive TextIsrCall (cfg : Config) (level : ℕ) (tag : TagArg) (flags : UInt8) :
    Option Text → Bool → List Ev → Prop
  | blocked (text : Option Text) (gate : List Ev) : Gate cfg level tag.ptr false gate →
      TextIsrCall cfg level tag flags text true gate
  | notReady (text : Option Text) (gate : List Ev) : Gate cfg level tag.ptr true gate →
      TextIsrCall cfg level tag flags text true (gate ++ [⟨.isrReady, false⟩])
  | noText (gate : List Ev) : Gate cfg level tag.ptr true gate →
      TextIsrCall cfg level tag flags none false
        (gate ++ [⟨.isrReady, true⟩, ⟨.addDropped, ()⟩])
  | tooLong (text : Text) (gate : List Ev) (now : ℕ) : Gate cfg level tag.ptr true gate →
      cfg.isrPacketMax < (textLine level (UInt32.ofNat now) tag.text flags text).length →
      TextIsrCall cfg level tag flags (some text) false
        (gate ++ [⟨.isrReady, true⟩, ⟨.isrTimestampMs, now⟩, ⟨.addDropped, ()⟩])
  | line (text : Text) (gate : List Ev) (now : ℕ) (ok : Bool) : Gate cfg level tag.ptr true gate →
      (textLine level (UInt32.ofNat now) tag.text flags text).length ≤ cfg.isrPacketMax →
      TextIsrCall cfg level tag flags (some text) ok
        (gate ++ [⟨.isrReady, true⟩, ⟨.isrTimestampMs, now⟩,
          ⟨.isrEnqueuePacket (textLine level (UInt32.ofNat now) tag.text flags text), ok⟩] ++
          if ok then [] else [⟨.addDropped, ()⟩])

theorem textIsrCall_writeTextIsrWithFlags {level : ℕ} {tag : TagArg} {flags : UInt8}
    {text : Option Text} {v : Bool}
    (h : (writeTextIsrWithFlags cfg level tag flags text).Path es v) :
    TextIsrCall cfg level tag flags text v es := by
  rcases path_isrGated h with ⟨hg, rfl⟩ | ⟨gate, rfl, hg, rfl⟩ | ⟨gate, rest, rfl, hg, h⟩
  · exact .blocked text es hg
  · exact .notReady text gate hg
  cases text with
  | none =>
    obtain ⟨h₂, rfl⟩ := Prog.path_then_pure h
    rw [path_addDropped.mp h₂]
    exact .noText gate hg
  | some text =>
    obtain ⟨now, e₂, _, rfl, h₂, h⟩ := (Prog.path_bind _ _ _ _).mp h
    rw [path_isrTimestampMs.mp h₂]
    have hw := writes_foldl_putBytes (lineChunks level (UInt32.ofNat now) tag.text flags [text])
    rw [flatten_lineChunks, List.flatten_singleton] at hw
    rcases Nat.lt_or_ge cfg.isrPacketMax
      (textLine level (UInt32.ofNat now) tag.text flags text).length with hlong | hshort
    · have hfull := (hw.overflow (Encoder.new cfg.isrPacketMax)).mpr
        (Or.inr (by simpa [Encoder.new] using hlong))
      simp only [hfull, if_true] at h
      obtain ⟨h₃, rfl⟩ := Prog.path_then_pure h
      rw [path_addDropped.mp h₃]
      exact .tooLong text gate now hg hlong
    · obtain ⟨hroom, hdata⟩ := hw.new cfg.isrPacketMax hshort
      simp only [hroom, hdata, Bool.false_eq_true, if_false] at h
      obtain ⟨ok, e₃, _, rfl, h₃, h⟩ := (Prog.path_bind _ _ _ _).mp h
      rw [path_isrEnqueuePacket.mp h₃]
      have hcall := @TextIsrCall.line cfg level tag flags text gate now ok hg hshort
      rcases (Prog.path_ite _ _ _ _ _).mp h with ⟨rfl, h⟩ | ⟨hfull, h⟩
      · obtain ⟨rfl, rfl⟩ := (Prog.path_pure _ _ _).mp h
        simpa using hcall
      · rw [Bool.not_eq_true] at hfull
        obtain ⟨h₄, rfl⟩ := Prog.path_then_pure h
        rw [path_addDropped.mp h₄]
        subst hfull
        simpa using hcall

/-! ### The same line on both paths -/

theorem textLine_ne_nil (level : ℕ) (timestampMs : UInt32) (tag : Option CStr) (flags : UInt8)
    (body : Text) : textLine level timestampMs tag flags body ≠ [] := by
  have hlong : ∀ last (text : Text), text.length ≤ (insertCr last text).length := by
    intro last text
    induction text generalizing last with
    | nil => simp [insertCr]
    | cons c text ih =>
      have := ih c
      simp only [insertCr, List.length_append, List.length_cons]
      split <;> simp only [List.length_cons, List.length_nil] <;> omega
  intro h
  have hlen := congrArg List.length h
  unfold textLine at hlen
  simp only [suffixPieces, List.flatten_cons, List.length_nil] at hlen
  split at hlen
  case isTrue => simp at hlen
  case isFalse =>
    rw [crInserted_eq] at hlen
    have := hlong 0 ((prefixPieces level timestampMs tag flags).flatten ++ body ++
      ([lf] ++ (if hasFlag flags textPrettyLine then [ansiReset] else []).flatten))
    simp only [List.length_append, List.length_cons] at this hlen
    omega

theorem LineEmission.readings {clock : List Ev} {line : Text}
    (h : LineEmission cfg clock line es) : readings es = readings clock := by
  obtain ⟨slots, cs, body, hcs, -, rfl⟩ := h
  have hstart := readings_streaming
    (inner_calls (live slots (List.range cfg.maxSinks)) (.startCb none)).streaming
  have hbody := readings_streaming (inner_emits hcs).streaming
  have hend : On9log.readings (finishing (live slots (List.range cfg.maxSinks))) = [] :=
    readings_streaming ((inner_calls _ _).streaming.append (streaming_stream .finish))
  have hlock : On9log.readings [⟨.emitLock, ()⟩] = [] := rfl
  have hunlock : On9log.readings [⟨.emitUnlock, ()⟩] = [] := rfl
  rw [← List.singleton_append]
  simp only [readings_append, hlock, readings_slotReads, hstart, hbody, hend, hunlock,
    List.nil_append, List.append_nil]

/-- With the ISR backend up and room in its ring buffer, a call enqueues its line if that fits. -/
theorem TextIsrCall.enqueues {level : ℕ} {tag : TagArg} {flags : UInt8} {text : Text} {ok : Bool}
    {stamp : ℕ} (h : TextIsrCall cfg level tag flags (some text) ok es)
    (on : Passes cfg level tag.ptr es) (ready : (⟨.isrReady, false⟩ : Ev) ∉ es)
    (ring : ∀ packet, (⟨.isrEnqueuePacket packet, false⟩ : Ev) ∉ es)
    (clock : (⟨.isrTimestampMs, stamp⟩ : Ev) ∈ es) :
    let line := textLine level (UInt32.ofNat stamp) tag.text flags text
    enqueued es = (if line.length ≤ cfg.isrPacketMax then [line] else []) ∧
      ok = decide (line.length ≤ cfg.isrPacketMax) := by
  have hgate : ∀ {gate : List Ev} {b : Bool}, Gate cfg level tag.ptr b gate →
      enqueued gate = [] ∧ (⟨.isrTimestampMs, stamp⟩ : Ev) ∉ gate := by
    intro gate b hg
    have henq := hg.effects.enqueued
    cases hg <;> exact ⟨henq, by simp⟩
  cases h with
  | blocked _ _ hg => exact absurd on hg.blocks
  | notReady _ gate _ => exact absurd (List.mem_append_right gate (List.mem_singleton_self _)) ready
  | tooLong _ gate now hg hlong =>
    have hnow : stamp = now := by simpa [(hgate hg).2] using clock
    subst hnow
    refine ⟨?_, (decide_eq_false (by omega)).symm⟩
    rw [if_neg (by omega), enqueued, List.filterMap_append]
    simpa [enqueued] using (hgate hg).1
  | line _ gate now ok hg hshort =>
    have hok : ok = true := by
      by_contra hfull
      rw [Bool.not_eq_true] at hfull
      subst hfull
      exact ring (textLine level (UInt32.ofNat now) tag.text flags text)
        (List.mem_append_left _ (List.mem_append_right gate (by simp)))
    subst hok
    have hnow : stamp = now := by simpa [(hgate hg).2] using clock
    subst hnow
    refine ⟨?_, (decide_eq_true hshort).symm⟩
    rw [if_pos hshort, enqueued, List.filterMap_append, List.filterMap_append]
    simpa [enqueued] using (hgate hg).1

/-- With the same body and time stamp, the ISR path enqueues the line the task path hands to the
sinks, if it fits; dispatched, it reaches the sinks unchanged. -/
theorem textLine_isr {level : ℕ} {tag : TagArg} {flags : UInt8} {pieces : List Text}
    {es₁ es₂ : List Ev} {v : Unit} {ok : Bool} {now stamp : ℕ}
    (task : (writeTextWithFlags cfg level tag flags (some pieces)).Path es₁ v)
    (isr : (writeTextIsrWithFlags cfg level tag flags (some pieces.flatten)).Path es₂ ok)
    (taskOn : Passes cfg level tag.ptr es₁) (isrOn : Passes cfg level tag.ptr es₂)
    (ready : (⟨.isrReady, false⟩ : Ev) ∉ es₂)
    (ring : ∀ packet, (⟨.isrEnqueuePacket packet, false⟩ : Ev) ∉ es₂)
    (taskClock : (readings es₁).getLast? = some now)
    (isrClock : (⟨.isrTimestampMs, stamp⟩ : Ev) ∈ es₂)
    (same : UInt32.ofNat stamp = UInt32.ofNat now) :
    ∃ line before rest, es₁ = before ++ rest ∧
      LineEmission cfg [⟨.timestampMs, now⟩] line rest ∧
      enqueued es₂ = (if line.length ≤ cfg.isrPacketMax then [line] else []) ∧
      ok = decide (line.length ≤ cfg.isrPacketMax) ∧
      ∀ es₃ err, (dispatchTextPacket cfg (some line)).Path es₃ err →
        err = .ok ∧ ∃ before rest, es₃ = before ++ rest ∧ LineEmission cfg [] line rest := by
  have htask := textWritten_writeTextWithFlags task
  have hisr := textIsrCall_writeTextIsrWithFlags isr
  cases htask with
  | blocked _ hg => exact absurd taskOn hg.blocks
  | passed gate flush rest now' hg hf hem =>
    rw [Option.getD_some] at hem
    have hnow : now' = now := by
      rw [readings_append, readings_append, hem.readings] at taskClock
      simpa [readings] using taskClock
    subst hnow
    have hcall := hisr.enqueues isrOn ready ring isrClock
    rw [same] at hcall
    refine ⟨_, gate ++ flush, rest, by rw [List.append_assoc], hem, hcall.1, hcall.2, ?_⟩
    intro es₃ err h
    obtain ⟨herr, flush, rest, rfl, -, hline⟩ :=
      lineEmission_dispatchTextPacket (textLine_ne_nil _ _ _ _ _) h
    exact ⟨herr, flush, rest, rfl, hline⟩

/-- Nothing is filtered, the backend is up and nothing was dropped before. -/
def textAnswers : ℕ → (o : Op) → o.Ret
  | _, .filterLevelForTag _ => levelVerbose
  | _, .isrReady => true
  | _, .isrEnqueuePacket _ => true
  | _, _ => default

def letterTag : TagArg := ⟨100, ⟨[chr 't'], by decide⟩⟩

def topicFlags : UInt8 := textCr ||| textShowTopic

/-- The body in two pieces, with its line break between them. -/
def twoPieces : List Text := [[chr 'a'], [lf, chr 'b']]

theorem textLine_isr_two : ∃ es₁ es₂ line before rest,
    (writeTextWithFlags smallConfig levelInfo letterTag topicFlags (some twoPieces)).Path es₁ () ∧
    (writeTextIsrWithFlags smallConfig levelInfo letterTag topicFlags
      (some twoPieces.flatten)).Path es₂ true ∧
    es₁ = before ++ rest ∧ LineEmission smallConfig [⟨.timestampMs, (0 : ℕ)⟩] line rest ∧
    enqueued es₂ = [line] := by
  have task := Prog.path_play textAnswers 0
    (writeTextWithFlags smallConfig levelInfo letterTag topicFlags (some twoPieces))
  have isr := Prog.path_play textAnswers 0
    (writeTextIsrWithFlags smallConfig levelInfo letterTag topicFlags (some twoPieces.flatten))
  obtain ⟨packet, hisr⟩ : ∃ packet, ((writeTextIsrWithFlags smallConfig levelInfo letterTag
      topicFlags (some twoPieces.flatten)).play textAnswers 0).1 =
      [⟨.filterLevelForTag 100, levelVerbose⟩, ⟨.isrReady, true⟩, ⟨.isrTimestampMs, (0 : ℕ)⟩,
        ⟨.isrEnqueuePacket packet, true⟩] := ⟨_, rfl⟩
  have hlevel : levelInRange smallConfig levelInfo := by
    unfold levelInRange
    decide
  have hclock : (readings ((writeTextWithFlags smallConfig levelInfo letterTag topicFlags
      (some twoPieces)).play textAnswers 0).1).getLast? = some 0 := rfl
  have hstamp : (⟨.isrTimestampMs, (0 : ℕ)⟩ : Ev) ∈ ((writeTextIsrWithFlags smallConfig levelInfo
      letterTag topicFlags (some twoPieces.flatten)).play textAnswers 0).1 := by
    rw [hisr]
    simp
  obtain ⟨line, before, rest, hes, hline, henq, hok, -⟩ := textLine_isr task isr
    ⟨hlevel, levelVerbose, List.mem_cons_self, by decide, by decide, by decide⟩
    ⟨hlevel, levelVerbose, List.mem_cons_self, by decide, by decide, by decide⟩
    (by rw [hisr]; simp) (by rw [hisr]; simp) hclock hstamp rfl
  have hfits := of_decide_eq_true hok.symm
  rw [if_pos hfits] at henq
  exact ⟨_, _, line, before, rest, task, isr, hes, hline, henq⟩

end On9log
