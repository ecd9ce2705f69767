import On9log.Calls
import On9log.TextSystem

/-!
# What a call of the plain-text build writes

`linesIn` reads off a thread's own events the lines it handed over, whatever
the other threads did. A call is a sequence of such lines and of events that
need no lock (`TextSerial`), and `TextWrites` says which lines these are: none
if the filter blocks the message or the stream is missing, else a notice of the
messages dropped before, if there were any, and the message.
-/

namespace On9log
open Lib

/-! ### Lines -/

/-- `count` is the number of dropped messages the line announces, `0` for a message. -/
structure Line where
  count : UInt32
  clock : Option ℕ
  chunks : List Chunk

/-- Not begun yet, with `n` taken from the counter. -/
def Line.owing (n : UInt32) : Line := ⟨n, none, []⟩

def Line.blank : Line := Line.owing 0

def Line.text (line : Line) : Text := payloadOf line.chunks

/-- The callbacks of a line. -/
def lineCalls (cs : List Chunk) : List SinkCall := .startCb none :: cs.map .payloadCb ++ [.endCb]

/-- The line a thread is writing and those it has written. -/
def lineStep (g : Line × List Line) (e : TextEv) : Line × List Line :=
  match e with
  | ⟨.core .exchangeDropped, raw⟩ => ({ g.1 with count := UInt32.ofNat raw }, g.2)
  | ⟨.core .timestampMs, now⟩ => ({ g.1 with clock := some now }, g.2)
  | ⟨.core (.stream (.payload c)), _⟩ => ({ g.1 with chunks := g.1.chunks ++ [c] }, g.2)
  | ⟨.core (.stream .finish), _⟩ => (Line.blank, g.2 ++ [g.1])
  | _ => g

def linesIn (es : List TextEv) : List Line := (es.foldl lineStep (Line.blank, [])).2

/-! ### The `FILE` of a message -/

/-- Where a thread is with the `FILE`: `loaded` is the pointer as it has read it under the emit
lock, `stray` whether the cookie pointed elsewhere when it was read last. -/
inductive FileView where
  | out
  | locked (loaded : Ptr)
  | filed (file : Ptr)
  | printing (file : Ptr) (stray : Bool)

def FileView.load (file : Ptr) : FileView → FileView
  | .locked _ => .locked file
  | g => g

def fileStep (g : FileView) (e : TextEv) (g' : FileView) : Prop :=
  match e with
  | ⟨.core .emitLock, _⟩ => g = .out ∧ g' = .locked 0
  | ⟨.core .emitUnlock, _⟩ => (∃ file, g = .locked file) ∧ g' = .out
  | ⟨.loadStream, file⟩ => g' = g.load file
  | ⟨.flockfile file, _⟩ => g = .locked file ∧ file ≠ 0 ∧ g' = .filed file
  | ⟨.setCookie, _⟩ => ∃ file, g = .filed file ∧ g' = .printing file false
  | ⟨.loadCookie, line⟩ =>
    ∃ file stray, g = .printing file stray ∧ g' = .printing file (decide (line ≠ .own))
  | ⟨.vfprintf file _ _, _⟩ => (∃ stray, g = .printing file stray) ∧ g' = g
  | ⟨.strayOutput _, _⟩ => (∃ file, g = .printing file true) ∧ g' = g
  | ⟨.clearCookie, _⟩ => ∃ file stray, g = .printing file stray ∧ g' = .filed file
  | ⟨.funlockfile file, _⟩ => g = .filed file ∧ g' = .locked file
  | _ => g' = g

/-- The text of a line is formatted with the `FILE` taken and given back, if at all. -/
def Formats (body : List TextEv) : Prop :=
  ∃ file, Steps fileStep (.locked 0) body (.locked file)

theorem steps_file_inside {es : List Ev} (h : Inside es) (g : FileView) :
    Steps fileStep g (es.map Ev.text) g := by
  induction es with
  | nil => rfl
  | cons e es ih =>
    refine ⟨g, ?_, ih fun e he => h e (List.mem_cons_of_mem _ he)⟩
    have hin := h e (List.mem_cons_self ..)
    obtain ⟨o, r⟩ := e
    cases o <;> first | rfl | cases hin

theorem Formats.inside {es : List Ev} (h : Inside es) : Formats (es.map Ev.text) :=
  ⟨0, steps_file_inside h _⟩

/-- Operations of a formatter beside what it writes. -/
def TextOp.formats : TextOp → Bool
  | .core .memory => true
  | .loadStream => true
  | .flockfile _ => true
  | .funlockfile _ => true
  | .setCookie => true
  | .clearCookie => true
  | .loadCookie => true
  | .vfprintf _ _ _ => true
  | .strayOutput _ => true
  | _ => false

/-- Operations of a thread while it writes a line under the lock. -/
def TextOp.inside : TextOp → Bool
  | .core o => o.inside
  | o => o.formats

def TextInside (es : List TextEv) : Prop := ∀ e ∈ es, e.op.inside = true

theorem TextInside.append {es₁ es₂ : List TextEv} (h₁ : TextInside es₁) (h₂ : TextInside es₂) :
    TextInside (es₁ ++ es₂) := fun e he => (List.mem_append.mp he).elim (h₁ e) (h₂ e)

theorem textInside_core {es : List Ev} (h : Inside es) : TextInside (es.map Ev.text) := by
  intro e he
  obtain ⟨e₀, he₀, rfl⟩ := List.mem_map.mp he
  exact h e₀ he₀

theorem inside_formats {o : TextOp} (h : o.formats = true) : o.inside = true := by
  cases o
  case core o => cases o <;> first | rfl | cases h
  all_goals exact h

/-- What is handed to the sinks while the text of a line is formatted. -/
inductive Hands (sinks : List SinkEntry) : List TextEv → List Chunk → Prop
  | nil : Hands sinks [] []
  | chunk (c : Chunk) {es cs} : c.bytes ≠ [] → Hands sinks es cs →
      Hands sinks ((broadcast sinks (.payload c)).map Ev.text ++ es) (c :: cs)
  | format (e : TextEv) {es cs} : e.op.formats = true → Hands sinks es cs → Hands sinks (e :: es) cs

def clockReads (clock : Option ℕ) : List Ev := clock.toList.map fun now => ⟨.timestampMs, now⟩

/-- The sinks are read, and the line begins. -/
def lineOpening (cfg : Config) (slots : ℕ → SinkEntry) : List Ev :=
  slotReads slots (List.range cfg.maxSinks) ++
    (live slots (List.range cfg.maxSinks)).map fun e => ⟨.call e (.startCb none), ()⟩

theorem inside_opening {cfg : Config} {slots : ℕ → SinkEntry} {clock : Option ℕ} :
    Inside (lineOpening cfg slots ++ clockReads clock) := by
  intro e he
  rcases List.mem_append.mp he with he | he
  · rcases List.mem_append.mp he with he | he
    · obtain ⟨i, -, rfl⟩ := List.mem_map.mp he
      rfl
    · obtain ⟨s, -, rfl⟩ := List.mem_map.mp he
      rfl
  · obtain ⟨now, -, rfl⟩ := List.mem_map.mp he
    rfl

theorem Hands.inside {sinks : List SinkEntry} {es : List TextEv} {cs : List Chunk}
    (h : Hands sinks es cs) : TextInside es := by
  induction h with
  | nil => exact fun e he => absurd he List.not_mem_nil
  | chunk c _ _ ih => exact (textInside_core (inside_broadcast _ _)).append ih
  | format e he _ ih =>
    intro e' he'
    rcases List.mem_cons.mp he' with rfl | he'
    · exact inside_formats he
    · exact ih e' he'

/-- A line between the lock and the unlock. -/
def LineSection (cfg : Config) (slots : ℕ → SinkEntry) (line : Line) (b : List TextEv) : Prop :=
  ∃ body, Hands (live slots (List.range cfg.maxSinks)) body line.chunks ∧ Formats body ∧
    b = (lineOpening cfg slots ++ clockReads line.clock).map Ev.text ++
      (body ++ (finishing (live slots (List.range cfg.maxSinks))).map Ev.text)

theorem LineSection.inside {cfg : Config} {slots : ℕ → SinkEntry} {line : Line} {b : List TextEv}
    (h : LineSection cfg slots line b) : TextInside b := by
  obtain ⟨body, hbody, -, rfl⟩ := h
  exact (textInside_core inside_opening).append
    (hbody.inside.append (textInside_core (inside_finishing _)))

/-- A line from the lock to the unlock. -/
def LineWritten (cfg : Config) (line : Line) (es : List TextEv) : Prop :=
  ∃ slots b, LineSection cfg slots line b ∧
    es = ⟨.core .emitLock, ()⟩ :: b ++ [⟨.core .emitUnlock, ()⟩]

/-! ### Pieces of a line -/

section Pieces

variable {cfg : Config} {sinks : List SinkEntry} {es es₁ es₂ : List TextEv}
  {cs cs₁ cs₂ : List Chunk}

theorem Hands.append (h₁ : Hands sinks es₁ cs₁) (h₂ : Hands sinks es₂ cs₂) :
    Hands sinks (es₁ ++ es₂) (cs₁ ++ cs₂) := by
  induction h₁ with
  | nil => exact h₂
  | chunk c hc _ ih =>
    rw [List.append_assoc, List.cons_append]
    exact .chunk c hc ih
  | format e he _ ih => exact .format e he ih

theorem hands_emits {es : List Ev} (h : Emits sinks es cs) : Hands sinks (es.map Ev.text) cs := by
  induction h with
  | nil => exact .nil
  | memory mem _ ih => exact .format _ rfl ih
  | chunk c hc _ ih =>
    rw [List.map_append]
    exact .chunk c hc ih

/-- The line of the core, as a line of this build. -/
theorem LineEmission.written (clock : Option ℕ) {text : Text} {es : List Ev}
    (h : LineEmission cfg (clockReads clock) text es) (count : UInt32) :
    ∃ line, LineWritten cfg line (es.map Ev.text) ∧ line.count = count ∧ line.clock = clock ∧
      line.text = text := by
  obtain ⟨slots, cs, body, hcs, htext, rfl⟩ := h
  refine ⟨⟨count, clock, cs⟩, ⟨slots, _, ⟨body.map Ev.text, hands_emits hcs,
    .inside (inside_emits hcs), rfl⟩, ?_⟩, rfl, rfl, htext⟩
  simp only [lineOpening, List.map_cons, List.map_append, List.append_assoc, List.cons_append,
    List.map_nil]
  rfl

theorem foldl_lineStep_plain (h : ∀ e ∈ es, ∀ g, lineStep g e = g) (g : Line × List Line) :
    es.foldl lineStep g = g := by
  induction es with
  | nil => rfl
  | cons e es ih =>
    rw [List.foldl_cons, h e (List.mem_cons_self ..)]
    exact ih fun e he => h e (List.mem_cons_of_mem _ he)

theorem lineStep_formats {e : TextEv} (h : e.op.formats = true) (g : Line × List Line) :
    lineStep g e = g := by
  obtain ⟨o, r⟩ := e
  cases o
  case core o => cases o <;> first | rfl | cases h
  all_goals rfl

theorem foldl_lineStep_calls (sinks : List SinkEntry) (c : SinkCall) (g : Line × List Line) :
    ((sinks.map fun e => (⟨.call e c, ()⟩ : Ev)).map Ev.text).foldl lineStep g = g := by
  refine foldl_lineStep_plain (fun e he => ?_) g
  obtain ⟨e₀, he₀, rfl⟩ := List.mem_map.mp he
  obtain ⟨s, -, rfl⟩ := List.mem_map.mp he₀
  exact fun _ => rfl

theorem foldl_lineStep_hands (h : Hands sinks es cs) (line : Line) (lines : List Line) :
    es.foldl lineStep (line, lines) = ({ line with chunks := line.chunks ++ cs }, lines) := by
  induction h generalizing line with
  | nil => rw [List.append_nil, List.foldl_nil]
  | chunk c _ _ ih =>
    rw [List.foldl_append, broadcast, List.map_cons, List.foldl_cons, foldl_lineStep_calls]
    have hstep : lineStep (line, lines) (Ev.text ⟨.stream (.payload c), ()⟩) =
        ({ line with chunks := line.chunks ++ [c] }, lines) := rfl
    rw [hstep, ih, List.append_assoc, List.singleton_append]
  | format e he _ ih => rw [List.foldl_cons, lineStep_formats he, ih]

theorem foldl_lineStep_opening (slots : ℕ → SinkEntry) (g : Line × List Line) :
    ((lineOpening cfg slots).map Ev.text).foldl lineStep g = g := by
  rw [lineOpening, List.map_append, List.foldl_append, foldl_lineStep_calls]
  refine foldl_lineStep_plain (fun e he => ?_) g
  obtain ⟨e₀, he₀, rfl⟩ := List.mem_map.mp he
  obtain ⟨i, -, rfl⟩ := List.mem_map.mp he₀
  exact fun _ => rfl

theorem foldl_lineStep_section {slots : ℕ → SinkEntry} {line : Line} {b : List TextEv}
    (h : LineSection cfg slots line b) (count : UInt32) (lines : List Line) :
    b.foldl lineStep (Line.owing count, lines) =
      (Line.blank, lines ++ [{ line with count := count }]) := by
  obtain ⟨body, hbody, -, rfl⟩ := h
  have hclock : ((clockReads line.clock).map Ev.text).foldl lineStep
      (Line.owing count, lines) = (⟨count, line.clock, []⟩, lines) := by
    cases line.clock <;> rfl
  rw [List.map_append, List.append_assoc, List.foldl_append, foldl_lineStep_opening,
    List.foldl_append, hclock, List.foldl_append, foldl_lineStep_hands hbody, finishing,
    List.map_append, List.foldl_append, foldl_lineStep_calls]
  rfl

theorem foldl_lineStep_written {line : Line} (h : LineWritten cfg line es) (lines : List Line) :
    es.foldl lineStep (Line.owing line.count, lines) =
      (Line.blank, lines ++ [line]) := by
  obtain ⟨slots, b, hb, rfl⟩ := h
  have hlock : ∀ g, lineStep g ⟨.core .emitLock, ()⟩ = g := fun _ => rfl
  rw [List.cons_append, List.foldl_cons, hlock, List.foldl_append, foldl_lineStep_section hb]
  rfl

end Pieces

/-! ### Calls as sequences of lines -/

/-- Operations outside the lock that hand nothing over. -/
def TextOp.quiet : TextOp → Bool
  | .core (.filterLevelForTag _) => true
  | .core .addDropped => true
  | .core .isrTimestampMs => true
  | .core .memory => true
  | .core .imageId => true
  | .core .isrReady => true
  | .core (.isrEnqueuePacket _) => true
  | .portLock => true
  | .portUnlock => true
  | .loadStream => true
  | .storeStream _ => true
  | .openCookie => true
  | .setvbuf _ => true
  | .fclose _ => true
  | _ => false

def TextQuiet (es : List TextEv) : Prop := ∀ e ∈ es, e.op.quiet = true

/-- `es` writes the lines `ls`, beginning with a count of `n` taken from the counter and not
announced yet, and ending with one of `n'`. -/
inductive TextSerial (cfg : Config) : UInt32 → List TextEv → UInt32 → List Line → Prop
  | nil (n : UInt32) : TextSerial cfg n [] n []
  | quiet (e : TextEv) {es n n' ls} : e.op.quiet = true → TextSerial cfg n es n' ls →
      TextSerial cfg n (e :: es) n' ls
  | exchange (raw : ℕ) {es n' ls} : TextSerial cfg (UInt32.ofNat raw) es n' ls →
      TextSerial cfg 0 (⟨.core .exchangeDropped, raw⟩ :: es) n' ls
  | line (line : Line) {es₁ es₂ n' ls} : LineWritten cfg line es₁ → TextSerial cfg 0 es₂ n' ls →
      TextSerial cfg line.count (es₁ ++ es₂) n' (line :: ls)
  | table (b : List Ev) {es n' ls} :
      ((∃ e r, e.sink ≠ 0 ∧ AddSection cfg e r b) ∨ ∃ e r, RemoveSection cfg e r b) →
      TextSerial cfg 0 es n' ls →
      TextSerial cfg 0 (⟨.core .emitLock, ()⟩ :: b.map Ev.text ++
        ⟨.core .emitUnlock, ()⟩ :: es) n' ls

section Serial

variable {cfg : Config} {es es₁ es₂ : List TextEv} {n n₁ n₂ : UInt32} {ls ls₁ ls₂ : List Line}

theorem TextSerial.append (h₁ : TextSerial cfg n es₁ n₁ ls₁) (h₂ : TextSerial cfg n₁ es₂ n₂ ls₂) :
    TextSerial cfg n (es₁ ++ es₂) n₂ (ls₁ ++ ls₂) := by
  induction h₁ with
  | nil => exact h₂
  | quiet e he _ ih => exact .quiet e he (ih h₂)
  | exchange raw _ ih => exact .exchange raw (ih h₂)
  | line line hl _ ih =>
    rw [List.append_assoc, List.cons_append]
    exact .line line hl (ih h₂)
  | table b hb _ ih =>
    rw [List.append_assoc, List.cons_append]
    exact .table b hb (ih h₂)

theorem TextSerial.of_quiet (h : TextQuiet es) (n : UInt32) : TextSerial cfg n es n [] := by
  induction es with
  | nil => exact .nil n
  | cons e es ih =>
    exact .quiet e (h e (List.mem_cons_self ..)) (ih fun e he => h e (List.mem_cons_of_mem _ he))

theorem TextSerial.of_line {line : Line} (h : LineWritten cfg line es) :
    TextSerial cfg line.count es 0 [line] := by
  have := TextSerial.line line h (.nil 0)
  rwa [List.append_nil] at this

theorem tableSection_of {b : List Ev}
    (h : (∃ e r, e.sink ≠ 0 ∧ AddSection cfg e r b) ∨ ∃ e r, RemoveSection cfg e r b) :
    TableSection b := by
  rcases h with ⟨e, r, -, hb⟩ | ⟨e, r, hb⟩
  · exact hb.tableSection
  · exact hb.tableSection

theorem foldl_lineStep_table {b : List Ev} (h : TableSection b) (g : Line × List Line) :
    (b.map Ev.text).foldl lineStep g = g := by
  refine foldl_lineStep_plain (fun e he => ?_) g
  obtain ⟨⟨o, r⟩, he₀, rfl⟩ := List.mem_map.mp he
  rcases h with hl | ⟨l, i, entry, hl, rfl⟩
  · obtain ⟨i, rfl⟩ := hl _ he₀
    exact fun _ => rfl
  · rcases List.mem_append.mp he₀ with he₀ | he₀
    · obtain ⟨i, rfl⟩ := hl _ he₀
      exact fun _ => rfl
    · cases List.mem_singleton.mp he₀
      exact fun _ => rfl

theorem foldl_lineStep_serial (h : TextSerial cfg n es n₁ ls) (lines : List Line) :
    es.foldl lineStep (Line.owing n, lines) =
      (Line.owing n₁, lines ++ ls) := by
  induction h generalizing lines with
  | nil => rw [List.foldl_nil, List.append_nil]
  | @quiet e es n n' ls he _ ih =>
    have hstep : ∀ g, lineStep g e = g := by
      intro g
      obtain ⟨o, r⟩ := e
      cases o
      case core o => cases o <;> first | rfl | cases he
      all_goals rfl
    rw [List.foldl_cons, hstep, ih]
  | exchange raw _ ih => exact ih lines
  | line line hl _ ih =>
    rw [List.foldl_append, foldl_lineStep_written hl]
    have hrest := ih (lines ++ [line])
    rw [List.append_assoc] at hrest
    exact hrest
  | @table b es n' ls hb _ ih =>
    rw [List.cons_append, List.foldl_cons, List.foldl_append, List.foldl_cons,
      foldl_lineStep_table (tableSection_of hb)]
    exact ih lines

/-- A whole call leaves no line behind that is not finished. -/
theorem TextSerial.foldl (h : TextSerial cfg 0 es 0 ls) (lines : List Line) :
    es.foldl lineStep (Line.blank, lines) = (Line.blank, lines ++ ls) :=
  foldl_lineStep_serial h lines

end Serial

/-! ### What a call writes -/

/-- Each time the call asked, the filter let the message through. -/
def TextEnabled (cfg : Config) (level : ℕ) (tag : Ptr) (es : List TextEv) : Prop :=
  levelInRange cfg level ∧ ∀ rl, (⟨.core (.filterLevelForTag tag), rl⟩ : TextEv) ∈ es →
    levelNone < rl ∧ rl ≤ levelVerbose ∧ level ≤ rl

/-- The call has something to write, by its arguments and what it saw. -/
def TextCall.Speaks (cfg : Config) (es : List TextEv) : TextCall → Prop
  | .write level tag _ _ _ =>
    (∃ file rest, es = ⟨.loadStream, file⟩ :: rest ∧ file ≠ 0) ∧ TextEnabled cfg level tag.ptr es
  | .writeText level tag _ _ => TextEnabled cfg level tag.ptr es
  | .writeBuffer level tag _ buffer =>
    (∃ bytes, buffer = some bytes ∧ bytes.length ≤ uint32Max) ∧ TextEnabled cfg level tag.ptr es
  | .emitBoot _ _ => True
  | .dispatchPacket packet => ∃ text, packet = some text ∧ text ≠ []
  | _ => False

/-- The cookie pointed to the caller's line whenever `vfprintf` wrote. -/
def OwnCookie (es : List TextEv) : Prop :=
  ∀ line, (⟨.loadCookie, line⟩ : TextEv) ∈ es → line = .own

/-- What was printed for a message; nothing if the stream was gone. -/
inductive Printed (format : Option CStr) (args : VaList) (es : List TextEv) : List Text → Prop
  | unset : (⟨.loadStream, (0 : ℕ)⟩ : TextEv) ∈ es → Printed format args es []
  | printed (file : Ptr) (pieces : List Text) : file ≠ 0 →
      (⟨.loadStream, file⟩ : TextEv) ∈ es →
      (⟨.vfprintf file (formatBytes format) args, pieces⟩ : TextEv) ∈ es →
      Printed format args es pieces

/-- The usable part of the port's answer. -/
def ImageIdReply.used (reply : ImageIdReply) : List UInt8 × UInt8 :=
  if reply.len = 0 ∨ reply.len > imageIdMaxLen ∨ reply.kind = 0 then ([], 0)
  else ((List.range reply.len).map reply.id, reply.kind)

/-- `line` has the time and the text of the call's message. -/
def TextCall.Message (es : List TextEv) (line : Line) : TextCall → Prop
  | .write level tag textFlags format args => ∃ now, line.clock = some now ∧
    (OwnCookie es → ∃ pieces, Printed format args es pieces ∧
      line.text = textLine level (UInt32.ofNat now) tag.text textFlags pieces.flatten)
  | .writeText level tag textFlags formatter => ∃ now, line.clock = some now ∧
    line.text = textLine level (UInt32.ofNat now) tag.text textFlags (formatter.getD []).flatten
  | .writeBuffer level tag textFlags buffer => ∃ now, line.clock = some now ∧
    line.text = textLine level (UInt32.ofNat now) tag.text textFlags (bufferText (buffer.getD []))
  | .emitBoot bootId reason => ∃ now reply, line.clock = some now ∧
    (⟨.core .imageId, reply⟩ : TextEv) ∈ es ∧
    line.text = textLine levelInfo (UInt32.ofNat now) (some on9logTag) textDefaultFlags
      (bootTextFormatter bootId reason reply.used.1 reply.used.2).flatten
  | .dispatchPacket packet => line.clock = none ∧ packet = some line.text
  | _ => False

/-- The line about messages dropped before. -/
def Line.IsNotice (line : Line) : Prop :=
  line.count ≠ 0 ∧ ∃ now, line.clock = some now ∧
    line.text = textLine levelWarn (UInt32.ofNat now) (some on9logTag) textDefaultFlags
      (droppedTextFormatter line.count).flatten

/-- At most a notice, and then the message. -/
def Spoken (message : Line → Prop) (ls : List Line) : Prop :=
  ∃ notices line, ls = notices ++ [line] ∧
    (notices = [] ∨ ∃ notice, notices = [notice] ∧ notice.IsNotice) ∧ line.count = 0 ∧ message line

structure TextWrites (cfg : Config) (call : TextCall) (es : List TextEv) (ls : List Line) :
    Prop where
  serial : TextSerial cfg 0 es 0 ls
  silent : ¬call.Speaks cfg es → ls = []
  spoken : call.Speaks cfg es → Spoken (fun line => call.Message es line) ls

section Calls

variable {cfg : Config} {level : ℕ} {tag : Ptr} {es es₁ es₂ : List TextEv} {line : Line}

/-! ### The filter -/

def NoLookup (es : List TextEv) : Prop := ∀ e ∈ es, ∀ tag, e.op ≠ .core (.filterLevelForTag tag)

theorem NoLookup.append (h₁ : NoLookup es₁) (h₂ : NoLookup es₂) : NoLookup (es₁ ++ es₂) :=
  fun e he => (List.mem_append.mp he).elim (h₁ e) (h₂ e)

theorem enabled_append (h : NoLookup es₂) :
    TextEnabled cfg level tag (es₁ ++ es₂) ↔ TextEnabled cfg level tag es₁ := by
  refine and_congr_right fun _ => ⟨fun hall rl hmem => hall rl (List.mem_append_left _ hmem),
    fun hall rl hmem => ?_⟩
  rcases List.mem_append.mp hmem with hmem | hmem
  · exact hall rl hmem
  · exact absurd rfl (h _ hmem tag)

theorem enabled_cons {e : TextEv} (h : e.op ≠ .core (.filterLevelForTag tag)) :
    TextEnabled cfg level tag (e :: es) ↔ TextEnabled cfg level tag es := by
  refine and_congr_right fun _ => ⟨fun hall rl hmem => hall rl (List.mem_cons_of_mem _ hmem),
    fun hall rl hmem => ?_⟩
  rcases List.mem_cons.mp hmem with rfl | hmem
  · exact absurd rfl h
  · exact hall rl hmem

theorem enabled_gate {b : Bool} {gate : List Ev} (h : Gate cfg level tag b gate) :
    TextEnabled cfg level tag (gate.map Ev.text) ↔ b = true := by
  cases h with
  | compileTime hr => simp [TextEnabled, hr]
  | runtime rl hr =>
    rw [decide_eq_true_iff]
    constructor
    · exact fun h => h.2 rl (List.mem_singleton_self _)
    · refine fun h => ⟨hr, fun rl' hmem => ?_⟩
      cases List.mem_singleton.mp hmem
      exact h

theorem quiet_gate {b : Bool} {gate : List Ev} (h : Gate cfg level tag b gate) :
    TextQuiet (gate.map Ev.text) := by
  cases h with
  | compileTime hr => exact fun e he => absurd he List.not_mem_nil
  | runtime rl hr =>
    intro e he
    rw [List.mem_singleton.mp he]
    rfl

theorem enabled_past {gate : List Ev} (h : Gate cfg level tag true gate) :
    TextEnabled cfg level tag (gate.map Ev.text) := (enabled_gate h).mpr rfl

theorem not_enabled_gate {gate : List Ev} (h : Gate cfg level tag false gate) :
    ¬TextEnabled cfg level tag (gate.map Ev.text) := by
  intro hon
  cases (enabled_gate h).mp hon

theorem path_textGated {p : TextProg Unit} {v : Unit}
    (h : (do let enabled ← onCore (levelEnabled cfg level tag)
             if enabled then p else pure () : TextProg Unit).Path es v) :
    (∃ gate, es = gate.map Ev.text ∧ Gate cfg level tag false gate) ∨
      ∃ gate rest, es = gate.map Ev.text ++ rest ∧ Gate cfg level tag true gate ∧
        p.Path rest v := by
  obtain ⟨enabled, e₁, rest, rfl, h₁, h₂⟩ := (Prog.path_bind _ _ _ _).mp h
  obtain ⟨gate, hgate, rfl⟩ := path_onCore h₁
  have hg := gate_levelEnabled hgate
  cases enabled with
  | true => exact Or.inr ⟨gate, rest, rfl, hg, h₂⟩
  | false =>
    obtain ⟨rfl, -⟩ := (Prog.path_pure _ _ _).mp h₂
    exact Or.inl ⟨gate, List.append_nil _, hg⟩

theorem LineWritten.all {q : TextOp → Prop} (h : LineWritten cfg line es)
    (hlock : q (.core .emitLock)) (hunlock : q (.core .emitUnlock))
    (hin : ∀ o, o.inside = true → q o) : ∀ e ∈ es, q e.op := by
  obtain ⟨slots, b, hb, rfl⟩ := h
  intro e he
  rcases List.mem_append.mp he with he | he
  · rcases List.mem_cons.mp he with rfl | he
    · exact hlock
    · exact hin _ (hb.inside e he)
  · rw [List.mem_singleton.mp he]
    exact hunlock

theorem LineWritten.noLookup (h : LineWritten cfg line es) : NoLookup es := by
  refine h.all (q := fun o => ∀ tag, o ≠ .core (.filterLevelForTag tag)) (by simp) (by simp) ?_
  rintro _ hin tag rfl
  cases hin

/-! ### Notices and messages -/

theorem FlushedText.serial {es : List Ev} (h : FlushedText cfg es) :
    ∃ notices, TextSerial cfg 0 (es.map Ev.text) 0 notices ∧
      (notices = [] ∨ ∃ notice, notices = [notice] ∧ notice.IsNotice) := by
  cases h with
  | none raw hzero =>
    refine ⟨[], .exchange raw ?_, Or.inl rfl⟩
    rw [hzero]
    exact .nil 0
  | line raw now es hne hem =>
    obtain ⟨line, hline, hcount, hclock, htext⟩ :=
      LineEmission.written (some now) hem (UInt32.ofNat raw)
    refine ⟨[line], .exchange raw ?_, Or.inr ⟨line, rfl, ?_, now, hclock, ?_⟩⟩
    · rw [← hcount]
      exact .of_line hline
    · rw [hcount]
      exact hne
    · rw [htext, hcount]

theorem FlushedText.noLookup {es : List Ev} (h : FlushedText cfg es) :
    NoLookup (es.map Ev.text) := by
  have hexchange : ∀ raw, NoLookup [(⟨.core .exchangeDropped, raw⟩ : TextEv)] := by
    intro raw e he tag
    rw [List.mem_singleton.mp he]
    simp
  cases h with
  | none raw _ => exact hexchange raw
  | line raw now es _ hem =>
    obtain ⟨line, hline, -⟩ := LineEmission.written (some now) hem 0
    exact (hexchange raw).append hline.noLookup

/-- A text call past the filter flushes the counter and writes its line. -/
theorem serial_writeFormattedText {tagArg : TagArg} {textFlags : UInt8}
    {formatter : Option TextFormatter} {v : Unit} {message : List TextEv → Line → Prop}
    (h : (writeFormattedText cfg level tagArg textFlags formatter).Path es v)
    (hline : ∀ es v, (dispatchFormattedLine cfg level tagArg.text textFlags formatter).Path es v →
      ∃ line, LineWritten cfg line es ∧ line.count = 0 ∧ message es line) :
    (TextSerial cfg 0 es 0 [] ∧ ¬TextEnabled cfg level tagArg.ptr es) ∨
      ∃ before rest ls, es = before ++ rest ∧ TextSerial cfg 0 es 0 ls ∧
        TextEnabled cfg level tagArg.ptr es ∧ Spoken (message rest) ls := by
  rcases path_textGated h with ⟨gate, rfl, hg⟩ | ⟨gate, rest, rfl, hg, h⟩
  · exact Or.inl ⟨.of_quiet (quiet_gate hg) 0, not_enabled_gate hg⟩
  · obtain ⟨_, e₁, e₂, rfl, h₁, h₂⟩ := (Prog.path_bind _ _ _ _).mp h
    obtain ⟨es₀, hp, rfl⟩ := path_onCore h₁
    have hflush := flushedText_flushDroppedText hp
    obtain ⟨notices, hnotices, hshape⟩ := hflush.serial
    obtain ⟨line, hwritten, hcount, hmessage⟩ := hline e₂ _ h₂
    have hser := TextSerial.of_line hwritten
    rw [hcount] at hser
    refine Or.inr ⟨gate.map Ev.text ++ es₀.map Ev.text, e₂, notices ++ [line],
      (List.append_assoc ..).symm,
      ?_, ?_, notices, line, rfl, hshape, hcount, hmessage⟩
    · exact (TextSerial.of_quiet (quiet_gate hg) 0).append (hnotices.append hser)
    · exact (enabled_append (hflush.noLookup.append hwritten.noLookup)).mpr (enabled_past hg)

theorem written_dispatchPieces (formatter : Option (List Text)) {tag : Option CStr}
    {flags : UInt8} {v : Unit}
    (h : (dispatchFormattedLine cfg level tag flags (formatter.map outputPieces)).Path es v) :
    ∃ line, LineWritten cfg line es ∧ line.count = 0 ∧ ∃ now, line.clock = some now ∧
      line.text = textLine level (UInt32.ofNat now) tag flags (formatter.getD []).flatten := by
  rw [dispatchFormattedLine_pieces] at h
  obtain ⟨es₀, hp, rfl⟩ := path_onCore h
  obtain ⟨now, hem⟩ := lineEmission_dispatchTextLine hp
  obtain ⟨line, hline, hcount, hclock, htext⟩ := LineEmission.written (some now) hem 0
  exact ⟨line, hline, hcount, now, hclock, htext⟩

end Calls

end On9log
