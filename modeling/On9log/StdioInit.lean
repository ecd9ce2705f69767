import On9log.BufferText
import On9log.Lib.Expand
import On9log.System
import On9log.UnixStdio

/-!
# The stdio sink among threads (on9log_unix_stdio.c:99-219)

The binary build for macOS. The core runs as before, except that the callbacks
of `s_stdio_sink` are programs of their own: the stream is locked when a packet
starts and unlocked behind its frame. Any thread may call
`on9log_unix_stdio_init_file` at any time; it takes its mutex, inside it the emit
lock for the sink table, and after that the lock of the stream. That lock is
recursive, and what is written to the stream under it is one step.

`written` is no variable of the program; it lists what was written to which stream.
-/

namespace On9log
open Lib

/-! ### What is written -/

/-- `%08` PRIx32. -/
def hexU32 (value : UInt32) : Text :=
  (List.range 8).map fun i => hexDigit (value.toNat / 16 ^ (7 - i) % 16)

def imageSlideLine (slide : UInt32) : Text :=
  chars ['@', 'o', 'n', '9', 'l', 'o', 'g', '-', 'i', 'm', 'a', 'g', 'e', '-', 's', 'l', 'i', 'd',
    'e', '='] ++ hexU32 slide ++ chars ['\n']

inductive StdioContent where
  | frame (payload : List UInt8)
  | text (text : Text)
  deriving DecidableEq

def StdioContent.bytes : StdioContent → List UInt8
  | .frame payload => frameBytes frameTypeOn9log payload
  | .text line => line

structure StdioWrite where
  stream : Ptr
  content : StdioContent
  deriving DecidableEq

/-- `fprintf`: the characters are put until one fails. The field `write_failed` is not its own. -/
def StdioState.printText (fputc : ℕ → Bool) (s : StdioState) (text : Text) : StdioState :=
  { text.foldl (StdioState.writeRaw fputc) { s with writeFailed := false } with
    writeFailed := s.writeFailed }

/-! ### Operations -/

inductive UnixOp where
  | core (o : Op)
  | initLock
  | initUnlock
  | loadStream
  | storeStream (stream : Ptr)
  | flockfile (stream : Ptr)
  | funlockfile (stream : Ptr)
  | startPacket (header : Option (List UInt8))
  | addPayload (payload : Option (List UInt8))
  | loadDropFrame
  | writeFrame (stream : Ptr)
  | fprintf (stream : Ptr) (text : Text)

abbrev UnixOp.Ret : UnixOp → Type
  | .core o => o.Ret
  | .initLock => Unit
  | .initUnlock => Unit
  | .loadStream => Ptr
  | .storeStream _ => Unit
  | .flockfile _ => Unit
  | .funlockfile _ => Unit
  | .startPacket _ => Unit
  | .addPayload _ => Unit
  | .loadDropFrame => Bool
  | .writeFrame _ => Unit
  | .fprintf _ _ => Unit

instance UnixOp.inhabitedRet (o : UnixOp) : Inhabited o.Ret := by
  cases o
  case core o => exact inferInstanceAs (Inhabited o.Ret)
  all_goals exact ⟨default⟩

abbrev UnixProg := Prog UnixOp UnixOp.Ret
abbrev UnixEv := Event UnixOp UnixOp.Ret

def loadStream : UnixProg Ptr := Prog.op UnixOp.loadStream
def storeStream (stream : Ptr) : UnixProg Unit := Prog.op (UnixOp.storeStream stream)
def flockfile (stream : Ptr) : UnixProg Unit := Prog.op (UnixOp.flockfile stream)
def funlockfile (stream : Ptr) : UnixProg Unit := Prog.op (UnixOp.funlockfile stream)
def initLock : UnixProg Unit := Prog.op UnixOp.initLock
def initUnlock : UnixProg Unit := Prog.op UnixOp.initUnlock

/-! ### The sink -/

/-- `on9log_unix_stdio_start`. -/
def stdioStart (header : Option (List UInt8)) : UnixProg Unit := do
  let stream ← loadStream
  flockfile stream
  Prog.op (UnixOp.startPacket header)

/-- `on9log_unix_stdio_payload`. -/
def stdioPayload (payload : Option (List UInt8)) : UnixProg Unit :=
  Prog.op (UnixOp.addPayload payload)

/-- The frame of `on9log_unix_stdio_end`. -/
def stdioFrame (dropFrame : Bool) : UnixProg Unit :=
  if dropFrame then pure ()
  else do
    let stream ← loadStream
    Prog.op (UnixOp.writeFrame stream)

/-- `on9log_unix_stdio_end`. -/
def stdioEnd : UnixProg Unit := do
  let dropFrame ← Prog.op UnixOp.loadDropFrame
  stdioFrame dropFrame
  let stream ← loadStream
  funlockfile stream

def stdioCallback : SinkCall → UnixProg Unit
  | .startCb header => stdioStart header
  | .payloadCb c => stdioPayload (some c.bytes)
  | .endCb => stdioEnd

/-! ### Initialisation -/

/-- The program with the stdio sink: `&s_stdio_sink` with `&s_stdio`, the callbacks, the
slide of the image, and which calls of `fputc` succeed. -/
structure UnixBuild where
  cfg : Config
  entry : SinkEntry
  callbacks : Sink
  valid : ValidSink entry.sink callbacks
  slide : UInt32
  fputc : ℕ → Bool
  stdout : Ptr

variable (u : UnixBuild)

/-- The core, with the callbacks of the stdio sink. -/
def perform : (o : Op) → UnixProg o.Ret
  | .call e c => if e = u.entry then stdioCallback c else Prog.op (UnixOp.core (.call e c))
  | o => Prog.op (UnixOp.core o)

/-- `on9log_init` in a binary build. -/
def on9logInit : Err := .ok

/-- `on9log_unix_write_image_metadata`. -/
def writeImageMetadata (stream : Ptr) : UnixProg Unit := do
  flockfile stream
  Prog.op (UnixOp.fprintf stream (imageSlideLine u.slide))
  funlockfile stream

/-- The end of `on9log_unix_stdio_init_file`, behind `on9log_add_sink`. -/
def stdioAdded (stream : Ptr) (err : Err) : UnixProg Unit :=
  if err ≠ .ok then storeStream 0 else writeImageMetadata u stream

/-- `on9log_unix_stdio_init_file` inside its mutex. -/
def stdioInitLocked (stream : Ptr) : UnixProg Err := do
  let current ← loadStream
  if current ≠ 0 then do
    let current ← loadStream
    pure (if current = stream then .ok else .invalidArg)
  else do
    storeStream stream
    let err ← (addSink u.cfg u.entry.sink u.callbacks u.entry.ctx).expand (perform u)
    stdioAdded u stream err
    pure err

/-- `on9log_unix_stdio_init_file`. -/
def stdioInitFile (stream : Ptr) : UnixProg Err :=
  if stream = 0 then pure .invalidArg
  else if on9logInit ≠ .ok then pure on9logInit
  else do
    initLock
    let err ← stdioInitLocked u stream
    initUnlock
    pure err

/-- `on9log_unix_stdio_init`. -/
def stdioInit : UnixProg Err := stdioInitFile u u.stdout

/-! ### The machine -/

/-- Only on9log_unix_stdio.c has the address of `s_stdio_sink`. -/
def Call.Foreign (sink : Ptr) : Call → Prop
  | .addSink s _ _ => s ≠ sink
  | .removeSink s _ => s ≠ sink
  | _ => True

inductive UnixCall where
  | core (call : Call) (foreign : call.Foreign u.entry.sink)
  | stdioInitFile (stream : Ptr)
  | stdioInit

def unixBody : UnixCall u → UnixProg Res
  | .core call _ => (body u.cfg call).expand (perform u)
  | .stdioInitFile stream => do
    let err ← stdioInitFile u stream
    pure (.err err)
  | .stdioInit => do
    let err ← stdioInit u
    pure (.err err)

/-- `fileLock` has the thread that holds the lock of a stream, and how many more times it took it. -/
structure UnixShared (Tid : Type) where
  core : Shared Tid
  initOwner : Option Tid
  stream : Ptr
  fileLock : Ptr → Option (Tid × ℕ)
  stdio : StdioState
  written : List StdioWrite

variable {Tid : Type} [DecidableEq Tid]

omit [DecidableEq Tid] in
def UnixShared.init : UnixShared Tid := ⟨Shared.init, none, 0, fun _ => none, StdioState.init, []⟩

/-- The lock of a stream once `t` has taken it; `none` while another thread holds it. -/
def lockTaken (t : Tid) : Option (Tid × ℕ) → Option (Tid × ℕ)
  | none => some (t, 0)
  | some (owner, n) => if owner = t then some (owner, n + 1) else none

omit [DecidableEq Tid] in
def lockReleased : Option (Tid × ℕ) → Option (Tid × ℕ)
  | some (owner, n + 1) => some (owner, n)
  | _ => none

def UnixShared.write (s : UnixShared Tid) (stream : Ptr) (content : StdioContent)
    (stdio : StdioState) : UnixShared Tid :=
  { s with stdio := stdio, written := s.written ++ [⟨stream, content⟩] }

def unixStep (t : Tid) : (o : UnixOp) → o.Ret → UnixShared Tid → UnixShared Tid → Prop
  | .core o, r, s, s' => ∃ core, step u.cfg t o r s.core core ∧ s' = { s with core := core }
  | .initLock, _, s, s' => s.initOwner = none ∧ s' = { s with initOwner := some t }
  | .initUnlock, _, s, s' => s' = { s with initOwner := none }
  | .loadStream, r, s, s' => r = s.stream ∧ s' = s
  | .storeStream stream, _, s, s' => s' = { s with stream := stream }
  | .flockfile stream, _, s, s' => lockTaken t (s.fileLock stream) ≠ none ∧
    s' = { s with fileLock := Function.update s.fileLock stream (lockTaken t (s.fileLock stream)) }
  | .funlockfile stream, _, s, s' =>
    s' = { s with fileLock := Function.update s.fileLock stream (lockReleased (s.fileLock stream)) }
  | .startPacket header, _, s, s' => s' = { s with stdio := s.stdio.start header }
  | .addPayload payload, _, s, s' => s' = { s with stdio := s.stdio.payload payload }
  | .loadDropFrame, r, s, s' => r = s.stdio.dropFrame ∧ s' = s
  | .writeFrame stream, _, s, s' =>
    s' = s.write stream (.frame s.stdio.framePayload) (s.stdio.finish u.fputc)
  | .fprintf stream text, _, s, s' =>
    s' = s.write stream (.text text) (s.stdio.printText u.fputc text)

variable (Tid) in
def unixSystem : System Tid (UnixCall u) UnixOp UnixOp.Ret Res (UnixShared Tid) where
  body := unixBody u
  step := unixStep u
  init := UnixShared.init

end On9log
