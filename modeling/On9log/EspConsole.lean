import On9log.EspVfs
import On9log.SinkView
import On9log.TransportMachine
import On9log.UnixRefines

/-!
# The console of the ESP port as a system of threads (on9log_esp_vfs.c, esp_stdio_log_vfs.c)

The binary build once the scheduler runs. Tasks log through the core with the VFS
sink on it, print to the console, and send frames of their own; all of it goes
through one transport and its mutex to every output that is open. The core holds
its emit lock from `on9log_esp_vfs_start` to the end of `on9log_esp_vfs_end`, so
the buffer of the sink is read where it is handed over. `output_count` changes
under the mutex alone and is read once by each loop. `write` is answered with the
result of a call that no signal interrupts; drivers do not call back.
-/

namespace On9log
open Lib

/-- `esp_err_t` where the core's `ON9LOG_ERR_NOT_FOUND` can come through. -/
inductive EspVfsErr where
  | esp (err : EspErr)
  | notFound
  deriving DecidableEq

/-- `on9log_esp_vfs_to_esp_err`. -/
def toEspErr : Err → EspVfsErr
  | .ok => .esp .ok
  | .invalidArg => .esp .invalidArg
  | .noMem => .esp .noMem
  | .notFound => .notFound
  | .invalidSize => .esp .invalidSize
  | .fail => .esp .fail

inductive ConsoleStream where
  | stdout
  | stderr

/-! ### Operations -/

/-- A frame that is sent: its type and its payload. -/
abbrev SentFrame := UInt8 × List UInt8

/-- `setOwner` carries what is about to be sent. -/
inductive ConsoleOp where
  | core (o : Op)
  | startPacket (header : Option (List UInt8))
  | addPayload (payload : List UInt8)
  /-- `overflow`, and `data` if it is not set. -/
  | takePacket
  /-- `s_transport_owner == xTaskGetCurrentTaskHandle()`. -/
  | ownerIsSelf
  | transportLock
  | transportUnlock
  | setOwner (frame : SentFrame)
  | clearOwner
  | outputCount
  | loadOutput (i : ℕ)
  | write (i : ℕ) (data : List UInt8)
  | openPath (path : List UInt8)
  | pushOutput (fd : ℤ)
  | fsync (i : ℕ)
  | loadInstalled
  | storeInstalled
  | loadSinkInstalled
  | storeSinkInstalled
  | registerVfs
  | freopen (stream : ConsoleStream)

abbrev ConsoleOp.Ret : ConsoleOp → Type
  | .core o => o.Ret
  | .startPacket _ => Unit
  | .addPayload _ => Unit
  | .takePacket => Option (List UInt8)
  | .ownerIsSelf => Bool
  | .transportLock => Unit
  | .transportUnlock => Unit
  | .setOwner _ => Unit
  | .clearOwner => Unit
  | .outputCount => ℕ
  | .loadOutput _ => ℤ
  | .write _ _ => ℤ
  | .openPath _ => ℤ
  | .pushOutput _ => Unit
  | .fsync _ => ℤ
  | .loadInstalled => Bool
  | .storeInstalled => Unit
  | .loadSinkInstalled => Bool
  | .storeSinkInstalled => Unit
  | .registerVfs => EspErr
  | .freopen _ => Bool

instance ConsoleOp.inhabitedRet (o : ConsoleOp) : Inhabited o.Ret := by
  cases o
  case core o => exact inferInstanceAs (Inhabited o.Ret)
  case registerVfs => exact ⟨.ok⟩
  all_goals exact ⟨default⟩

abbrev ConsoleProg := Prog ConsoleOp ConsoleOp.Ret
abbrev ConsoleEv := Event ConsoleOp ConsoleOp.Ret

namespace EspConsole

/-! ### The transport -/

/-- `esp_stdio_log_vfs_write_all`; each turn writes a byte or more. -/
def writeAll (i : ℕ) : ℕ → List UInt8 → ConsoleProg Bool
  | 0, data => pure data.isEmpty
  | n + 1, data =>
    if data = [] then pure true
    else do
      let written ← Prog.op (ConsoleOp.write i data)
      if written ≤ 0 then pure false else writeAll i n (data.drop written.toNat)

/-- One turn of the loop over the outputs. -/
def flushOutput (batch : List UInt8) (ok : Bool) (i : ℕ) : ConsoleProg Bool := do
  let fd ← Prog.op (ConsoleOp.loadOutput i)
  if 0 ≤ fd then do
    let written ← writeAll i batch.length batch
    pure (ok && written)
  else pure ok

/-- The loop over the outputs in `esp_stdio_log_vfs_frame_writer_flush`. -/
def flush (ok : Bool) (batch : List UInt8) : ConsoleProg Bool := do
  let count ← Prog.op ConsoleOp.outputCount
  (List.range count).foldlM (flushOutput batch) ok

/-- `esp_stdio_log_vfs_write_frame` with the mutex taken. -/
def sendFrame (frame : SentFrame) : ConsoleProg Bool := do
  Prog.op (ConsoleOp.setOwner frame)
  let ok ← (frameBatches frame.1 frame.2).foldlM flush true
  Prog.op ConsoleOp.clearOwner
  pure ok

/-- What is done with the mutex taken. -/
def locked {α : Type} (p : ConsoleProg α) : ConsoleProg α := do
  Prog.op ConsoleOp.transportLock
  let v ← p
  Prog.op ConsoleOp.transportUnlock
  pure v

/-- `esp_stdio_log_vfs_write_frame`. -/
def writeFrame (type : UInt8) (payload : Option (List UInt8)) : ConsoleProg EspErr :=
  match payload with
  | none => pure .invalidArg
  | some payload =>
    if transportMaxPayload < payload.length then pure .invalidSize
    else do
      let inside ← Prog.op ConsoleOp.ownerIsSelf
      if inside then pure .fail
      else do
        let ok ← locked (sendFrame (type, payload))
        pure (okErr ok)

/-- The loop of `esp_stdio_log_vfs_write`; each turn takes a byte or more. -/
def writeText : ℕ → List UInt8 → ConsoleProg EspErr
  | 0, _ => pure .ok
  | n + 1, bytes =>
    if bytes = [] then pure .ok
    else do
      let err ← writeFrame frameTypeText (some (bytes.take transportMaxPayload))
      if err ≠ .ok then pure err else writeText n (bytes.drop transportMaxPayload)

/-- `esp_stdio_log_vfs_write`. -/
def write : Option (List UInt8) → ConsoleProg ℤ
  | none => pure (-1)
  | some bytes => do
    let err ← writeText bytes.length bytes
    pure (if err = .ok then bytes.length else -1)

/-- `esp_stdio_log_vfs_add_output` with the mutex taken. -/
def addOutputLocked (path : List UInt8) : ConsoleProg EspErr := do
  let count ← Prog.op ConsoleOp.outputCount
  if count ≥ maxOutputs then pure .noMem
  else do
    let fd ← Prog.op (ConsoleOp.openPath path)
    if 0 ≤ fd then do
      Prog.op (ConsoleOp.pushOutput fd)
      pure .ok
    else pure .ok

/-- `esp_stdio_log_vfs_add_output`. -/
def addOutput : Option (List UInt8) → ConsoleProg EspErr
  | none => pure .invalidArg
  | some path => locked (addOutputLocked path)

/-- One turn of the loop of `esp_stdio_log_vfs_fsync`. -/
def fsyncOutput (result : ℤ) (i : ℕ) : ConsoleProg ℤ := do
  let fd ← Prog.op (ConsoleOp.loadOutput i)
  if 0 ≤ fd then do
    let synced ← Prog.op (ConsoleOp.fsync i)
    pure (if synced ≠ 0 then -1 else result)
  else pure result

def fsyncLocked : ConsoleProg ℤ := do
  let count ← Prog.op ConsoleOp.outputCount
  (List.range count).foldlM fsyncOutput 0

/-- `esp_stdio_log_vfs_fsync`. -/
def fsync : ConsoleProg ℤ := locked fsyncLocked

/-- `esp_stdio_log_vfs_init` behind its outputs. -/
def installVfs : ConsoleProg EspErr := do
  let err ← Prog.op ConsoleOp.registerVfs
  if err ≠ .ok then pure err
  else do
    let out ← Prog.op (ConsoleOp.freopen .stdout)
    if out = false then pure .fail
    else do
      let errStream ← Prog.op (ConsoleOp.freopen .stderr)
      if errStream = false then pure .fail
      else do
        Prog.op ConsoleOp.storeInstalled
        pure .ok

/-- `esp_stdio_log_vfs_init`; `paths` are the consoles of the configuration. -/
def stdioInit (paths : List (List UInt8)) : ConsoleProg EspErr := do
  let installed ← Prog.op ConsoleOp.loadInstalled
  if installed then pure .ok
  else do
    forM paths fun path => do
      let _ ← addOutput (some path)
      pure ()
    installVfs

/-! ### The sink -/

/-- `on9log_esp_vfs_end`. -/
def finishPacket : ConsoleProg Unit := do
  let packet ← Prog.op ConsoleOp.takePacket
  match packet with
  | none => pure ()
  | some data => do
    let _ ← writeFrame frameTypeOn9log (some data)
    pure ()

def sinkCallback : SinkCall → ConsoleProg Unit
  | .startCb header => Prog.op (ConsoleOp.startPacket header)
  | .payloadCb c => Prog.op (ConsoleOp.addPayload c.bytes)
  | .endCb => finishPacket

end EspConsole

/-- The program with the VFS sink: `&s_on9log_esp_vfs_sink` with `&s_on9log_esp_vfs`, its
callbacks, and the consoles. -/
structure ConsoleBuild where
  cfg : Config
  entry : SinkEntry
  callbacks : Sink
  valid : ValidSink entry.sink callbacks
  paths : List (List UInt8)

inductive ConsoleRes where
  | core (v : Res)
  | err (err : EspErr)
  | init (err : EspVfsErr)
  | result (n : ℤ)

namespace EspConsole

variable (b : ConsoleBuild)

/-- The core, with the callbacks of the VFS sink. -/
def perform : (o : Op) → ConsoleProg o.Ret
  | .call e c => if e = b.entry then sinkCallback c else Prog.op (ConsoleOp.core (.call e c))
  | o => Prog.op (ConsoleOp.core o)

abbrev ConsoleScript := Script Call Res ConsoleOp.Ret

/-- `on9log_esp_vfs_init` behind the transport, where `on9log_add_sink` is a call. -/
def installSink : ConsoleScript EspVfsErr := do
  let v ← Script.call (.addSink b.entry.sink b.callbacks b.entry.ctx)
  if v.code ≠ .ok then pure (toEspErr v.code)
  else do
    Script.own (Prog.op ConsoleOp.storeSinkInstalled)
    pure (.esp .ok)

/-- `on9log_esp_vfs_init`. -/
def vfsInit : ConsoleScript EspVfsErr := do
  let installed ← Script.own (Prog.op ConsoleOp.loadSinkInstalled)
  if installed then pure (.esp .ok)
  else if on9logInit ≠ .ok then pure (toEspErr on9logInit)
  else do
    let err ← Script.own (stdioInit b.paths)
    if err ≠ .ok then pure (.esp err) else installSink b

end EspConsole

/-- The functions of the headers and of the VFS. Frames of the core's type come from its sink
alone. -/
inductive ConsoleCall (b : ConsoleBuild) where
  | core (call : Call) (foreign : call.Foreign b.entry.sink)
  | vfsInit
  | stdioInit
  | addOutput (path : Option (List UInt8))
  | writeFrame (type : UInt8) (other : type ≠ frameTypeOn9log) (payload : Option (List UInt8))
  | write (data : Option (List UInt8))
  | fsync

namespace EspConsole

variable (b : ConsoleBuild)

def script : ConsoleCall b → ConsoleScript ConsoleRes
  | .core call _ => do
    let v ← Script.call call
    pure (.core v)
  | .vfsInit => do
    let err ← vfsInit b
    pure (.init err)
  | .stdioInit => do
    let err ← Script.own (stdioInit b.paths)
    pure (.err err)
  | .addOutput path => do
    let err ← Script.own (addOutput path)
    pure (.err err)
  | .writeFrame type _ payload => do
    let err ← Script.own (writeFrame type payload)
    pure (.err err)
  | .write data => do
    let n ← Script.own (write data)
    pure (.result n)
  | .fsync => do
    let n ← Script.own fsync
    pure (.result n)

end EspConsole

/-! ### The machine -/

/-- The first `output_count` of `outputs`, and what each has been given. -/
structure OutputMem where
  fds : List ℤ
  wire : ℕ → List UInt8

namespace OutputMem

variable (m : OutputMem)

/-- An output that is written to. -/
def Open (i : ℕ) : Prop := 0 ≤ m.fds.getD i (-1)

instance (i : ℕ) : Decidable (m.Open i) := inferInstanceAs (Decidable (0 ≤ _))

theorem open_lt {m : OutputMem} {i : ℕ} (h : m.Open i) : i < m.fds.length := by
  by_contra hge
  have hnone : m.fds[i]? = none := List.getElem?_eq_none (by omega)
  unfold Open at h
  rw [List.getD_eq_getElem?_getD, hnone] at h
  exact absurd h (by decide)

def received (i : ℕ) (data : List UInt8) : OutputMem :=
  { m with wire := Function.update m.wire i (m.wire i ++ data) }

end OutputMem

structure ConsoleShared (Tid : Type) where
  core : Shared Tid
  sink : EspVfsState
  sinkInstalled : Bool
  installed : Bool
  mutex : Option Tid
  owner : Option Tid
  outputs : OutputMem

variable {Tid : Type}

def ConsoleShared.init : ConsoleShared Tid :=
  ⟨Shared.init, ⟨false, [], Nat.zero_le _⟩, false, false, none, none, ⟨[], fun _ => []⟩⟩

/-- What a callback does to the buffer of the sink. -/
def EspVfsState.perform (e : EspVfsState) : SinkOp → EspVfsState
  | .start header => e.start (header.getD [])
  | .payload payload => e.append (payload.getD [])
  | .finish => e

/-- What `on9log_esp_vfs_end` finds in the buffer. -/
def EspVfsState.packet (e : EspVfsState) : Option (List UInt8) :=
  if e.overflow then none else some e.data

def consoleStep (cfg : Config) (t : Tid) :
    (o : ConsoleOp) → o.Ret → ConsoleShared Tid → ConsoleShared Tid → Prop
  | .core o, r, s, s' => ∃ core, step cfg t o r s.core core ∧ s' = { s with core := core }
  | .startPacket header, _, s, s' => s' = { s with sink := s.sink.perform (.start header) }
  | .addPayload payload, _, s, s' => s' = { s with sink := s.sink.perform (.payload (some payload)) }
  | .takePacket, r, s, s' => r = s.sink.packet ∧ s' = s
  | .ownerIsSelf, r, s, s' => (r = true ↔ s.owner = some t) ∧ s' = s
  | .transportLock, _, s, s' => s.mutex = none ∧ s' = { s with mutex := some t }
  | .transportUnlock, _, s, s' => s' = { s with mutex := none }
  | .setOwner _, _, s, s' => s' = { s with owner := some t }
  | .clearOwner, _, s, s' => s' = { s with owner := none }
  | .outputCount, n, s, s' => n = s.outputs.fds.length ∧ s' = s
  | .loadOutput i, fd, s, s' => fd = s.outputs.fds.getD i (-1) ∧ s' = s
  | .write i data, n, s, s' =>
    n ≤ data.length ∧ s' = { s with outputs := s.outputs.received i (data.take n.toNat) }
  | .openPath _, _, s, s' => s' = s
  | .pushOutput fd, _, s, s' =>
    s' = { s with outputs := { s.outputs with fds := s.outputs.fds ++ [fd] } }
  | .fsync _, _, s, s' => s' = s
  | .loadInstalled, r, s, s' => r = s.installed ∧ s' = s
  | .storeInstalled, _, s, s' => s' = { s with installed := true }
  | .loadSinkInstalled, r, s, s' => r = s.sinkInstalled ∧ s' = s
  | .storeSinkInstalled, _, s, s' => s' = { s with sinkInstalled := true }
  | .registerVfs, _, s, s' => s' = s
  | .freopen _, _, s, s' => s' = s

variable (Tid) in
def consoleSystem (b : ConsoleBuild) :
    System Tid (ConsoleCall b) ConsoleOp ConsoleOp.Ret ConsoleRes (ConsoleShared Tid) where
  body c := (EspConsole.script b c).expand (performScript (system Tid b.cfg) (EspConsole.perform b))
  step := consoleStep b.cfg
  init := ConsoleShared.init

abbrev ConsoleTrace (Tid : Type) (b : ConsoleBuild) :=
  List (Label Tid (ConsoleCall b) ConsoleOp ConsoleOp.Ret ConsoleRes)

end On9log
