import On9log.Lib.Reach
import On9log.VfsTransport

/-!
# The VFS transport, one access at a time (esp_stdio_log_vfs.c:81-174, 244-293, 409-654)

Tasks call the transport in any order, and each access to its variables, each
operation on its mutex and each call of a driver is a step of its own. Before the
scheduler runs there is one context without a task; what `xTaskGetCurrentTaskHandle`
returns there is `handle`, `NULL` until a task is created, and the mutex is left alone.
A driver may call `esp_stdio_log_vfs_write_frame` or
`esp_stdio_log_vfs_raw_stream_begin` again before it returns, so a context has a
stack of calls, and what it knows between two steps is the `TransportPc` of each.
The mutex exists from the beginning; its static storage cannot fail.

`streaming`, `current` and `finished` are no variables of the program: they remember
who has a raw stream open, what is on its way to the outputs, and what went before.
-/

namespace On9log
open Lib

/-- `ESP_STDIO_LOG_VFS_MAX_OUTPUTS`. -/
def maxOutputs : ℕ := 3

inductive TransportCall where
  | writeFrame (type : UInt8) (payload : Option (List UInt8))
  | rawStreamBegin
  | rawStreamWrite (data : Option (List UInt8))
  | rawStreamEnd
  | addOutput (path : Option (List UInt8))
  | fsync
  | write (data : Option (List UInt8))

/-- The calls a driver makes before it returns. -/
def TransportCall.reenters : TransportCall → Bool
  | .writeFrame _ _ => true
  | .rawStreamBegin => true
  | _ => false

/-! ### What is sent -/

inductive RecordContent where
  | frame (type : UInt8) (payload : List UInt8)
  | stream (chunks : List (List UInt8))

def RecordContent.bytes : RecordContent → List UInt8
  | .frame type payload => frameBytes type payload
  | .stream chunks => chunks.flatten

/-- A frame or a raw stream, who sends it, and the outputs there were when it began. -/
structure SentRecord (Tid : Type) where
  sender : Option Tid
  fds : List ℤ
  content : RecordContent

namespace SentRecord

variable {Tid : Type} (r : SentRecord Tid)

/-- What output `i` gets of it. -/
def outputBytes (i : ℕ) : List UInt8 := if 0 ≤ r.fds.getD i (-1) then r.content.bytes else []

/-- One more call of `esp_stdio_log_vfs_raw_stream_write`. -/
def withChunk (data : List UInt8) : SentRecord Tid :=
  match r.content with
  | .frame _ _ => r
  | .stream chunks => { r with content := .stream (chunks ++ [data]) }

end SentRecord

/-! ### Memory -/

structure TransportMem (Tid : Type) where
  started : Bool
  handle : Option Tid
  mutex : Option Tid
  owner : Option Tid
  outputs : ℕ → ℤ
  outputCount : ℕ
  wire : ℕ → List UInt8
  streaming : Option Tid → Bool
  current : Option (SentRecord Tid)
  finished : List (SentRecord Tid)

namespace TransportMem

variable {Tid : Type} (m : TransportMem Tid)

/-- `xTaskGetCurrentTaskHandle`. -/
def self : Option Tid → Option Tid
  | none => m.handle
  | some t => some t

def fds : List ℤ := (List.range m.outputCount).map m.outputs

/-- `esp_stdio_log_vfs_transport_lock`; `none` while another task has the mutex, or this one. -/
def lock (c : Option Tid) : Option (TransportMem Tid) :=
  if m.started = false then some m
  else if m.mutex.isNone then some { m with mutex := c }
  else none

/-- `esp_stdio_log_vfs_transport_unlock`. -/
def unlock : TransportMem Tid := if m.started = false then m else { m with mutex := none }

/-- `s_transport_owner` is set for what is about to be sent. -/
def own (c : Option Tid) (content : RecordContent) : TransportMem Tid :=
  { m with owner := m.self c, current := some ⟨c, m.fds, content⟩ }

/-- `s_transport_owner` is cleared behind what was sent. -/
def disown : TransportMem Tid :=
  { m with owner := none, current := none, finished := m.finished ++ m.current.toList }

def received (i : ℕ) (data : List UInt8) : TransportMem Tid :=
  { m with wire := Function.update m.wire i (m.wire i ++ data) }

def withChunk (data : List UInt8) : TransportMem Tid :=
  { m with current := m.current.map (·.withChunk data) }

variable [DecidableEq Tid]

def stream (c : Option Tid) (opened : Bool) : TransportMem Tid :=
  { m with streaming := Function.update m.streaming c opened }

theorem stream_streaming (c : Option Tid) (opened : Bool) :
    (m.stream c opened).streaming c = opened := by
  unfold stream
  exact Function.update_self _ _ _

end TransportMem

/-! ### Calls in progress -/

/-- What the loop over the outputs is a part of. -/
inductive FlushFor where
  | frame
  | raw
  deriving DecidableEq

/-- Where the loop over the outputs is: the batch it writes and those that come after
it, the output, and `ok`. -/
structure Flush where
  sends : FlushFor
  batches : List (List UInt8)
  i : ℕ
  ok : Bool

/-- The access a call does next, or the call inside it that it waits for. -/
inductive TransportPc where
  | frameGuard (type : UInt8) (payload : List UInt8)
  | frameLock (type : UInt8) (payload : List UInt8)
  | frameOwner (type : UInt8) (payload : List UInt8)
  | frameClear (ok : Bool)
  | frameUnlock (ok : Bool)
  | outputCount (f : Flush)
  | outputLoad (f : Flush)
  | outputWrite (f : Flush) (data : List UInt8)
  | beginGuard
  | beginLock
  | beginOwner
  | rawOwner (data : List UInt8)
  | endOwner
  | endClear
  | endUnlock
  | addLock (path : List UInt8)
  | addCheck (path : List UInt8)
  | addOpen (path : List UInt8)
  | addCount (fd : ℤ)
  | addStore (i : ℕ) (fd : ℤ)
  | addUnlock (err : EspErr)
  | syncLock
  | syncCount (result : ℤ) (i : ℕ)
  | syncLoad (result : ℤ) (i : ℕ)
  | syncCall (result : ℤ) (i : ℕ)
  | syncUnlock (result : ℤ)
  | textWait (rest : List UInt8) (size : ℕ)
  | plainBegin (bytes : List UInt8)
  | plainWrite (size : ℕ)
  | plainEnd (writeErr : EspErr) (size : ℕ)
  | returned (err : EspErr)
  | finished (result : ℤ)

def okErr (ok : Bool) : EspErr := if ok then .ok else .fail

def FlushFor.done (ok : Bool) : FlushFor → TransportPc
  | .frame => .frameClear ok
  | .raw => .returned (okErr ok)

namespace Flush

def start (sends : FlushFor) : List (List UInt8) → TransportPc
  | [] => sends.done true
  | batches => .outputCount ⟨sends, batches, 0, true⟩

variable (f : Flush)

def nextOutput : TransportPc := .outputCount { f with i := f.i + 1 }

def nextBatch : TransportPc :=
  match f.batches.tail with
  | [] => f.sends.done f.ok
  | batches => .outputCount { f with batches := batches, i := 0 }

/-- `esp_stdio_log_vfs_write_all` with `data` left to write. -/
def writeAll : List UInt8 → TransportPc
  | [] => f.nextOutput
  | data => .outputWrite f data

end Flush

/-- One step of a call; `reply` is what the driver answers, where one is called. -/
def pcStep {Tid : Type} [DecidableEq Tid] (c : Option Tid) (reply : WriteReply)
    (m : TransportMem Tid) : TransportPc → Option (TransportMem Tid × TransportPc)
  | .frameGuard type payload =>
    some (m, if m.owner = m.self c then .returned .fail else .frameLock type payload)
  | .frameLock type payload => (m.lock c).map fun m => (m, .frameOwner type payload)
  | .frameOwner type payload =>
    some (m.own c (.frame type payload), Flush.start .frame (frameBatches type payload))
  | .outputCount f =>
    some (m, if f.i < m.outputCount then .outputLoad f else f.nextBatch)
  | .outputLoad f =>
    some (m, if 0 ≤ m.outputs f.i then f.writeAll (f.batches.headD []) else f.nextOutput)
  | .outputWrite f data =>
    if reply.Interrupted then some (m, .outputWrite f data)
    else if reply.written ≤ 0 then some (m, { f with ok := false }.nextOutput)
    else some (m.received f.i (data.take reply.written.toNat),
      f.writeAll (data.drop reply.written.toNat))
  | .frameClear ok => some (m.disown, .frameUnlock ok)
  | .frameUnlock ok => some (m.unlock, .returned (okErr ok))
  | .beginGuard => some (m, if m.owner = m.self c then .returned .fail else .beginLock)
  | .beginLock => (m.lock c).map fun m => (m, .beginOwner)
  | .beginOwner => some ((m.own c (.stream [])).stream c true, .returned .ok)
  | .rawOwner data =>
    if m.owner ≠ m.self c then some (m, .returned .invalidState)
    else some (m.withChunk data, Flush.start .raw [data])
  | .endOwner => some (m, if m.owner ≠ m.self c then .returned .invalidState else .endClear)
  | .endClear => some (m.disown.stream c false, .endUnlock)
  | .endUnlock => some (m.unlock, .returned .ok)
  | .addLock path => (m.lock c).map fun m => (m, .addCheck path)
  | .addCheck path =>
    some (m, if m.outputCount ≥ maxOutputs then .addUnlock .noMem else .addOpen path)
  | .addOpen _ =>
    some (m, if 0 ≤ reply.written then .addCount reply.written else .addUnlock .ok)
  | .addCount fd =>
    some ({ m with outputCount := m.outputCount + 1 }, .addStore m.outputCount fd)
  | .addStore i fd =>
    some ({ m with outputs := Function.update m.outputs i fd }, .addUnlock .ok)
  | .addUnlock err => some (m.unlock, .returned err)
  | .syncLock => (m.lock c).map fun m => (m, .syncCount 0 0)
  | .syncCount result i =>
    some (m, if i < m.outputCount then .syncLoad result i else .syncUnlock result)
  | .syncLoad result i =>
    some (m, if 0 ≤ m.outputs i then .syncCall result i else .syncCount result (i + 1))
  | .syncCall result i =>
    some (m, .syncCount (if reply.written ≠ 0 then -1 else result) (i + 1))
  | .syncUnlock result => some (m.unlock, .finished result)
  | .textWait _ _ | .plainBegin _ | .plainWrite _ | .plainEnd _ _ => none
  | .returned _ | .finished _ => none

/-- `esp_stdio_log_vfs_write_frame` up to its guard. -/
def startFrame (type : UInt8) (payload : List UInt8) : TransportPc :=
  if transportMaxPayload < payload.length then .returned .invalidSize
  else .frameGuard type payload

/-- The loop of `esp_stdio_log_vfs_write` up to the next frame. -/
def textFrames (size : ℕ) : List UInt8 → List TransportPc
  | [] => [.finished size]
  | bytes =>
    [startFrame frameTypeText (bytes.take transportMaxPayload),
      .textWait (bytes.drop transportMaxPayload) size]

/-- How a call begins; `plainText` is `ON9LOG_PLAIN_TEXT`. -/
def TransportCall.start (plainText : Bool) : TransportCall → List TransportPc
  | .writeFrame _ none => [.returned .invalidArg]
  | .writeFrame type (some payload) => [startFrame type payload]
  | .rawStreamBegin => [.beginGuard]
  | .rawStreamWrite none => [.returned .invalidArg]
  | .rawStreamWrite (some data) => [.rawOwner data]
  | .rawStreamEnd => [.endOwner]
  | .addOutput none => [.returned .invalidArg]
  | .addOutput (some path) => [.addLock path]
  | .fsync => [.syncLock]
  | .write none => [.finished (-1)]
  | .write (some bytes) =>
    if plainText then [.beginGuard, .plainBegin bytes] else textFrames bytes.length bytes

/-- How a caller goes on when the call inside it returned `err`. -/
def TransportPc.resume (err : EspErr) : TransportPc → List TransportPc
  | .textWait rest size => if err ≠ .ok then [.finished (-1)] else textFrames size rest
  | .plainBegin bytes =>
    if err ≠ .ok then [.finished (-1)] else [.rawOwner bytes, .plainWrite bytes.length]
  | .plainWrite size => [.endOwner, .plainEnd err size]
  | .plainEnd writeErr size =>
    [.finished (if writeErr = .ok ∧ err = .ok then size else -1)]
  | pc => [pc]

/-- Drivers are called at these. -/
def TransportPc.callsOut : TransportPc → Bool
  | .outputWrite _ _ => true
  | .addOpen _ => true
  | .syncCall _ _ => true
  | _ => false

/-! ### Runs -/

structure TransportState (Tid : Type) where
  mem : TransportMem Tid
  stack : Option Tid → List TransportPc

inductive TransportAction (Tid : Type) where
  | call (call : TransportCall)
  | reenter (call : TransportCall)
  | go (reply : WriteReply)
  | createTask (t : Tid)
  | startScheduler

variable {Tid : Type} [DecidableEq Tid]

/-- What a context makes of the memory, and what becomes of its calls. -/
def contextStep (plainText : Bool) (c : Option Tid) (m : TransportMem Tid) :
    TransportAction Tid → List TransportPc → Option (TransportMem Tid × List TransportPc)
  | .call call, [] => some (m, call.start plainText)
  | .reenter call, pc :: below =>
    if pc.callsOut ∧ call.reenters then some (m, call.start plainText ++ pc :: below) else none
  | .go _, .finished _ :: below => some (m, below)
  | .go _, [.returned _] => some (m, [])
  | .go _, .returned err :: pc :: below => some (m, pc.resume err ++ below)
  | .go reply, pc :: below => (pcStep c reply m pc).map fun r => (r.1, r.2 :: below)
  | .createTask t, [] => if c = none then some ({ m with handle := some t }, []) else none
  | .startScheduler, [] => if c = none then some ({ m with started := true }, []) else none
  | _, _ => none

/-- Before anything was called. -/
def TransportState.init : TransportState Tid where
  mem := {
    started := false
    handle := none
    mutex := none
    owner := none
    outputs := fun _ => -1
    outputCount := 0
    wire := fun _ => []
    streaming := fun _ => false
    current := none
    finished := [] }
  stack _ := []

/-- Tasks run once the scheduler does, and what ran before it does not come back. -/
def TransportState.step (plainText : Bool) (c : Option Tid) (a : TransportAction Tid)
    (s : TransportState Tid) : Option (TransportState Tid) :=
  if c.isSome = s.mem.started then
    (contextStep plainText c s.mem a (s.stack c)).map fun r =>
      ⟨r.1, Function.update s.stack c r.2⟩
  else none

end On9log
