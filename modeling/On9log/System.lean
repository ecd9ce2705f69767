import On9log.Lib.Lock
import On9log.Sinks

/-!
# The core as a system of threads

Any number of tasks and ISRs call the public functions; `step` says which
answers the shared state allows. The emit lock is a mutual-exclusion lock, the
atomic counters count modulo the width of their types, the task clock never
goes backwards; memory, the image ID, the ISR backend and the tag filters may
answer anything at any time.
-/

namespace On9log
open Lib Lib.LittleEndian

inductive Call where
  | write (level : ℕ) (tag format : Ptr) (argTypes : ArgTypes) (args : VaList)
  | writeWithFormatScan (level : ℕ) (tag format : Ptr) (formatScan : Option (List UInt8))
      (argTypes : ArgTypes) (args : VaList)
  | writeWithFormatScanMetadata (level : ℕ) (tag format : Ptr)
      (formatScan : Option (List UInt8)) (argTypes : ArgTypes) (argCount : UInt8)
      (hasDynamicString : Bool) (args : VaList)
  | writeIsr (level : ℕ) (tag format : Ptr) (argTypes : ArgTypes) (args : VaList)
  | writeBuffer (level : ℕ) (tag buffer : Ptr) (bufferLen : ℕ)
  | emitBoot (bootId : UInt32) (reason : UInt8)
  | encodeTimeSync (hasBuf : Bool) (cap : ℕ) (bootId : UInt32)
  | dispatchPacket (packet : Option (List UInt8))
  | addSink (sink : Ptr) (callbacks : Sink) (ctx : Ptr)
  | removeSink (sink ctx : Ptr)

inductive Res where
  | unit
  | flag (b : Bool)
  | err (e : Err)
  | bytes (bs : List UInt8)
  deriving DecidableEq

instance inhabitedRes : Inhabited Res := ⟨.unit⟩

def body (cfg : Config) : Call → Core Res
  | .write level tag format argTypes args => do
    write cfg level tag format argTypes args
    pure .unit
  | .writeWithFormatScan level tag format formatScan argTypes args => do
    writeWithFormatScan cfg level tag format formatScan argTypes args
    pure .unit
  | .writeWithFormatScanMetadata level tag format formatScan argTypes argCount hasDyn args => do
    writeWithFormatScanMetadata cfg level tag format formatScan argTypes argCount hasDyn args
    pure .unit
  | .writeIsr level tag format argTypes args => do
    let ok ← vwriteIsr cfg level tag format argTypes args
    pure (.flag ok)
  | .writeBuffer level tag buffer bufferLen => do
    writeBuffer cfg level tag buffer bufferLen
    pure .unit
  | .emitBoot bootId reason => do
    let e ← emitBoot cfg bootId reason
    pure (.err e)
  | .encodeTimeSync hasBuf cap bootId => do
    let bs ← encodeTimeSync hasBuf cap bootId
    pure (.bytes bs)
  | .dispatchPacket packet => do
    let e ← dispatchPacket cfg packet
    pure (.err e)
  | .addSink sink callbacks ctx => do
    let e ← addSink cfg sink callbacks ctx
    pure (.err e)
  | .removeSink sink ctx => do
    let e ← removeSink cfg sink ctx
    pure (.err e)

/-! ### The machine -/

structure Shared (Tid : Type) where
  emitOwner : Option Tid
  sinks : ℕ → SinkEntry
  seq : ℕ
  dropped : ℕ
  clock : ℕ

variable {Tid : Type}

def Shared.init : Shared Tid := ⟨none, fun _ => SinkEntry.free, 0, 0, 0⟩

def step (cfg : Config) (t : Tid) : (o : Op) → o.Ret → Shared Tid → Shared Tid → Prop
  | .emitLock, _, s, s' => s.emitOwner = none ∧ s' = { s with emitOwner := some t }
  | .emitUnlock, _, s, s' => s' = { s with emitOwner := none }
  | .loadSlot i, slot, s, s' => slot = s.sinks i ∧ s' = s
  | .storeSlot i e, _, s, s' => s' = { s with sinks := Function.update s.sinks i e }
  | .fetchAddSeq, raw, s, s' => raw = s.seq ∧ s' = { s with seq := (s.seq + 1) % 2 ^ cfg.fast16 }
  | .addDropped, _, s, s' => s' = { s with dropped := (s.dropped + 1) % 2 ^ cfg.fast32 }
  | .exchangeDropped, raw, s, s' => raw = s.dropped ∧ s' = { s with dropped := 0 }
  | .timestampMs, now, s, s' => s.clock ≤ now ∧ s' = { s with clock := now }
  | .filterLevelForTag _, _, s, s' => s' = s
  | .isrTimestampMs, _, s, s' => s' = s
  | .memory, _, s, s' => s' = s
  | .imageId, _, s, s' => s' = s
  | .isrReady, _, s, s' => s' = s
  | .isrEnqueuePacket _, _, s, s' => s' = s
  | .stream _, _, s, s' => s' = s
  | .call _ _, _, s, s' => s' = s

variable (Tid) in
def system (cfg : Config) : System Tid Call Op Op.Ret Res (Shared Tid) where
  body := body cfg
  step := step cfg
  init := Shared.init

/-! ### The emit lock -/

variable (Tid) in
def emitLockSpec : LockSpec Tid Op (Shared Tid) where
  isLock | .emitLock => true | _ => false
  isUnlock | .emitUnlock => true | _ => false
  guarded
    | .loadSlot _ => true
    | .storeSlot _ _ => true
    | .fetchAddSeq => true
    | .stream _ => true
    | .call _ _ => true
    | _ => false
  owner := Shared.emitOwner
  lock_ne_unlock o h := by cases o <;> simp_all
  lock_unguarded o h := by cases o <;> simp_all
  unlock_unguarded o h := by cases o <;> simp_all

theorem mutex_emitLock (cfg : Config) : (emitLockSpec Tid).Mutex (system Tid cfg) where
  init := rfl
  lock t o r s s' h hl := by
    cases o
    case emitLock =>
      obtain ⟨h₁, rfl⟩ := h
      exact ⟨h₁, rfl⟩
    all_goals cases hl
  unlock t o r s s' h hu := by
    cases o
    case emitUnlock =>
      obtain rfl := h
      rfl
    all_goals cases hu
  other t o r s s' h hl hu := by
    cases o
    case emitLock => cases hl
    case emitUnlock => cases hu
    case loadSlot => rw [h.2]
    case fetchAddSeq =>
      obtain ⟨-, rfl⟩ := h
      rfl
    case exchangeDropped =>
      obtain ⟨-, rfl⟩ := h
      rfl
    case timestampMs =>
      obtain ⟨-, rfl⟩ := h
      rfl
    all_goals
      obtain rfl := h
      rfl

end On9log
