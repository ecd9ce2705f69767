import On9log.BufferText
import On9log.Lib.Only
import On9log.System
import On9log.TextIsr

/-!
# The plain-text build as a system of threads (on9log.c:536-564, 1199-1255, 1452-2056, 2452-2485)

With `ON9LOG_PLAIN_TEXT` the C library formats a message: `vfprintf` prints into
a `FILE` of the logger's own, whose write function passes the bytes on to the
output that one global cookie points to, the line being written. The cookie, the
`FILE` and its lock belong to the shared state here, and so does the pointer
that `on9log_init` publishes. In what pieces `vfprintf` writes is its own affair.
-/

namespace On9log
open Lib

/-- Where the cookie points, as the thread that reads it sees it: nowhere, to its own line or to
that of another thread. -/
inductive CookieLine where
  | null
  | own
  | other
  deriving DecidableEq

inductive TextOp where
  | core (o : Op)
  | portLock
  | portUnlock
  /-- `s_on9log_printf_stream`; `0` is NULL. -/
  | loadStream
  | storeStream (file : Ptr)
  /-- `funopen` or `fopencookie`. -/
  | openCookie
  | setvbuf (file : Ptr)
  | fclose (file : Ptr)
  | flockfile (file : Ptr)
  | funlockfile (file : Ptr)
  /-- Both fields of `s_on9log_printf_cookie`. -/
  | setCookie
  | clearCookie
  | loadCookie
  /-- `vfprintf` with `fflush`, answered by what they hand to the write function. -/
  | vfprintf (file : Ptr) (format : Text) (args : VaList)
  /-- A call through a cookie that does not point to the caller's line. -/
  | strayOutput (data : Text)

abbrev TextOp.Ret : TextOp → Type
  | .core o => o.Ret
  | .portLock => Unit
  | .portUnlock => Unit
  | .loadStream => Ptr
  | .storeStream _ => Unit
  | .openCookie => Ptr
  | .setvbuf _ => Bool
  | .fclose _ => Unit
  | .flockfile _ => Unit
  | .funlockfile _ => Unit
  | .setCookie => Unit
  | .clearCookie => Unit
  | .loadCookie => CookieLine
  | .vfprintf _ _ _ => List Text
  | .strayOutput _ => Unit

instance TextOp.inhabitedRet (o : TextOp) : Inhabited o.Ret := by
  cases o
  case core o => exact inferInstanceAs (Inhabited o.Ret)
  case loadCookie => exact ⟨.null⟩
  all_goals exact ⟨default⟩

abbrev TextProg := Prog TextOp TextOp.Ret
abbrev TextEv := Event TextOp TextOp.Ret

def Ev.text (e : Ev) : TextEv := ⟨.core e.op, e.ret⟩

/-- A part of the core that the plain-text build has as it is. -/
def onCore {α : Type} (p : Core α) : TextProg α := p.expand fun o => Prog.op (TextOp.core o)

def loadPrintfStream : TextProg Ptr := Prog.op TextOp.loadStream

/-! ### A line whose text is formatted while it is written -/

/-- A formatter: from the filter as it is to the filter behind the body. -/
abbrev TextFormatter := Stream → TextFilter → TextProg TextFilter

/-- `on9log_text_filtered_output` into the stream. -/
def textFilteredOutput (stream : Stream) (filter : TextFilter) (data : Text) :
    TextProg TextFilter := do
  onCore (forM (filteredOutput filter data).2 (textStreamOutput stream))
  pure (filteredOutput filter data).1

def outputPieces (pieces : List Text) : TextFormatter := fun stream filter =>
  pieces.foldlM (textFilteredOutput stream) filter

/-- `on9log_printf_cookie_write`. -/
def printfCookieWrite (stream : Stream) (filter : TextFilter) (data : Text) :
    TextProg TextFilter := do
  let line ← Prog.op TextOp.loadCookie
  if line = .own then textFilteredOutput stream filter data
  else do
    Prog.op (TextOp.strayOutput data)
    pure filter

/-- `on9log_printf_formatter`. -/
def printfFormatter (format : Option CStr) (args : VaList) : TextFormatter :=
  fun stream filter => do
    let file ← loadPrintfStream
    if file = 0 then pure filter
    else do
      Prog.op (TextOp.flockfile file)
      Prog.op TextOp.setCookie
      let pieces ← Prog.op (TextOp.vfprintf file (formatBytes format) args)
      let filter ← pieces.foldlM (printfCookieWrite stream) filter
      Prog.op TextOp.clearCookie
      Prog.op (TextOp.funlockfile file)
      pure filter

/-- `on9log_dispatch_text_line`. -/
def dispatchFormattedLine (cfg : Config) (level : ℕ) (tag : Option CStr) (flags : UInt8)
    (formatter : Option TextFormatter) : TextProg Unit := do
  let stream ← onCore (streamOpen cfg)
  onCore (streamSendNoHeader stream)
  let now ← onCore timestampMs
  let filter ← outputPieces (prefixPieces level (UInt32.ofNat now) tag flags) stream
    { flags := flags }
  let filter ← match formatter with
    | some formatter => formatter stream filter
    | none => pure filter
  let _ ← outputPieces (suffixPieces flags) stream filter
  onCore (streamEnd stream)

/-- `on9log_write_text_with_flags`. -/
def writeFormattedText (cfg : Config) (level : ℕ) (tag : TagArg) (textFlags : UInt8)
    (formatter : Option TextFormatter) : TextProg Unit := do
  let enabled ← onCore (levelEnabled cfg level tag.ptr)
  if enabled then do
    onCore (flushDroppedText cfg)
    dispatchFormattedLine cfg level tag.text textFlags formatter
  else pure ()

/-- `on9log_vwrite`. -/
def vwriteText (cfg : Config) (level : ℕ) (tag : TagArg) (textFlags : UInt8)
    (format : Option CStr) (args : VaList) : TextProg Unit := do
  let file ← loadPrintfStream
  if file = 0 then do
    let enabled ← onCore (levelEnabled cfg level tag.ptr)
    if enabled then onCore addDropped else pure ()
  else writeFormattedText cfg level tag textFlags (some (printfFormatter format args))

/-! ### Initialisation -/

/-- `on9log_init` behind the port lock, with the stream not published yet. -/
def openPrintfStream : TextProg Err := do
  let stream ← Prog.op TextOp.openCookie
  if stream = 0 then do
    Prog.op TextOp.portUnlock
    pure .noMem
  else do
    let unbuffered ← Prog.op (TextOp.setvbuf stream)
    if unbuffered = false then do
      Prog.op (TextOp.fclose stream)
      Prog.op TextOp.portUnlock
      pure .fail
    else do
      Prog.op (TextOp.storeStream stream)
      Prog.op TextOp.portUnlock
      pure .ok

/-- `on9log_init`. -/
def on9logInitText : TextProg Err := do
  let stream ← loadPrintfStream
  if stream ≠ 0 then pure .ok
  else do
    Prog.op TextOp.portLock
    let stream ← loadPrintfStream
    if stream ≠ 0 then do
      Prog.op TextOp.portUnlock
      pure .ok
    else openPrintfStream

/-! ### The other calls -/

/-- `on9log_write_buffer_with_text_flags`; `none` is NULL with a length. The local arrays of the
formatter hold zeros at first. -/
def writeBufferText (cfg : Config) (level : ℕ) (tag : TagArg) (textFlags : UInt8)
    (buffer : Option (List UInt8)) : TextProg Unit := do
  let enabled ← onCore (levelEnabled cfg level tag.ptr)
  if enabled then
    match buffer with
    | none => onCore addDropped
    | some bytes =>
      if bytes.length > uint32Max then onCore addDropped
      else
        let pieces := bufferTextFormatter (List.replicate digitsSize 0)
          (List.replicate encodedSize 0) bytes
        writeFormattedText cfg level tag textFlags (some (outputPieces (pieces.getD [])))
  else pure ()

/-- `on9log_boot_text_formatter`. -/
def bootTextFormatter (bootId : UInt32) (reason : UInt8) (id : List UInt8) (idKind : UInt8) :
    List Text :=
  [chars ['b', 'o', 'o', 't', ' ', 'i', 'd', '='], textU32 bootId.toNat,
    chars [' ', 'r', 'e', 's', 'e', 't', ' ', 'r', 'e', 'a', 's', 'o', 'n', '='],
    textU32 reason.toNat, chars [' ', 'i', 'm', 'a', 'g', 'e', ' ', 'i', 'd', '=']] ++
    if id.length = 0 then [chars ['n', 'o', 'n', 'e']]
    else [textU32 idKind.toNat, [chr ':']] ++
      id.map fun byte => [hexDigit (byte.toNat / 16), hexDigit (byte.toNat % 16)]

/-- `on9log_emit_boot`. -/
def emitBootText (cfg : Config) (bootId : UInt32) (reason : UInt8) : TextProg Err := do
  let image ← onCore imageIdOrNone
  dispatchFormattedLine cfg levelInfo (some on9logTag) textDefaultFlags
    (some (outputPieces (bootTextFormatter bootId reason image.1 image.2)))
  pure .ok

/-- The functions of `on9log.h`; those without flags pass the default ones. -/
inductive TextCall where
  | init
  | write (level : ℕ) (tag : TagArg) (textFlags : UInt8) (format : Option CStr) (args : VaList)
  | writeText (level : ℕ) (tag : TagArg) (textFlags : UInt8) (formatter : Option (List Text))
  | writeBuffer (level : ℕ) (tag : TagArg) (textFlags : UInt8) (buffer : Option (List UInt8))
  | emitBoot (bootId : UInt32) (reason : UInt8)
  | writeIsr (level : ℕ) (tag : TagArg) (textFlags : UInt8) (format : Option CStr)
      (argTypes : ArgTypes) (args : VaList)
  | writeTextIsr (level : ℕ) (tag : TagArg) (textFlags : UInt8) (text : Option Text)
  | dispatchPacket (packet : Option Text)
  | addSink (sink : Ptr) (callbacks : Sink) (ctx : Ptr)
  | removeSink (sink ctx : Ptr)

def textBody (cfg : Config) (f : Formatters) : TextCall → TextProg Res
  | .init => do
    let e ← on9logInitText
    pure (.err e)
  | .write level tag textFlags format args => do
    vwriteText cfg level tag textFlags format args
    pure .unit
  | .writeText level tag textFlags formatter => do
    writeFormattedText cfg level tag textFlags (formatter.map outputPieces)
    pure .unit
  | .writeBuffer level tag textFlags buffer => do
    writeBufferText cfg level tag textFlags buffer
    pure .unit
  | .emitBoot bootId reason => do
    let e ← emitBootText cfg bootId reason
    pure (.err e)
  | .writeIsr level tag textFlags format argTypes args => do
    let queued ← onCore (vwriteTextIsr cfg f level tag textFlags format argTypes args)
    pure (.flag queued)
  | .writeTextIsr level tag textFlags text => do
    let queued ← onCore (writeTextIsrWithFlags cfg level tag textFlags text)
    pure (.flag queued)
  | .dispatchPacket packet => do
    let e ← onCore (dispatchTextPacket cfg packet)
    pure (.err e)
  | .addSink sink callbacks ctx => do
    let e ← onCore (addSink cfg sink callbacks ctx)
    pure (.err e)
  | .removeSink sink ctx => do
    let e ← onCore (removeSink cfg sink ctx)
    pure (.err e)

/-! ### The machine -/

structure TextShared (Tid : Type) where
  core : Shared Tid
  portOwner : Option Tid
  /-- `s_on9log_printf_stream`. -/
  stream : Ptr
  /-- The `FILE`s that are open. -/
  files : List Ptr
  fileOwner : Ptr → Option Tid
  /-- Whose line the cookie points to. -/
  cookie : Option Tid

variable {Tid : Type}

def TextShared.init : TextShared Tid := ⟨Shared.init, none, 0, [], fun _ => none, none⟩

/-- `line` is what `t` sees of a cookie. -/
def SeesCookie (t : Tid) (cookie : Option Tid) : CookieLine → Prop
  | .null => cookie = none
  | .own => cookie = some t
  | .other => ∃ u, u ≠ t ∧ cookie = some u

def textStep (cfg : Config) (t : Tid) :
    (o : TextOp) → o.Ret → TextShared Tid → TextShared Tid → Prop
  | .core o, r, s, s' => ∃ core, step cfg t o r s.core core ∧ s' = { s with core := core }
  | .portLock, _, s, s' => s.portOwner = none ∧ s' = { s with portOwner := some t }
  | .portUnlock, _, s, s' => s' = { s with portOwner := none }
  | .loadStream, file, s, s' => file = s.stream ∧ s' = s
  | .storeStream file, _, s, s' => s' = { s with stream := file }
  | .openCookie, file, s, s' =>
    (file = 0 ∧ s' = s) ∨
      (file ≠ 0 ∧ file ∉ s.files ∧ s' = { s with files := file :: s.files })
  | .setvbuf _, _, s, s' => s' = s
  | .fclose file, _, s, s' => s' = { s with files := s.files.erase file }
  | .flockfile file, _, s, s' =>
    s.fileOwner file = none ∧
      s' = { s with fileOwner := Function.update s.fileOwner file (some t) }
  | .funlockfile file, _, s, s' =>
    s' = { s with fileOwner := Function.update s.fileOwner file none }
  | .setCookie, _, s, s' => s' = { s with cookie := some t }
  | .clearCookie, _, s, s' => s' = { s with cookie := none }
  | .loadCookie, line, s, s' => SeesCookie t s.cookie line ∧ s' = s
  | .vfprintf _ _ _, _, s, s' => s' = s
  | .strayOutput _, _, s, s' => s' = s

variable (Tid) in
def textSystem (cfg : Config) (f : Formatters) :
    System Tid TextCall TextOp TextOp.Ret Res (TextShared Tid) where
  body := textBody cfg f
  step := textStep cfg
  init := TextShared.init

abbrev TextTrace (Tid : Type) := List (Label Tid TextCall TextOp TextOp.Ret Res)

/-! ### The emit lock -/

variable (Tid) in
/-- In this build the task clock is read under the lock as well. -/
def textLockSpec : LockSpec Tid TextOp (TextShared Tid) where
  isLock | .core .emitLock => true | _ => false
  isUnlock | .core .emitUnlock => true | _ => false
  guarded
    | .core .timestampMs => true
    | .core o => (emitLockSpec Tid).guarded o
    | .flockfile _ => true
    | .funlockfile _ => true
    | .setCookie => true
    | .clearCookie => true
    | .loadCookie => true
    | .vfprintf _ _ _ => true
    | .strayOutput _ => true
    | _ => false
  owner s := s.core.emitOwner
  lock_ne_unlock o h := by
    cases o
    case core o => cases o <;> simp_all
    all_goals cases h
  lock_unguarded o h := by
    cases o
    case core o => cases o <;> simp_all [emitLockSpec]
    all_goals cases h
  unlock_unguarded o h := by
    cases o
    case core o => cases o <;> simp_all [emitLockSpec]
    all_goals cases h

theorem mutex_textLock (cfg : Config) (f : Formatters) :
    (textLockSpec Tid).Mutex (textSystem Tid cfg f) where
  init := rfl
  lock t o r s s' h hl := by
    cases o
    case core o =>
      obtain ⟨core, hs, rfl⟩ := h
      refine (mutex_emitLock cfg).lock t o r s.core core hs ?_
      cases o <;> first | rfl | cases hl
    all_goals cases hl
  unlock t o r s s' h hu := by
    cases o
    case core o =>
      obtain ⟨core, hs, rfl⟩ := h
      refine (mutex_emitLock cfg).unlock t o r s.core core hs ?_
      cases o <;> first | rfl | cases hu
    all_goals cases hu
  other t o r s s' h hl hu := by
    cases o
    case core o =>
      obtain ⟨core, hs, rfl⟩ := h
      refine (mutex_emitLock cfg).other t o r s.core core hs ?_ ?_
      · cases o <;> first | rfl | cases hl
      · cases o <;> first | rfl | cases hu
    case openCookie =>
      rcases h with ⟨-, rfl⟩ | ⟨-, -, rfl⟩
      · rfl
      · rfl
    case portLock =>
      obtain ⟨-, rfl⟩ := h
      rfl
    case loadStream => rw [h.2]
    case flockfile =>
      obtain ⟨-, rfl⟩ := h
      rfl
    case loadCookie => rw [h.2]
    all_goals
      obtain rfl := h
      rfl

/-! ### Where the calls go through the core -/

theorem path_onCore {α : Type} {p : Core α} {es : List TextEv} {v : α}
    (h : (onCore p).Path es v) : ∃ es₀, p.Path es₀ v ∧ es = es₀.map Ev.text := by
  obtain ⟨es₀, hp, hex⟩ := Prog.path_expand h
  refine ⟨es₀, hp, ?_⟩
  clear h hp
  induction hex with
  | nil => rfl
  | cons e hb _ ih =>
    rw [(Prog.path_op _ _ _).mp hb, ih, List.map_cons]
    rfl

theorem onCore_bind {α β : Type} (p : Core α) (k : α → Core β) :
    onCore (p >>= k) = onCore p >>= fun a => onCore (k a) := by
  induction p with
  | done a => rfl
  | step o q ih => exact congrArg (Prog.step (TextOp.core o)) (funext ih)

theorem onCore_pure {α : Type} (a : α) : onCore (pure a : Core α) = pure a := rfl

theorem onCore_ite {α : Type} (c : Prop) [Decidable c] (p q : Core α) :
    onCore (if c then p else q) = if c then onCore p else onCore q := by
  by_cases h : c
  · rw [if_pos h, if_pos h]
  · rw [if_neg h, if_neg h]

theorem filterPieces_append (filter : TextFilter) (a b : List Text) :
    filterPieces filter (a ++ b) =
      ((filterPieces (filterPieces filter a).1 b).1,
        (filterPieces filter a).2 ++ (filterPieces (filterPieces filter a).1 b).2) := by
  induction a generalizing filter with
  | nil => rfl
  | cons piece a ih =>
    simp only [List.cons_append, filterPieces, ih, List.append_assoc]

theorem forM_append_core (stream : Stream) (a b : List Text) :
    (forM (a ++ b) (textStreamOutput stream) : Core PUnit) =
      forM a (textStreamOutput stream) >>= fun _ => forM b (textStreamOutput stream) := by
  induction a with
  | nil => rfl
  | cons piece a ih =>
    rw [List.cons_append, List.forM_cons, List.forM_cons, ih, LawfulMonad.bind_assoc]

/-- Pieces that are known go through the filter one after another. -/
theorem outputPieces_eq (pieces : List Text) (stream : Stream) (filter : TextFilter) :
    outputPieces pieces stream filter = (do
      onCore (forM (filterPieces filter pieces).2 (textStreamOutput stream))
      pure (filterPieces filter pieces).1) := by
  induction pieces generalizing filter with
  | nil => rfl
  | cons piece pieces ih =>
    have hrest := ih (filteredOutput filter piece).1
    unfold outputPieces at hrest ⊢
    rw [List.foldlM_cons, filterPieces, forM_append_core, onCore_bind, textFilteredOutput]
    simp only [bind_assoc, pure_bind, hrest]

/-- A formatter that only hands over pieces writes the line of the core. -/
theorem dispatchFormattedLine_pieces (cfg : Config) (level : ℕ) (tag : Option CStr)
    (flags : UInt8) (formatter : Option (List Text)) :
    dispatchFormattedLine cfg level tag flags (formatter.map outputPieces) =
      onCore (dispatchTextLine cfg level tag flags formatter) := by
  unfold dispatchFormattedLine dispatchTextLine
  simp only [onCore_bind]
  refine congrArg _ (funext fun stream => congrArg _ (funext fun _ => congrArg _
    (funext fun now => ?_)))
  have hchunks : lineChunks level (UInt32.ofNat now) tag flags (formatter.getD []) =
      filterLine flags (linePieces level (UInt32.ofNat now) tag flags (formatter.getD [])) := rfl
  rw [hchunks, filterLine, linePieces, filterPieces_append, filterPieces_append, forM_append_core,
    forM_append_core, onCore_bind, onCore_bind]
  cases formatter with
  | none => simp only [Option.map_none, Option.getD_none, outputPieces_eq, bind_assoc, pure_bind,
      filterPieces, List.forM_nil, onCore_pure]
  | some pieces => simp only [Option.map_some, Option.getD_some, outputPieces_eq, bind_assoc,
      pure_bind]

theorem writeFormattedText_pieces (cfg : Config) (level : ℕ) (tag : TagArg) (textFlags : UInt8)
    (formatter : Option (List Text)) :
    writeFormattedText cfg level tag textFlags (formatter.map outputPieces) =
      onCore (writeTextWithFlags cfg level tag textFlags formatter) := by
  unfold writeFormattedText writeTextWithFlags
  simp only [onCore_bind, onCore_ite, onCore_pure, dispatchFormattedLine_pieces]

end On9log
