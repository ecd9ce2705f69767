import On9log.EspVfs
import On9log.FrameDecode
import On9log.Progress
import On9log.SlideLine
import On9log.UnixRefines

/-!
# What a reader of the stream finds (on9log_unix_stdio.c:28-183)

The bytes on the stream are made by the callbacks in the order the core makes
them, with the line of the image printed anywhere in between. Read back by
`decodeFrames` they are the packets the sink was registered for, as far as a
frame has room for them.
-/

namespace On9log
open Lib

/-- What goes to the stream or into the state of the sink. -/
abbrev StdioOp := SinkOp ⊕ Text

/-- What the sink is given of a packet. -/
def SinkPacket.sinkOps (p : SinkPacket) : List SinkOp :=
  .start p.header :: p.chunks.map .payload ++ [.finish]

namespace StdioState

variable (fputc : ℕ → Bool)

def perform (s : StdioState) : StdioOp → StdioState
  | .inl (.start header) => s.start header
  | .inl (.payload payload) => s.payload payload
  | .inl .finish => s.finish fputc
  | .inr text => s.printText fputc text

/-- The callbacks among the operations. -/
def callbacks (ops : List StdioOp) : List SinkOp := ops.filterMap Sum.getLeft?

/-- What is printed between the callbacks. -/
def printed (ops : List StdioOp) : List Text := ops.filterMap Sum.getRight?

variable {fputc} {s : StdioState} {ops : List StdioOp}

theorem foldl_writeRaw_dropFrame (bytes : List UInt8) :
    (bytes.foldl (writeRaw fputc) s).dropFrame = s.dropFrame := by
  induction bytes generalizing s with
  | nil => rfl
  | cons byte bytes ih =>
    rw [List.foldl_cons, ih]
    unfold writeRaw
    split_ifs <;> rfl

theorem wrote_printText (hputs : ∀ n, fputc n = true) (text : Text) :
    (s.printText fputc text).stream = s.stream ++ text ∧
      (s.printText fputc text).writeFailed = s.writeFailed ∧
      (s.printText fputc text).dropFrame = s.dropFrame ∧
      (s.printText fputc text).framePayload = s.framePayload := by
  have h := foldl_writeRaw_ok (s := { s with writeFailed := false }) hputs rfl text
  exact ⟨h.stream, rfl, foldl_writeRaw_dropFrame text, h.framePayload⟩

theorem Collected.print {stream : List UInt8} {content : Option (List UInt8)}
    (hputs : ∀ n, fputc n = true) (h : s.Collected stream content) (text : Text) :
    (s.printText fputc text).Collected (stream ++ text) content := by
  obtain ⟨hstream, hok, hdrop, hpay⟩ := wrote_printText (s := s) hputs text
  refine ⟨?_, hok.trans h.ok, hdrop.trans h.drop, fun bytes hb => ?_⟩
  · rw [hstream, h.stream]
  · rw [hpay]
    exact h.framePayload bytes hb

/-- Text alone. -/
theorem perform_text (hputs : ∀ n, fputc n = true) (hok : s.writeFailed = false)
    (hops : callbacks ops = []) :
    (ops.foldl (perform fputc) s).stream = s.stream ++ (printed ops).flatten ∧
      (ops.foldl (perform fputc) s).writeFailed = false := by
  induction ops generalizing s with
  | nil => exact ⟨(List.append_nil _).symm, hok⟩
  | cons op ops ih =>
    cases op with
    | inl op => cases hops
    | inr text =>
      obtain ⟨hstream, hok', -, -⟩ := wrote_printText (s := s) hputs text
      obtain ⟨hrest, hok''⟩ := ih (s := s.printText fputc text) (hok'.trans hok) hops
      refine ⟨?_, hok''⟩
      show (ops.foldl (perform fputc) (s.printText fputc text)).stream = _
      rw [hrest, hstream, List.append_assoc]
      rfl

/-- The payload of a packet, with text in between. -/
theorem Collected.perform {stream : List UInt8} {content : Option (List UInt8)}
    (hputs : ∀ n, fputc n = true) (h : s.Collected stream content)
    {chunks : List (Option (List UInt8))} (hops : callbacks ops = chunks.map .payload) :
    (ops.foldl (StdioState.perform fputc) s).Collected (stream ++ (printed ops).flatten)
      (chunks.foldl addChunk content) := by
  induction ops generalizing s stream content chunks with
  | nil =>
    obtain rfl := List.map_eq_nil_iff.mp hops.symm
    rw [show (printed ([] : List StdioOp)).flatten = [] from rfl, List.append_nil]
    exact h
  | cons op ops ih =>
    cases op with
    | inr text =>
      have hrest := ih (h.print hputs text) hops
      rw [List.append_assoc] at hrest
      exact hrest
    | inl op =>
      obtain ⟨chunk, rest, rfl, rfl, hrest⟩ := List.map_eq_cons_iff.mp hops.symm
      exact ih (h.payload chunk) hrest.symm

theorem finish_keeps_ok (hputs : ∀ n, fputc n = true) (hok : s.writeFailed = false) :
    (s.finish fputc).writeFailed = false := by
  cases hdrop : s.dropFrame with
  | true => rwa [finish_drop fputc s hdrop]
  | false =>
    obtain ⟨crc, heq⟩ := finish_eq fputc s hdrop
    rw [heq]
    exact (foldl_writeRaw_ok hputs hok _).ok

/-- The operations bring the packets `kept` to the stream, and text. -/
structure Puts (fputc : ℕ → Bool) (s : StdioState) (ops : List StdioOp)
    (kept : List (List UInt8)) : Prop where
  ok : (ops.foldl (StdioState.perform fputc) s).writeFailed = false
  items : ∃ items : List StreamItem, items.filterMap StreamItem.kept = kept ∧
    (∀ bytes, .text bytes ∈ items → bytes ∈ printed ops) ∧
    (ops.foldl (StdioState.perform fputc) s).stream = s.stream ++ items.flatMap StreamItem.bytes

theorem Puts.append {ops₁ ops₂ : List StdioOp} {kept₁ kept₂ : List (List UInt8)}
    (h₁ : Puts fputc s ops₁ kept₁)
    (h₂ : Puts fputc (ops₁.foldl (StdioState.perform fputc) s) ops₂ kept₂) :
    Puts fputc s (ops₁ ++ ops₂) (kept₁ ++ kept₂) := by
  obtain ⟨items₁, hkept₁, htext₁, hstream₁⟩ := h₁.items
  obtain ⟨items₂, hkept₂, htext₂, hstream₂⟩ := h₂.items
  refine ⟨?_, items₁ ++ items₂, ?_, fun bytes hmem => ?_, ?_⟩
  · rw [List.foldl_append]
    exact h₂.ok
  · rw [List.filterMap_append, hkept₁, hkept₂]
  · unfold printed
    rw [List.filterMap_append]
    rcases List.mem_append.mp hmem with hmem | hmem
    · exact List.mem_append_left _ (htext₁ bytes hmem)
    · exact List.mem_append_right _ (htext₂ bytes hmem)
  · rw [List.foldl_append, hstream₂, hstream₁, List.flatMap_append, List.append_assoc]

theorem bytes_texts (texts : List Text) :
    (texts.map StreamItem.text).flatMap StreamItem.bytes = texts.flatten := by
  induction texts with
  | nil => rfl
  | cons text texts ih =>
    rw [List.map_cons, List.flatMap_cons, ih]
    rfl

theorem kept_texts (texts : List Text) :
    (texts.map StreamItem.text).filterMap StreamItem.kept = [] := by
  induction texts with
  | nil => rfl
  | cons text texts ih => exact ih

/-- Text items and nothing else. -/
theorem puts_printed (hok : (ops.foldl (StdioState.perform fputc) s).writeFailed = false)
    (hstream : (ops.foldl (StdioState.perform fputc) s).stream =
      s.stream ++ (printed ops).flatten) : Puts fputc s ops [] := by
  refine ⟨hok, (printed ops).map StreamItem.text, kept_texts _, fun bytes hmem => ?_, ?_⟩
  · obtain ⟨text, htext, heq⟩ := List.mem_map.mp hmem
    cases heq
    exact htext
  · rw [hstream, bytes_texts]

theorem puts_text (hputs : ∀ n, fputc n = true) (hok : s.writeFailed = false)
    (hops : callbacks ops = []) : Puts fputc s ops [] := by
  obtain ⟨hstream, hok'⟩ := perform_text hputs hok hops
  exact puts_printed hok' hstream

/-- A packet up to its end, which has not come yet. -/
theorem collected_begun (hputs : ∀ n, fputc n = true) (hok : s.writeFailed = false)
    {header : Option (List UInt8)} {chunks : List (Option (List UInt8))}
    (hops : callbacks ops = .start header :: chunks.map .payload) :
    (ops.foldl (StdioState.perform fputc) s).Collected (s.stream ++ (printed ops).flatten)
      (chunks.foldl addChunk header) := by
  obtain ⟨ops₁, op, ops₂, rfl, hnone, hop, hops₂⟩ := List.filterMap_eq_cons_iff.mp hops
  obtain rfl := Sum.getLeft?_eq_some_iff.mp hop
  obtain ⟨hstream, -⟩ := perform_text hputs hok (List.filterMap_eq_nil_iff.mpr hnone)
  have hcol := (collected_start (ops₁.foldl (StdioState.perform fputc) s) header).perform hputs hops₂
  have hprinted : printed (ops₁ ++ .inl (.start header) :: ops₂) =
      printed ops₁ ++ printed ops₂ := by
    unfold printed
    rw [List.filterMap_append, List.filterMap_cons_none rfl]
  rw [hprinted, List.flatten_append, ← List.append_assoc, ← hstream, List.foldl_append]
  exact hcol

theorem puts_begun (hputs : ∀ n, fputc n = true) (hok : s.writeFailed = false) {p : SinkPacket}
    {calls : List SinkOp} (hcalls : calls <+: .start p.header :: p.chunks.map .payload)
    (hops : callbacks ops = calls) : Puts fputc s ops [] := by
  cases calls with
  | nil => exact puts_text hputs hok hops
  | cons call calls =>
    obtain ⟨rfl, hrest⟩ := List.cons_prefix_cons.mp hcalls
    have hn : calls = (p.chunks.take calls.length).map .payload := by
      rw [List.map_take]
      exact List.prefix_iff_eq_take.mp hrest
    rw [hn] at hops
    have hcol := collected_begun hputs hok hops
    exact puts_printed hcol.ok hcol.stream

theorem Collected.puts_finish {stream : List UInt8} (hputs : ∀ n, fputc n = true)
    {p : SinkPacket} (h : s.Collected stream p.content) :
    Puts fputc s [.inl .finish] (fits p.content).toList := by
  refine ⟨finish_keeps_ok hputs h.ok, [.packet p], ?_, by simp, ?_⟩
  · cases hfits : fits p.content <;> simp [StreamItem.kept, hfits]
  · show (s.finish fputc).stream = _
    have hdrop := h.drop
    cases hfits : fits p.content with
    | none =>
      rw [hfits] at hdrop
      rw [finish_drop _ _ hdrop]
      simp [StreamItem.bytes, hfits]
    | some bytes =>
      rw [hfits] at hdrop
      rw [finish_ok hputs h.ok hdrop, h.framePayload bytes hfits]
      simp [StreamItem.bytes, hfits]

/-- A whole packet puts its frame, if there is room for it, and text. -/
theorem puts_packet (hputs : ∀ n, fputc n = true) (hok : s.writeFailed = false) {p : SinkPacket}
    (hops : callbacks ops = p.sinkOps) : Puts fputc s ops (fits p.content).toList := by
  obtain ⟨ops₁, ops₂, rfl, h₁, h₂⟩ := List.filterMap_eq_append_iff.mp hops
  obtain ⟨ops₃, op, ops₄, rfl, hnone, hop, h₄⟩ := List.filterMap_eq_cons_iff.mp h₂
  obtain rfl := Sum.getLeft?_eq_some_iff.mp hop
  have hbegun : callbacks (ops₁ ++ ops₃) = .start p.header :: p.chunks.map .payload := by
    unfold callbacks
    rw [List.filterMap_append, h₁, List.filterMap_eq_nil_iff.mpr hnone, List.append_nil]
  have hcol := collected_begun hputs hok hbegun
  have hfinish := hcol.puts_finish (p := p) hputs
  have hall := ((puts_printed hcol.ok hcol.stream).append hfinish).append
    (puts_text hputs (by simpa using hfinish.ok) (show callbacks ops₄ = [] from h₄))
  simpa using hall

theorem puts_packets (hputs : ∀ n, fputc n = true) (hok : s.writeFailed = false)
    {ps : List SinkPacket} (hops : callbacks ops = ps.flatMap SinkPacket.sinkOps) :
    Puts fputc s ops (ps.filterMap fun p => fits p.content) := by
  induction ps generalizing s ops with
  | nil => exact puts_text hputs hok hops
  | cons p ps ih =>
    rw [List.flatMap_cons] at hops
    obtain ⟨ops₁, ops₂, rfl, h₁, h₂⟩ := List.filterMap_eq_append_iff.mp hops
    have hfirst := puts_packet hputs hok h₁
    have hall := hfirst.append (ih hfirst.ok h₂)
    cases hfits : fits p.content <;> simpa [hfits] using hall

/-- Read back, the stream is the packets kept, whatever is printed between. -/
theorem Puts.decode {kept : List (List UInt8)} (h : Puts fputc s ops kept) (hs : s.stream = [])
    (htext : ∀ text ∈ printed ops, 0xa5 ∉ text) :
    decodeFrames (ops.foldl (StdioState.perform fputc) s).stream =
      kept.map (goodFrame frameTypeOn9log) := by
  obtain ⟨items, hkept, hitems, hstream⟩ := h.items
  rw [hstream, hs, List.nil_append, ← hkept]
  exact decodeFrames_items fun bytes hmem => htext bytes (hitems bytes hmem)

end StdioState

/-! ### Packets of the core -/

/-- What the core gives the sink of a packet. -/
def Packet.sinkPacket (pkt : Packet) : SinkPacket :=
  ⟨some pkt.header, pkt.chunks.map fun c => some c.bytes⟩

/-- The bytes of a frame that has room for the packet. -/
def Packet.framed (pkt : Packet) : Option (List UInt8) := fits (some (pkt.header ++ pkt.payload))

theorem fits_sinkPacket (pkt : Packet) : fits pkt.sinkPacket.content = pkt.framed := by
  have h := content_chunks pkt.header (pkt.chunks.map Chunk.bytes)
  rw [List.map_map] at h
  have hpay : (pkt.chunks.map Chunk.bytes).flatten = pkt.payload := List.flatMap_def.symm
  rw [hpay] at h
  exact congrArg fits h

theorem sinkOps_sinkPacket (pkt : Packet) :
    pkt.sinkPacket.sinkOps = pkt.calls.map SinkCall.sinkOp := by
  simp only [SinkPacket.sinkOps, Packet.sinkPacket, Packet.calls, List.map_map, List.map_cons,
    List.map_append, List.map_nil, SinkCall.sinkOp]
  rfl

namespace StdioState

variable {fputc : ℕ → Bool} {s : StdioState} {ops : List StdioOp}

theorem puts_sent (hputs : ∀ n, fputc n = true) (hok : s.writeFailed = false) {pkts : List Packet}
    (hops : callbacks ops = (pkts.flatMap Packet.calls).map SinkCall.sinkOp) :
    Puts fputc s ops (pkts.filterMap Packet.framed) := by
  have hps : callbacks ops = (pkts.map Packet.sinkPacket).flatMap SinkPacket.sinkOps := by
    rw [hops, List.map_flatMap, List.flatMap_map]
    exact List.flatMap_congr fun pkt _ => (sinkOps_sinkPacket pkt).symm
  have h := puts_packets hputs hok hps
  rw [List.filterMap_map] at h
  have hkept : (fun p : SinkPacket => fits p.content) ∘ Packet.sinkPacket = Packet.framed :=
    funext fits_sinkPacket
  rwa [hkept] at h

/-- The calls of a packet so far put nothing but text, or all of it. -/
theorem puts_part (hputs : ∀ n, fputc n = true) (hok : s.writeFailed = false) {pkt : Packet}
    {part : List SinkCall} (hpart : part <+: pkt.calls)
    (hops : callbacks ops = part.map SinkCall.sinkOp) :
    Puts fputc s ops [] ∨ Puts fputc s ops pkt.framed.toList := by
  have hprefix := hpart.map SinkCall.sinkOp
  rw [← sinkOps_sinkPacket, ← hops] at hprefix
  rcases List.prefix_concat_iff.mp hprefix with hall | hbegun
  · right
    rw [← fits_sinkPacket]
    exact puts_packet hputs hok hall
  · left
    exact puts_begun hputs hok hbegun rfl

end StdioState

/-! ### Runs -/

section Runs

variable {Tid : Type} [DecidableEq Tid] {u : UnixBuild}
  {c' : Lib.Config Tid (UnixCall u) UnixOp UnixOp.Ret Res (UnixShared Tid)}
  {tr' : UnixTrace Tid u} {c : Lib.Config Tid Call Op Op.Ret Res (Shared Tid)}
  {tr : List (Label Tid Call Op Op.Ret Res)}

def stdioOp (e : UnixEv) : Option StdioOp :=
  match e.op with
  | .fprintf _ text => some (.inr text)
  | _ =>
    match unixSees e with
    | some (.inr op) => some (.inl op)
    | _ => none

/-- The state of the sink is made by what the threads did to it. -/
theorem stdio_run (h : (unixSystem u Tid).Run c' tr') : c'.state.stdio =
    ((actEvents tr').filterMap stdioOp).foldl (StdioState.perform u.fputc) StdioState.init := by
  induction h with
  | init => rfl
  | invoke t call _ _ ih => exact ih
  | ret t call v _ _ ih => exact ih
  | @act cfg tr' t call o k r s' hrun ht hs ih =>
    rw [actEvents, List.filterMap_append, List.foldl_append, ← ih]
    cases o
    case core o =>
      obtain ⟨core, -, rfl⟩ := hs
      rfl
    case initLock =>
      obtain ⟨-, rfl⟩ := hs
      rfl
    case loadStream =>
      obtain ⟨-, rfl⟩ := hs
      rfl
    case flockfile =>
      obtain ⟨-, rfl⟩ := hs
      rfl
    case loadDropFrame =>
      obtain ⟨hr, rfl⟩ := hs
      cases r with
      | false => rfl
      | true => exact (StdioState.finish_drop u.fputc _ hr.symm).symm
    all_goals
      obtain rfl := hs
      rfl

theorem callbacks_run (h : (unixLayer u Tid).Matches c' tr' c tr) :
    StdioState.callbacks ((actEvents tr').filterMap stdioOp) =
      (sinkCalls u.entry (actEvents tr)).map SinkCall.sinkOp := by
  have hob := congrArg (fun l => (l.map Prod.snd).filterMap Sum.getRight?) h.observed
  simp only [observed_events, List.filterMap_filterMap] at hob
  unfold StdioState.callbacks sinkCalls
  rw [List.filterMap_filterMap, List.map_filterMap]
  refine Eq.trans (List.filterMap_congr fun e _ => ?_)
    (hob.symm.trans (List.filterMap_congr fun e _ => ?_))
  · obtain ⟨o, r⟩ := e
    cases o
    case loadDropFrame => cases r <;> rfl
    all_goals rfl
  · obtain ⟨o, r⟩ := e
    show (coreSees u ⟨o, r⟩).bind Sum.getRight? = _
    cases o
    case call entry call _ => by_cases he : entry = u.entry <;> simp [coreSees, sinkSees, he]
    all_goals rfl

theorem stdioOp_text {e : UnixEv} {text : Text} (h : stdioOp e = some (.inr text)) :
    ∃ stream, e = ⟨.fprintf stream text, ()⟩ := by
  obtain ⟨o, r⟩ := e
  cases o
  case fprintf stream line =>
    cases h
    exact ⟨stream, rfl⟩
  case loadDropFrame => cases r <;> cases h
  all_goals cases h

/-- The line of the image is all that is printed. -/
theorem printed_run (h : (unixSystem u Tid).Run c' tr') :
    ∀ text ∈ StdioState.printed ((actEvents tr').filterMap stdioOp),
      text = imageSlideLine u.slide := by
  intro text htext
  unfold StdioState.printed at htext
  obtain ⟨op, hop, hright⟩ := List.mem_filterMap.mp htext
  obtain rfl := Sum.getRight?_eq_some_iff.mp hright
  obtain ⟨e, he, hsome⟩ := List.mem_filterMap.mp hop
  obtain ⟨stream, rfl⟩ := stdioOp_text hsome
  obtain ⟨call, es, v, hpath, hmem⟩ := h.mem_actEvents he
  obtain ⟨es₁, es₂, rfl⟩ := List.append_of_mem hmem
  obtain ⟨g₁, -, g₂, hstep, -⟩ := steps_append.mp (steps_unixBody call _ v hpath)
  cases hstep with
  | field use loaded o r hfield => cases hfield
  | print => rfl

theorem no_start_slideLine (slide : UInt32) : 0xa5 ∉ imageSlideLine slide := by
  have hdigit : ∀ d < 16, hexDigit d ≠ 0xa5 := by decide
  unfold imageSlideLine
  simp only [List.mem_append, not_or]
  refine ⟨⟨by decide, fun hmem => ?_⟩, by decide⟩
  obtain ⟨i, -, hi⟩ := List.mem_map.mp hmem
  exact hdigit _ (Nat.mod_lt _ (by decide)) hi

end Runs

end On9log
