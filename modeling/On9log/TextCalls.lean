import On9log.TextLines

/-!
# The calls of the plain-text build

`textWrites_textBody`: whatever it is answered, a call writes the lines that
`TextWrites` says. A message is printed through the filter of its line, so the
line is the one of the core with what `vfprintf` handed over as its body.
-/

namespace On9log
open Lib

variable {cfg : Config} {es : List TextEv}

/-! ### A printed line -/

theorem Printed.mono {format : Option CStr} {args : VaList} {es' : List TextEv}
    {pieces : List Text} (h : Printed format args es pieces) (hes : ∀ e ∈ es, e ∈ es') :
    Printed format args es' pieces := by
  cases h with
  | unset hload => exact .unset (hes _ hload)
  | printed file _ hfile hload hprint =>
    exact .printed file pieces hfile (hes _ hload) (hes _ hprint)

section Printed

variable {stream : Stream} {filter filter' : TextFilter}

theorem hands_textFilteredOutput {data : Text}
    (h : (textFilteredOutput stream filter data).Path es filter') :
    ∃ cs, Hands stream.sinks es cs ∧ payloadOf cs = (filteredOutput filter data).2.flatten ∧
      filter' = (filteredOutput filter data).1 ∧ ∀ g, Steps fileStep g es g := by
  obtain ⟨_, e₁, _, rfl, h₁, h₂⟩ := (Prog.path_bind _ _ _ _).mp h
  obtain ⟨rfl, rfl⟩ := (Prog.path_pure _ _ _).mp h₂
  obtain ⟨es₀, hp, rfl⟩ := path_onCore h₁
  obtain ⟨cs, hcs, hbytes⟩ := emits_chunks hp
  rw [List.append_nil]
  exact ⟨cs, hands_emits hcs, hbytes, rfl, steps_file_inside (inside_emits hcs)⟩

theorem hands_outputPieces {pieces : List Text}
    (h : (outputPieces pieces stream filter).Path es filter') :
    ∃ cs, Hands stream.sinks es cs ∧ payloadOf cs = (filterPieces filter pieces).2.flatten ∧
      filter' = (filterPieces filter pieces).1 ∧ ∀ g, Steps fileStep g es g := by
  rw [outputPieces_eq] at h
  obtain ⟨_, e₁, _, rfl, h₁, h₂⟩ := (Prog.path_bind _ _ _ _).mp h
  obtain ⟨rfl, rfl⟩ := (Prog.path_pure _ _ _).mp h₂
  obtain ⟨es₀, hp, rfl⟩ := path_onCore h₁
  obtain ⟨cs, hcs, hbytes⟩ := emits_chunks hp
  rw [List.append_nil]
  exact ⟨cs, hands_emits hcs, hbytes, rfl, steps_file_inside (inside_emits hcs)⟩

/-- Through a cookie that points to the line, a piece goes through the filter of the line. -/
theorem hands_printfCookieWrite {data : Text}
    (h : (printfCookieWrite stream filter data).Path es filter') :
    (∃ cs, Hands stream.sinks es cs ∧ (OwnCookie es →
      payloadOf cs = (filteredOutput filter data).2.flatten ∧
        filter' = (filteredOutput filter data).1)) ∧
    ∀ file stray, ∃ stray', Steps fileStep (.printing file stray) es (.printing file stray') := by
  obtain ⟨line, e₁, e₂, rfl, h₁, h₂⟩ := (Prog.path_bind _ _ _ _).mp h
  rw [(Prog.path_op _ _ _).mp h₁]
  rcases (Prog.path_ite _ _ _ _ _).mp h₂ with ⟨-, h₂⟩ | ⟨hstray, h₂⟩
  · obtain ⟨cs, hcs, hbytes, hfilter, hsteps⟩ := hands_textFilteredOutput h₂
    refine ⟨⟨cs, .format _ rfl hcs, fun _ => ⟨hbytes, hfilter⟩⟩, fun file stray => ?_⟩
    exact ⟨_, _, ⟨file, stray, rfl, rfl⟩, hsteps _⟩
  · obtain ⟨_, e₃, _, rfl, h₃, h₄⟩ := (Prog.path_bind _ _ _ _).mp h₂
    obtain ⟨rfl, -⟩ := (Prog.path_pure _ _ _).mp h₄
    rw [(Prog.path_op _ _ _).mp h₃]
    refine ⟨⟨[], .format _ rfl (.format _ rfl .nil), fun hown => absurd (hown line ?_) hstray⟩,
      fun file stray => ⟨true, _, ⟨file, stray, rfl, rfl⟩, ?_⟩⟩
    · exact List.mem_cons_self ..
    · rw [decide_eq_true hstray]
      exact ⟨_, ⟨⟨file, rfl⟩, rfl⟩, rfl⟩

theorem hands_printfCookieWrites {pieces : List Text}
    (h : (pieces.foldlM (printfCookieWrite stream) filter).Path es filter') :
    (∃ cs, Hands stream.sinks es cs ∧ (OwnCookie es →
      payloadOf cs = (filterPieces filter pieces).2.flatten ∧
        filter' = (filterPieces filter pieces).1)) ∧
    ∀ file stray, ∃ stray', Steps fileStep (.printing file stray) es (.printing file stray') := by
  induction pieces generalizing es filter with
  | nil =>
    obtain ⟨rfl, rfl⟩ := (Prog.path_pure _ _ _).mp h
    exact ⟨⟨[], .nil, fun _ => ⟨rfl, rfl⟩⟩, fun file stray => ⟨stray, rfl⟩⟩
  | cons piece pieces ih =>
    rw [List.foldlM_cons] at h
    obtain ⟨filter₁, e₁, e₂, rfl, h₁, h₂⟩ := (Prog.path_bind _ _ _ _).mp h
    obtain ⟨⟨cs₁, hcs₁, hout₁⟩, hsteps₁⟩ := hands_printfCookieWrite h₁
    obtain ⟨⟨cs₂, hcs₂, hout₂⟩, hsteps₂⟩ := ih h₂
    refine ⟨⟨cs₁ ++ cs₂, hcs₁.append hcs₂, fun hown => ?_⟩, fun file stray => ?_⟩
    swap
    · obtain ⟨stray₁, hs₁⟩ := hsteps₁ file stray
      obtain ⟨stray₂, hs₂⟩ := hsteps₂ file stray₁
      exact ⟨stray₂, steps_append.mpr ⟨_, hs₁, hs₂⟩⟩
    obtain ⟨hbytes₁, rfl⟩ := hout₁ fun line hmem => hown line (List.mem_append_left _ hmem)
    obtain ⟨hbytes₂, hfilter⟩ := hout₂ fun line hmem => hown line (List.mem_append_right _ hmem)
    rw [payloadOf_append, hbytes₁, hbytes₂]
    exact ⟨List.flatten_append.symm, hfilter⟩

theorem hands_printfFormatter {format : Option CStr} {args : VaList}
    (h : (printfFormatter format args stream filter).Path es filter') :
    (∃ cs, Hands stream.sinks es cs ∧ (OwnCookie es → ∃ pieces, Printed format args es pieces ∧
      payloadOf cs = (filterPieces filter pieces).2.flatten ∧
        filter' = (filterPieces filter pieces).1)) ∧ Formats es := by
  obtain ⟨file, e₁, _, rfl, h₁, h⟩ := (Prog.path_bind _ _ _ _).mp h
  rw [(Prog.path_op _ _ _).mp h₁]
  rcases (Prog.path_ite _ _ _ _ _).mp h with ⟨rfl, h⟩ | ⟨hfile, h⟩
  · obtain ⟨rfl, rfl⟩ := (Prog.path_pure _ _ _).mp h
    refine ⟨⟨[], .format _ rfl .nil, fun _ => ⟨[], .unset (List.mem_cons_self ..), rfl, rfl⟩⟩, 0,
      ?_⟩
    exact ⟨_, rfl, rfl⟩
  obtain ⟨_, e₂, _, rfl, h₂, h⟩ := (Prog.path_bind _ _ _ _).mp h
  obtain ⟨_, e₃, _, rfl, h₃, h⟩ := (Prog.path_bind _ _ _ _).mp h
  obtain ⟨pieces, e₄, _, rfl, h₄, h⟩ := (Prog.path_bind _ _ _ _).mp h
  obtain ⟨filter₁, e₅, _, rfl, h₅, h⟩ := (Prog.path_bind _ _ _ _).mp h
  obtain ⟨_, e₆, _, rfl, h₆, h⟩ := (Prog.path_bind _ _ _ _).mp h
  obtain ⟨h₇, rfl⟩ := Prog.path_then_pure h
  obtain ⟨⟨cs, hcs, hout⟩, hsteps⟩ := hands_printfCookieWrites h₅
  rw [(Prog.path_op _ _ _).mp h₂, (Prog.path_op _ _ _).mp h₃, (Prog.path_op _ _ _).mp h₄,
    (Prog.path_op _ _ _).mp h₆, (Prog.path_op _ _ _).mp h₇]
  refine ⟨⟨cs, ?_, fun hown => ⟨pieces, .printed file pieces hfile (by simp) (by simp), ?_⟩⟩,
    file, ?_⟩
  · have hend := hcs.append (.format ⟨.clearCookie, ()⟩ rfl
      (.format ⟨.funlockfile file, ()⟩ rfl .nil))
    rw [List.append_nil] at hend
    exact .format _ rfl (.format _ rfl (.format _ rfl (.format _ rfl hend)))
  · exact hout fun line hmem => hown line (by simp [hmem])
  · obtain ⟨stray, hs⟩ := hsteps file false
    have htail : Steps fileStep (.printing file false)
        (e₅ ++ [⟨.clearCookie, ()⟩, ⟨.funlockfile file, ()⟩]) (.locked file) :=
      steps_append.mpr ⟨_, hs, _, ⟨file, stray, rfl, rfl⟩, _, ⟨rfl, rfl⟩, rfl⟩
    exact ⟨_, rfl, _, ⟨rfl, hfile, rfl⟩, _, ⟨file, rfl, rfl⟩, _, ⟨⟨false, rfl⟩, rfl⟩, htail⟩

/-- A message is printed in the middle of its line. -/
theorem written_dispatchPrintf {level : ℕ} {tag : Option CStr} {flags : UInt8}
    {format : Option CStr} {args : VaList} {v : Unit}
    (h : (dispatchFormattedLine cfg level tag flags (some (printfFormatter format args))).Path
      es v) :
    ∃ line, LineWritten cfg line es ∧ line.count = 0 ∧ ∃ now, line.clock = some now ∧
      (OwnCookie es → ∃ pieces, Printed format args es pieces ∧
        line.text = textLine level (UInt32.ofNat now) tag flags pieces.flatten) := by
  obtain ⟨stream, e₁, _, rfl, h₁, h⟩ := (Prog.path_bind _ _ _ _).mp h
  obtain ⟨_, e₂, _, rfl, h₂, h⟩ := (Prog.path_bind _ _ _ _).mp h
  obtain ⟨now, e₃, _, rfl, h₃, h⟩ := (Prog.path_bind _ _ _ _).mp h
  obtain ⟨filter₁, e₄, _, rfl, h₄, h⟩ := (Prog.path_bind _ _ _ _).mp h
  obtain ⟨filter₂, e₅, _, rfl, h₅, h⟩ := (Prog.path_bind _ _ _ _).mp h
  obtain ⟨_, e₆, e₇, rfl, h₆, h₇⟩ := (Prog.path_bind _ _ _ _).mp h
  obtain ⟨o₁, ho₁, rfl⟩ := path_onCore h₁
  obtain ⟨slots, hsinks, rfl⟩ := path_streamOpen ho₁
  obtain ⟨o₂, ho₂, rfl⟩ := path_onCore h₂
  obtain ⟨o₃, ho₃, rfl⟩ := path_onCore h₃
  obtain ⟨o₇, ho₇, rfl⟩ := path_onCore h₇
  obtain ⟨cs₄, hcs₄, hbytes₄, rfl, hsteps₄⟩ := hands_outputPieces h₄
  obtain ⟨⟨cs₅, hcs₅, hout₅⟩, file, hsteps₅⟩ := hands_printfFormatter h₅
  obtain ⟨cs₆, hcs₆, hbytes₆, -, hsteps₆⟩ := hands_outputPieces h₆
  have hbody := hcs₄.append (hcs₅.append hcs₆)
  rw [hsinks] at hbody
  have hfile : Formats (e₄ ++ (e₅ ++ e₆)) := ⟨file, steps_append.mpr ⟨_, hsteps₄ _,
    steps_append.mpr ⟨_, hsteps₅, hsteps₆ _⟩⟩⟩
  refine ⟨⟨0, some now, cs₄ ++ (cs₅ ++ cs₆)⟩, ⟨slots, _, ⟨_, hbody, hfile, rfl⟩, ?_⟩, rfl, now,
    rfl, fun hown => ?_⟩
  · rw [(path_forM_call _ _ _ _).mp ho₂, path_timestampMs.mp ho₃, (path_streamEnd _ _ _).mp ho₇,
      hsinks]
    simp only [lineOpening, clockReads, Option.toList_some, List.map_append, List.map_cons,
      List.map_nil, List.append_assoc, List.cons_append, List.nil_append]
    rfl
  · obtain ⟨pieces, hprinted, hbytes₅, rfl⟩ := hout₅ fun line hmem => hown line (by simp [hmem])
    refine ⟨pieces, hprinted.mono fun e he => by simp [he], ?_⟩
    rw [← flatten_lineChunks, lineChunks, filterLine, linePieces, filterPieces_append,
      filterPieces_append, Line.text, payloadOf_append, payloadOf_append, hbytes₄, hbytes₅,
      hbytes₆, List.flatten_append, List.flatten_append, List.append_assoc]

end Printed

/-! ### Calls that write nothing -/

theorem textQuiet_append {es₁ es₂ : List TextEv} (h₁ : TextQuiet es₁) (h₂ : TextQuiet es₂) :
    TextQuiet (es₁ ++ es₂) := fun e he => (List.mem_append.mp he).elim (h₁ e) (h₂ e)

/-- Operations that only `on9log_init` performs. -/
def TextOp.ports : TextOp → Bool
  | .portLock => true
  | .portUnlock => true
  | .storeStream _ => true
  | .openCookie => true
  | .setvbuf _ => true
  | .fclose _ => true
  | _ => false

theorem init_only : on9logInitText.Only fun o => o.ports = true ∨ o = .loadStream := by
  have one : ∀ {o : TextOp}, o.ports = true →
      (Prog.op o : TextProg o.Ret).Only fun o => o.ports = true ∨ o = .loadStream :=
    fun ho => Prog.only_op (Or.inl ho)
  have load : loadPrintfStream.Only fun o => o.ports = true ∨ o = .loadStream :=
    Prog.only_op (Or.inr rfl)
  have unlocked : ∀ e : Err, (do
      Prog.op TextOp.portUnlock
      pure e : TextProg Err).Only fun o => o.ports = true ∨ o = .loadStream :=
    fun e => (one rfl).bind fun _ => Prog.only_pure e
  refine load.bind fun stream => .ite (Prog.only_pure _) ?_
  refine (one rfl).bind fun _ => load.bind fun stream => .ite (unlocked _) ?_
  refine (one rfl).bind fun file => .ite (unlocked _) ?_
  refine (one rfl).bind fun unbuffered => .ite ?_ ?_
  · exact (one rfl).bind fun _ => unlocked _
  · exact (one rfl).bind fun _ => unlocked _

theorem quiet_of_ports (o : TextOp) (h : o.ports = true ∨ o = .loadStream) : o.quiet = true := by
  rcases h with h | rfl
  · cases o <;> first | rfl | cases h
  · rfl

theorem quiet_past {level : ℕ} {tag : Ptr} {gate rest : List Ev} (hg : Gate cfg level tag true gate)
    (hr : TextQuiet (rest.map Ev.text)) : TextQuiet ((gate ++ rest).map Ev.text) := by
  rw [List.map_append]
  exact textQuiet_append (quiet_gate hg) hr

theorem quiet_textIsrCall {level : ℕ} {tag : TagArg} {flags : UInt8} {text : Option Text}
    {v : Bool} {es : List Ev} (h : TextIsrCall cfg level tag flags text v es) :
    TextQuiet (es.map Ev.text) := by
  cases h with
  | blocked _ gate hg => exact quiet_gate hg
  | notReady _ gate hg => exact quiet_past hg (by simp [TextQuiet, Ev.text, TextOp.quiet])
  | noText gate hg => exact quiet_past hg (by simp [TextQuiet, Ev.text, TextOp.quiet])
  | tooLong _ gate now hg _ => exact quiet_past hg (by simp [TextQuiet, Ev.text, TextOp.quiet])
  | line _ gate now ok hg _ =>
    rw [List.append_assoc]
    refine quiet_past hg ?_
    cases v <;> simp [TextQuiet, Ev.text, TextOp.quiet]

theorem quiet_formattedIsrCall {level : ℕ} {tag : TagArg} {flags : UInt8} {v : Bool}
    {es : List Ev} (h : FormattedIsrCall cfg level tag flags v es) :
    TextQuiet (es.map Ev.text) := by
  cases h with
  | blocked gate hg => exact quiet_gate hg
  | notReady gate hg => exact quiet_past hg (by simp [TextQuiet, Ev.text, TextOp.quiet])
  | unformatted gate hg => exact quiet_past hg (by simp [TextQuiet, Ev.text, TextOp.quiet])
  | formatted gate es text _ hg hcall =>
    refine quiet_past hg (@textQuiet_append [_] _ ?_ (quiet_textIsrCall hcall))
    simp [TextQuiet, Ev.text, TextOp.quiet]

/-! ### All calls -/

section Calls

variable {f : Formatters} {ls : List Line}

theorem TextWrites.hushed {call : TextCall} (h : TextQuiet es) (hs : ¬call.Speaks cfg es) :
    TextWrites cfg call es [] :=
  ⟨.of_quiet h 0, fun _ => rfl, fun hspeaks => absurd hspeaks hs⟩

theorem Spoken.imp {p q : Line → Prop} (h : Spoken p ls) (hpq : ∀ line, p line → q line) :
    Spoken q ls := by
  obtain ⟨notices, line, hls, hnotices, hcount, hp⟩ := h
  exact ⟨notices, line, hls, hnotices, hcount, hpq line hp⟩

/-- A call that is one text call, behind events that need no lock. -/
theorem textWrites_writeText (call : TextCall) {level : ℕ} {tag : TagArg} {textFlags : UInt8}
    {formatter : Option TextFormatter} {v : Unit} {message : List TextEv → Line → Prop}
    {front es : List TextEv} (hfront : TextQuiet front)
    (h : (writeFormattedText cfg level tag textFlags formatter).Path es v)
    (hline : ∀ es v, (dispatchFormattedLine cfg level tag.text textFlags formatter).Path es v →
      ∃ line, LineWritten cfg line es ∧ line.count = 0 ∧ message es line)
    (hspeaks : call.Speaks cfg (front ++ es) ↔ TextEnabled cfg level tag.ptr es)
    (hmessage : ∀ before rest line, es = before ++ rest → message rest line →
      call.Message (front ++ es) line) : ∃ ls, TextWrites cfg call (front ++ es) ls := by
  rcases serial_writeFormattedText h hline with ⟨hser, hoff⟩ |
    ⟨before, rest, ls, hes, hser, hon, hspoken⟩
  · refine ⟨[], (TextSerial.of_quiet hfront 0).append hser, fun _ => rfl, fun hs => ?_⟩
    exact absurd (hspeaks.mp hs) hoff
  · refine ⟨ls, (TextSerial.of_quiet hfront 0).append hser, fun hs => ?_, fun _ => ?_⟩
    · exact absurd (hspeaks.mpr hon) hs
    · exact hspoken.imp fun line hm => hmessage before rest line hes hm

theorem enabled_both {level : ℕ} {tag : Ptr} {es₁ es₂ : List TextEv} :
    TextEnabled cfg level tag (es₁ ++ es₂) ↔
      TextEnabled cfg level tag es₁ ∧ TextEnabled cfg level tag es₂ := by
  simp only [TextEnabled, List.mem_append, or_imp, forall_and]
  tauto

theorem textWrites_write {level : ℕ} {tag : TagArg} {textFlags : UInt8} {format : Option CStr}
    {args : VaList} {v : Unit} (h : (vwriteText cfg level tag textFlags format args).Path es v) :
    ∃ ls, TextWrites cfg (.write level tag textFlags format args) es ls := by
  obtain ⟨file, e₁, e₂, rfl, h₁, h⟩ := (Prog.path_bind _ _ _ _).mp h
  rw [(Prog.path_op _ _ _).mp h₁]
  have hfront : TextQuiet [(⟨.loadStream, file⟩ : TextEv)] := by
    simp [TextQuiet, TextOp.quiet]
  rcases (Prog.path_ite _ _ _ _ _).mp h with ⟨rfl, h⟩ | ⟨hfile, h⟩
  · refine ⟨[], .hushed (textQuiet_append hfront ?_) fun hs => ?_⟩
    · rcases path_textGated h with ⟨gate, rfl, hg⟩ | ⟨gate, rest, rfl, hg, h⟩
      · exact quiet_gate hg
      · obtain ⟨es₀, hp, rfl⟩ := path_onCore h
        rw [path_addDropped.mp hp]
        exact textQuiet_append (quiet_gate hg) (by simp [TextQuiet, Ev.text, TextOp.quiet])
    · obtain ⟨⟨file, rest, heq, hne⟩, -⟩ := hs
      obtain ⟨heq, -⟩ := List.cons.inj heq
      cases heq
      exact hne rfl
  · refine textWrites_writeText _ hfront h (fun es v h => written_dispatchPrintf h) ?_ ?_
    · refine ⟨fun hs => (enabled_cons (by simp)).mp hs.2, fun hon => ⟨⟨file, _, rfl, hfile⟩, ?_⟩⟩
      exact (enabled_cons (by simp)).mpr hon
    · rintro before rest line rfl ⟨now, hclock, hprinted⟩
      refine ⟨now, hclock, fun hown => ?_⟩
      obtain ⟨pieces, hpieces, htext⟩ := hprinted fun line hmem => hown line (by simp [hmem])
      exact ⟨pieces, hpieces.mono fun e he => by simp [he], htext⟩

theorem textWrites_writeBuffer {level : ℕ} {tag : TagArg} {textFlags : UInt8}
    {buffer : Option (List UInt8)} {v : Unit}
    (h : (writeBufferText cfg level tag textFlags buffer).Path es v) :
    ∃ ls, TextWrites cfg (.writeBuffer level tag textFlags buffer) es ls := by
  have hdrop : ∀ {gate rest : List TextEv} {v : Unit}, TextQuiet gate →
      (onCore addDropped).Path rest v → TextQuiet (gate ++ rest) := by
    intro gate rest v hq h
    obtain ⟨es₀, hp, rfl⟩ := path_onCore h
    rw [path_addDropped.mp hp]
    exact textQuiet_append hq (by simp [TextQuiet, Ev.text, TextOp.quiet])
  rcases path_textGated h with ⟨gate, rfl, hg⟩ | ⟨gate, rest, rfl, hg, h⟩
  · exact ⟨[], .hushed (quiet_gate hg) fun hs => not_enabled_gate hg hs.2⟩
  have hq := quiet_gate hg
  cases buffer with
  | none =>
    refine ⟨[], .hushed (hdrop hq h) fun hs => ?_⟩
    obtain ⟨⟨bytes, hbytes, -⟩, -⟩ := hs
    cases hbytes
  | some bytes =>
    rcases (Prog.path_ite _ _ _ _ _).mp h with ⟨hlong, h⟩ | ⟨hshort, h⟩
    · refine ⟨[], .hushed (hdrop hq h) fun hs => ?_⟩
      obtain ⟨⟨bytes', hbytes, hlen⟩, -⟩ := hs
      cases hbytes
      omega
    · have hlen : bytes.length ≤ uint32Max := by omega
      have hdigits : (List.replicate digitsSize (0 : UInt8)).length = digitsSize :=
        List.length_replicate ..
      have hencoded : (List.replicate encodedSize (0 : UInt8)).length = encodedSize :=
        List.length_replicate ..
      obtain ⟨pieces, hpieces, htext⟩ := bufferTextFormatter_eq hdigits hencoded hlen
      rw [hpieces] at h
      have hcall : (writeFormattedText cfg level tag textFlags (some (outputPieces pieces))).Path
        rest v := h
      refine textWrites_writeText _ hq hcall
        (fun es v h => written_dispatchPieces (some pieces) h) ?_ ?_
      · exact ⟨fun hs => (enabled_both.mp hs.2).2,
          fun h => ⟨⟨bytes, rfl, hlen⟩, enabled_both.mpr ⟨enabled_past hg, h⟩⟩⟩
      · rintro before rest line rfl ⟨now, hclock, hline⟩
        rw [Option.getD_some, htext] at hline
        exact ⟨now, hclock, hline⟩

theorem path_imageIdOrNone {es : List Ev} {image : List UInt8 × UInt8}
    (h : imageIdOrNone.Path es image) : ∃ reply, es = [⟨.imageId, reply⟩] ∧ image = reply.used := by
  obtain ⟨reply, e₁, _, rfl, h₁, h⟩ := (Prog.path_bind _ _ _ _).mp h
  rw [path_imageId.mp h₁]
  refine ⟨reply, ?_⟩
  unfold ImageIdReply.used
  rcases (Prog.path_ite _ _ _ _ _).mp h with ⟨hc, h⟩ | ⟨hc, h⟩
  · obtain ⟨rfl, rfl⟩ := (Prog.path_pure _ _ _).mp h
    exact ⟨rfl, (if_pos hc).symm⟩
  · obtain ⟨rfl, rfl⟩ := (Prog.path_pure _ _ _).mp h
    exact ⟨rfl, (if_neg hc).symm⟩

theorem textWrites_emitBoot {bootId : UInt32} {reason : UInt8} {v : Err}
    (h : (emitBootText cfg bootId reason).Path es v) :
    ∃ ls, TextWrites cfg (.emitBoot bootId reason) es ls := by
  obtain ⟨image, e₁, _, rfl, h₁, h⟩ := (Prog.path_bind _ _ _ _).mp h
  obtain ⟨h₂, -⟩ := Prog.path_then_pure h
  obtain ⟨es₀, hp, rfl⟩ := path_onCore h₁
  obtain ⟨reply, rfl, rfl⟩ := path_imageIdOrNone hp
  obtain ⟨line, hline, hcount, now, hclock, htext⟩ := written_dispatchPieces
    (some (bootTextFormatter bootId reason reply.used.1 reply.used.2)) h₂
  have hser := TextSerial.of_line hline
  rw [hcount] at hser
  refine ⟨[line], .quiet _ rfl hser, fun hs => absurd trivial hs, fun _ => ?_⟩
  exact ⟨[], line, rfl, Or.inl rfl, hcount, now, reply, hclock, List.mem_cons_self .., htext⟩

theorem textWrites_dispatchPacket {packet : Option Text} {v : Err}
    (h : (onCore (dispatchTextPacket cfg packet)).Path es v) :
    ∃ ls, TextWrites cfg (.dispatchPacket packet) es ls := by
  obtain ⟨es₀, hp, rfl⟩ := path_onCore h
  have hnothing : ∀ {packet : Option Text} {es : List Ev},
      (¬∃ text, packet = some text ∧ text ≠ []) →
      (pure Err.invalidArg : Core Err).Path es v →
      ∃ ls, TextWrites cfg (.dispatchPacket packet) (es.map Ev.text) ls := by
    intro packet es hnone h
    obtain ⟨rfl, -⟩ := (Prog.path_pure _ _ _).mp h
    exact ⟨[], .hushed (fun e he => absurd he List.not_mem_nil) hnone⟩
  cases packet with
  | none => exact hnothing (by simp) hp
  | some packet =>
    by_cases hempty : packet = []
    · subst hempty
      exact hnothing (by simp) hp
    · obtain ⟨-, flush, rest, rfl, hflush, hem⟩ := lineEmission_dispatchTextPacket hempty hp
      obtain ⟨line, hline, hcount, hclock, htext⟩ := LineEmission.written none hem 0
      have hser := TextSerial.of_line hline
      rw [hcount] at hser
      obtain ⟨notices, hnotices, hshape⟩ := FlushedText.serial hflush
      rw [List.map_append]
      refine ⟨notices ++ [line], hnotices.append hser, fun hs => absurd ⟨packet, rfl, hempty⟩ hs,
        fun _ => ⟨notices, line, rfl, hshape, hcount, hclock, ?_⟩⟩
      rw [htext]

theorem textWrites_textBody {call : TextCall} {v : Res} (h : (textBody cfg f call).Path es v) :
    ∃ ls, TextWrites cfg call es ls := by
  cases call with
  | init =>
    obtain ⟨e, e₁, _, rfl, h₁, h⟩ := (Prog.path_bind _ _ _ _).mp h
    obtain ⟨rfl, -⟩ := (Prog.path_pure _ _ _).mp h
    rw [List.append_nil]
    exact ⟨[], .hushed (init_only.imp quiet_of_ports _ _ h₁) id⟩
  | write level tag textFlags format args =>
    exact textWrites_write (Prog.path_then_pure h).1
  | writeText level tag textFlags formatter =>
    have hfront : TextQuiet [] := fun e he => absurd he List.not_mem_nil
    exact textWrites_writeText (.writeText level tag textFlags formatter) hfront
      (Prog.path_then_pure h).1 (fun es v h => written_dispatchPieces formatter h) Iff.rfl
      fun before rest line _ hm => hm
  | writeBuffer level tag textFlags buffer =>
    exact textWrites_writeBuffer (Prog.path_then_pure h).1
  | emitBoot bootId reason =>
    obtain ⟨e, e₁, _, rfl, h₁, h⟩ := (Prog.path_bind _ _ _ _).mp h
    obtain ⟨rfl, -⟩ := (Prog.path_pure _ _ _).mp h
    rw [List.append_nil]
    exact textWrites_emitBoot h₁
  | writeIsr level tag textFlags format argTypes args =>
    obtain ⟨queued, e₁, _, rfl, h₁, h⟩ := (Prog.path_bind _ _ _ _).mp h
    obtain ⟨rfl, -⟩ := (Prog.path_pure _ _ _).mp h
    obtain ⟨es₀, hp, rfl⟩ := path_onCore h₁
    rw [List.append_nil]
    exact ⟨[], .hushed (quiet_formattedIsrCall (formattedIsrCall_vwriteTextIsr hp)) id⟩
  | writeTextIsr level tag textFlags text =>
    obtain ⟨queued, e₁, _, rfl, h₁, h⟩ := (Prog.path_bind _ _ _ _).mp h
    obtain ⟨rfl, -⟩ := (Prog.path_pure _ _ _).mp h
    obtain ⟨es₀, hp, rfl⟩ := path_onCore h₁
    rw [List.append_nil]
    exact ⟨[], .hushed (quiet_textIsrCall (textIsrCall_writeTextIsrWithFlags hp)) id⟩
  | dispatchPacket packet =>
    obtain ⟨e, e₁, _, rfl, h₁, h⟩ := (Prog.path_bind _ _ _ _).mp h
    obtain ⟨rfl, -⟩ := (Prog.path_pure _ _ _).mp h
    rw [List.append_nil]
    exact textWrites_dispatchPacket h₁
  | addSink sink callbacks ctx =>
    obtain ⟨e, e₁, _, rfl, h₁, h⟩ := (Prog.path_bind _ _ _ _).mp h
    obtain ⟨rfl, -⟩ := (Prog.path_pure _ _ _).mp h
    obtain ⟨es₀, hp, rfl⟩ := path_onCore h₁
    rw [List.append_nil]
    rcases path_addSink hp with ⟨-, rfl, -⟩ | ⟨hvalid, b, hb, rfl⟩
    · exact ⟨[], .hushed (fun e he => absurd he List.not_mem_nil) id⟩
    · have hser := TextSerial.table b (Or.inl ⟨_, _, hvalid.1, hb⟩) (.nil 0)
      rw [List.map_append, List.map_cons]
      exact ⟨[], hser, fun _ => rfl, False.elim⟩
  | removeSink sink ctx =>
    obtain ⟨e, e₁, _, rfl, h₁, h⟩ := (Prog.path_bind _ _ _ _).mp h
    obtain ⟨rfl, -⟩ := (Prog.path_pure _ _ _).mp h
    obtain ⟨es₀, hp, rfl⟩ := path_onCore h₁
    rw [List.append_nil]
    rcases path_removeSink hp with ⟨-, rfl, -⟩ | ⟨-, b, hb, rfl⟩
    · exact ⟨[], .hushed (fun e he => absurd he List.not_mem_nil) id⟩
    · have hser := TextSerial.table b (Or.inr ⟨_, _, hb⟩) (.nil 0)
      rw [List.map_append, List.map_cons]
      exact ⟨[], hser, fun _ => rfl, False.elim⟩

end Calls

end On9log
