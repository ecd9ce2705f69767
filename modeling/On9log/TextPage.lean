import On9log.Progress
import On9log.TextCalls

/-!
# The critical sections of the plain-text build

Of a section only its core matters to the sinks: a line, or a change of the
sink table. `pageOf` replays core events as the lines that have been finished
and the one in progress; `PlainSettled` is the state between two sections, and
`PlainSettled.part` cuts a section anywhere.
-/

namespace On9log
open Lib

/-! ### The core in an event -/

def coreEv (e : TextEv) : Option Ev :=
  match e with
  | ⟨.core o, r⟩ => some ⟨o, r⟩
  | _ => none

def coreEvents (es : List TextEv) : List Ev := es.filterMap coreEv

@[simp] theorem coreEv_text (e : Ev) : coreEv e.text = some e := rfl

theorem coreEvents_append (es₁ es₂ : List TextEv) :
    coreEvents (es₁ ++ es₂) = coreEvents es₁ ++ coreEvents es₂ := List.filterMap_append

theorem coreEvents_text (es : List Ev) : coreEvents (es.map Ev.text) = es := by
  rw [coreEvents, List.filterMap_map]
  exact List.filterMap_some

theorem foldl_coreEvents {G : Type} (f : G → Ev → G) (g : G) (es : List TextEv) :
    (coreEvents es).foldl f g = es.foldl (fun g e => (coreEv e).toList.foldl f g) g := by
  induction es generalizing g with
  | nil => rfl
  | cons e es ih =>
    rw [coreEvents, List.filterMap_cons, List.foldl_cons, ← ih]
    cases coreEv e with
    | none => rfl
    | some e₀ => rfl

theorem emits_hands {sinks : List SinkEntry} {es : List TextEv} {cs : List Chunk}
    (h : Hands sinks es cs) : Emits sinks (coreEvents es) cs := by
  induction h with
  | nil => exact .nil
  | chunk c hc _ ih =>
    rw [coreEvents_append, coreEvents_text]
    exact .chunk c hc ih
  | @format e es cs he _ ih =>
    obtain ⟨o, r⟩ := e
    cases o
    case core o =>
      cases o
      case memory => exact .memory r ih
      all_goals cases he
    all_goals exact ih

/-! ### Sections -/

/-- The core of a critical section: a line, or a change of the sink table. -/
inductive PlainSection (cfg : Config) : List Ev → Prop
  | line (slots : ℕ → SinkEntry) (clock : Option ℕ) (cs : List Chunk) (body : List Ev) :
      Emits (live slots (List.range cfg.maxSinks)) body cs →
      PlainSection cfg (lineOpening cfg slots ++ (clockReads clock ++
        (body ++ finishing (live slots (List.range cfg.maxSinks)))))
  | add (e : SinkEntry) (r : Err) (b : List Ev) : e.sink ≠ 0 → AddSection cfg e r b →
      PlainSection cfg b
  | remove (e : SinkEntry) (r : Err) (b : List Ev) : RemoveSection cfg e r b → PlainSection cfg b

def TextSection (cfg : Config) (b : List TextEv) : Prop := PlainSection cfg (coreEvents b)

theorem LineSection.plain {cfg : Config} {slots : ℕ → SinkEntry} {line : Line} {b : List TextEv}
    (h : LineSection cfg slots line b) : TextSection cfg b := by
  obtain ⟨body, hbody, -, rfl⟩ := h
  have hline : PlainSection cfg _ := .line slots line.clock line.chunks _ (emits_hands hbody)
  rw [TextSection, coreEvents_append, coreEvents_append, coreEvents_text, coreEvents_text,
    List.append_assoc]
  exact hline

section Discipline

variable {Tid : Type}

/-- Events between the lock and the unlock. -/
def Amid (Tid : Type) (b : List TextEv) : Prop := ∀ e ∈ b,
  (textLockSpec Tid).isLock e.op = false ∧ (textLockSpec Tid).isUnlock e.op = false

theorem TextInside.amid {b : List TextEv} (h : TextInside b) : Amid Tid b := by
  intro e he
  have hin := h e he
  obtain ⟨o, r⟩ := e
  cases o
  case core o => cases o <;> first | exact ⟨rfl, rfl⟩ | cases hin
  all_goals exact ⟨rfl, rfl⟩

theorem TextSerial.disciplined {cfg : Config} {n n' : UInt32} {es : List TextEv} {ls : List Line}
    (h : TextSerial cfg n es n' ls) :
    Steps ((textLockSpec Tid).Discipline (TextSection cfg)) none es none := by
  have sec : ∀ {b es : List TextEv}, Amid Tid b → TextSection cfg b →
      Steps ((textLockSpec Tid).Discipline (TextSection cfg)) none es none →
      Steps ((textLockSpec Tid).Discipline (TextSection cfg)) none
        (⟨.core .emitLock, ()⟩ :: b ++ ⟨.core .emitUnlock, ()⟩ :: es) none := by
    intro b es hamid hb hes
    have hsec := (textLockSpec Tid).steps_section (a := ⟨.core .emitLock, ()⟩)
      (z := ⟨.core .emitUnlock, ()⟩) rfl rfl hamid hb
    have hall := steps_append.mpr ⟨none, hsec, hes⟩
    rwa [List.append_assoc] at hall
  induction h with
  | nil => rfl
  | quiet e he _ ih =>
    refine ⟨none, Or.inr ⟨?_, ?_, ?_, rfl⟩, ih⟩
    all_goals
      obtain ⟨o, r⟩ := e
      cases o
      case core o => cases o <;> first | rfl | cases he
      all_goals first | rfl | cases he
  | exchange raw _ ih => exact ⟨none, Or.inr ⟨rfl, rfl, rfl, rfl⟩, ih⟩
  | line line hl _ ih =>
    obtain ⟨slots, b, hb, rfl⟩ := hl
    rw [List.append_assoc]
    exact sec hb.inside.amid hb.plain ih
  | table b hb _ ih =>
    have hplain : PlainSection cfg b := by
      rcases hb with ⟨e, r, he, hb⟩ | ⟨e, r, hb⟩
      · exact .add e r b he hb
      · exact .remove e r b hb
    have hinside := inside_tableSection (tableSection_of hb)
    refine sec (textInside_core hinside).amid ?_ ih
    rw [TextSection, coreEvents_text]
    exact hplain

theorem textBody_disciplined {cfg : Config} {f : Formatters} (call : TextCall) (es : List TextEv)
    (v : Res) (h : (textBody cfg f call).Path es v) :
    Steps ((textLockSpec Tid).Discipline (TextSection cfg)) none es none := by
  obtain ⟨ls, hls⟩ := textWrites_textBody h
  exact hls.serial.disciplined

end Discipline

/-! ### Lines, event by event -/

/-- The time and the chunks of the line in progress. -/
def handStep (g : Option ℕ × List Chunk) (e : Ev) : Option ℕ × List Chunk :=
  match e with
  | ⟨.timestampMs, now⟩ => (some now, g.2)
  | ⟨.stream (.payload c), _⟩ => (g.1, g.2 ++ [c])
  | ⟨.stream .finish, _⟩ => (none, [])
  | _ => g

structure Sheet where
  clock : Option ℕ
  chunks : List Chunk
  sinks : List SinkEntry

structure Page where
  table : ℕ → SinkEntry
  hand : Option ℕ × List Chunk
  sheets : List Sheet

def pageStep (cfg : Config) (w : Page) (e : Ev) : Page where
  table :=
    match e.op with
    | .storeSlot i entry => Function.update w.table i entry
    | _ => w.table
  hand := handStep w.hand e
  sheets :=
    match e.op with
    | .stream .finish => w.sheets ++ [⟨w.hand.1, w.hand.2, registered cfg w.table⟩]
    | _ => w.sheets

def Page.empty : Page := ⟨fun _ => SinkEntry.free, (none, []), []⟩

def pageOf (cfg : Config) (es : List Ev) : Page := es.foldl (pageStep cfg) Page.empty

section Replay

variable {cfg : Config} {es b : List Ev} {sinks : List SinkEntry} {cs : List Chunk}

theorem pageOf_append (es₁ es₂ : List Ev) :
    pageOf cfg (es₁ ++ es₂) = es₂.foldl (pageStep cfg) (pageOf cfg es₁) := List.foldl_append

theorem foldl_pageStep_hand (es : List Ev) (w : Page) :
    (es.foldl (pageStep cfg) w).hand = es.foldl handStep w.hand := by
  induction es generalizing w with
  | nil => rfl
  | cons e es ih => exact ih (pageStep cfg w e)

theorem foldl_pageStep_table (es : List Ev) {w : Page} {w' : Wire} (h : w.table = w'.table) :
    (es.foldl (pageStep cfg) w).table = (es.foldl (wireStep cfg) w').table := by
  induction es generalizing w w' with
  | nil => exact h
  | cons e es ih =>
    refine ih ?_
    obtain ⟨o, r⟩ := e
    cases o
    case storeSlot i entry => exact congrArg (Function.update · i entry) h
    case stream call => cases call <;> exact h
    all_goals exact h

theorem pageOf_table (es : List Ev) : (pageOf cfg es).table = (wireOf cfg es).table :=
  foldl_pageStep_table es rfl

theorem foldl_pageStep_sheets (h : ∀ e ∈ es, e.op ≠ .stream .finish) (w : Page) :
    (es.foldl (pageStep cfg) w).sheets = w.sheets := by
  induction es generalizing w with
  | nil => rfl
  | cons e es ih =>
    rw [List.foldl_cons, ih fun e he => h e (List.mem_cons_of_mem _ he)]
    have he := h e (List.mem_cons_self ..)
    obtain ⟨o, r⟩ := e
    cases o
    case stream call =>
      cases call with
      | finish => exact absurd rfl he
      | start origin header => rfl
      | payload c => rfl
    all_goals rfl

/-! ### What a line does -/

theorem foldl_handStep_calls (sinks : List SinkEntry) (c : SinkCall)
    (g : Option ℕ × List Chunk) :
    (sinks.map fun e => (⟨.call e c, ()⟩ : Ev)).foldl handStep g = g := by
  induction sinks with
  | nil => rfl
  | cons s sinks ih => exact ih

theorem foldl_handStep_slotReads (slots : ℕ → SinkEntry) (is : List ℕ)
    (g : Option ℕ × List Chunk) : (slotReads slots is).foldl handStep g = g := by
  induction is with
  | nil => rfl
  | cons i is ih => exact ih

theorem foldl_handStep_silent (h : Silent es) (g : Option ℕ × List Chunk) :
    es.foldl handStep g = g := by
  induction es with
  | nil => rfl
  | cons e es ih =>
    obtain ⟨hstream, -, hclock⟩ := h e (List.mem_cons_self ..)
    rw [List.foldl_cons, show handStep g e = g from ?_]
    · exact ih fun e he => h e (List.mem_cons_of_mem _ he)
    · obtain ⟨o, r⟩ := e
      cases o
      case stream call => exact absurd rfl (hstream call)
      case timestampMs => exact absurd rfl hclock
      all_goals rfl

theorem foldl_handStep_opening (slots : ℕ → SinkEntry) (clock : Option ℕ) :
    (lineOpening cfg slots ++ clockReads clock).foldl handStep (none, []) = (clock, []) := by
  rw [lineOpening, List.foldl_append, List.foldl_append, foldl_handStep_slotReads,
    foldl_handStep_calls]
  cases clock <;> rfl

theorem foldl_handStep_emits (h : Emits sinks es cs) (g : Option ℕ × List Chunk) :
    es.foldl handStep g = (g.1, g.2 ++ cs) := by
  induction h generalizing g with
  | nil => exact Prod.ext rfl (List.append_nil _).symm
  | memory mem _ ih => exact ih g
  | chunk c _ _ ih =>
    rw [List.foldl_append, broadcast, List.foldl_cons, foldl_handStep_calls, ih]
    exact Prod.ext rfl (List.append_assoc ..)

/-- Everything of a line but the record of its end. -/
def lineInside (cfg : Config) (slots : ℕ → SinkEntry) (clock : Option ℕ) (body : List Ev) :
    List Ev :=
  lineOpening cfg slots ++ clockReads clock ++ (body ++
    (live slots (List.range cfg.maxSinks)).map fun e => ⟨.call e .endCb, ()⟩)

theorem lineInside_finish (slots : ℕ → SinkEntry) (clock : Option ℕ) (body : List Ev) :
    lineOpening cfg slots ++ (clockReads clock ++
      (body ++ finishing (live slots (List.range cfg.maxSinks)))) =
        lineInside cfg slots clock body ++ [⟨.stream .finish, ()⟩] := by
  simp only [lineInside, finishing, List.append_assoc]

theorem foldl_handStep_inside {slots : ℕ → SinkEntry} {clock : Option ℕ} {body : List Ev}
    (h : Emits (live slots (List.range cfg.maxSinks)) body cs) :
    (lineInside cfg slots clock body).foldl handStep (none, []) = (clock, cs) := by
  rw [lineInside, List.foldl_append, foldl_handStep_opening, List.foldl_append,
    foldl_handStep_emits h, foldl_handStep_calls]
  rfl

theorem mem_lineInside {slots : ℕ → SinkEntry} {clock : Option ℕ} {body : List Ev}
    (h : Emits (live slots (List.range cfg.maxSinks)) body cs) {e : Ev}
    (he : e ∈ lineInside cfg slots clock body) :
    (∃ i slot, e = ⟨.loadSlot i, slot⟩) ∨ (∃ now, e = ⟨.timestampMs, now⟩) ∨
      (∃ mem, e = ⟨.memory, mem⟩) ∨ (∃ c, e = ⟨.stream (.payload c), ()⟩) ∨
      ∃ s c, e = ⟨.call s c, ()⟩ := by
  simp only [lineInside, lineOpening, List.mem_append] at he
  rcases he with ((he | he) | he) | he | he
  · obtain ⟨i, -, rfl⟩ := List.mem_map.mp he
    exact Or.inl ⟨i, _, rfl⟩
  · obtain ⟨s, -, rfl⟩ := List.mem_map.mp he
    exact Or.inr (Or.inr (Or.inr (Or.inr ⟨s, _, rfl⟩)))
  · obtain ⟨now, -, rfl⟩ := List.mem_map.mp he
    exact Or.inr (Or.inl ⟨now, rfl⟩)
  · exact Or.inr (Or.inr (inner_emits h e he))
  · obtain ⟨s, -, rfl⟩ := List.mem_map.mp he
    exact Or.inr (Or.inr (Or.inr (Or.inr ⟨s, _, rfl⟩)))

theorem readings_inside {slots : ℕ → SinkEntry} {clock : Option ℕ} {body : List Ev}
    (h : Emits (live slots (List.range cfg.maxSinks)) body cs) :
    readings (lineInside cfg slots clock body) = clock.toList := by
  have hcalls : ∀ (sinks : List SinkEntry) (c : SinkCall),
      readings (sinks.map fun e => (⟨.call e c, ()⟩ : Ev)) = [] := fun sinks c =>
    readings_streaming (inner_calls sinks c).streaming
  rw [lineInside, lineOpening, readings_append, readings_append, readings_append, readings_append,
    readings_slotReads, hcalls, hcalls, readings_streaming (inner_emits h).streaming,
    List.append_nil, List.append_nil]
  cases clock <;> rfl

/-! ### What a sink gets of a line, as far as it has come -/

variable {e : SinkEntry}

theorem sinkCalls_opening {slots : ℕ → SinkEntry} (clock : Option ℕ)
    (hnd : (live slots (List.range cfg.maxSinks)).Nodup) :
    sinkCalls e (lineOpening cfg slots ++ clockReads clock) =
      if e ∈ live slots (List.range cfg.maxSinks) then [.startCb none] else [] := by
  have hclock : sinkCalls e (clockReads clock) = [] := by
    cases clock <;> rfl
  rw [lineOpening, sinkCalls_append, sinkCalls_append, sinkCalls_slotReads, sinkCalls_calls hnd,
    hclock, List.append_nil, List.nil_append]

theorem sinkCalls_inside {slots : ℕ → SinkEntry} {clock : Option ℕ} {body : List Ev}
    (hnd : (live slots (List.range cfg.maxSinks)).Nodup)
    (h : Emits (live slots (List.range cfg.maxSinks)) body cs) :
    sinkCalls e (lineInside cfg slots clock body) =
      if e ∈ live slots (List.range cfg.maxSinks) then lineCalls cs else [] := by
  rw [lineInside, sinkCalls_append, sinkCalls_opening clock hnd, sinkCalls_append,
    sinkCalls_emits hnd e h, sinkCalls_calls hnd]
  by_cases he : e ∈ live slots (List.range cfg.maxSinks)
  · simp only [if_pos he]
    rfl
  · simp only [if_neg he]
    rfl

theorem part_append {α : Type} {b l₁ l₂ : List α} (h : b <+: l₁ ++ l₂) :
    b <+: l₁ ∨ ∃ b₁, b = l₁ ++ b₁ ∧ b₁ <+: l₂ := by
  obtain ⟨rest, hrest⟩ := h
  rcases List.append_eq_append_iff.mp hrest with ⟨a, rfl, -⟩ | ⟨a, rfl, rfl⟩
  · exact Or.inl (List.prefix_append _ _)
  · exact Or.inr ⟨a, rfl, List.prefix_append _ _⟩

theorem sinkCalls_part {l : List Ev} (h : b <+: l) : sinkCalls e b <+: sinkCalls e l :=
  h.filterMap _

/-- A chunk is recorded before the sink gets it. -/
theorem emits_part (hnd : sinks.Nodup) (he : e ∈ sinks) (h : Emits sinks es cs) (hb : b <+: es) :
    ∃ cs₁, (∀ g, b.foldl handStep g = (g.1, g.2 ++ cs₁)) ∧
      sinkCalls e b <+: cs₁.map .payloadCb := by
  induction h generalizing b with
  | nil =>
    rw [List.prefix_nil.mp hb]
    exact ⟨[], fun g => by simp, List.prefix_rfl⟩
  | memory mem _ ih =>
    rcases List.prefix_cons_iff.mp hb with rfl | ⟨b₁, rfl, hb₁⟩
    · exact ⟨[], fun g => by simp, List.prefix_rfl⟩
    · obtain ⟨cs₁, hhand, hcalls⟩ := ih hb₁
      exact ⟨cs₁, hhand, hcalls⟩
  | chunk c hc _ ih =>
    have hone := sinkCalls_broadcast hnd e (.payload c)
    rw [if_pos he] at hone
    rcases part_append hb with hb | ⟨b₁, rfl, hb₁⟩
    · rcases List.prefix_cons_iff.mp hb with rfl | ⟨b₁, rfl, hb₁⟩
      · exact ⟨[], fun g => by simp, List.prefix_rfl⟩
      · obtain ⟨some₁, -, rfl⟩ := List.prefix_map_iff.mp hb₁
        refine ⟨[c], fun g => ?_, ?_⟩
        · rw [List.foldl_cons, foldl_handStep_calls]
          rfl
        · have hpart := sinkCalls_part (e := e) hb
          rwa [hone] at hpart
    · obtain ⟨cs₁, hhand, hcalls⟩ := ih hb₁
      refine ⟨c :: cs₁, fun g => ?_, ?_⟩
      · have hchunk : Emits sinks (broadcast sinks (.payload c) ++ []) [c] := .chunk c hc .nil
        have hwhole := foldl_handStep_emits hchunk g
        rw [List.append_nil] at hwhole
        rw [List.foldl_append, hwhole, hhand, List.append_assoc]
        rfl
      · rw [sinkCalls_append, hone]
        exact List.cons_prefix_cons.mpr ⟨rfl, hcalls⟩

/-- Cut anywhere before its end, a line has gone to a sink no further than it is recorded. -/
theorem inside_part {slots : ℕ → SinkEntry} {clock : Option ℕ} {body : List Ev}
    (hnd : (live slots (List.range cfg.maxSinks)).Nodup)
    (h : Emits (live slots (List.range cfg.maxSinks)) body cs)
    (hb : b <+: lineInside cfg slots clock body) :
    sinkCalls e b <+: lineCalls (b.foldl handStep (none, [])).2 := by
  by_cases he : e ∈ live slots (List.range cfg.maxSinks)
  swap
  · have hpart := sinkCalls_part (e := e) hb
    rw [sinkCalls_inside hnd h, if_neg he] at hpart
    rw [List.prefix_nil.mp hpart]
    exact List.nil_prefix
  have hopen := sinkCalls_opening (e := e) clock hnd
  rw [if_pos he] at hopen
  rcases part_append hb with hb | ⟨b₁, rfl, hb₁⟩
  · have hpart := sinkCalls_part (e := e) hb
    rw [hopen] at hpart
    exact hpart.trans ⟨_, rfl⟩
  rw [sinkCalls_append, hopen, List.foldl_append, foldl_handStep_opening]
  refine List.cons_prefix_cons.mpr ⟨rfl, ?_⟩
  rcases part_append hb₁ with hb₁ | ⟨b₂, rfl, hb₂⟩
  · obtain ⟨cs₁, hhand, hcalls⟩ := emits_part hnd he h hb₁
    rw [hhand]
    exact hcalls.trans (List.prefix_append _ _)
  · obtain ⟨some₂, -, rfl⟩ := List.prefix_map_iff.mp hb₂
    have hlast := sinkCalls_part (e := e) hb₂
    rw [sinkCalls_calls hnd, if_pos he] at hlast
    rw [sinkCalls_append, sinkCalls_emits hnd e h, if_pos he, List.foldl_append,
      foldl_handStep_emits h, foldl_handStep_calls]
    show cs.map SinkCall.payloadCb ++ _ <+: cs.map SinkCall.payloadCb ++ [SinkCall.endCb]
    exact (List.prefix_append_right_inj _).mpr hlast

end Replay

/-! ### Between two sections -/

section Settled

variable {cfg : Config} {es b b' : List Ev} {x x' x₁ : Emit}

/-- The callbacks of the lines `e` was registered for. -/
def callsTo (e : SinkEntry) (sheets : List Sheet) : List SinkCall :=
  (sheets.filter fun sheet => e ∈ sheet.sinks).flatMap fun sheet => lineCalls sheet.chunks

def sheetClocks (sheets : List Sheet) : List ℕ := sheets.filterMap Sheet.clock

structure PlainSettled (cfg : Config) (es : List Ev) (x : Emit) : Prop where
  table : (pageOf cfg es).table = x.sinks
  hand : (pageOf cfg es).hand = (none, [])
  ok : TableOk cfg x.sinks
  calls : ∀ e, sinkCalls e es = callsTo e (pageOf cfg es).sheets
  clocks : sheetClocks (pageOf cfg es).sheets = readings es

/-- The same anywhere: of the line in progress a sink has got a beginning. -/
structure PlainProgress (cfg : Config) (es : List Ev) (x : Emit) : Prop where
  table : (pageOf cfg es).table = x.sinks
  calls : ∀ e, ∃ part, sinkCalls e es = callsTo e (pageOf cfg es).sheets ++ part ∧
    (part = [] ∨ e ∈ registered cfg x.sinks ∧ part <+: lineCalls (pageOf cfg es).hand.2)
  clocks : (sheetClocks (pageOf cfg es).sheets).Sublist (readings es)

theorem plainSettled_nil (cfg : Config) : PlainSettled cfg [] ⟨fun _ => SinkEntry.free, 0⟩ where
  table := rfl
  hand := rfl
  ok := (settled_nil cfg).ok
  calls _ := rfl
  clocks := rfl

theorem PlainSettled.progress (h : PlainSettled cfg es x) : PlainProgress cfg es x where
  table := h.table
  calls e := ⟨[], by rw [h.calls e, List.append_nil], Or.inl rfl⟩
  clocks := by rw [h.clocks]

theorem page_table (h : (pageOf cfg es).table = x.sinks) (hs : Steps (emitStep cfg) x b x') :
    (pageOf cfg (es ++ b)).table = x'.sinks := by
  rw [pageOf_table] at h ⊢
  rw [wireOf_append]
  exact steps_table hs h

/-- Events that are no part of a line. -/
theorem PlainSettled.silent (h : PlainSettled cfg es x) (hb : Silent b)
    (hs : Steps (emitStep cfg) x b x') (hok : TableOk cfg x'.sinks) :
    PlainSettled cfg (es ++ b) x' := by
  have hsheets : (pageOf cfg (es ++ b)).sheets = (pageOf cfg es).sheets := by
    rw [pageOf_append]
    exact foldl_pageStep_sheets (fun e he => (hb e he).1 _) _
  refine ⟨page_table h.table hs, ?_, hok, fun e => ?_, ?_⟩
  · rw [pageOf_append, foldl_pageStep_hand, foldl_handStep_silent hb]
    exact h.hand
  · rw [hsheets, sinkCalls_append, sinkCalls_noCall (fun e he => (hb e he).2.1), List.append_nil]
    exact h.calls e
  · rw [hsheets, readings_append, readings_eq_nil (fun e he => (hb e he).2.2), List.append_nil]
    exact h.clocks

theorem PlainSettled.store {i : ℕ} {l : List Ev} {e : SinkEntry} (h : PlainSettled cfg es x)
    (hl : OnlyLoads l) (hs : Steps (emitStep cfg) x (l ++ [⟨.storeSlot i e, ()⟩]) x')
    (hok : TableIs x.sinks l → TableOk cfg (Function.update x.sinks i e)) :
    PlainSettled cfg (es ++ (l ++ [⟨.storeSlot i e, ()⟩])) x' := by
  obtain ⟨x₁, h₁, x₂, h₂, h₃⟩ := steps_append.mp hs
  obtain ⟨hx₁, ht⟩ := steps_onlyLoads hl h₁
  have hx' : x' = { x with sinks := Function.update x.sinks i e } := by
    rw [show x' = x₂ from h₃, show x₂ = _ from h₂, hx₁]
  refine h.silent (silent_store hl i e) hs ?_
  rw [hx']
  exact hok ht

theorem PlainSettled.loads (h : PlainSettled cfg es x) (hl : OnlyLoads b)
    (hs : Steps (emitStep cfg) x b x') : PlainSettled cfg (es ++ b) x' := by
  obtain ⟨hx, -⟩ := steps_onlyLoads hl hs
  refine h.silent (silent_onlyLoads hl) hs ?_
  rw [hx]
  exact h.ok

/-- The slots a line reads are those of the table, which it leaves as it is. -/
theorem steps_inside {slots : ℕ → SinkEntry} {clock : Option ℕ} {cs : List Chunk}
    {body : List Ev} (h : Emits (live slots (List.range cfg.maxSinks)) body cs)
    (hb : b <+: lineInside cfg slots clock body) (hs : Steps (emitStep cfg) x b x') : x' = x := by
  have hplain : ∀ e ∈ b, ∀ y y', emitStep cfg y e y' → y' = y := by
    intro e he y y' hstep
    rcases mem_lineInside h (hb.subset he) with ⟨i, slot, rfl⟩ | ⟨now, rfl⟩ | ⟨mem, rfl⟩ |
      ⟨c, rfl⟩ | ⟨s, c, rfl⟩
    · exact hstep.2
    all_goals exact hstep
  clear hb h
  induction b generalizing x with
  | nil => exact hs
  | cons e b ih =>
    obtain ⟨x₁, h₁, h₂⟩ := hs
    rw [← hplain e (List.mem_cons_self ..) _ _ h₁]
    exact ih h₂ fun e he => hplain e (List.mem_cons_of_mem _ he)

theorem live_inside {slots : ℕ → SinkEntry} {clock : Option ℕ} {body rest : List Ev}
    (hs : Steps (emitStep cfg) x (lineInside cfg slots clock body ++ rest) x') :
    live slots (List.range cfg.maxSinks) = registered cfg x.sinks := by
  simp only [lineInside, lineOpening, List.append_assoc] at hs
  obtain ⟨x₁, h₁, -⟩ := steps_append.mp hs
  exact live_congr (steps_slotReads h₁).2

theorem sheets_inside {slots : ℕ → SinkEntry} {clock : Option ℕ} {cs : List Chunk}
    {body : List Ev} (h : Emits (live slots (List.range cfg.maxSinks)) body cs)
    (hb : b <+: lineInside cfg slots clock body) :
    (pageOf cfg (es ++ b)).sheets = (pageOf cfg es).sheets := by
  rw [pageOf_append]
  refine foldl_pageStep_sheets (fun e he => ?_) _
  rcases mem_lineInside h (hb.subset he) with ⟨i, slot, rfl⟩ | ⟨now, rfl⟩ | ⟨mem, rfl⟩ |
    ⟨c, rfl⟩ | ⟨s, c, rfl⟩ <;> simp

/-- A part of a line before its end. -/
theorem PlainSettled.part_line {slots : ℕ → SinkEntry} {clock : Option ℕ} {cs : List Chunk}
    {body : List Ev} (h : PlainSettled cfg es x)
    (hbody : Emits (live slots (List.range cfg.maxSinks)) body cs)
    (hlive : live slots (List.range cfg.maxSinks) = registered cfg x.sinks)
    (hb : b <+: lineInside cfg slots clock body) (hs : Steps (emitStep cfg) x b x') :
    PlainProgress cfg (es ++ b) x' := by
  have hnd : (live slots (List.range cfg.maxSinks)).Nodup := by
    rw [hlive]
    exact nodup_registered h.ok
  have hsheets : (pageOf cfg (es ++ b)).sheets = (pageOf cfg es).sheets := sheets_inside hbody hb
  have hx := steps_inside hbody hb hs
  refine ⟨page_table h.table hs, fun e => ⟨sinkCalls e b, ?_, ?_⟩, ?_⟩
  · rw [hsheets, sinkCalls_append, h.calls]
  · by_cases he : e ∈ registered cfg x.sinks
    · rw [hx, pageOf_append, foldl_pageStep_hand, h.hand]
      exact Or.inr ⟨he, inside_part hnd hbody hb⟩
    · have hpart := sinkCalls_part (e := e) hb
      rw [sinkCalls_inside hnd hbody, hlive, if_neg he] at hpart
      exact Or.inl (List.prefix_nil.mp hpart)
  · rw [hsheets, readings_append, h.clocks]
    exact List.sublist_append_left _ _

theorem PlainSettled.line {slots : ℕ → SinkEntry} {clock : Option ℕ} {cs : List Chunk}
    {body : List Ev} (h : PlainSettled cfg es x)
    (hbody : Emits (live slots (List.range cfg.maxSinks)) body cs)
    (hs : Steps (emitStep cfg) x (lineInside cfg slots clock body ++ [⟨.stream .finish, ()⟩]) x') :
    PlainSettled cfg (es ++ (lineInside cfg slots clock body ++ [⟨.stream .finish, ()⟩])) x' := by
  have hlive := live_inside hs
  obtain ⟨x₁, h₁, x₂, h₂, h₃⟩ := steps_append.mp hs
  have hx : x' = x := by
    rw [show x' = x₂ from h₃, show x₂ = x₁ from h₂]
    exact steps_inside hbody List.prefix_rfl h₁
  have hnd : (live slots (List.range cfg.maxSinks)).Nodup := by
    rw [hlive]
    exact nodup_registered h.ok
  have hpage : pageOf cfg (es ++ (lineInside cfg slots clock body ++ [⟨.stream .finish, ()⟩])) =
      ⟨x.sinks, (none, []), (pageOf cfg es).sheets ++ [⟨clock, cs, registered cfg x.sinks⟩]⟩ := by
    have htable := page_table h.table h₁
    have hhand : (pageOf cfg (es ++ lineInside cfg slots clock body)).hand = (clock, cs) := by
      rw [pageOf_append, foldl_pageStep_hand, h.hand]
      exact foldl_handStep_inside hbody
    rw [← List.append_assoc, pageOf_append, List.foldl_cons, List.foldl_nil, pageStep, hhand,
      htable, sheets_inside hbody List.prefix_rfl, steps_inside hbody List.prefix_rfl h₁]
    rfl
  refine ⟨?_, ?_, hx ▸ h.ok, fun e => ?_, ?_⟩
  · rw [hpage, hx]
  · rw [hpage]
  · have hend : sinkCalls e [(⟨.stream .finish, ()⟩ : Ev)] = [] := rfl
    rw [hpage, sinkCalls_append, sinkCalls_append, hend, List.append_nil, h.calls,
      sinkCalls_inside hnd hbody, hlive, callsTo, callsTo, List.filter_append, List.flatMap_append]
    by_cases he : e ∈ registered cfg x.sinks
    · simp [he]
    · simp [he]
  · have hend : readings [(⟨.stream .finish, ()⟩ : Ev)] = [] := rfl
    rw [hpage, readings_append, readings_append, hend, List.append_nil, readings_inside hbody,
      ← h.clocks, sheetClocks, sheetClocks, List.filterMap_append]
    cases clock <;> rfl

theorem PlainSettled.sec (h : PlainSettled cfg es x) (hb : PlainSection cfg b)
    (hs : Steps (emitStep cfg) x b x') : PlainSettled cfg (es ++ b) x' := by
  cases hb with
  | line slots clock cs body hbody =>
    rw [lineInside_finish] at hs ⊢
    exact h.line hbody hs
  | add e r _ he hadd =>
    cases hadd with
    | present _ hl _ => exact h.loads hl hs
    | inserted l i hl _ hnew => exact h.store hl hs fun ht => h.ok.insert he (hnew _ ht).1
    | full _ hl _ => exact h.loads hl hs
  | remove e r _ hrem =>
    cases hrem with
    | removed l i hl _ _ => exact h.store hl hs fun _ => h.ok.remove i
    | absent _ hl _ => exact h.loads hl hs

/-- A section cut anywhere. -/
theorem PlainSettled.part (h : PlainSettled cfg es x) (hb : PlainSection cfg (b ++ b'))
    (h₁ : Steps (emitStep cfg) x b x₁) (h₂ : Steps (emitStep cfg) x₁ b' x') :
    PlainProgress cfg (es ++ b) x₁ := by
  by_cases hb' : b' = []
  · subst hb'
    rw [List.append_nil] at hb
    exact (h.sec hb h₁).progress
  have hs := steps_append.mpr ⟨x₁, h₁, h₂⟩
  have htable : TableSection (b ++ b') → PlainProgress cfg (es ++ b) x₁ := fun hshape =>
    (h.loads (onlyLoads_of_append hb' hshape) h₁).progress
  generalize hall : b ++ b' = all at hb hs
  cases hb with
  | line slots clock cs body hbody =>
    rw [lineInside_finish] at hall hs
    have hprefix : b <+: lineInside cfg slots clock body := by
      obtain rfl | ⟨b₁, last, rfl⟩ := List.eq_nil_or_concat' b'
      · exact absurd rfl hb'
      · rw [← List.append_assoc] at hall
        rw [← (List.append_inj' hall rfl).1]
        exact List.prefix_append _ _
    exact h.part_line hbody (live_inside hs) hprefix h₁
  | add e r _ _ hadd => exact htable (hall ▸ hadd.tableSection)
  | remove e r _ hrem => exact htable (hall ▸ hrem.tableSection)

theorem plainSettled_sections {secs : List (List Ev)} (h : PlainSettled cfg es x)
    (hsec : ∀ b ∈ secs, PlainSection cfg b) (hs : Steps (emitStep cfg) x secs.flatten x') :
    PlainSettled cfg (es ++ secs.flatten) x' := by
  induction secs generalizing es x with
  | nil =>
    rw [show x' = x from hs, List.flatten_nil, List.append_nil]
    exact h
  | cons b secs ih =>
    obtain ⟨x₁, h₁, h₂⟩ := steps_append.mp hs
    have hrest := ih (h.sec (hsec b (List.mem_cons_self ..)) h₁)
      (fun b hb => hsec b (List.mem_cons_of_mem _ hb)) h₂
    rwa [List.append_assoc] at hrest

/-- What is in hand is put down at the end of a section. -/
theorem PlainSection.hand (h : PlainSection cfg b) : b.foldl handStep (none, []) = (none, []) := by
  have htable : TableSection b → b.foldl handStep (none, []) = (none, []) := by
    rintro (hl | ⟨l, i, e, hl, rfl⟩)
    · exact foldl_handStep_silent (silent_onlyLoads hl) _
    · exact foldl_handStep_silent (silent_store hl i e) _
  cases h with
  | line slots clock cs body hbody =>
    rw [lineInside_finish, List.foldl_append]
    rfl
  | add e r _ _ hadd => exact htable hadd.tableSection
  | remove e r _ hrem => exact htable hrem.tableSection

end Settled

end On9log
