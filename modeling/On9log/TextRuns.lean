import On9log.Lib.LockFold
import On9log.TextInit
import On9log.TextPage

/-!
# What the sinks see of the plain-text build

`linesOf` lists the lines of a run in the order in which they were finished,
each as its writer's own events give it. A sink gets these lines, whole and in
this order, as far as it is registered, and the beginning of at most one more.
-/

namespace On9log
open Lib

/-! ### Lines as they are finished -/

/-- A line, who wrote it, and who was registered for it. -/
structure LineOut (Tid : Type) where
  writer : Tid
  line : Line
  sinks : List SinkEntry

def TextOp.finishes : TextOp → Bool
  | .core (.stream .finish) => true
  | _ => false

section Lines

variable {Tid : Type} [DecidableEq Tid] {cfg : Config}

/-- The line `t` is at, by what it has done itself. -/
def draftOf (t : Tid) (tr : TextTrace Tid) : Line :=
  ((threadEvents t tr).foldl lineStep (Line.blank, [])).1

variable (cfg) in
/-- The lines finished so far, oldest first. -/
def linesOf : TextTrace Tid → List (LineOut Tid)
  | [] => []
  | .act t e :: tr => linesOf tr ++
      if e.op.finishes then
        [⟨t, draftOf t tr, registered cfg (wireOf cfg (coreEvents (actEvents tr))).table⟩]
      else []
  | .invoke _ _ :: tr => linesOf tr
  | .ret _ _ _ :: tr => linesOf tr

def linesBy (t : Tid) (ws : List (LineOut Tid)) : List Line :=
  (ws.filter fun w => w.writer = t).map LineOut.line

theorem finishes_eq {o : TextOp} (h : o.finishes = true) : o = .core (.stream .finish) := by
  cases o
  case core o =>
    cases o
    case stream call =>
      cases call with
      | finish => rfl
      | start origin header => cases h
      | payload c => cases h
    all_goals cases h
  all_goals cases h

omit [DecidableEq Tid] in
theorem lineStep_snd (g : Line × List Line) (e : TextEv) :
    (lineStep g e).2 = g.2 ++ if e.op.finishes then [g.1] else [] := by
  obtain ⟨o, r⟩ := e
  cases o
  case core o =>
    cases o
    case stream call =>
      cases call with
      | finish => rfl
      | start origin header => exact (List.append_nil _).symm
      | payload c => exact (List.append_nil _).symm
    all_goals exact (List.append_nil _).symm
  all_goals exact (List.append_nil _).symm

/-- The lines of one thread are those its own events give. -/
theorem linesBy_linesOf (t : Tid) (tr : TextTrace Tid) :
    linesBy t (linesOf cfg tr) = linesIn (threadEvents t tr) := by
  induction tr with
  | nil => rfl
  | cons l tr ih =>
    cases l with
    | invoke u call => exact ih
    | ret u call v => exact ih
    | act u e =>
      rw [linesOf, linesBy, List.filter_append, List.map_append]
      by_cases hut : u = t
      · subst hut
        rw [threadEvents, if_pos rfl, linesIn, List.foldl_append, List.foldl_cons, List.foldl_nil,
          lineStep_snd]
        refine congrArg₂ _ ih ?_
        cases e.op.finishes with
        | true => simp [draftOf]
        | false => rfl
      · rw [threadEvents, if_neg hut]
        refine (congrArg₂ _ ih ?_).trans (List.append_nil _)
        cases e.op.finishes with
        | true => simp [hut]
        | false => rfl

def LineOut.sheet (w : LineOut Tid) : Sheet := ⟨w.line.clock, w.line.chunks, w.sinks⟩

/-! ### The writer's line is the one in hand -/

def handOf (g : Option ℕ × List Chunk) (e : TextEv) : Option ℕ × List Chunk :=
  (coreEv e).toList.foldl handStep g

omit [DecidableEq Tid] in
theorem guards_hand : (textLockSpec Tid).Guards handOf := by
  rintro g ⟨o, r⟩ he
  cases o
  case core o =>
    cases o
    case timestampMs => cases he
    case stream => cases he
    all_goals rfl
  all_goals rfl

omit [DecidableEq Tid] in
theorem lineStep_hand (g : Line × List Line) (e : TextEv) :
    ((lineStep g e).1.clock, (lineStep g e).1.chunks) = handOf (g.1.clock, g.1.chunks) e := by
  obtain ⟨o, r⟩ := e
  cases o
  case core o =>
    cases o
    case stream call => cases call <;> rfl
    all_goals rfl
  all_goals rfl

omit [DecidableEq Tid] in
theorem foldl_lineStep_hand (es : List TextEv) (g : Line × List Line) :
    ((es.foldl lineStep g).1.clock, (es.foldl lineStep g).1.chunks) =
      es.foldl handOf (g.1.clock, g.1.chunks) := by
  induction es generalizing g with
  | nil => rfl
  | cons e es ih =>
    rw [List.foldl_cons, List.foldl_cons, ih, lineStep_hand]

theorem hand_of_section {b : List TextEv} (h : TextSection cfg b) :
    b.foldl handOf (none, []) = (none, []) :=
  (foldl_coreEvents handStep (none, []) b).symm.trans (PlainSection.hand h)

variable {f : Formatters} {c : Lib.Config Tid TextCall TextOp TextOp.Ret Res (TextShared Tid)}
  {tr : TextTrace Tid}

theorem pageOf_hand (es : List TextEv) :
    (pageOf cfg (coreEvents es)).hand = es.foldl handOf (none, []) := by
  rw [pageOf, foldl_pageStep_hand]
  exact foldl_coreEvents handStep (none, []) es

/-- The holder of the lock is at the line in hand. -/
theorem draft_run (h : (textSystem Tid cfg f).Run c tr) {t : Tid}
    (ht : (textLockSpec Tid).holder tr = some t) :
    ((draftOf t tr).clock, (draftOf t tr).chunks) =
      (pageOf cfg (coreEvents (actEvents tr))).hand := by
  have hthread := (textLockSpec Tid).thread_fold (mutex_textLock cfg f) textBody_disciplined
    guards_hand (fun _ => hand_of_section) h t
  rw [if_pos ht] at hthread
  rw [draftOf, foldl_lineStep_hand, pageOf_hand,
    (textLockSpec Tid).act_fold (mutex_textLock cfg f) textBody_disciplined guards_hand h,
    (textLockSpec Tid).locked_fold (mutex_textLock cfg f) textBody_disciplined
      (fun _ => hand_of_section) h]
  exact hthread

theorem linesOf_sheets (h : (textSystem Tid cfg f).Run c tr) :
    (linesOf cfg tr).map LineOut.sheet = (pageOf cfg (coreEvents (actEvents tr))).sheets := by
  induction h with
  | init => rfl
  | invoke t call _ _ ih => exact ih
  | ret t call v _ _ ih => exact ih
  | @act c tr t call o k r s' hrun ht hs ih =>
    have hnext := System.Run.act t call o k r s' hrun ht hs
    rw [linesOf, List.map_append, ih, actEvents, coreEvents_append, pageOf_append]
    cases hfin : o.finishes with
    | false =>
      have hplain : ∀ e ∈ coreEvents [(⟨o, r⟩ : TextEv)], e.op ≠ .stream .finish := by
        intro e he
        obtain ⟨e', he', hcore⟩ := List.mem_filterMap.mp he
        obtain rfl := List.mem_singleton.mp he'
        cases o
        case core o =>
          obtain rfl := Option.some.inj hcore
          rintro rfl
          cases hfin
        all_goals cases hcore
      rw [foldl_pageStep_sheets hplain]
      exact List.append_nil _
    | true =>
      obtain rfl := finishes_eq hfin
      have hholder : (textLockSpec Tid).holder tr = some t := by
        rcases (textLockSpec Tid).act_cases (mutex_textLock cfg f) textBody_disciplined hnext with
          ⟨hl, -⟩ | ⟨-, hu, -⟩ | ⟨-, -, hh⟩ | ⟨-, -, -, hg⟩
        · cases hl
        · cases hu
        · exact hh
        · cases hg
      have hdraft := draft_run hrun hholder
      show (pageOf cfg _).sheets ++ [(⟨(draftOf t tr).clock, (draftOf t tr).chunks,
        registered cfg (wireOf cfg (coreEvents (actEvents tr))).table⟩ : Sheet)] =
          (pageOf cfg _).sheets ++ [⟨(pageOf cfg (coreEvents (actEvents tr))).hand.1,
            (pageOf cfg (coreEvents (actEvents tr))).hand.2,
            registered cfg (pageOf cfg (coreEvents (actEvents tr))).table⟩]
      rw [pageOf_table, ← hdraft]

end Lines

/-! ### The machine under the lock -/

def plainStep (cfg : Config) (x : Emit) (e : TextEv) (x' : Emit) : Prop :=
  Steps (emitStep cfg) x (coreEv e).toList x'

theorem steps_plain {cfg : Config} {x x' : Emit} {es : List TextEv}
    (h : Steps (plainStep cfg) x es x') : Steps (emitStep cfg) x (coreEvents es) x' := by
  induction es generalizing x with
  | nil => exact h
  | cons e es ih =>
    obtain ⟨x₁, h₁, h₂⟩ := h
    have hcons : coreEvents (e :: es) = (coreEv e).toList ++ coreEvents es := by
      rw [coreEvents, List.filterMap_cons]
      cases coreEv e <;> rfl
    rw [hcons]
    exact steps_append.mpr ⟨x₁, h₁, ih h₂⟩

theorem total_plainStep (cfg : Config) : Total (plainStep cfg) := by
  intro x o
  have r : o.Ret := default
  cases o
  case core o =>
    obtain ⟨r, x', h⟩ := total_emitStep cfg x o
    exact ⟨r, x', x', h, rfl⟩
  all_goals exact ⟨r, x, rfl⟩

section Machine

variable {Tid : Type} {cfg : Config}

/-- A step is one of the core or leaves the core alone. -/
theorem core_step {t : Tid} {o : TextOp} {r : o.Ret} {s s' : TextShared Tid}
    (h : textStep cfg t o r s s') :
    (∃ e : Ev, coreEv ⟨o, r⟩ = some e ∧ step cfg t e.op e.ret s.core s'.core) ∨
      (coreEv ⟨o, r⟩ = none ∧ s'.core = s.core) := by
  cases o
  case core o =>
    obtain ⟨core, hs, rfl⟩ := h
    exact Or.inl ⟨⟨o, r⟩, rfl, hs⟩
  case openCookie =>
    rcases h with ⟨-, rfl⟩ | ⟨-, -, rfl⟩
    · exact Or.inr ⟨rfl, rfl⟩
    · exact Or.inr ⟨rfl, rfl⟩
  case portLock =>
    obtain ⟨-, rfl⟩ := h
    exact Or.inr ⟨rfl, rfl⟩
  case loadStream =>
    obtain ⟨-, rfl⟩ := h
    exact Or.inr ⟨rfl, rfl⟩
  case flockfile =>
    obtain ⟨-, rfl⟩ := h
    exact Or.inr ⟨rfl, rfl⟩
  case loadCookie =>
    obtain ⟨-, rfl⟩ := h
    exact Or.inr ⟨rfl, rfl⟩
  all_goals
    obtain rfl := h
    exact Or.inr ⟨rfl, rfl⟩

theorem plainStep_of_step (t : Tid) (o : TextOp) (r : o.Ret) (s s' : TextShared Tid)
    (h : textStep cfg t o r s s') : plainStep cfg s.core.emit ⟨o, r⟩ s'.core.emit := by
  unfold plainStep
  rcases core_step h with ⟨e, he, hs⟩ | ⟨he, hs⟩
  · rw [he]
    exact ⟨_, emitStep_of_step t e.op e.ret _ _ hs, rfl⟩
  · rw [he, hs]
    rfl

theorem plain_of_unguarded (t : Tid) (o : TextOp) (r : o.Ret) (s s' : TextShared Tid)
    (h : textStep cfg t o r s s') (hu : (textLockSpec Tid).guarded o = false) :
    s'.core.emit = s.core.emit := by
  have hs := plainStep_of_step t o r s s' h
  cases o
  case core o =>
    obtain ⟨core, hcore, rfl⟩ := h
    refine emit_of_unguarded t o r _ _ hcore ?_
    cases o <;> first | rfl | cases hu
  all_goals exact hs

theorem readings_one (e : Ev) : (readings [e]).Pairwise (· ≤ ·) := by
  obtain ⟨o, r⟩ := e
  cases o
  case timestampMs => exact List.pairwise_singleton _ _
  all_goals exact .nil

theorem clock_step {t : Tid} {o : Op} {r : o.Ret} {s s' : Shared Tid} (h : step cfg t o r s s') :
    s.clock ≤ s'.clock ∧
      ∀ now ∈ readings [(⟨o, r⟩ : Ev)], s.clock ≤ now ∧ now ≤ s'.clock := by
  cases o
  case timestampMs =>
    obtain ⟨hle, rfl⟩ := h
    refine ⟨hle, fun now hnow => ?_⟩
    rw [List.mem_singleton.mp hnow]
    exact ⟨hle, Nat.le_refl _⟩
  case emitLock =>
    obtain ⟨-, rfl⟩ := h
    exact ⟨Nat.le_refl _, fun now hnow => absurd hnow List.not_mem_nil⟩
  case loadSlot =>
    obtain ⟨-, rfl⟩ := h
    exact ⟨Nat.le_refl _, fun now hnow => absurd hnow List.not_mem_nil⟩
  case fetchAddSeq =>
    obtain ⟨-, rfl⟩ := h
    exact ⟨Nat.le_refl _, fun now hnow => absurd hnow List.not_mem_nil⟩
  case exchangeDropped =>
    obtain ⟨-, rfl⟩ := h
    exact ⟨Nat.le_refl _, fun now hnow => absurd hnow List.not_mem_nil⟩
  all_goals
    obtain rfl := h
    exact ⟨Nat.le_refl _, fun now hnow => absurd hnow List.not_mem_nil⟩

end Machine

section Runs

variable {Tid : Type} [DecidableEq Tid] {cfg : Config} {f : Formatters}
  {c : Lib.Config Tid TextCall TextOp TextOp.Ret Res (TextShared Tid)} {tr : TextTrace Tid}

theorem plain_settled (h : (textSystem Tid cfg f).Run c tr) :
    ∃ x, PlainSettled cfg (coreEvents ((textLockSpec Tid).closedSections tr).flatten) x ∧
      Steps (emitStep cfg) x (coreEvents ((textLockSpec Tid).openSection tr))
        c.state.core.emit := by
  have hs := (textLockSpec Tid).locked_steps (mutex_textLock cfg f) textBody_disciplined
    (p := fun s => s.core.emit) (m := plainStep cfg) plainStep_of_step plain_of_unguarded h
  obtain ⟨x, h₁, h₂⟩ := steps_append.mp hs
  have hsec := (textLockSpec Tid).closed_sec (mutex_textLock cfg f) textBody_disciplined h
  have hflat : coreEvents ((textLockSpec Tid).closedSections tr).flatten =
      (((textLockSpec Tid).closedSections tr).map coreEvents).flatten := List.filterMap_flatten
  have h₁' := steps_plain h₁
  rw [hflat] at h₁' ⊢
  refine ⟨x, plainSettled_sections (plainSettled_nil cfg) (fun b hb => ?_) h₁', steps_plain h₂⟩
  obtain ⟨b₀, hb₀, rfl⟩ := List.mem_map.mp hb
  exact hsec b₀ hb₀

theorem plain_locked (h : (textSystem Tid cfg f).Run c tr) :
    PlainProgress cfg (coreEvents ((textLockSpec Tid).lockedEvents tr)) c.state.core.emit ∧
      ((textLockSpec Tid).holder tr = none →
        PlainSettled cfg (coreEvents ((textLockSpec Tid).lockedEvents tr)) c.state.core.emit) := by
  obtain ⟨x, hx, hs⟩ := plain_settled h
  rw [LockSpec.lockedEvents, coreEvents_append]
  cases hh : (textLockSpec Tid).holder tr with
  | none =>
    have hfree := (textLockSpec Tid).openSection_free (mutex_textLock cfg f) textBody_disciplined
      h hh
    have hnone : coreEvents ([] : List TextEv) = [] := rfl
    rw [hfree] at hs ⊢
    rw [show c.state.core.emit = x from hs, hnone, List.append_nil]
    exact ⟨hx.progress, fun _ => hx⟩
  | some t =>
    obtain ⟨b, x', hb, hb'⟩ := (textLockSpec Tid).openSection_completes (mutex_textLock cfg f)
      textBody_disciplined (total_plainStep cfg) h hh c.state.core.emit
    rw [TextSection, coreEvents_append] at hb
    exact ⟨hx.part hb hs (steps_plain hb'), fun hnone => by cases hnone⟩

omit [DecidableEq Tid] in
theorem page_guards (cfg : Config) :
    (textLockSpec Tid).Guards fun w e => (coreEv e).toList.foldl (pageStep cfg) w := by
  rintro w ⟨o, r⟩ he
  cases o
  case core o =>
    cases o
    case timestampMs => cases he
    case storeSlot => cases he
    case stream => cases he
    all_goals rfl
  all_goals rfl

theorem pageOf_locked (h : (textSystem Tid cfg f).Run c tr) :
    pageOf cfg (coreEvents (actEvents tr)) =
      pageOf cfg (coreEvents ((textLockSpec Tid).lockedEvents tr)) := by
  rw [pageOf, pageOf, foldl_coreEvents, foldl_coreEvents,
    (textLockSpec Tid).act_fold (mutex_textLock cfg f) textBody_disciplined (page_guards cfg) h]

omit [DecidableEq Tid] in
theorem sinkCalls_guarded (e : SinkEntry) (es : List TextEv) :
    sinkCalls e (coreEvents (es.filter fun e => (textLockSpec Tid).guarded e.op)) =
      sinkCalls e (coreEvents es) := by
  unfold sinkCalls coreEvents
  rw [List.filterMap_filterMap, List.filterMap_filterMap, List.filterMap_filter]
  congr
  funext ev
  obtain ⟨o, r⟩ := ev
  cases o
  case core o => cases o <;> rfl
  all_goals rfl

theorem sinkCalls_locked (h : (textSystem Tid cfg f).Run c tr) (e : SinkEntry) :
    sinkCalls e (coreEvents (actEvents tr)) =
      sinkCalls e (coreEvents ((textLockSpec Tid).lockedEvents tr)) := by
  have hf := ((textLockSpec Tid).filter_lockedEvents (mutex_textLock cfg f)
    textBody_disciplined h).1
  rw [← sinkCalls_guarded, hf, sinkCalls_guarded]

theorem callsTo_linesOf (h : (textSystem Tid cfg f).Run c tr) (e : SinkEntry) :
    callsTo e (pageOf cfg (coreEvents ((textLockSpec Tid).lockedEvents tr))).sheets =
      ((linesOf cfg tr).filter fun w => e ∈ w.sinks).flatMap fun w =>
        lineCalls w.line.chunks := by
  rw [← pageOf_locked h, ← linesOf_sheets h, callsTo, List.filter_map, List.flatMap_map]
  rfl

/-- Whole lines, and the beginning of the one that the holder of the lock is at. -/
theorem sinkCalls_run (h : (textSystem Tid cfg f).Run c tr) (e : SinkEntry) :
    ∃ part, sinkCalls e (coreEvents (actEvents tr)) =
      (((linesOf cfg tr).filter fun w => e ∈ w.sinks).flatMap fun w =>
        lineCalls w.line.chunks) ++ part ∧
      (part = [] ∨ ∃ t, c.state.core.emitOwner = some t ∧
        e ∈ registered cfg c.state.core.sinks ∧ part <+: lineCalls (draftOf t tr).chunks) := by
  have hown := ((textLockSpec Tid).run_view (mutex_textLock cfg f) textBody_disciplined h).1
  obtain ⟨hprogress, hsettled⟩ := plain_locked h
  rw [sinkCalls_locked h, ← callsTo_linesOf h]
  cases hh : (textLockSpec Tid).holder tr with
  | none => exact ⟨[], ((hsettled hh).calls e).trans (List.append_nil _).symm, Or.inl rfl⟩
  | some t =>
    obtain ⟨part, hcalls, hpart⟩ := hprogress.calls e
    refine ⟨part, hcalls, ?_⟩
    rcases hpart with rfl | ⟨hreg, hprefix⟩
    · exact Or.inl rfl
    · rw [← pageOf_locked h, ← draft_run h hh] at hprefix
      exact Or.inr ⟨t, hown.trans hh, hreg, hprefix⟩

theorem readings_run (h : (textSystem Tid cfg f).Run c tr) :
    (readings (coreEvents (actEvents tr))).Pairwise (· ≤ ·) ∧
      ∀ now ∈ readings (coreEvents (actEvents tr)), now ≤ c.state.core.clock := by
  induction h with
  | init => exact ⟨.nil, fun now hnow => absurd hnow List.not_mem_nil⟩
  | invoke t call _ _ ih => exact ih
  | ret t call v _ _ ih => exact ih
  | @act c tr t call o k r s' hrun ht hs ih =>
    obtain ⟨hord, hle⟩ := ih
    rw [actEvents, coreEvents_append, readings_append]
    rcases core_step hs with ⟨e, he, hcore⟩ | ⟨he, hcore⟩
    · have hone : coreEvents [(⟨o, r⟩ : TextEv)] = [e] := List.filterMap_cons_some he
      obtain ⟨hclock, hnew⟩ := clock_step hcore
      rw [hone]
      refine ⟨List.pairwise_append.mpr ⟨hord, ?_, fun x hx y hy => ?_⟩, fun now hnow => ?_⟩
      · exact readings_one e
      · exact (hle x hx).trans (hnew y hy).1
      · rcases List.mem_append.mp hnow with hnow | hnow
        · exact (hle now hnow).trans hclock
        · exact (hnew now hnow).2
    · have hnone : coreEvents [(⟨o, r⟩ : TextEv)] = [] := List.filterMap_cons_none he
      have hnil : readings [] = [] := rfl
      rw [hnone, hnil, List.append_nil, hcore]
      exact ⟨hord, hle⟩

theorem clocks_run (h : (textSystem Tid cfg f).Run c tr) :
    ((linesOf cfg tr).filterMap fun w => w.line.clock).Pairwise (· ≤ ·) := by
  have hsheets : ((linesOf cfg tr).filterMap fun w => w.line.clock) =
      sheetClocks (pageOf cfg (coreEvents ((textLockSpec Tid).lockedEvents tr))).sheets := by
    rw [← pageOf_locked h, ← linesOf_sheets h, sheetClocks, List.filterMap_map]
    rfl
  have hsub := ((textLockSpec Tid).filter_lockedEvents (mutex_textLock cfg f)
    textBody_disciplined h).2
  rw [hsheets]
  exact (readings_run h).1.sublist
    ((plain_locked h).1.clocks.trans ((hsub.filterMap _).filterMap _))

/-! ### The lines of one thread -/

/-- A call that has returned, with the lines it wrote. -/
structure TextDone where
  call : TextCall
  events : List TextEv
  lines : List Line

theorem exists_lines {done : List (TextCall × List TextEv)}
    (h : ∀ p ∈ done, ∃ v, (textBody cfg f p.1).Path p.2 v) :
    ∃ ds : List TextDone, done = ds.map (fun d => (d.call, d.events)) ∧
      ∀ d ∈ ds, TextWrites cfg d.call d.events d.lines := by
  induction done with
  | nil => exact ⟨[], rfl, fun d hd => absurd hd List.not_mem_nil⟩
  | cons p done ih =>
    obtain ⟨v, hp⟩ := h p (List.mem_cons_self ..)
    obtain ⟨ls, hls⟩ := textWrites_textBody hp
    obtain ⟨ds, rfl, hds⟩ := ih fun p hp => h p (List.mem_cons_of_mem _ hp)
    refine ⟨⟨p.1, p.2, ls⟩ :: ds, rfl, fun d hd => ?_⟩
    rcases List.mem_cons.mp hd with rfl | hd
    · exact hls
    · exact hds d hd

theorem foldl_lineStep_done {ds : List TextDone}
    (h : ∀ d ∈ ds, TextWrites cfg d.call d.events d.lines) (lines : List Line) :
    (ds.flatMap TextDone.events).foldl lineStep (Line.blank, lines) =
      (Line.blank, lines ++ ds.flatMap TextDone.lines) := by
  induction ds generalizing lines with
  | nil => simp
  | cons d ds ih =>
    rw [List.flatMap_cons, List.foldl_append, (h d (List.mem_cons_self ..)).serial.foldl,
      ih fun d hd => h d (List.mem_cons_of_mem _ hd), List.flatMap_cons, List.append_assoc]

theorem lines_prefix (es : List TextEv) (g : Line × List Line) :
    g.2 <+: (es.foldl lineStep g).2 := by
  induction es generalizing g with
  | nil => exact List.prefix_rfl
  | cons e es ih =>
    refine List.IsPrefix.trans ?_ (ih (lineStep g e))
    rw [lineStep_snd]
    exact List.prefix_append _ _

/-- In a run the text of a message is what `vfprintf` made of it. -/
def TextCall.Says (es : List TextEv) (line : Line) : TextCall → Prop
  | .write level tag textFlags format args => ∃ now file pieces, line.clock = some now ∧
    (⟨.vfprintf file (formatBytes format) args, pieces⟩ : TextEv) ∈ es ∧
    line.text = textLine level (UInt32.ofNat now) tag.text textFlags pieces.flatten
  | call => call.Message es line

theorem TextWrites.spokenRun {call : TextCall} {es : List TextEv} {ls : List Line}
    (h : TextWrites cfg call es ls) (hown : OwnCookie es) (hstays : StreamStays es)
    (hs : call.Speaks cfg es) : Spoken (fun line => call.Says es line) ls := by
  refine (h.spoken hs).imp fun line hm => ?_
  cases call with
  | write level tag textFlags format args =>
    obtain ⟨now, hclock, hprinted⟩ := hm
    obtain ⟨pieces, hp, htext⟩ := hprinted hown
    cases hp with
    | unset hload =>
      obtain ⟨⟨file, rest, rfl, hne⟩, -⟩ := hs
      have hrest : 0 ∈ streamLoads rest := by
        rcases List.mem_cons.mp hload with heq | hmem
        · cases heq
          exact absurd rfl hne
        · exact mem_streamLoads.mpr hmem
      exact absurd ((List.pairwise_cons.mp hstays).1 0 hrest hne).symm hne
    | printed file _ _ _ hprint => exact ⟨now, file, pieces, hclock, hprint, htext⟩
  | _ => exact hm

theorem StreamStays.sublist {es es' : List TextEv} (h : StreamStays es') (hs : es.Sublist es') :
    StreamStays es := List.Pairwise.sublist (hs.filterMap _) h

theorem threadEvents_sublist (t : Tid) (tr : TextTrace Tid) :
    (threadEvents t tr).Sublist (actEvents tr) := by
  induction tr with
  | nil => exact List.Sublist.refl _
  | cons l tr ih =>
    cases l with
    | invoke u call => exact ih
    | ret u call v => exact ih
    | act u e =>
      rw [threadEvents, actEvents]
      by_cases hut : u = t
      · rw [if_pos hut]
        exact ih.append_right _
      · rw [if_neg hut]
        exact ih.trans (List.sublist_append_left _ _)

/-- What a call that has returned wrote: nothing, or perhaps a notice and then its message. -/
def TextDone.Wrote (cfg : Config) (d : TextDone) : Prop :=
  (¬d.call.Speaks cfg d.events → d.lines = []) ∧
    (d.call.Speaks cfg d.events → Spoken (fun line => d.call.Says d.events line) d.lines)

/-- The lines of a thread, call by call; of the call it is in, those written so far. -/
def LinesInOrder (cfg : Config)
    (c : Lib.Config Tid TextCall TextOp TextOp.Ret Res (TextShared Tid)) (tr : TextTrace Tid)
    (t : Tid) : Prop :=
  ∃ (done : List TextDone) (begun : List Line),
    callsOf t tr = done.map TextDone.call ++ (c.thread t).toList.map Prod.fst ∧
    threadEvents t tr = done.flatMap TextDone.events ++ callEvents t tr ∧
    linesBy t (linesOf cfg tr) = done.flatMap TextDone.lines ++ begun ∧
    (∀ d ∈ done, d.Wrote cfg) ∧ (c.thread t = none → begun = []) ∧
    ∀ call p, c.thread t = some (call, p) →
      ∃ es ls, TextWrites cfg call (callEvents t tr ++ es) ls ∧ begun <+: ls

theorem lines_in_order (h : (textSystem Tid cfg f).Run c tr) (t : Tid) :
    LinesInOrder cfg c tr t := by
  obtain ⟨done, hevents, hcalls, hpaths⟩ := h.history t
  obtain ⟨ds, rfl, hds⟩ := exists_lines hpaths
  have hflat : (ds.map fun d => (d.call, d.events)).flatMap Prod.snd =
      ds.flatMap TextDone.events := List.flatMap_map ..
  rw [hflat] at hevents
  have hlines : linesBy t (linesOf cfg tr) =
      ((callEvents t tr).foldl lineStep (Line.blank, ds.flatMap TextDone.lines)).2 := by
    rw [linesBy_linesOf, linesIn, hevents, List.foldl_append, foldl_lineStep_done hds,
      List.nil_append]
  obtain ⟨begun, hbegun⟩ := lines_prefix (callEvents t tr) (Line.blank, ds.flatMap TextDone.lines)
  obtain ⟨_, -, -, hown, -⟩ := file_run h
  obtain ⟨_, -, -, hstreams⟩ := stream_run h
  refine ⟨ds, begun, ?_, hevents, hlines.trans hbegun.symm, fun d hd => ?_, fun hidle => ?_,
    fun call p hp => ?_⟩
  · rw [hcalls, List.map_map]
    rfl
  · have hmem : d.events.Sublist (actEvents tr) := by
      refine List.Sublist.trans ?_ (threadEvents_sublist t tr)
      rw [hevents]
      exact (List.sublist_flatten_of_mem (List.mem_map_of_mem hd)).trans
        (List.sublist_append_left _ _)
    have hcookie : OwnCookie d.events := fun line hline => hown line (hmem.subset hline)
    have hw := hds d hd
    exact ⟨hw.silent, hw.spokenRun hcookie (hstreams.stays.sublist hmem)⟩
  · rw [(h.thread t).1 hidle] at hbegun
    exact List.append_right_eq_self.mp hbegun
  · obtain ⟨es, v, hpath⟩ := Prog.reach_extends ((h.thread t).2 call p hp)
    obtain ⟨ls, hls⟩ := textWrites_textBody hpath
    refine ⟨es, ls, hls, ?_⟩
    have hwhole := hls.serial.foldl (ds.flatMap TextDone.lines)
    have hprefix := lines_prefix es
      ((callEvents t tr).foldl lineStep (Line.blank, ds.flatMap TextDone.lines))
    rw [← List.foldl_append, hwhole, ← hbegun] at hprefix
    exact (List.prefix_append_right_inj _).mp hprefix

/-- The plain-text build under any interleaving: what a sink gets are the lines it was registered
for, whole and in the one order in which all threads' lines were finished, and the beginning of
at most one more; the times of the lines follow this order; and the lines of a thread are the
messages of its calls in the order in which it made them, each at most behind a notice. -/
theorem text_lines_serialised (h : (textSystem Tid cfg f).Run c tr) :
    (∀ e, ∃ part, sinkCalls e (coreEvents (actEvents tr)) =
      (((linesOf cfg tr).filter fun w => e ∈ w.sinks).flatMap fun w =>
        lineCalls w.line.chunks) ++ part ∧
      (part = [] ∨ ∃ t, c.state.core.emitOwner = some t ∧
        e ∈ registered cfg c.state.core.sinks ∧ part <+: lineCalls (draftOf t tr).chunks)) ∧
    ((linesOf cfg tr).filterMap fun w => w.line.clock).Pairwise (· ≤ ·) ∧
    ∀ t, LinesInOrder cfg c tr t :=
  ⟨sinkCalls_run h, clocks_run h, lines_in_order h⟩

end Runs

/-- Two threads log at once; the sink gets one line of each. -/
theorem text_lines_serialised_two : ∃ c tr,
    (textSystem ℕ smallConfig plainFormatters).Run c tr ∧
    (linesOf smallConfig tr).map LineOut.writer = [0, 1] ∧
    sinkCalls ⟨7, 0⟩ (coreEvents (actEvents tr)) =
      ((linesOf smallConfig tr).filter fun w => (⟨7, 0⟩ : SinkEntry) ∈ w.sinks).flatMap fun w =>
        lineCalls w.line.chunks := by
  obtain ⟨c, tr, hrun, -, hval⟩ := run_text smallText
    (fun p => ((linesOf smallConfig p.2).map LineOut.writer, p.1.state.core.emitOwner))
    (a := ([0, 1], none)) (by decide +kernel)
  obtain ⟨hwriters, hfree⟩ := Prod.mk.inj hval
  obtain ⟨part, hcalls, hpart⟩ := (text_lines_serialised hrun).1 ⟨7, 0⟩
  have hnone : part = [] := by
    rcases hpart with hpart | ⟨t, hown, -⟩
    · exact hpart
    · rw [hfree] at hown
      cases hown
  rw [hnone, List.append_nil] at hcalls
  exact ⟨c, tr, hrun, hwriters, hcalls⟩

end On9log
