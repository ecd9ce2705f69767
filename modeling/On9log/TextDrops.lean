import On9log.DropAccounting
import On9log.TextRuns

/-!
# Lost messages of the plain-text build

The counter of lost messages goes through the same hands as in the packet
build, but a thread announces what it took in a line of text. What a thread
owes is the count of the line it is at (`draftStep`); a step moves one message
between the counter, the threads and the lines (`balance_step`), so nothing
that is counted gets lost on the way.
-/

namespace On9log
open Lib

/-! ### What a thread owes -/

/-- The line a thread is at; it takes a count only if it owes none. -/
def draftStep (g : Line) (e : TextEv) (g' : Line) : Prop :=
  (e.op = .core .exchangeDropped → g.count = 0) ∧ g' = (lineStep (g, []) e).1

theorem draftStep_functional : Functional draftStep := fun _ _ _ _ h₁ h₂ => h₁.2.trans h₂.2.symm

theorem draftStep_keeps {e : TextEv} (h : e.op ≠ .core .exchangeDropped) (g : Line) :
    draftStep g e (lineStep (g, []) e).1 := ⟨fun he => absurd he h, rfl⟩

theorem lineStep_fst (g : Line × List Line) (e : TextEv) :
    (lineStep g e).1 = (lineStep (g.1, []) e).1 := by
  obtain ⟨o, r⟩ := e
  cases o
  case core o =>
    cases o
    case stream call => cases call <;> rfl
    all_goals rfl
  all_goals rfl

theorem steps_draft_foldl {es : List TextEv} (h : ∀ e ∈ es, e.op ≠ .core .exchangeDropped)
    (g : Line × List Line) : Steps draftStep g.1 es (es.foldl lineStep g).1 := by
  induction es generalizing g with
  | nil => rfl
  | cons e es ih =>
    have hstep := draftStep_keeps (h e (List.mem_cons_self ..)) g.1
    rw [← lineStep_fst] at hstep
    exact ⟨_, hstep, ih (fun e he => h e (List.mem_cons_of_mem _ he)) (lineStep g e)⟩

theorem inside_noExchange (o : TextOp) (h : o.inside = true) : o ≠ .core .exchangeDropped := by
  rintro rfl
  cases h

section Draft

variable {cfg : Config}

theorem steps_draft {n n' : UInt32} {es : List TextEv} {ls : List Line}
    (h : TextSerial cfg n es n' ls) : Steps draftStep (Line.owing n) es (Line.owing n') := by
  induction h with
  | nil => rfl
  | quiet e he _ ih =>
    obtain ⟨o, r⟩ := e
    cases o
    case core o => cases o <;> first | exact ⟨_, draftStep_keeps (by simp) _, ih⟩ | cases he
    all_goals exact ⟨_, draftStep_keeps (by simp) _, ih⟩
  | exchange raw _ ih => exact ⟨_, ⟨fun _ => rfl, rfl⟩, ih⟩
  | line line hl _ ih =>
    have hline := steps_draft_foldl (hl.all (by simp) (by simp) inside_noExchange)
      (Line.owing line.count, [])
    rw [foldl_lineStep_written hl] at hline
    exact steps_append.mpr ⟨_, hline, ih⟩
  | @table b es n' ls hb _ ih =>
    have htable := tableSection_of hb
    have hkeeps : ∀ e ∈ (⟨.core .emitLock, ()⟩ : TextEv) :: b.map Ev.text,
        e.op ≠ .core .exchangeDropped := by
      intro e he
      rcases List.mem_cons.mp he with rfl | he
      · simp
      · exact inside_noExchange _ (textInside_core (inside_tableSection htable) e he)
    have hsteps := steps_draft_foldl hkeeps (Line.blank, [])
    have hlock : lineStep (Line.blank, []) ⟨.core .emitLock, ()⟩ = (Line.blank, []) := rfl
    rw [List.foldl_cons, hlock, foldl_lineStep_table htable] at hsteps
    exact steps_append.mpr ⟨_, hsteps, _, draftStep_keeps (by simp) _, ih⟩

theorem textBody_draft {f : Formatters} (call : TextCall) (es : List TextEv) (v : Res)
    (h : (textBody cfg f call).Path es v) : Steps draftStep Line.blank es Line.blank := by
  obtain ⟨ls, hls⟩ := textWrites_textBody h
  exact steps_draft hls.serial

end Draft

/-! ### The books -/

section Books

variable {Tid : Type} {cfg : Config}

/-- How many lost messages the lines announce. -/
def announced (ws : List (LineOut Tid)) : ℕ := (ws.map fun w => w.line.count.toNat).sum

/-- A step moves what is counted between the counter, the line and the lines that are out. -/
theorem balance_step {t : Tid} {e : TextEv} {g g' : Line} {s s' : TextShared Tid}
    (hd : draftStep g e g') (hs : textStep cfg t e.op e.ret s s') :
    drops (coreEvents [e]) + (g.count.toNat + s.core.dropped) ≡
      (if e.op.finishes then g.count.toNat else 0) + (g'.count.toNat + s'.core.dropped)
        [MOD 2 ^ 32] := by
  obtain ⟨hzero, rfl⟩ := hd
  obtain ⟨o, r⟩ := e
  have hsame : ∀ {d : ℕ} {g' : Line}, d = s.core.dropped → g'.count = g.count →
      0 + (g.count.toNat + s.core.dropped) ≡ 0 + (g'.count.toNat + d) [MOD 2 ^ 32] := by
    rintro d g' rfl hg
    rw [hg]
  cases o
  case core o =>
    obtain ⟨core, hs, rfl⟩ := hs
    cases o
    case addDropped =>
      have hdropped : core.dropped = (s.core.dropped + 1) % 2 ^ cfg.fast32 := by
        rw [show core = _ from hs]
      have hmod := (mod_fast32 cfg (s.core.dropped + 1)).symm.add_left g.count.toNat
      rw [← hdropped] at hmod
      show 1 + (g.count.toNat + s.core.dropped) ≡ 0 + (g.count.toNat + core.dropped) [MOD 2 ^ 32]
      rw [Nat.zero_add, Nat.add_comm 1, Nat.add_assoc]
      exact hmod
    case exchangeDropped =>
      obtain ⟨hr, rfl⟩ := hs
      have hr' : r = s.core.dropped := hr
      show 0 + (g.count.toNat + s.core.dropped) ≡ 0 + ((UInt32.ofNat r).toNat + 0) [MOD 2 ^ 32]
      rw [hzero rfl, UInt32.toNat_ofNat', hr', Nat.add_zero]
      have hnone : (0 : UInt32).toNat = 0 := rfl
      rw [hnone, Nat.zero_add]
      exact (Nat.mod_modEq s.core.dropped (2 ^ 32)).symm.add_left 0
    case emitLock =>
      obtain ⟨-, rfl⟩ := hs
      exact hsame rfl rfl
    case loadSlot =>
      obtain ⟨-, rfl⟩ := hs
      exact hsame rfl rfl
    case fetchAddSeq =>
      obtain ⟨-, rfl⟩ := hs
      exact hsame rfl rfl
    case timestampMs =>
      obtain ⟨-, rfl⟩ := hs
      exact hsame rfl rfl
    case stream call =>
      obtain rfl := hs
      cases call with
      | start origin header => exact hsame rfl rfl
      | payload c => exact hsame rfl rfl
      | finish =>
        show 0 + (g.count.toNat + s.core.dropped) ≡ g.count.toNat + (0 + s.core.dropped)
          [MOD 2 ^ 32]
        rw [Nat.zero_add, Nat.zero_add]
    all_goals
      obtain rfl := hs
      exact hsame rfl rfl
  case openCookie =>
    rcases hs with ⟨-, rfl⟩ | ⟨-, -, rfl⟩
    · exact hsame rfl rfl
    · exact hsame rfl rfl
  case portLock =>
    obtain ⟨-, rfl⟩ := hs
    exact hsame rfl rfl
  case loadStream =>
    obtain ⟨-, rfl⟩ := hs
    exact hsame rfl rfl
  case flockfile =>
    obtain ⟨-, rfl⟩ := hs
    exact hsame rfl rfl
  case loadCookie =>
    obtain ⟨-, rfl⟩ := hs
    exact hsame rfl rfl
  all_goals
    obtain rfl := hs
    exact hsame rfl rfl

variable [DecidableEq Tid]

/-- Each thread owes the count of the line it is at, and what was counted is announced, owed or
still in the counter. -/
structure LossBooks (cfg : Config) (s : TextShared Tid) (tr : TextTrace Tid) (g : Tid → Line) :
    Prop where
  drafts : ∀ t, g t = draftOf t tr
  count : ∃ n, SumIs (fun t => (g t).count.toNat) n ∧
    drops (coreEvents (actEvents tr)) ≡
      announced (linesOf cfg tr) + n + s.core.dropped [MOD 2 ^ 32]

theorem update_count {g : Tid → Line} {t : Tid} {line : Line} :
    (fun u => (Function.update g t line u).count.toNat) =
      Function.update (fun u => (g u).count.toNat) t line.count.toNat := by
  funext u
  by_cases h : u = t
  · subst h
    rw [Function.update_self, Function.update_self]
  · rw [Function.update_of_ne h, Function.update_of_ne h]

theorem announced_act {t : Tid} {e : TextEv} {tr : TextTrace Tid} :
    announced (linesOf cfg (.act t e :: tr)) = announced (linesOf cfg tr) +
      if e.op.finishes then (draftOf t tr).count.toNat else 0 := by
  unfold announced
  rw [linesOf, List.map_append, List.sum_append]
  cases e.op.finishes <;> rfl

theorem draftOf_act {t u : Tid} {e : TextEv} {tr : TextTrace Tid} :
    draftOf u (.act t e :: tr) =
      if t = u then (lineStep (draftOf u tr, []) e).1 else draftOf u tr := by
  unfold draftOf
  rw [threadEvents]
  by_cases htu : t = u
  · rw [if_pos htu, if_pos htu, List.foldl_append, List.foldl_cons, List.foldl_nil, lineStep_fst]
  · rw [if_neg htu, if_neg htu]

theorem LossBooks.act {s s' : TextShared Tid} {tr : TextTrace Tid} {g : Tid → Line} {t : Tid}
    {e : TextEv} {g' : Line} (h : LossBooks cfg s tr g) (hd : draftStep (g t) e g')
    (hs : textStep cfg t e.op e.ret s s') :
    LossBooks cfg s' (.act t e :: tr) (Function.update g t g') := by
  refine ⟨fun u => ?_, ?_⟩
  · rw [draftOf_act, ← h.drafts u]
    by_cases htu : t = u
    · subst htu
      rw [Function.update_self, if_pos rfl]
      exact hd.2
    · rw [Function.update_of_ne (Ne.symm htu), if_neg htu]
  · obtain ⟨n, hsum, hcount⟩ := h.count
    obtain ⟨rest, rfl⟩ := hsum.rest t
    refine ⟨g'.count.toNat + rest, ?_, ?_⟩
    · rw [update_count]
      apply hsum.update t
      omega
    · rw [actEvents, coreEvents_append, drops_append, announced_act, ← h.drafts t]
      have hbalance := balance_step hd hs
      calc drops (coreEvents (actEvents tr)) + drops (coreEvents [e])
        _ ≡ announced (linesOf cfg tr) + ((g t).count.toNat + rest) + s.core.dropped +
              drops (coreEvents [e]) [MOD 2 ^ 32] := hcount.add_right _
        _ = announced (linesOf cfg tr) + rest +
              (drops (coreEvents [e]) + ((g t).count.toNat + s.core.dropped)) := by omega
        _ ≡ announced (linesOf cfg tr) + rest +
              ((if e.op.finishes then (g t).count.toNat else 0) +
                (g'.count.toNat + s'.core.dropped)) [MOD 2 ^ 32] := hbalance.add_left _
        _ = announced (linesOf cfg tr) + (if e.op.finishes then (g t).count.toNat else 0) +
              (g'.count.toNat + rest) + s'.core.dropped := by omega

theorem announced_run {f : Formatters}
    {c : Lib.Config Tid TextCall TextOp TextOp.Ret Res (TextShared Tid)} {tr : TextTrace Tid}
    (h : (textSystem Tid cfg f).Run c tr) :
    ∃ g, (∀ t, Steps draftStep Line.blank (callEvents t tr) (g t)) ∧
      LossBooks cfg c.state tr g := by
  refine h.invariant draftStep_functional textBody_draft
    (I := fun s tr g => LossBooks cfg s tr g) ⟨fun t => rfl, 0, sumIs_zero, Nat.ModEq.refl 0⟩
    ?_ ?_ ?_
  · exact fun _ _ _ _ _ hi _ => ⟨hi.drafts, hi.count⟩
  · exact fun _ _ _ _ _ _ hi _ => ⟨hi.drafts, hi.count⟩
  · exact fun _ _ _ _ _ _ _ hi hd hs => hi.act hd hs

end Books

/-! ### How a call ends -/

/-- Operations that count a message as lost or offer one to the ring buffer. -/
def TextOp.disposes : TextOp → Bool
  | .core .addDropped => true
  | .core (.isrEnqueuePacket _) => true
  | _ => false

/-- `d` messages are counted as lost, and the ring buffer takes `queued`. -/
structure Disposed (es : List TextEv) (d : ℕ) (queued : List (List UInt8)) : Prop where
  drops : drops (coreEvents es) = d
  enqueued : enqueued (coreEvents es) = queued

theorem Disposed.append {es₁ es₂ : List TextEv} {d₁ d₂ : ℕ} {q₁ q₂ : List (List UInt8)}
    (h₁ : Disposed es₁ d₁ q₁) (h₂ : Disposed es₂ d₂ q₂) :
    Disposed (es₁ ++ es₂) (d₁ + d₂) (q₁ ++ q₂) where
  drops := by rw [coreEvents_append, drops_append, h₁.drops, h₂.drops]
  enqueued := by
    rw [coreEvents_append, ← h₁.enqueued, ← h₂.enqueued]
    exact List.filterMap_append

theorem Disposed.cons {e : TextEv} {es : List TextEv} {d : ℕ} {q : List (List UInt8)}
    (he : e.op.disposes = false) (h : Disposed es d q) : Disposed (e :: es) d q := by
  have hone : Disposed [e] 0 [] := by
    obtain ⟨o, r⟩ := e
    cases o
    case core o => cases o <;> first | exact ⟨rfl, rfl⟩ | cases he
    all_goals exact ⟨rfl, rfl⟩
  have hall := hone.append h
  rwa [Nat.zero_add] at hall

def Keeps (es : List TextEv) : Prop := ∀ e ∈ es, e.op.disposes = false

theorem Keeps.append {es₁ es₂ : List TextEv} (h₁ : Keeps es₁) (h₂ : Keeps es₂) :
    Keeps (es₁ ++ es₂) := fun e he => (List.mem_append.mp he).elim (h₁ e) (h₂ e)

theorem Keeps.disposed {es : List TextEv} (h : Keeps es) : Disposed es 0 [] := by
  induction es with
  | nil => exact ⟨rfl, rfl⟩
  | cons e es ih =>
    exact (ih fun e he => h e (List.mem_cons_of_mem _ he)).cons (h e (List.mem_cons_self ..))

theorem inside_keeps (o : TextOp) (h : o.inside = true) : o.disposes = false := by
  cases o
  case core o => cases o <;> first | rfl | cases h
  all_goals rfl

section Ends

variable {cfg : Config} {es : List TextEv}

theorem LineWritten.keeps {line : Line} (h : LineWritten cfg line es) : Keeps es :=
  h.all (q := fun o => o.disposes = false) rfl rfl inside_keeps

theorem keeps_gate {level : ℕ} {tag : Ptr} {b : Bool} {gate : List Ev}
    (h : Gate cfg level tag b gate) : Keeps (gate.map Ev.text) := by
  intro e he
  cases h with
  | compileTime _ => exact absurd he List.not_mem_nil
  | runtime rl _ =>
    rw [List.mem_singleton.mp he]
    rfl

theorem FlushedText.keeps {es : List Ev} (h : FlushedText cfg es) : Keeps (es.map Ev.text) := by
  have hexchange : ∀ raw, Keeps [(⟨.core .exchangeDropped, raw⟩ : TextEv)] := by
    intro raw e he
    rw [List.mem_singleton.mp he]
    rfl
  cases h with
  | none raw _ => exact hexchange raw
  | line raw now es _ hem =>
    obtain ⟨line, hline, -⟩ := LineEmission.written (some now) hem 0
    exact (hexchange raw).append hline.keeps

theorem keeps_writeFormattedText {level : ℕ} {tag : TagArg} {textFlags : UInt8}
    {formatter : Option TextFormatter} {v : Unit}
    (h : (writeFormattedText cfg level tag textFlags formatter).Path es v)
    (hline : ∀ es v, (dispatchFormattedLine cfg level tag.text textFlags formatter).Path es v →
      ∃ line, LineWritten cfg line es) : Keeps es := by
  rcases path_textGated h with ⟨gate, rfl, hg⟩ | ⟨gate, rest, rfl, hg, h⟩
  · exact keeps_gate hg
  · obtain ⟨_, e₁, e₂, rfl, h₁, h₂⟩ := (Prog.path_bind _ _ _ _).mp h
    obtain ⟨es₀, hp, rfl⟩ := path_onCore h₁
    obtain ⟨line, hwritten⟩ := hline e₂ _ h₂
    exact (keeps_gate hg).append
      ((flushedText_flushDroppedText hp).keeps.append hwritten.keeps)

/-- The level and the tag that a call is filtered by. -/
def TextCall.filter : TextCall → Option (ℕ × Ptr)
  | .write level tag _ _ _ => some (level, tag.ptr)
  | .writeText level tag _ _ => some (level, tag.ptr)
  | .writeBuffer level tag _ _ => some (level, tag.ptr)
  | .writeIsr level tag _ _ _ _ => some (level, tag.ptr)
  | .writeTextIsr level tag _ _ => some (level, tag.ptr)
  | _ => none

def TextCall.isIsr : TextCall → Bool
  | .writeIsr _ _ _ _ _ _ => true
  | .writeTextIsr _ _ _ _ => true
  | _ => false

/-- The ways a call can end: its message is out, or in the ring buffer, or counted as lost, or
there is no ISR backend, or the filter blocks it, or there is nothing to say. -/
inductive TextEnds (cfg : Config) (call : TextCall) (es : List TextEv) : Prop
  | spoken : call.Speaks cfg es → Spoken (fun line => call.Message es line) (linesIn es) →
      Disposed es 0 [] → TextEnds cfg call es
  | queued (p : Text) : call.isIsr = true → linesIn es = [] → Disposed es 0 [p] →
      TextEnds cfg call es
  | dropped (level : ℕ) (tag : Ptr) : call.filter = some (level, tag) →
      TextEnabled cfg level tag es → linesIn es = [] → Disposed es 1 [] → TextEnds cfg call es
  | noBackend : call.isIsr = true → (⟨.core .isrReady, false⟩ : TextEv) ∈ es → linesIn es = [] →
      Disposed es 0 [] → TextEnds cfg call es
  | blocked (level : ℕ) (tag : Ptr) : call.filter = some (level, tag) →
      ¬TextEnabled cfg level tag es → linesIn es = [] → Disposed es 0 [] → TextEnds cfg call es
  | nothing : call.filter = none → ¬call.Speaks cfg es → linesIn es = [] → Disposed es 0 [] →
      TextEnds cfg call es

theorem TextWrites.linesIn_eq {call : TextCall} {ls : List Line}
    (h : TextWrites cfg call es ls) : linesIn es = ls := by
  rw [linesIn, h.serial.foldl, List.nil_append]

/-- A call that counts nothing and queues nothing. -/
theorem TextWrites.ends {call : TextCall} {ls : List Line} (h : TextWrites cfg call es ls)
    (hkeeps : Keeps es) (hblocked : ∀ level tag, call.filter = some (level, tag) →
      ¬call.Speaks cfg es → ¬TextEnabled cfg level tag es) : TextEnds cfg call es := by
  have hlines := h.linesIn_eq
  by_cases hs : call.Speaks cfg es
  · exact .spoken hs (hlines ▸ h.spoken hs) hkeeps.disposed
  · have hnone := hlines.trans (h.silent hs)
    cases hf : call.filter with
    | none => exact .nothing hf hs hnone hkeeps.disposed
    | some p => exact .blocked p.1 p.2 hf (hblocked p.1 p.2 hf hs) hnone hkeeps.disposed

/-- A call that counts its message as lost. -/
theorem TextWrites.lost {call : TextCall} {ls : List Line} {level : ℕ} {tag : Ptr}
    {gate : List TextEv} (h : TextWrites cfg call (gate ++ [⟨.core .addDropped, ()⟩]) ls)
    (hs : ¬call.Speaks cfg (gate ++ [⟨.core .addDropped, ()⟩])) (hgate : Keeps gate)
    (hf : call.filter = some (level, tag)) (hon : TextEnabled cfg level tag gate) :
    TextEnds cfg call (gate ++ [⟨.core .addDropped, ()⟩]) := by
  have hlookup : NoLookup [(⟨.core .addDropped, ()⟩ : TextEv)] := by
    intro e he tag
    rw [List.mem_singleton.mp he]
    simp
  exact .dropped level tag hf ((enabled_append hlookup).mpr hon)
    (h.linesIn_eq.trans (h.silent hs)) (hgate.disposed.append ⟨rfl, rfl⟩)

theorem path_addDroppedText {rest : List TextEv} {v : Unit}
    (h : (onCore addDropped).Path rest v) : rest = [⟨.core .addDropped, ()⟩] := by
  obtain ⟨es₀, hp, rfl⟩ := path_onCore h
  rw [path_addDropped.mp hp]
  rfl

theorem textEnds_write {level : ℕ} {tag : TagArg} {textFlags : UInt8} {format : Option CStr}
    {args : VaList} {v : Unit} (h : (vwriteText cfg level tag textFlags format args).Path es v) :
    TextEnds cfg (.write level tag textFlags format args) es := by
  obtain ⟨ls, hls⟩ := textWrites_write h
  obtain ⟨file, e₁, e₂, rfl, h₁, h⟩ := (Prog.path_bind _ _ _ _).mp h
  rw [(Prog.path_op _ _ _).mp h₁] at hls ⊢
  have hload : Keeps [(⟨.loadStream, file⟩ : TextEv)] := by
    intro e he
    rw [List.mem_singleton.mp he]
    rfl
  rcases (Prog.path_ite _ _ _ _ _).mp h with ⟨rfl, h⟩ | ⟨hfile, h⟩
  · have hsilent : ∀ rest, ¬TextCall.Speaks cfg ([⟨.loadStream, (0 : ℕ)⟩] ++ rest)
        (.write level tag textFlags format args) := by
      rintro rest ⟨⟨file, rest', heq, hne⟩, -⟩
      cases (List.cons.inj heq).1
      exact hne rfl
    rcases path_textGated h with ⟨gate, rfl, hg⟩ | ⟨gate, rest, rfl, hg, h⟩
    · refine hls.ends (hload.append (keeps_gate hg)) fun level' tag' hf _ hon => ?_
      obtain ⟨rfl, rfl⟩ := Prod.mk.inj (Option.some.inj hf)
      exact not_enabled_gate hg ((enabled_cons (by simp)).mp hon)
    · obtain rfl := path_addDroppedText h
      rw [← List.append_assoc] at hls ⊢
      refine hls.lost ?_ (hload.append (keeps_gate hg)) rfl 
        ((enabled_cons (by simp)).mpr (enabled_past hg))
      rw [List.append_assoc]
      exact hsilent _
  · have hkeeps := keeps_writeFormattedText h fun es v h => by
      obtain ⟨line, hline, -⟩ := written_dispatchPrintf h
      exact ⟨line, hline⟩
    refine hls.ends (hload.append hkeeps) fun level' tag' hf hs hon =>
      hs ⟨⟨file, _, rfl, hfile⟩, ?_⟩
    obtain ⟨rfl, rfl⟩ := Prod.mk.inj (Option.some.inj hf)
    exact hon

theorem textEnds_writeText {level : ℕ} {tag : TagArg} {textFlags : UInt8}
    {formatter : Option (List Text)} {v : Unit}
    (h : (writeFormattedText cfg level tag textFlags (formatter.map outputPieces)).Path es v) :
    TextEnds cfg (.writeText level tag textFlags formatter) es := by
  obtain ⟨ls, hls⟩ := textWrites_writeText (.writeText level tag textFlags formatter)
    (fun e he => absurd he List.not_mem_nil) h (fun es v h => written_dispatchPieces formatter h)
    Iff.rfl fun before rest line _ hm => hm
  have hkeeps := keeps_writeFormattedText h fun es v h => by
    obtain ⟨line, hline, -⟩ := written_dispatchPieces formatter h
    exact ⟨line, hline⟩
  refine hls.ends hkeeps fun level' tag' hf hs => ?_
  obtain ⟨rfl, rfl⟩ := Prod.mk.inj (Option.some.inj hf)
  exact hs

theorem textEnds_writeBuffer {level : ℕ} {tag : TagArg} {textFlags : UInt8}
    {buffer : Option (List UInt8)} {v : Unit}
    (h : (writeBufferText cfg level tag textFlags buffer).Path es v) :
    TextEnds cfg (.writeBuffer level tag textFlags buffer) es := by
  obtain ⟨ls, hls⟩ := textWrites_writeBuffer h
  rcases path_textGated h with ⟨gate, rfl, hg⟩ | ⟨gate, rest, rfl, hg, h⟩
  · refine hls.ends (keeps_gate hg) fun level' tag' hf _ => ?_
    obtain ⟨rfl, rfl⟩ := Prod.mk.inj (Option.some.inj hf)
    exact not_enabled_gate hg
  cases buffer with
  | none =>
    obtain rfl := path_addDroppedText h
    refine hls.lost (fun hs => ?_) (keeps_gate hg) rfl (enabled_past hg)
    obtain ⟨⟨bytes, hbytes, -⟩, -⟩ := hs
    cases hbytes
  | some bytes =>
    rcases (Prog.path_ite _ _ _ _ _).mp h with ⟨hlong, h⟩ | ⟨hshort, h⟩
    · obtain rfl := path_addDroppedText h
      refine hls.lost (fun hs => ?_) (keeps_gate hg) rfl (enabled_past hg)
      obtain ⟨⟨bytes', hbytes, hlen⟩, -⟩ := hs
      cases hbytes
      omega
    · have hkeeps := keeps_writeFormattedText h fun es v h => by
        obtain ⟨line, hline, -⟩ := written_dispatchPieces (some _) h
        exact ⟨line, hline⟩
      refine hls.ends ((keeps_gate hg).append hkeeps) fun level' tag' hf hs hon => ?_
      obtain ⟨rfl, rfl⟩ := Prod.mk.inj (Option.some.inj hf)
      exact hs ⟨⟨bytes, rfl, by omega⟩, hon⟩

/-! ### ISR calls -/

/-- The ways an ISR call can end, past the filter or not. -/
inductive IsrEnds (cfg : Config) (level : ℕ) (tag : Ptr) (es : List TextEv) : Prop
  | queued (p : Text) : Disposed es 0 [p] → IsrEnds cfg level tag es
  | dropped : TextEnabled cfg level tag es → Disposed es 1 [] → IsrEnds cfg level tag es
  | noBackend : (⟨.core .isrReady, false⟩ : TextEv) ∈ es → Disposed es 0 [] →
      IsrEnds cfg level tag es
  | blocked : ¬TextEnabled cfg level tag es → Disposed es 0 [] → IsrEnds cfg level tag es

section Isr

variable {level : ℕ} {tag : TagArg} {flags : UInt8} {gate es : List Ev}

theorem IsrEnds.stopped (h : Gate cfg level tag.ptr false gate) :
    IsrEnds cfg level tag.ptr (gate.map Ev.text) :=
  .blocked (not_enabled_gate h) (keeps_gate h).disposed

theorem IsrEnds.unready (h : Gate cfg level tag.ptr true gate) :
    IsrEnds cfg level tag.ptr ((gate ++ [⟨.isrReady, false⟩] : List Ev).map Ev.text) := by
  have hready : Disposed [(⟨.core .isrReady, false⟩ : TextEv)] 0 [] := ⟨rfl, rfl⟩
  rw [List.map_append]
  exact .noBackend (List.mem_append_right _ (List.mem_cons_self ..))
    ((keeps_gate h).disposed.append hready)

/-- Past both checks a call ends like what follows them. -/
theorem IsrEnds.past (h : Gate cfg level tag.ptr true gate)
    (hes : IsrEnds cfg level tag.ptr (es.map Ev.text)) :
    IsrEnds cfg level tag.ptr ((gate ++ ⟨.isrReady, true⟩ :: es : List Ev).map Ev.text) := by
  have hdisposed : ∀ {d : ℕ} {q : List (List UInt8)}, Disposed (es.map Ev.text) d q →
      Disposed ((gate ++ ⟨.isrReady, true⟩ :: es : List Ev).map Ev.text) d q := by
    intro d q hd
    have hall := (keeps_gate h).disposed.append (hd.cons (e := Ev.text ⟨.isrReady, true⟩) rfl)
    rw [Nat.zero_add] at hall
    rwa [List.map_append, List.map_cons]
  have henabled : TextEnabled cfg level tag.ptr
      ((gate ++ ⟨.isrReady, true⟩ :: es : List Ev).map Ev.text) ↔
        TextEnabled cfg level tag.ptr (es.map Ev.text) := by
    rw [List.map_append, List.map_cons, enabled_both, enabled_cons (by simp [Ev.text])]
    exact and_iff_right (enabled_past h)
  cases hes with
  | queued p hd => exact .queued p (hdisposed hd)
  | dropped hon hd => exact .dropped (henabled.mpr hon) (hdisposed hd)
  | noBackend hmem hd =>
    refine .noBackend ?_ (hdisposed hd)
    rw [List.map_append, List.map_cons]
    exact List.mem_append_right _ (List.mem_cons_of_mem _ hmem)
  | blocked hoff hd => exact .blocked (fun hon => hoff (henabled.mp hon)) (hdisposed hd)

theorem TextIsrCall.ends {text : Option Text} {v : Bool}
    (h : TextIsrCall cfg level tag flags text v es) :
    IsrEnds cfg level tag.ptr (es.map Ev.text) := by
  cases h with
  | blocked _ gate hg => exact .stopped hg
  | notReady _ gate hg => exact .unready hg
  | noText gate hg =>
    have hon : TextEnabled cfg level tag.ptr [⟨.core .addDropped, ()⟩] :=
      ⟨(enabled_past hg).1, by simp⟩
    exact .past hg (.dropped hon ⟨rfl, rfl⟩)
  | tooLong _ gate now hg _ =>
    have hon : TextEnabled cfg level tag.ptr
        [⟨.core .isrTimestampMs, now⟩, ⟨.core .addDropped, ()⟩] :=
      ⟨(enabled_past hg).1, by simp⟩
    exact .past hg (.dropped hon ⟨rfl, rfl⟩)
  | line text gate now ok hg _ =>
    rw [List.append_assoc]
    cases v with
    | true => exact .past hg (.queued _ ⟨rfl, rfl⟩)
    | false =>
      have hon : ∀ p : Text, TextEnabled cfg level tag.ptr [⟨.core .isrTimestampMs, now⟩,
          ⟨.core (.isrEnqueuePacket p), false⟩, ⟨.core .addDropped, ()⟩] :=
        fun p => ⟨(enabled_past hg).1, by simp⟩
      exact .past hg (.dropped (hon _) ⟨rfl, rfl⟩)

theorem FormattedIsrCall.ends {v : Bool} (h : FormattedIsrCall cfg level tag flags v es) :
    IsrEnds cfg level tag.ptr (es.map Ev.text) := by
  cases h with
  | blocked gate hg => exact .stopped hg
  | notReady gate hg => exact .unready hg
  | unformatted gate hg =>
    have hon : TextEnabled cfg level tag.ptr [⟨.core .addDropped, ()⟩] :=
      ⟨(enabled_past hg).1, by simp⟩
    exact .past hg (.dropped hon ⟨rfl, rfl⟩)
  | formatted gate es text _ hg hcall => exact .past hg hcall.ends

end Isr

theorem IsrEnds.ends {call : TextCall} {level : ℕ} {tag : Ptr} (h : IsrEnds cfg level tag es)
    (hisr : call.isIsr = true) (hf : call.filter = some (level, tag)) (hlines : linesIn es = []) :
    TextEnds cfg call es := by
  cases h with
  | queued p hd => exact .queued p hisr hlines hd
  | dropped hon hd => exact .dropped level tag hf hon hlines hd
  | noBackend hmem hd => exact .noBackend hisr hmem hlines hd
  | blocked hoff hd => exact .blocked level tag hf hoff hlines hd

/-! ### All calls -/

theorem keeps_table {b : List Ev} (h : TableSection b) :
    Keeps ((⟨.emitLock, ()⟩ :: b ++ [⟨.emitUnlock, ()⟩] : List Ev).map Ev.text) := by
  intro e he
  obtain ⟨e₀, he₀, rfl⟩ := List.mem_map.mp he
  rcases List.mem_append.mp he₀ with he₀ | he₀
  · rcases List.mem_cons.mp he₀ with rfl | he₀
    · rfl
    · exact inside_keeps _ (inside_tableSection h e₀ he₀)
  · rw [List.mem_singleton.mp he₀]
    rfl

theorem keeps_dispatchPacket {packet : Option Text} {v : Err}
    (h : (onCore (dispatchTextPacket cfg packet)).Path es v) : Keeps es := by
  obtain ⟨es₀, hp, rfl⟩ := path_onCore h
  have hnothing : ∀ {es : List Ev}, (pure Err.invalidArg : Core Err).Path es v →
      Keeps (es.map Ev.text) := by
    intro es h
    obtain ⟨rfl, -⟩ := (Prog.path_pure _ _ _).mp h
    exact fun e he => absurd he List.not_mem_nil
  cases packet with
  | none => exact hnothing hp
  | some packet =>
    by_cases hempty : packet = []
    · subst hempty
      exact hnothing hp
    · obtain ⟨-, flush, rest, rfl, hflush, hem⟩ := lineEmission_dispatchTextPacket hempty hp
      obtain ⟨line, hline, -⟩ := LineEmission.written none hem 0
      rw [List.map_append]
      exact (FlushedText.keeps hflush).append hline.keeps

theorem keeps_emitBoot {bootId : UInt32} {reason : UInt8} {v : Err}
    (h : (emitBootText cfg bootId reason).Path es v) : Keeps es := by
  obtain ⟨image, e₁, _, rfl, h₁, h⟩ := (Prog.path_bind _ _ _ _).mp h
  obtain ⟨h₂, -⟩ := Prog.path_then_pure h
  obtain ⟨es₀, hp, rfl⟩ := path_onCore h₁
  obtain ⟨reply, rfl, rfl⟩ := path_imageIdOrNone hp
  obtain ⟨line, hline, -⟩ := written_dispatchPieces
    (some (bootTextFormatter bootId reason reply.used.1 reply.used.2)) h₂
  intro e he
  rcases List.mem_cons.mp he with rfl | he
  · rfl
  · exact hline.keeps e he

theorem textEnds_textBody {f : Formatters} {call : TextCall} {v : Res}
    (h : (textBody cfg f call).Path es v) : TextEnds cfg call es := by
  obtain ⟨ls, hls⟩ := textWrites_textBody h
  have unfiltered : call.filter = none → Keeps es → TextEnds cfg call es := by
    intro hnone hkeeps
    refine hls.ends hkeeps fun level tag hf _ => ?_
    rw [hnone] at hf
    cases hf
  cases call with
  | init =>
    obtain ⟨e, e₁, _, rfl, h₁, h⟩ := (Prog.path_bind _ _ _ _).mp h
    obtain ⟨rfl, -⟩ := (Prog.path_pure _ _ _).mp h
    rw [List.append_nil] at unfiltered ⊢
    have hports : ∀ o : TextOp, o.ports = true ∨ o = .loadStream → o.disposes = false := by
      rintro o (ho | rfl)
      · cases o <;> first | rfl | cases ho
      · rfl
    exact unfiltered rfl (init_only.imp hports _ _ h₁)
  | write level tag textFlags format args => exact textEnds_write (Prog.path_then_pure h).1
  | writeText level tag textFlags formatter => exact textEnds_writeText (Prog.path_then_pure h).1
  | writeBuffer level tag textFlags buffer => exact textEnds_writeBuffer (Prog.path_then_pure h).1
  | emitBoot bootId reason =>
    obtain ⟨e, e₁, _, rfl, h₁, h⟩ := (Prog.path_bind _ _ _ _).mp h
    obtain ⟨rfl, -⟩ := (Prog.path_pure _ _ _).mp h
    rw [List.append_nil] at unfiltered ⊢
    exact unfiltered rfl (keeps_emitBoot h₁)
  | writeIsr level tag textFlags format argTypes args =>
    obtain ⟨queued, e₁, _, rfl, h₁, h⟩ := (Prog.path_bind _ _ _ _).mp h
    obtain ⟨rfl, -⟩ := (Prog.path_pure _ _ _).mp h
    obtain ⟨es₀, hp, rfl⟩ := path_onCore h₁
    have hlines := hls.linesIn_eq.trans (hls.silent id)
    rw [List.append_nil] at hlines ⊢
    exact (formattedIsrCall_vwriteTextIsr hp).ends.ends rfl rfl hlines
  | writeTextIsr level tag textFlags text =>
    obtain ⟨queued, e₁, _, rfl, h₁, h⟩ := (Prog.path_bind _ _ _ _).mp h
    obtain ⟨rfl, -⟩ := (Prog.path_pure _ _ _).mp h
    obtain ⟨es₀, hp, rfl⟩ := path_onCore h₁
    have hlines := hls.linesIn_eq.trans (hls.silent id)
    rw [List.append_nil] at hlines ⊢
    exact (textIsrCall_writeTextIsrWithFlags hp).ends.ends rfl rfl hlines
  | dispatchPacket packet =>
    obtain ⟨e, e₁, _, rfl, h₁, h⟩ := (Prog.path_bind _ _ _ _).mp h
    obtain ⟨rfl, -⟩ := (Prog.path_pure _ _ _).mp h
    rw [List.append_nil] at unfiltered ⊢
    exact unfiltered rfl (keeps_dispatchPacket h₁)
  | addSink sink callbacks ctx =>
    obtain ⟨e, e₁, _, rfl, h₁, h⟩ := (Prog.path_bind _ _ _ _).mp h
    obtain ⟨rfl, -⟩ := (Prog.path_pure _ _ _).mp h
    obtain ⟨es₀, hp, rfl⟩ := path_onCore h₁
    rw [List.append_nil] at unfiltered ⊢
    rcases path_addSink hp with ⟨-, rfl, -⟩ | ⟨-, b, hb, rfl⟩
    · exact unfiltered rfl fun e he => absurd he List.not_mem_nil
    · exact unfiltered rfl (keeps_table hb.tableSection)
  | removeSink sink ctx =>
    obtain ⟨e, e₁, _, rfl, h₁, h⟩ := (Prog.path_bind _ _ _ _).mp h
    obtain ⟨rfl, -⟩ := (Prog.path_pure _ _ _).mp h
    obtain ⟨es₀, hp, rfl⟩ := path_onCore h₁
    rw [List.append_nil] at unfiltered ⊢
    rcases path_removeSink hp with ⟨-, rfl, -⟩ | ⟨-, b, hb, rfl⟩
    · exact unfiltered rfl fun e he => absurd he List.not_mem_nil
    · exact unfiltered rfl (keeps_table hb.tableSection)

end Ends

/-! ### All runs -/

theorem Spoken.notice {message : Line → Prop} {ls : List Line} {line : Line}
    (h : Spoken message ls) (hl : line ∈ ls) (hne : line.count ≠ 0) : line.IsNotice := by
  obtain ⟨notices, last, rfl, hnotices, hcount, -⟩ := h
  rcases List.mem_append.mp hl with hl | hl
  · rcases hnotices with rfl | ⟨notice, rfl, hnotice⟩
    · exact absurd hl List.not_mem_nil
    · rwa [List.mem_singleton.mp hl]
  · rw [List.mem_singleton.mp hl] at hne
    exact absurd hcount hne

section Runs

variable {Tid : Type} [DecidableEq Tid] {cfg : Config} {f : Formatters}
  {c : Lib.Config Tid TextCall TextOp TextOp.Ret Res (TextShared Tid)} {tr : TextTrace Tid}

theorem TextWrites.notice {call : TextCall} {es : List TextEv} {ls : List Line} {line : Line}
    (h : TextWrites cfg call es ls) (hl : line ∈ ls) (hne : line.count ≠ 0) : line.IsNotice := by
  by_cases hs : call.Speaks cfg es
  · exact (h.spoken hs).notice hl hne
  · rw [h.silent hs] at hl
    exact absurd hl List.not_mem_nil

theorem TextDone.Wrote.notice {d : TextDone} {line : Line} (h : d.Wrote cfg)
    (hl : line ∈ d.lines) (hne : line.count ≠ 0) : line.IsNotice := by
  by_cases hs : d.call.Speaks cfg d.events
  · exact (h.2 hs).notice hl hne
  · rw [h.1 hs] at hl
    exact absurd hl List.not_mem_nil

/-- A line that stands for lost messages says so. -/
theorem notice_of_count (h : (textSystem Tid cfg f).Run c tr) {w : LineOut Tid}
    (hw : w ∈ linesOf cfg tr) (hne : w.line.count ≠ 0) : w.line.IsNotice := by
  obtain ⟨done, begun, -, -, hlines, hdone, hidle, hbusy⟩ := lines_in_order h w.writer
  have hmem : w.line ∈ linesBy w.writer (linesOf cfg tr) :=
    List.mem_map_of_mem (List.mem_filter.mpr ⟨hw, decide_eq_true rfl⟩)
  rw [hlines] at hmem
  rcases List.mem_append.mp hmem with hmem | hmem
  · obtain ⟨d, hd, hl⟩ := List.mem_flatMap.mp hmem
    exact (hdone d hd).notice hl hne
  · cases ht : c.thread w.writer with
    | none =>
      rw [hidle ht] at hmem
      exact absurd hmem List.not_mem_nil
    | some p =>
      obtain ⟨es, ls, hls, hbegun⟩ := hbusy p.1 p.2 ht
      exact hls.notice (hbegun.subset hmem) hne

/-- Losses in the plain-text build, for every interleaving: a call that has returned ended in one
of the ways of `TextEnds`, and counted a loss only if its message is nowhere else; the losses
counted are those announced, those a thread has taken and not announced yet, and those still in
the counter; a line that announces losses gives their number; and where no call is under way all
but what the counter holds has been announced. -/
theorem text_drops_accounted (h : (textSystem Tid cfg f).Run c tr) :
    (∀ t call v tr', (.ret t call v :: tr') <:+ tr → TextEnds cfg call (callEvents t tr')) ∧
    (∃ n, SumIs (fun t => (draftOf t tr).count.toNat) n ∧
      drops (coreEvents (actEvents tr)) ≡
        announced (linesOf cfg tr) + n + c.state.core.dropped [MOD 2 ^ 32]) ∧
    (∀ w ∈ linesOf cfg tr, w.line.count ≠ 0 → w.line.IsNotice) ∧
    ((∀ t, c.thread t = none) → drops (coreEvents (actEvents tr)) ≡
      announced (linesOf cfg tr) + c.state.core.dropped [MOD 2 ^ 32]) := by
  obtain ⟨g, hsteps, hbooks⟩ := announced_run h
  obtain ⟨n, hsum, hcount⟩ := hbooks.count
  have hdrafts : (fun t => (g t).count.toNat) = fun t => (draftOf t tr).count.toNat :=
    funext fun t => by rw [hbooks.drafts]
  refine ⟨fun t call v tr' hsuf => ?_, ⟨n, hdrafts ▸ hsum, hcount⟩,
    fun w hw hne => notice_of_count h hw hne, fun hidle => ?_⟩
  · obtain ⟨tr₂, rfl⟩ := hsuf
    obtain ⟨c', h'⟩ := h.suffix
    exact textEnds_textBody (System.Run.ret_path h')
  · have hblank : (fun t => (g t).count.toNat) = fun _ => 0 := by
      funext t
      have hs := hsteps t
      rw [(h.thread t).1 (hidle t)] at hs
      rw [show g t = Line.blank from hs]
      rfl
    rw [hblank] at hsum
    rw [hsum.unique sumIs_zero] at hcount
    exact hcount

end Runs

/-- A message is logged before the library is initialised, another one behind it. -/
def lateInit : List (Turn ℕ TextCall) :=
  let write : TextCall := .write 3 ⟨1, smallMessage⟩ 0 (some smallMessage) []
  [.invoke 0 write, .perform 0 3, .ret 0, .invoke 0 .init, .perform 0 7, .ret 0,
    .invoke 1 write, .perform 1 43, .ret 1]

/-- The first message is lost, and the second call says so. -/
theorem text_drops_accounted_late : ∃ c tr,
    (textSystem ℕ smallConfig plainFormatters).Run c tr ∧
    drops (coreEvents (actEvents tr)) = 1 ∧ c.state.core.dropped = 0 ∧
    ∃ notice message, linesOf smallConfig tr = [notice, message] ∧ notice.writer = 1 ∧
      notice.line.IsNotice := by
  obtain ⟨c, tr, hrun, -, hval⟩ := run_text lateInit
    (fun p => (drops (coreEvents (actEvents p.2)), p.1.state.core.dropped,
      (linesOf smallConfig p.2).map fun w => (w.writer, w.line.count)))
    (a := (1, 0, [(1, 1), (1, 0)])) (by decide +kernel)
  obtain ⟨hdrops, hval⟩ := Prod.mk.inj hval
  obtain ⟨hcounter, hlines⟩ := Prod.mk.inj hval
  obtain ⟨notice, rest, hcons, hnotice, hrest⟩ := List.map_eq_cons_iff.mp hlines
  obtain ⟨message, hmessage, -⟩ := List.map_eq_singleton_iff.mp hrest
  obtain ⟨hwriter, hcount⟩ := Prod.mk.inj hnotice
  have hmem : notice ∈ linesOf smallConfig tr := by
    rw [hcons]
    exact List.mem_cons_self ..
  have hne : notice.line.count ≠ 0 := by
    rw [hcount]
    decide
  refine ⟨c, tr, hrun, hdrops, hcounter, notice, message, ?_, hwriter, ?_⟩
  · rw [hcons, hmessage]
  · exact (text_drops_accounted hrun).2.2.1 notice hmem hne

end On9log
