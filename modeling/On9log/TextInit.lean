import On9log.Solo
import On9log.TextCookie

/-!
# Initialisation of the plain-text build (on9log.c:1938-1996)

`on9log_init` publishes at most one stream and leaves no other one open
(`OpenInv`, `Streams`), so whoever has found the stream never finds it gone.
-/

namespace On9log
open Lib

/-! ### What a call does with the stream -/

/-- Where a thread is with `on9log_init`. -/
inductive OpenView where
  | out
  | locked
  | unset
  | opened (file : Ptr)

/-- A thread that has the port lock and finds no stream may open one. -/
def OpenView.load (file : Ptr) (g : OpenView) : OpenView :=
  match g with
  | .locked => if file = 0 then .unset else .locked
  | g => g

def openStep (g : OpenView) (e : TextEv) (g' : OpenView) : Prop :=
  match e with
  | ⟨.portLock, _⟩ => g = .out ∧ g' = .locked
  | ⟨.portUnlock, _⟩ => (g = .locked ∨ g = .unset) ∧ g' = .out
  | ⟨.loadStream, file⟩ => g' = g.load file
  | ⟨.openCookie, file⟩ => g = .unset ∧ g' = if file = 0 then .unset else .opened file
  | ⟨.setvbuf file, _⟩ => g = .opened file ∧ g' = g
  | ⟨.fclose file, _⟩ => g = .opened file ∧ g' = .unset
  | ⟨.storeStream file, _⟩ => g = .opened file ∧ g' = .locked
  | _ => g' = g

theorem openStep_functional : Functional openStep := by
  intro g e g₁ g₂ h₁ h₂
  obtain ⟨o, r⟩ := e
  cases o
  case portLock => rw [h₁.2, h₂.2]
  case portUnlock => rw [h₁.2, h₂.2]
  case openCookie => rw [h₁.2, h₂.2]
  case setvbuf => rw [h₁.2, h₂.2]
  case fclose => rw [h₁.2, h₂.2]
  case storeStream => rw [h₁.2, h₂.2]
  all_goals exact Eq.trans h₁ (Eq.symm h₂)

def Portless {α : Type} (p : TextProg α) : Prop := p.Only fun o => o.ports = false

theorem Portless.steps {α : Type} {p : TextProg α} (hp : Portless p) {es : List TextEv} {v : α}
    (h : p.Path es v) : Steps openStep .out es .out := by
  have hall := hp es v h
  clear h
  induction es with
  | nil => rfl
  | cons e es ih =>
    refine ⟨.out, ?_, ih fun e he => hall e (List.mem_cons_of_mem _ he)⟩
    have he := hall e (List.mem_cons_self ..)
    obtain ⟨o, r⟩ := e
    cases o <;> first | rfl | cases he

section Portless

variable {cfg : Config} {formatter : Option TextFormatter}

theorem portless_op {o : TextOp} (h : o.ports = false) : Portless (Prog.op o) := Prog.only_op h

theorem portless_onCore {α : Type} (p : Core α) : Portless (onCore p) := by
  have hop : ∀ o : Op, Portless (Prog.op (TextOp.core o)) := fun _ => portless_op rfl
  exact Prog.only_expand hop p

theorem portless_filtered (stream : Stream) (filter : TextFilter) (data : Text) :
    Portless (textFilteredOutput stream filter data) :=
  (portless_onCore _).bind fun _ => Prog.only_pure _

theorem portless_outputPieces (pieces : List Text) (stream : Stream) (filter : TextFilter) :
    Portless (outputPieces pieces stream filter) :=
  Prog.only_foldlM (portless_filtered stream) pieces filter

theorem portless_printf (format : Option CStr) (args : VaList) (stream : Stream)
    (filter : TextFilter) : Portless (printfFormatter format args stream filter) := by
  have hwrite : ∀ filter data, Portless (printfCookieWrite stream filter data) :=
    fun filter data => (portless_op rfl).bind fun _ => .ite (portless_filtered _ _ _)
      ((portless_op rfl).bind fun _ => Prog.only_pure _)
  refine (portless_op rfl).bind fun file => .ite (Prog.only_pure _) ?_
  refine (portless_op rfl).bind fun _ => (portless_op rfl).bind fun _ =>
    (portless_op rfl).bind fun pieces => (Prog.only_foldlM hwrite pieces filter).bind fun _ => ?_
  exact (portless_op rfl).bind fun _ => (portless_op rfl).bind fun _ => Prog.only_pure _

/-- Formatters that have nothing to do with the stream pointer. -/
def PortlessFormatter (formatter : Option TextFormatter) : Prop :=
  ∀ p, formatter = some p → ∀ stream filter, Portless (p stream filter)

theorem portless_dispatch (hf : PortlessFormatter formatter) (level : ℕ) (tag : Option CStr)
    (flags : UInt8) : Portless (dispatchFormattedLine cfg level tag flags formatter) := by
  refine (portless_onCore _).bind fun stream => (portless_onCore _).bind fun _ =>
    (portless_onCore _).bind fun now => (portless_outputPieces _ _ _).bind fun filter => ?_
  have hlast : ∀ filter, Portless (do
      let _ ← outputPieces (suffixPieces flags) stream filter
      onCore (streamEnd stream) : TextProg Unit) :=
    fun filter => (portless_outputPieces _ _ _).bind fun _ => portless_onCore _
  cases formatter with
  | none => exact (Prog.only_pure _).bind hlast
  | some p => exact (hf p rfl stream filter).bind hlast

theorem portless_writeFormattedText (hf : PortlessFormatter formatter) (level : ℕ) (tag : TagArg)
    (textFlags : UInt8) :
    Portless (writeFormattedText cfg level tag textFlags formatter) :=
  (portless_onCore _).bind fun _ => .ite
    ((portless_onCore _).bind fun _ => portless_dispatch hf _ _ _) (Prog.only_pure _)

theorem portlessFormatter_pieces (formatter : Option (List Text)) :
    PortlessFormatter (formatter.map outputPieces) := by
  intro p hp
  obtain ⟨pieces, -, rfl⟩ := Option.map_eq_some_iff.mp hp
  exact portless_outputPieces pieces

theorem portless_textBody {f : Formatters} {call : TextCall} (h : call ≠ .init) :
    Portless (textBody cfg f call) := by
  have ret : ∀ {α : Type} {p : TextProg α} {k : α → Res}, Portless p →
      Portless (p >>= fun a => pure (k a)) := fun hp => hp.bind fun _ => Prog.only_pure _
  cases call with
  | init => exact absurd rfl h
  | write level tag textFlags format args =>
    refine ret ((portless_op rfl).bind fun file => .ite ?_ ?_)
    · exact (portless_onCore _).bind fun _ => .ite (portless_onCore _) (Prog.only_pure _)
    · refine portless_writeFormattedText (fun p hp => ?_) _ _ _
      cases hp
      exact portless_printf format args
  | writeText level tag textFlags formatter =>
    exact ret (portless_writeFormattedText (portlessFormatter_pieces formatter) _ _ _)
  | writeBuffer level tag textFlags buffer =>
    refine ret ((portless_onCore _).bind fun _ => .ite ?_ (Prog.only_pure _))
    cases buffer with
    | none => exact portless_onCore _
    | some bytes =>
      refine .ite (portless_onCore _) ?_
      exact portless_writeFormattedText (portlessFormatter_pieces (some _)) _ _ _
  | emitBoot bootId reason =>
    refine ret ((portless_onCore _).bind fun image => ?_)
    exact (portless_dispatch (portlessFormatter_pieces (some _)) _ _ _).bind fun _ =>
      Prog.only_pure _
  | writeIsr => exact ret (portless_onCore _)
  | writeTextIsr => exact ret (portless_onCore _)
  | dispatchPacket => exact ret (portless_onCore _)
  | addSink => exact ret (portless_onCore _)
  | removeSink => exact ret (portless_onCore _)

end Portless

/-- The call found the stream published, or published it. -/
def FoundStream (es : List TextEv) : Prop :=
  (∃ file, file ≠ 0 ∧ (⟨.loadStream, file⟩ : TextEv) ∈ es) ∨
    ∃ file, (⟨.storeStream file, ()⟩ : TextEv) ∈ es

theorem path_openPrintfStream {es : List TextEv} {e : Err} (h : openPrintfStream.Path es e) :
    Steps openStep .unset es .out ∧ (e = .ok → FoundStream es) := by
  obtain ⟨file, e₁, _, rfl, h₁, h⟩ := (Prog.path_bind _ _ _ _).mp h
  rw [(Prog.path_op _ _ _).mp h₁]
  rcases (Prog.path_ite _ _ _ _ _).mp h with ⟨rfl, h⟩ | ⟨hfile, h⟩
  · obtain ⟨h₂, rfl⟩ := Prog.path_then_pure h
    rw [(Prog.path_op _ _ _).mp h₂]
    exact ⟨⟨_, ⟨rfl, rfl⟩, _, ⟨Or.inr rfl, rfl⟩, rfl⟩, by simp⟩
  have hopen : openStep .unset ⟨.openCookie, file⟩ (.opened file) := ⟨rfl, (if_neg hfile).symm⟩
  obtain ⟨unbuffered, e₂, _, rfl, h₂, h⟩ := (Prog.path_bind _ _ _ _).mp h
  rw [(Prog.path_op _ _ _).mp h₂]
  rcases (Prog.path_ite _ _ _ _ _).mp h with ⟨-, h⟩ | ⟨-, h⟩
  · obtain ⟨_, e₃, _, rfl, h₃, h⟩ := (Prog.path_bind _ _ _ _).mp h
    obtain ⟨h₄, rfl⟩ := Prog.path_then_pure h
    rw [(Prog.path_op _ _ _).mp h₃, (Prog.path_op _ _ _).mp h₄]
    exact ⟨⟨_, hopen, _, ⟨rfl, rfl⟩, _, ⟨rfl, rfl⟩, _, ⟨Or.inr rfl, rfl⟩, rfl⟩, by simp⟩
  · obtain ⟨_, e₃, _, rfl, h₃, h⟩ := (Prog.path_bind _ _ _ _).mp h
    obtain ⟨h₄, rfl⟩ := Prog.path_then_pure h
    rw [(Prog.path_op _ _ _).mp h₃, (Prog.path_op _ _ _).mp h₄]
    refine ⟨⟨_, hopen, _, ⟨rfl, rfl⟩, _, ⟨rfl, rfl⟩, _, ⟨Or.inl rfl, rfl⟩, rfl⟩, fun _ => ?_⟩
    exact Or.inr ⟨file, by simp⟩

theorem path_on9logInitText {es : List TextEv} {e : Err} (h : on9logInitText.Path es e) :
    Steps openStep .out es .out ∧ (e = .ok → FoundStream es) := by
  obtain ⟨file, e₁, _, rfl, h₁, h⟩ := (Prog.path_bind _ _ _ _).mp h
  rw [(Prog.path_op _ _ _).mp h₁]
  rcases (Prog.path_ite _ _ _ _ _).mp h with ⟨hfile, h⟩ | ⟨-, h⟩
  · obtain ⟨rfl, rfl⟩ := (Prog.path_pure _ _ _).mp h
    exact ⟨⟨_, rfl, rfl⟩, fun _ => Or.inl ⟨file, hfile, by simp⟩⟩
  obtain ⟨_, e₂, _, rfl, h₂, h⟩ := (Prog.path_bind _ _ _ _).mp h
  obtain ⟨file', e₃, _, rfl, h₃, h⟩ := (Prog.path_bind _ _ _ _).mp h
  rw [(Prog.path_op _ _ _).mp h₂, (Prog.path_op _ _ _).mp h₃]
  rcases (Prog.path_ite _ _ _ _ _).mp h with ⟨hfile, h⟩ | ⟨hfile, h⟩
  · obtain ⟨h₄, rfl⟩ := Prog.path_then_pure h
    rw [(Prog.path_op _ _ _).mp h₄]
    refine ⟨⟨_, rfl, _, ⟨rfl, rfl⟩, .locked, (if_neg hfile).symm, _, ⟨Or.inl rfl, rfl⟩, rfl⟩,
      fun _ => Or.inl ⟨file', hfile, by simp⟩⟩
  · obtain ⟨hsteps, hfound⟩ := path_openPrintfStream h
    have hunset : file' = 0 := not_not.mp hfile
    refine ⟨⟨_, rfl, _, ⟨rfl, rfl⟩, .unset, (if_pos hunset).symm, hsteps⟩, fun hok => ?_⟩
    rcases hfound hok with ⟨found, hne, hmem⟩ | ⟨found, hmem⟩
    · exact Or.inl ⟨found, hne, by simp [hmem]⟩
    · exact Or.inr ⟨found, by simp [hmem]⟩

theorem textBody_opens {cfg : Config} {f : Formatters} (call : TextCall) (es : List TextEv)
    (v : Res) (h : (textBody cfg f call).Path es v) : Steps openStep .out es .out := by
  by_cases hcall : call = .init
  · subst hcall
    obtain ⟨e, e₁, _, rfl, h₁, h⟩ := (Prog.path_bind _ _ _ _).mp h
    obtain ⟨rfl, -⟩ := (Prog.path_pure _ _ _).mp h
    rw [List.append_nil]
    exact (path_on9logInitText h₁).1
  · exact (portless_textBody hcall).steps h

/-! ### The stream -/

section Streams

variable {Tid : Type} [DecidableEq Tid] {cfg : Config} {f : Formatters}

def openFiles (stream : Ptr) : List Ptr := if stream = 0 then [] else [stream]

structure OpenInv (s : TextShared Tid) (g : Tid → OpenView) : Prop where
  inside : ∀ t, s.portOwner = some t ↔ g t ≠ .out
  unset : ∀ t, g t = .unset → s.stream = 0
  opened : ∀ t file, g t = .opened file → s.stream = 0 ∧ file ≠ 0 ∧ s.files = [file]
  files : (∀ t file, g t ≠ .opened file) → s.files = openFiles s.stream

def streamLoads (es : List TextEv) : List Ptr :=
  es.filterMap fun e => match e with
    | ⟨.loadStream, file⟩ => some file
    | _ => none

theorem mem_streamLoads {es : List TextEv} {file : Ptr} :
    file ∈ streamLoads es ↔ (⟨.loadStream, file⟩ : TextEv) ∈ es := by
  refine ⟨fun h => ?_, fun h => List.mem_filterMap.mpr ⟨_, h, rfl⟩⟩
  obtain ⟨⟨o, r⟩, he, hfile⟩ := List.mem_filterMap.mp h
  cases o
  case loadStream =>
    cases hfile
    exact he
  all_goals cases hfile

def published (es : List TextEv) : List Ptr :=
  es.filterMap fun e => match e.op with
    | .storeStream file => some file
    | _ => none

/-- Once a thread has found the stream, nobody finds anything else. -/
def StreamStays (es : List TextEv) : Prop :=
  (streamLoads es).Pairwise fun file file' => file ≠ 0 → file' = file

structure Streams (s : TextShared Tid) (es : List TextEv) : Prop where
  loads : ∀ file ∈ streamLoads es, file ≠ 0 → s.stream = file
  stays : StreamStays es
  stores : published es = openFiles s.stream

section Steps

variable {s s' : TextShared Tid} {g : Tid → OpenView} {t : Tid} {g' : OpenView}

omit [DecidableEq Tid] in
theorem openInv_init : OpenInv (TextShared.init : TextShared Tid) fun _ => .out where
  inside t := by simp [TextShared.init]
  unset t h := by cases h
  opened t file h := by cases h
  files _ := rfl

omit [DecidableEq Tid] in
theorem OpenInv.alone (h : OpenInv s g) (ht : g t ≠ .out) {u : Tid} (hu : u ≠ t) : g u = .out := by
  by_contra hne
  have hown := (h.inside t).mpr ht
  rw [(h.inside u).mpr hne] at hown
  exact hu (Option.some.inj hown)

/-- Only `t` moves, and has the port lock behind the step if it is not out. -/
theorem OpenInv.move (hout : ∀ u, u ≠ t → g u = .out)
    (ho : ∀ u, s'.portOwner = some u ↔ u = t ∧ g' ≠ .out) (hunset : g' = .unset → s'.stream = 0)
    (hopened : ∀ file, g' = .opened file → s'.stream = 0 ∧ file ≠ 0 ∧ s'.files = [file])
    (hfiles : (∀ file, g' ≠ .opened file) → s'.files = openFiles s'.stream) :
    OpenInv s' (Function.update g t g') := by
  have hself : Function.update g t g' t = g' := Function.update_self ..
  have hothers : ∀ u, u ≠ t → Function.update g t g' u = .out := by
    intro u hu
    rw [Function.update_of_ne hu]
    exact hout u hu
  refine ⟨fun u => ?_, fun u hu => ?_, fun u file hu => ?_, fun hnone => hfiles fun file => ?_⟩
  · rw [ho]
    by_cases hut : u = t
    · rw [hut, hself]
      simp
    · rw [hothers u hut]
      simp [hut]
  · by_cases hut : u = t
    · rw [hut, hself] at hu
      exact hunset hu
    · rw [hothers u hut] at hu
      cases hu
  · by_cases hut : u = t
    · rw [hut, hself] at hu
      exact hopened file hu
    · rw [hothers u hut] at hu
      cases hu
  · have hne := hnone t file
    rwa [hself] at hne

omit [DecidableEq Tid] in
theorem OpenInv.holds (h : OpenInv s g) (ht : g t ≠ .out) (hg' : g' ≠ .out) (u : Tid) :
    s.portOwner = some u ↔ u = t ∧ g' ≠ .out := by
  rw [(h.inside t).mpr ht]
  exact ⟨fun hu => ⟨(Option.some.inj hu).symm, hg'⟩, fun hu => congrArg some hu.1.symm⟩

omit [DecidableEq Tid] in
/-- Nobody has an unpublished stream beside the holder of the port lock. -/
theorem OpenInv.files_of (h : OpenInv s g) (ht : g t ≠ .out) (hno : ∀ file, g t ≠ .opened file) :
    s.files = openFiles s.stream := by
  refine h.files fun u file hu => ?_
  by_cases hut : u = t
  · exact hno file (hut ▸ hu)
  · rw [h.alone ht hut] at hu
    cases hu

theorem OpenInv.keep (h : OpenInv s g) (ho : s'.portOwner = s.portOwner)
    (hs : s'.stream = s.stream) (hf : s'.files = s.files) :
    OpenInv s' (Function.update g t (g t)) := by
  rw [Function.update_eq_self]
  refine ⟨fun u => ?_, fun u hu => ?_, fun u file hu => ?_, fun hnone => ?_⟩
  · rw [ho]
    exact h.inside u
  · rw [hs]
    exact h.unset u hu
  · rw [hs, hf]
    exact h.opened u file hu
  · rw [hs, hf]
    exact h.files hnone

theorem OpenInv.act {e : TextEv} (h : OpenInv s g) (hg : openStep (g t) e g')
    (hs : textStep cfg t e.op e.ret s s') : OpenInv s' (Function.update g t g') := by
  obtain ⟨o, r⟩ := e
  cases o
  case core o =>
    obtain ⟨core, -, rfl⟩ := hs
    rw [show g' = g t from hg]
    exact h.keep rfl rfl rfl
  case portLock =>
    obtain ⟨-, rfl⟩ := hg
    obtain ⟨hfree, rfl⟩ := hs
    have hout : ∀ u, g u = .out := by
      intro u
      by_contra hu
      have hown := (h.inside u).mpr hu
      rw [hfree] at hown
      cases hown
    refine .move (fun u _ => hout u) (fun u => ?_) (by simp) (by simp) fun _ => ?_
    · simp [eq_comm]
    · refine h.files fun u file hu => ?_
      rw [hout u] at hu
      cases hu
  case portUnlock =>
    obtain ⟨ht, rfl⟩ := hg
    obtain rfl := hs
    have hne : g t ≠ .out := by rcases ht with ht | ht <;> simp [ht]
    refine .move (fun u hu => h.alone hne hu) (by simp) (by simp) (by simp) fun _ => ?_
    exact h.files_of hne fun file => by rcases ht with ht | ht <;> simp [ht]
  case loadStream file =>
    obtain ⟨hfile, rfl⟩ := hs
    cases ht : g t with
    | locked =>
      have hne : g t ≠ .out := by simp [ht]
      have hfiles := h.files_of hne (by simp [ht])
      rw [ht] at hg
      by_cases hzero : r = 0
      · rw [show g' = .unset from hg.trans (if_pos hzero)]
        refine .move (fun u hu => h.alone hne hu) (h.holds hne (by simp)) (fun _ => ?_) (by simp)
          fun _ => hfiles
        exact hfile.symm.trans hzero
      · rw [show g' = .locked from hg.trans (if_neg hzero)]
        exact .move (fun u hu => h.alone hne hu) (h.holds hne (by simp)) (by simp) (by simp)
          fun _ => hfiles
    | _ =>
      rw [ht] at hg
      rw [show g' = g t from hg.trans ht.symm]
      exact h.keep rfl rfl rfl
  case openCookie =>
    obtain ⟨ht, rfl⟩ := hg
    have hne : g t ≠ .out := by simp [ht]
    have hstream := h.unset t ht
    have hfiles := h.files_of hne (by simp [ht])
    rcases hs with ⟨rfl, rfl⟩ | ⟨hfile, -, rfl⟩
    · exact .move (fun u hu => h.alone hne hu) (h.holds hne (by simp)) (fun _ => hstream)
        (by simp) fun _ => hfiles
    · rw [if_neg hfile]
      refine .move (fun u hu => h.alone hne hu) (h.holds hne (by simp)) (by simp)
        (fun file hopen => ?_) fun hnone => absurd rfl (hnone _)
      cases hopen
      refine ⟨hstream, hfile, ?_⟩
      rw [hfiles, hstream]
      rfl
  case setvbuf file =>
    obtain ⟨-, rfl⟩ := hg
    obtain rfl := hs
    exact h.keep rfl rfl rfl
  case fclose file =>
    obtain ⟨ht, rfl⟩ := hg
    obtain rfl := hs
    have hne : g t ≠ .out := by simp [ht]
    obtain ⟨hstream, -, hfiles⟩ := h.opened t file ht
    refine .move (fun u hu => h.alone hne hu) (h.holds hne (by simp)) (fun _ => hstream)
      (by simp) fun _ => ?_
    show s.files.erase file = openFiles s.stream
    rw [hfiles, hstream, List.erase_cons_head]
    rfl
  case storeStream file =>
    obtain ⟨ht, rfl⟩ := hg
    obtain rfl := hs
    have hne : g t ≠ .out := by simp [ht]
    obtain ⟨-, hfile, hfiles⟩ := h.opened t file ht
    refine .move (fun u hu => h.alone hne hu) (h.holds hne (by simp)) (by simp) (by simp)
      fun _ => ?_
    show s.files = openFiles file
    rw [hfiles, openFiles, if_neg hfile]
  case flockfile =>
    obtain ⟨-, rfl⟩ := hs
    rw [show g' = g t from hg]
    exact h.keep rfl rfl rfl
  case loadCookie =>
    obtain ⟨-, rfl⟩ := hs
    rw [show g' = g t from hg]
    exact h.keep rfl rfl rfl
  all_goals
    obtain rfl := hs
    rw [show g' = g t from hg]
    exact h.keep rfl rfl rfl

omit [DecidableEq Tid] in
theorem Streams.keep {es : List TextEv} {e : TextEv} (h : Streams s es)
    (hs : s'.stream = s.stream) (hl : streamLoads [e] = []) (hp : published [e] = []) :
    Streams s' (es ++ [e]) := by
  have hloads : streamLoads (es ++ [e]) = streamLoads es :=
    List.filterMap_append.trans ((congrArg _ hl).trans (List.append_nil _))
  have hstores : published (es ++ [e]) = published es :=
    List.filterMap_append.trans ((congrArg _ hp).trans (List.append_nil _))
  refine ⟨fun file hfile hne => ?_, ?_, ?_⟩
  · rw [hloads] at hfile
    rw [hs]
    exact h.loads file hfile hne
  · rw [StreamStays, hloads]
    exact h.stays
  · rw [hstores, hs]
    exact h.stores

omit [DecidableEq Tid] in
theorem Streams.act {e : TextEv} {es : List TextEv} (h : Streams s es) (hinv : OpenInv s g)
    (hg : openStep (g t) e g') (hs : textStep cfg t e.op e.ret s s') : Streams s' (es ++ [e]) := by
  obtain ⟨o, r⟩ := e
  cases o
  case core o =>
    obtain ⟨core, -, rfl⟩ := hs
    exact h.keep rfl rfl rfl
  case loadStream =>
    obtain ⟨hfile, rfl⟩ := hs
    have hloads : streamLoads (es ++ [⟨.loadStream, r⟩]) = streamLoads es ++ [r] :=
      List.filterMap_append
    have hstores : published (es ++ [⟨.loadStream, r⟩]) = published es :=
      List.filterMap_append.trans (List.append_nil _)
    refine ⟨fun file hmem hne => ?_, ?_, hstores.trans h.stores⟩
    · rw [hloads] at hmem
      rcases List.mem_append.mp hmem with hmem | hmem
      · exact h.loads file hmem hne
      · rw [List.mem_singleton.mp hmem]
        exact hfile.symm
    · rw [StreamStays, hloads]
      refine List.pairwise_append.mpr ⟨h.stays, List.pairwise_singleton _ _, ?_⟩
      intro file hmem file' hmem' hne
      rw [List.mem_singleton.mp hmem', ← h.loads file hmem hne]
      exact hfile
  case storeStream file =>
    obtain ⟨ht, -⟩ := hg
    obtain rfl := hs
    obtain ⟨hstream, hfile, -⟩ := hinv.opened t file ht
    have hloads : streamLoads (es ++ [⟨.storeStream file, r⟩]) = streamLoads es :=
      List.filterMap_append.trans (List.append_nil _)
    have hstores : published (es ++ [⟨.storeStream file, r⟩]) = published es ++ [file] :=
      List.filterMap_append
    refine ⟨fun file' hmem hne => ?_, ?_, ?_⟩
    · rw [hloads] at hmem
      have hold := h.loads file' hmem hne
      rw [hstream] at hold
      exact absurd hold.symm hne
    · rw [StreamStays, hloads]
      exact h.stays
    · rw [hstores, h.stores, hstream]
      exact (if_neg hfile).symm
  case openCookie =>
    rcases hs with ⟨-, rfl⟩ | ⟨-, -, rfl⟩
    · exact h.keep rfl rfl rfl
    · exact h.keep rfl rfl rfl
  case portLock =>
    obtain ⟨-, rfl⟩ := hs
    exact h.keep rfl rfl rfl
  case flockfile =>
    obtain ⟨-, rfl⟩ := hs
    exact h.keep rfl rfl rfl
  case loadCookie =>
    obtain ⟨-, rfl⟩ := hs
    exact h.keep rfl rfl rfl
  all_goals
    obtain rfl := hs
    exact h.keep rfl rfl rfl

end Steps

variable {c : Lib.Config Tid TextCall TextOp TextOp.Ret Res (TextShared Tid)} {tr : TextTrace Tid}

theorem stream_run (h : (textSystem Tid cfg f).Run c tr) :
    ∃ g : Tid → OpenView, (∀ t, Steps openStep .out (callEvents t tr) (g t)) ∧
      OpenInv c.state g ∧ Streams c.state (actEvents tr) := by
  refine h.invariant openStep_functional textBody_opens
    (I := fun s tr g => OpenInv s g ∧ Streams s (actEvents tr)) ⟨openInv_init, ?_⟩
    (fun _ _ _ _ _ hi _ => hi) (fun _ _ _ _ _ _ hi _ => hi) ?_
  · exact ⟨fun file hmem => absurd hmem List.not_mem_nil, .nil, rfl⟩
  · intro s tr g t e g' s' hi hg hs
    exact ⟨hi.1.act hg hs, hi.2.act hi.1 hg hs⟩

/-! ### Runs -/

/-- A `FILE` that the thread works with is one it has found in the pointer. -/
def FileView.Found (es : List TextEv) : FileView → Prop
  | .out => True
  | .locked file => file ≠ 0 → file ∈ streamLoads es
  | .filed file => file ≠ 0 ∧ file ∈ streamLoads es
  | .printing file _ => file ≠ 0 ∧ file ∈ streamLoads es

omit [DecidableEq Tid] in
theorem FileView.Found.snoc {es : List TextEv} {g g' : FileView} {e : TextEv} (h : g.Found es)
    (hs : fileStep g e g') : g'.Found (es ++ [e]) := by
  have hmono : ∀ {g : FileView}, g.Found es → g.Found (es ++ [e]) := by
    intro g hg
    have hmem : ∀ {file}, file ∈ streamLoads es → file ∈ streamLoads (es ++ [e]) := by
      intro file hfile
      rw [streamLoads, List.filterMap_append]
      exact List.mem_append_left _ hfile
    cases g with
    | out => trivial
    | locked file => exact fun hne => hmem (hg hne)
    | filed file => exact ⟨hg.1, hmem hg.2⟩
    | printing file stray => exact ⟨hg.1, hmem hg.2⟩
  have hsame : g' = g → g'.Found (es ++ [e]) := fun heq => heq ▸ hmono h
  obtain ⟨o, r⟩ := e
  cases o
  case core o =>
    cases o
    case emitLock =>
      obtain ⟨-, rfl⟩ := hs
      exact fun hne => absurd rfl hne
    case emitUnlock =>
      obtain ⟨-, rfl⟩ := hs
      trivial
    all_goals exact hsame hs
  case loadStream =>
    cases g with
    | locked file =>
      rw [show g' = .locked r from hs]
      intro _
      rw [streamLoads, List.filterMap_append]
      exact List.mem_append_right _ (List.mem_singleton_self _)
    | _ => exact hsame hs
  case flockfile file =>
    obtain ⟨rfl, hne, rfl⟩ := hs
    exact hmono (g := .filed file) ⟨hne, h hne⟩
  case setCookie =>
    obtain ⟨file, rfl, rfl⟩ := hs
    exact hmono (g := .printing file false) h
  case loadCookie =>
    obtain ⟨file, stray, rfl, rfl⟩ := hs
    exact hmono (g := .printing file _) h
  case vfprintf => exact hsame hs.2
  case strayOutput => exact hsame hs.2
  case clearCookie =>
    obtain ⟨file, stray, rfl, rfl⟩ := hs
    exact hmono (g := .filed file) h
  case funlockfile file =>
    obtain ⟨rfl, rfl⟩ := hs
    exact hmono (g := .locked file) fun _ => h.2
  all_goals exact hsame hs

omit [DecidableEq Tid] in
theorem found_steps {es : List TextEv} {g : FileView} (h : Steps fileStep .out es g) :
    g.Found es := by
  induction es using List.reverseRecOn generalizing g with
  | nil =>
    rw [show g = .out from h]
    trivial
  | append_singleton es e ih =>
    obtain ⟨g₁, h₁, g₂, h₂, h₃⟩ := steps_append.mp h
    rw [show g = g₂ from h₃]
    exact (ih h₁).snoc h₂

theorem mem_actEvents_of_call {t : Tid} {e : TextEv} (h : e ∈ callEvents t tr) :
    e ∈ actEvents tr := by
  obtain ⟨es₁, es₂, hsplit⟩ := List.append_of_mem h
  obtain ⟨tr₁, tr₂, rfl, -⟩ := callEvents_split hsplit
  exact mem_actEvents_of_act (List.mem_append_right tr₂ (List.mem_cons_self ..))

theorem streamLoads_callEvents {t : Tid} {file : Ptr}
    (h : file ∈ streamLoads (callEvents t tr)) : file ∈ streamLoads (actEvents tr) := by
  exact mem_streamLoads.mpr (mem_actEvents_of_call (mem_streamLoads.mp h))

/-- What a thread has found in the pointer is the one open stream. -/
theorem found_open (h : (textSystem Tid cfg f).Run c tr) {t : Tid} {file : Ptr}
    (hmem : file ∈ streamLoads (callEvents t tr)) (hne : file ≠ 0) : file ∈ c.state.files := by
  obtain ⟨g, -, hinv, hstreams⟩ := stream_run h
  have hstream := hstreams.loads file (streamLoads_callEvents hmem) hne
  rw [hinv.files fun u file' hu => hne ?_, openFiles, hstream, if_neg hne]
  · exact List.mem_singleton_self _
  · rw [← hstream]
    exact (hinv.opened u file' hu).1

/-- In every interleaving a message is printed into the line of its own thread only, through an
open stream that this thread has locked, and nobody ever waits for the stream. -/
theorem printed_into_own_line (h : (textSystem Tid cfg f).Run c tr) :
    Tame (actEvents tr) ∧
    (c.state.core.emitOwner = none →
      c.state.cookie = none ∧ ∀ file, c.state.fileOwner file = none) ∧
    (∀ t call file k, c.thread t = some (call, .step (.flockfile file) k) →
      file ∈ c.state.files ∧ c.state.fileOwner file = none) ∧
    ∀ t call file format args k,
      c.thread t = some (call, .step (.vfprintf file format args) k) →
      file ∈ c.state.files ∧ c.state.fileOwner file = some t ∧ c.state.cookie = some t := by
  obtain ⟨g, hg, hinv, htame⟩ := file_run h
  refine ⟨htame, fun hfree => ?_, fun t call file k ht => ?_,
    fun t call file format args k ht => ?_⟩
  · obtain ⟨howners, hcookie⟩ := hinv.idle hfree
    exact ⟨hcookie, fun file => congrFun howners file⟩
  · obtain ⟨g', hgt, hne, -⟩ := h.next fileStep_functional textBody_files ht (hg t) ()
    have hfound := found_steps (hg t)
    have hheld := hinv.at (t := t) (by simp [hgt])
    rw [hgt] at hfound hheld
    exact ⟨found_open h (hfound hne) hne, congrFun hheld.1 file⟩
  · obtain ⟨g', ⟨stray, hgt⟩, -⟩ := h.next fileStep_functional textBody_files ht (hg t) default
    have hfound := found_steps (hg t)
    have hheld := hinv.at (t := t) (by simp [hgt])
    rw [hgt] at hfound hheld
    refine ⟨found_open h hfound.2 hfound.1, ?_, hheld.2⟩
    rw [hheld.1]
    simp only [FileView.owners, Function.update_self]

theorem published_run (h : (textSystem Tid cfg f).Run c tr) :
    published (actEvents tr) = openFiles c.state.stream := by
  obtain ⟨g, -, -, hstreams⟩ := stream_run h
  exact hstreams.stores

omit [DecidableEq Tid] in
theorem published_append (tr₂ tr₁ : TextTrace Tid) :
    published (actEvents (tr₂ ++ tr₁)) =
      published (actEvents tr₁) ++ published (actEvents tr₂) := by
  rw [actEvents_append]
  exact List.filterMap_append

theorem first_published {stream : Ptr} {l l' : List Ptr} (hl : l ≠ [])
    (h : l ++ l' = openFiles stream) : l = [stream] ∧ stream ≠ 0 := by
  by_cases hzero : stream = 0
  · rw [openFiles, if_pos hzero] at h
    exact absurd (List.append_eq_nil_iff.mp h).1 hl
  · rw [openFiles, if_neg hzero] at h
    refine ⟨?_, hzero⟩
    rcases List.append_eq_singleton_iff.mp h with ⟨hnil, -⟩ | ⟨hone, -⟩
    · exact absurd hnil hl
    · exact hone

theorem published_of_load {t : Tid} {file : Ptr}
    (h : (textSystem Tid cfg f).Run c (.act t ⟨.loadStream, file⟩ :: tr)) :
    published (actEvents tr) = openFiles file := by
  cases h with
  | act _ _ _ _ _ _ hrun _ hs =>
    have hfile : file = _ := hs.1
    rw [published_run hrun, hfile]

theorem published_of_init {t : Tid}
    (h : (textSystem Tid cfg f).Run c (.ret t .init (.err .ok) :: tr)) :
    published (actEvents tr) ≠ [] := by
  obtain ⟨e, e₁, _, hes, h₁, h₂⟩ := (Prog.path_bind _ _ _ _).mp h.ret_path
  obtain ⟨rfl, hret⟩ := (Prog.path_pure _ _ _).mp h₂
  rw [List.append_nil] at hes
  rw [← hes] at h₁
  obtain ⟨c₁, hrun⟩ := h.tail
  rcases (path_on9logInitText h₁).2 (Res.err.inj hret).symm with ⟨file, hne, hmem⟩ | ⟨file, hmem⟩
  · obtain ⟨g, -, -, hstreams⟩ := stream_run hrun
    have hload : file ∈ streamLoads (callEvents t tr) := mem_streamLoads.mpr hmem
    rw [published_run hrun, hstreams.loads file (streamLoads_callEvents hload) hne, openFiles,
      if_neg hne]
    simp
  · have hstore : file ∈ published (actEvents tr) :=
      List.mem_filterMap.mpr ⟨_, mem_actEvents_of_call hmem, rfl⟩
    exact List.ne_nil_of_mem hstore

/-- However many threads initialise the library at once, one stream at most is ever published,
no other one stays open, and once a call has returned `ON9LOG_OK` everyone finds it. -/
theorem one_printf_stream (h : (textSystem Tid cfg f).Run c tr) :
    published (actEvents tr) = openFiles c.state.stream ∧ c.state.files.length ≤ 1 ∧
    (c.state.portOwner = none → c.state.files = openFiles c.state.stream) ∧
    ∀ t tr₁ tr₂, tr = tr₂ ++ .ret t .init (.err .ok) :: tr₁ →
      c.state.stream ≠ 0 ∧ ∀ file ∈ streamLoads (actEvents tr₂), file = c.state.stream := by
  obtain ⟨g, -, hinv, hstreams⟩ := stream_run h
  have hfiles : (∀ t file, g t ≠ .opened file) → c.state.files.length ≤ 1 := by
    intro hnone
    rw [hinv.files hnone, openFiles]
    split <;> simp
  refine ⟨hstreams.stores, ?_, fun hfree => hinv.files fun t file ht => ?_, ?_⟩
  · by_cases hopen : ∃ t file, g t = .opened file
    · obtain ⟨t, file, ht⟩ := hopen
      rw [(hinv.opened t file ht).2.2]
      exact Nat.le_refl 1
    · exact hfiles fun t file ht => hopen ⟨t, file, ht⟩
  · have hown := (hinv.inside t).mpr (by simp [ht])
    rw [hfree] at hown
    cases hown
  · rintro t tr₁ tr₂ rfl
    obtain ⟨c₀, hret⟩ := h.suffix
    have hfirst := published_of_init hret
    have hall := hstreams.stores
    rw [published_append] at hall
    obtain ⟨hone, hne⟩ := first_published hfirst hall
    refine ⟨hne, fun file hfile => ?_⟩
    obtain ⟨u, hact⟩ := act_of_mem_actEvents (mem_streamLoads.mp hfile)
    obtain ⟨later, between, rfl⟩ := List.append_of_mem hact
    rw [List.append_assoc, List.cons_append] at h
    obtain ⟨c₁, hload⟩ := h.suffix
    have hseen := published_of_load hload
    rw [published_append] at hseen
    have hsame := (first_published hfirst hseen).1
    rw [hone] at hsame
    exact (List.singleton_inj.mp hsame).symm

end Streams

/-! ### A small machine -/

section Small

variable {Tid : Type} [DecidableEq Tid] {cfg : Config} {f : Formatters} {w : World}

/-- A message is printed in one piece, as its format. -/
def textReply (cfg : Config) (w : World) (t : Tid) (s : TextShared Tid) :
    (o : TextOp) → Option (o.Ret × TextShared Tid)
  | .core o => (reply cfg w t s.core o).map fun p => (p.1, { s with core := p.2 })
  | .portLock => if s.portOwner = none then some ((), { s with portOwner := some t }) else none
  | .portUnlock => some ((), { s with portOwner := none })
  | .loadStream => some (s.stream, s)
  | .storeStream file => some ((), { s with stream := file })
  | .openCookie =>
    let file := s.files.foldl max 0 + 1
    if file ∈ s.files then some (0, s) else some (file, { s with files := file :: s.files })
  | .setvbuf _ => some (true, s)
  | .fclose file => some ((), { s with files := s.files.erase file })
  | .flockfile file =>
    if s.fileOwner file = none then
      some ((), { s with fileOwner := Function.update s.fileOwner file (some t) })
    else none
  | .funlockfile file => some ((), { s with fileOwner := Function.update s.fileOwner file none })
  | .setCookie => some ((), { s with cookie := some t })
  | .clearCookie => some ((), { s with cookie := none })
  | .loadCookie =>
    if s.cookie = none then some (.null, s)
    else if s.cookie = some t then some (.own, s) else some (.other, s)
  | .vfprintf _ format _ => some ([format], s)
  | .strayOutput _ => some ((), s)

theorem textStep_of_reply (t : Tid) (s : TextShared Tid) (o : TextOp) (r : o.Ret)
    (s' : TextShared Tid) (h : textReply cfg w t s o = some (r, s')) :
    (textSystem Tid cfg f).step t o r s s' := by
  show textStep cfg t o r s s'
  cases o
  case core o =>
    obtain ⟨p, hp, hr⟩ := Option.map_eq_some_iff.mp h
    obtain ⟨rfl, rfl⟩ := Prod.mk.inj hr
    exact ⟨p.2, step_of_reply s.core o p.1 p.2 hp, rfl⟩
  case portLock =>
    obtain ⟨hfree, hr⟩ := Option.ite_none_right_eq_some.mp h
    obtain ⟨-, rfl⟩ := Prod.mk.inj (Option.some.inj hr)
    exact ⟨hfree, rfl⟩
  case openCookie =>
    simp only [textReply] at h
    split at h
    · obtain ⟨rfl, rfl⟩ := Prod.mk.inj (Option.some.inj h)
      exact Or.inl ⟨rfl, rfl⟩
    · rename_i hnew
      obtain ⟨rfl, rfl⟩ := Prod.mk.inj (Option.some.inj h)
      exact Or.inr ⟨Nat.succ_ne_zero _, hnew, rfl⟩
  case flockfile file =>
    obtain ⟨hfree, hr⟩ := Option.ite_none_right_eq_some.mp h
    obtain ⟨-, rfl⟩ := Prod.mk.inj (Option.some.inj hr)
    exact ⟨hfree, rfl⟩
  case loadCookie =>
    simp only [textReply] at h
    split at h
    · rename_i hnone
      obtain ⟨rfl, rfl⟩ := Prod.mk.inj (Option.some.inj h)
      exact ⟨hnone, rfl⟩
    · rename_i hsome
      split at h
      · rename_i hown
        obtain ⟨rfl, rfl⟩ := Prod.mk.inj (Option.some.inj h)
        exact ⟨hown, rfl⟩
      · rename_i hother
        obtain ⟨rfl, rfl⟩ := Prod.mk.inj (Option.some.inj h)
        obtain ⟨u, hu⟩ := Option.ne_none_iff_exists'.mp hsome
        refine ⟨⟨u, fun hut => hother ?_, hu⟩, rfl⟩
        rw [hu, hut]
  all_goals
    obtain ⟨h₁, rfl⟩ := Prod.mk.inj (Option.some.inj h)
    first
      | rfl
      | exact ⟨h₁.symm, rfl⟩

def smallMessage : CStr := ⟨chars ['h', 'i'], by decide⟩

/-- Two threads initialise at once, then both log to one sink; the second logs while the first
is about to print. -/
def smallText : List (Turn ℕ TextCall) :=
  let write : TextCall := .write 3 ⟨1, smallMessage⟩ 0 (some smallMessage) []
  [.invoke 0 .init, .perform 0 3, .invoke 1 .init, .perform 1 1, .perform 0 4, .ret 0,
    .perform 1 3, .ret 1, .invoke 0 (.addSink 7 ⟨1, 1, 1⟩ 0), .perform 0 6, .ret 0,
    .invoke 0 write, .perform 0 11, .invoke 1 write, .perform 1 3, .perform 0 11, .ret 0,
    .perform 1 19, .ret 1]

theorem run_text {α : Type} (turns : List (Turn ℕ TextCall))
    (f : Point ℕ TextCall TextOp TextOp.Ret Res (TextShared ℕ) → α) {a : α}
    (h : (System.schedule (textSystem ℕ smallConfig plainFormatters)
      (textReply smallConfig quietWorld) turns).map f = some a) :
    ∃ c tr, (textSystem ℕ smallConfig plainFormatters).Run c tr ∧
      (∀ t, callsOf t tr = callsIn t turns) ∧ f (c, tr) = a := by
  obtain ⟨q, hq, hf⟩ := Option.map_eq_some_iff.mp h
  exact ⟨q.1, q.2, System.run_schedule textStep_of_reply hq, (schedule_calls hq).1, hf⟩

end Small

def TextOp.readsCookie : TextOp → Bool
  | .loadCookie => true
  | _ => false

/-- Two messages, printed by two threads. -/
theorem printed_into_own_line_two : ∃ c tr,
    (textSystem ℕ smallConfig plainFormatters).Run c tr ∧
    (actEvents tr).countP (fun e => e.op.readsCookie) = 2 ∧
    (∀ line, (⟨.loadCookie, line⟩ : TextEv) ∈ actEvents tr → line = .own) ∧
    c.state.cookie = none := by
  obtain ⟨c, tr, hrun, -, hval⟩ := run_text smallText
    (fun p => ((actEvents p.2).countP (fun e => e.op.readsCookie), p.1.state.core.emitOwner))
    (a := (2, none)) (by decide +kernel)
  obtain ⟨hcount, hfree⟩ := Prod.mk.inj hval
  obtain ⟨⟨hown, -⟩, hidle, -⟩ := printed_into_own_line hrun
  exact ⟨c, tr, hrun, hcount, hown, (hidle hfree).1⟩

/-- Two threads that initialise at once. -/
theorem one_printf_stream_two : ∃ c tr, (textSystem ℕ smallConfig plainFormatters).Run c tr ∧
    TextCall.init ∈ callsOf 0 tr ∧ TextCall.init ∈ callsOf 1 tr ∧
    published (actEvents tr) = [1] ∧ c.state.files = [1] := by
  obtain ⟨c, tr, hrun, hcalls, hval⟩ := run_text smallText
    (fun p => (p.1.state.stream, p.1.state.portOwner)) (a := (1, none)) (by decide +kernel)
  obtain ⟨hstream, hfree⟩ := Prod.mk.inj hval
  obtain ⟨hpublished, -, hfiles, -⟩ := one_printf_stream hrun
  refine ⟨c, tr, hrun, ?_, ?_, ?_, ?_⟩
  · rw [hcalls]
    exact List.mem_cons_self ..
  · rw [hcalls]
    exact List.mem_cons_self ..
  · rw [hpublished, hstream]
    rfl
  · rw [hfiles hfree, hstream]
    rfl

end On9log
