import On9log.EspQueue

/-!
# Rings made by on9log_esp_isr_init (on9log_esp_isr.c:80-168)

No operation works on a ring that does not exist, however many threads
initialise the module at once. Where the calls of `on9log_esp_isr_init` do not
overlap there is one ring, and what the ISR calls enqueue is what it took.
-/

namespace On9log
open Lib

variable {e : EspBuild} {Tid : Type} [DecidableEq Tid]
  {c' : Lib.Config Tid EspCall EspOp EspOp.Ret EspRes (EspShared Tid)} {tr' : EspTrace Tid}
  {c : Lib.Config Tid Call Op Op.Ret Res (Shared Tid)} {tr : List (Label Tid Call Op Op.Ret Res)}

/-! ### Rings in use -/

/-- The ring an operation works on. -/
def EspOp.ringbuf : EspOp → Option Ptr
  | .taskCreate ringbuf => some ringbuf
  | .ringbufferDelete ringbuf => some ringbuf
  | .ringbufferSend ringbuf _ => some ringbuf
  | .ringbufferReceive ringbuf => some ringbuf
  | .ringbufferReturnItem ringbuf _ => some ringbuf
  | _ => none

/-- Every operation works on a ring that exists, and the rings deleted were never used. -/
theorem ring_in_use (h : (espSystem e Tid).Run c' tr') {t : Tid} {call : EspCall} {o : EspOp}
    {k : o.Ret → EspProg EspRes} {v : o.Ret} {s : EspShared Tid}
    (ht : c'.thread t = some (call, .step o k)) (hs : espStep e t o v c'.state s) {r : Ptr}
    (hr : o.ringbuf = some r) :
    (c'.state.ring r).alive = true ∧
      (o = .ringbufferDelete r → (c'.state.ring r).task = none ∧
        accepted r (actEvents tr') = []) := by
  obtain ⟨g, hg, hinv, -⟩ := ringInv_run h
  obtain ⟨g', hm⟩ := h.next espViewStep_functional (fun call es v hp => steps_espBody call es v hp)
    ht (hg t) v
  have hfit := hinv.fits t
  cases o
  case taskCreate ringbuf =>
    cases hr
    rw [hm.1] at hfit
    exact ⟨hfit.1, nofun⟩
  case ringbufferDelete ringbuf =>
    cases hr
    rw [hm.1] at hfit
    exact ⟨hfit.1, fun _ => ⟨hfit.2.1, hinv.unpublished r hfit.2.2⟩⟩
  case ringbufferSend ringbuf packet =>
    cases hr
    obtain ⟨hnull, hload⟩ := send_loaded (h.act t call _ k v s ht hs)
    exact ⟨hinv.alive r (hinv.published r (hinv.loaded t r hload hnull)), nofun⟩
  case ringbufferReceive ringbuf =>
    cases hr
    exact ⟨hinv.alive r (by rw [hs.1]; nofun), nofun⟩
  case ringbufferReturnItem ringbuf packet =>
    cases hr
    exact ⟨hinv.alive r (by rw [(hinv.inHand hm.1).2]; nofun), nofun⟩
  all_goals cases hr

/-- The ring an ISR call is about to send to. -/
def sendingTo (p : Lib.Config ℕ EspCall EspOp EspOp.Ret EspRes (EspShared ℕ) × EspTrace ℕ) :
    Option Ptr :=
  match p.1.thread 2 with
  | some (_, .step (.ringbufferSend r _) _) => some r
  | _ => none

theorem ring_in_use_send : ∃ (c' : Lib.Config ℕ EspCall EspOp EspOp.Ret EspRes (EspShared ℕ))
    (tr' : EspTrace ℕ) (call : EspCall) (packet : List UInt8)
    (k : Bool → EspProg EspRes), (espSystem smallEsp ℕ).Run c' tr' ∧
      c'.thread 2 = some (call, .step (.ringbufferSend 10 packet) k) ∧
      (c'.state.ring 10).alive = true := by
  obtain ⟨c', tr', hrun, -, hend⟩ := run_small
    [.invoke 0 .isrInit, .perform 0 5, .ret 0,
      .invoke 2 (.core (.writeIsr 3 0 2000 (some []) [])), .perform 2 6]
    sendingTo (a := some 10) (by decide +kernel)
  unfold sendingTo at hend
  split at hend
  · rename_i call r packet k hthread
    cases hend
    have hs : espStep smallEsp 2 (.ringbufferSend 10 packet) false c'.state c'.state :=
      Or.inl ⟨rfl, rfl⟩
    exact ⟨c', tr', call, packet, k, hrun, hthread, (ring_in_use hrun hthread hs rfl).1⟩
  · cases hend

/-! ### Calls that do not overlap -/

/-- How far a thread is in `on9log_esp_isr_init`. -/
inductive InitView where
  | out
  | unset
  | made (ringbuf : Ptr)
  | set (ringbuf : Ptr)

def initViewStep (e : EspBuild) (g : InitView) (ev : EspEv) (g' : InitView) : Prop :=
  match ev with
  | ⟨.loadInstalled, installed⟩ => g = .out ∧
    g' = if installed = true ∨ e.ringbufSize < ringbufMinSize e.cfg then .out else .unset
  | ⟨.ringbufferCreate, r⟩ => g = .unset ∧ g' = if r = 0 then .out else .made r
  | ⟨.ringbufferDelete r, _⟩ => g = .made r ∧ g' = .out
  | ⟨.storeRingbuf r, _⟩ => g = .made r ∧ g' = .set r
  | ⟨.storeInstalled, _⟩ => (∃ r, g = .set r) ∧ g' = .out
  | _ => g' = g

theorem initViewStep_functional : Functional (initViewStep e) := by
  intro g ev g₁ g₂ h₁ h₂
  obtain ⟨o, r⟩ := ev
  cases o
  case core => exact h₁.trans h₂.symm
  case loadRingbuf => exact h₁.trans h₂.symm
  case taskCreate => exact h₁.trans h₂.symm
  case ringbufferSend => exact h₁.trans h₂.symm
  case ringbufferReceive => exact h₁.trans h₂.symm
  case ringbufferReturnItem => exact h₁.trans h₂.symm
  all_goals exact h₁.2.trans h₂.2.symm

/-- The operations of `on9log_esp_isr_init` alone. -/
def EspOp.ofInit : EspOp → Bool
  | .loadInstalled => true
  | .storeInstalled => true
  | .storeRingbuf _ => true
  | .ringbufferCreate => true
  | .ringbufferDelete _ => true
  | _ => false

theorem initViewStep_other {g : InitView} {ev : EspEv} {g' : InitView}
    (h : ev.op.ofInit = false) : initViewStep e g ev g' ↔ g' = g := by
  obtain ⟨o, r⟩ := ev
  cases o
  case core => exact Iff.rfl
  case loadRingbuf => exact Iff.rfl
  case taskCreate => exact Iff.rfl
  case ringbufferSend => exact Iff.rfl
  case ringbufferReceive => exact Iff.rfl
  case ringbufferReturnItem => exact Iff.rfl
  all_goals cases h

theorem steps_other {es : List EspEv} (h : ∀ ev ∈ es, ev.op.ofInit = false) (g : InitView) :
    Steps (initViewStep e) g es g := by
  induction es with
  | nil => rfl
  | cons ev es ih =>
    refine ⟨g, (initViewStep_other (h ev (List.mem_cons_self ..))).mpr rfl, ih fun x hx => ?_⟩
    exact h x (List.mem_cons_of_mem _ hx)

theorem ofInit_of_isCore {o : EspOp} (h : o.isCore = true) : o.ofInit = false := by
  cases o
  case core => rfl
  case loadRingbuf => rfl
  case ringbufferSend => rfl
  all_goals cases h

theorem DrainCall.noInit {cfg : Config} {r : Ptr} {es : List EspEv} (h : DrainCall cfg r es) :
    ∀ ev ∈ es, ev.op.ofInit = false := by
  cases h with
  | nothing => simp [EspOp.ofInit]
  | item packet v b hb =>
    intro ev hev
    rcases List.mem_cons.mp hev with rfl | hev
    · rfl
    · rcases List.mem_append.mp hev with hev | hev
      · exact ofInit_of_isCore ((path_expand_core hb).1 ev hev)
      · rw [List.mem_singleton.mp hev]
        rfl

theorem espDoes_noInit {call : EspCall} {v : EspRes} {es : List EspEv} (h : EspDoes e call v es)
    (hcall : call ≠ .isrInit) : ∀ ev ∈ es, ev.op.ofInit = false := by
  cases h with
  | core call v es h => exact fun ev hev => ofInit_of_isCore ((path_expand_core h).1 ev hev)
  | init => exact absurd rfl hcall
  | drain r es h => exact h.noInit

theorem InitCall.steps_init {err : EspErr} {es : List EspEv} (h : InitCall e err es) :
    Steps (initViewStep e) .out es .out := by
  have hload : ringbufMinSize e.cfg ≤ e.ringbufSize →
      ¬ (false = true ∨ e.ringbufSize < ringbufMinSize e.cfg) := by
    rintro hsize (hinstalled | hsmall)
    · cases hinstalled
    · omega
  cases h with
  | installed => exact ⟨.out, ⟨rfl, (if_pos (Or.inl rfl)).symm⟩, rfl⟩
  | tooSmall hsize => exact ⟨.out, ⟨rfl, (if_pos (Or.inr hsize)).symm⟩, rfl⟩
  | noRing hsize =>
    exact ⟨.unset, ⟨rfl, (if_neg (hload hsize)).symm⟩, .out, ⟨rfl, (if_pos rfl).symm⟩, rfl⟩
  | noTask r hr hsize =>
    refine ⟨.unset, ⟨rfl, (if_neg (hload hsize)).symm⟩, .made r, ⟨rfl, (if_neg hr).symm⟩, ?_⟩
    exact ⟨.made r, rfl, .out, ⟨rfl, rfl⟩, rfl⟩
  | made r hr hsize =>
    refine ⟨.unset, ⟨rfl, (if_neg (hload hsize)).symm⟩, .made r, ⟨rfl, (if_neg hr).symm⟩, ?_⟩
    exact ⟨.made r, rfl, .set r, ⟨rfl, rfl⟩, .out, ⟨⟨r, rfl⟩, rfl⟩, rfl⟩

omit [DecidableEq Tid] in
theorem steps_init (call : EspCall) (es : List EspEv) (v : EspRes)
    (h : (espBody e Tid call).Path es v) : Steps (initViewStep e) .out es .out := by
  cases espDoes_body h with
  | core call v es hcore => exact steps_other (espDoes_noInit (.core call v es hcore) nofun) _
  | drain r es hd => exact steps_other hd.noInit _
  | init err es hinit => exact hinit.steps_init

/-- Nothing has been made known yet. -/
def NoRing (s : EspShared Tid) (tr : EspTrace Tid) : Prop :=
  s.ringbuf = 0 ∧ ∀ r, ¬ Published r tr

def OneRing (s : EspShared Tid) (tr : EspTrace Tid) : Prop :=
  s.ringbuf ≠ 0 ∧ ∀ r, Published r tr ↔ r = s.ringbuf

/-- The memory as a thread finds it that has come this far, with no other in its way. -/
def InitView.Fits (s : EspShared Tid) (tr : EspTrace Tid) : InitView → Prop
  | .out => if s.installed = true then OneRing s tr else NoRing s tr
  | .unset => s.installed = false ∧ NoRing s tr
  | .made r => s.installed = false ∧ NoRing s tr ∧ r ≠ 0
  | .set _ => s.installed = false ∧ OneRing s tr

structure InitInv (s : EspShared Tid) (tr : EspTrace Tid) (g : Tid → InitView) : Prop where
  rest : (∀ u, g u = .out) → InitView.out.Fits s tr
  busy : ∀ u, g u ≠ .out → (g u).Fits s tr
  inside : ∀ u, g u ≠ .out → runningCall u tr = some .isrInit
  seen : (⟨.loadInstalled, true⟩ : EspEv) ∈ actEvents tr ∨
    (⟨.storeInstalled, ()⟩ : EspEv) ∈ actEvents tr → s.installed = true

/-- At no point of the run are two threads in `on9log_esp_isr_init`. -/
def InTurns (tr : EspTrace Tid) : Prop :=
  ∀ tr₁, tr₁ <:+ tr → ∀ u v, runningCall u tr₁ = some .isrInit →
    runningCall v tr₁ = some .isrInit → u = v

theorem initInv_init : InitInv EspShared.init [] fun _ : Tid => InitView.out where
  rest _ := ⟨rfl, fun _ => nofun⟩
  busy u h := absurd rfl h
  inside u h := absurd rfl h
  seen h := by rcases h with h | h <;> cases h

omit [DecidableEq Tid] in
theorem InitView.Fits.mono {s s' : EspShared Tid} {tr tr' : EspTrace Tid} {v : InitView}
    (h : v.Fits s tr) (hringbuf : s'.ringbuf = s.ringbuf) (hinstalled : s'.installed = s.installed)
    (hpub : ∀ r, Published r tr' ↔ Published r tr) : v.Fits s' tr' := by
  have hno : NoRing s tr → NoRing s' tr' := by
    rintro ⟨hnull, hnone⟩
    exact ⟨hringbuf.trans hnull, fun r hr => hnone r ((hpub r).mp hr)⟩
  have hone : OneRing s tr → OneRing s' tr' := by
    rintro ⟨hnull, hall⟩
    refine ⟨by rwa [hringbuf], fun r => ?_⟩
    rw [hpub, hringbuf]
    exact hall r
  cases v with
  | out =>
    unfold InitView.Fits at h ⊢
    rw [hinstalled]
    split_ifs at h ⊢
    · exact hone h
    · exact hno h
  | unset => exact ⟨hinstalled.trans h.1, hno h.2⟩
  | made r => exact ⟨hinstalled.trans h.1, hno h.2.1, h.2.2⟩
  | set r => exact ⟨hinstalled.trans h.1, hone h.2⟩

namespace InitInv

variable {s s' : EspShared Tid} {tr : EspTrace Tid} {g : Tid → InitView} {t : Tid} {ev : EspEv}
  {v : InitView}

/-- A thread that is in no such call begins or ends a call. -/
theorem turn (h : InitInv s tr g) {l : Label Tid EspCall EspOp EspOp.Ret EspRes}
    (hact : actEvents (l :: tr) = actEvents tr)
    (hrun : ∀ u, g u ≠ .out → runningCall u (l :: tr) = runningCall u tr) :
    InitInv s (l :: tr) g := by
  have hpub : ∀ r, Published r (l :: tr) ↔ Published r tr := by
    intro r
    unfold Published
    rw [hact]
  refine ⟨fun hall => (h.rest hall).mono rfl rfl hpub, fun u hu => (h.busy u hu).mono rfl rfl hpub,
    fun u hu => (hrun u hu).trans (h.inside u hu), ?_⟩
  rw [hact]
  exact h.seen

theorem other (h : InitInv s tr g) (hop : ev.op.ofInit = false) (hringbuf : s'.ringbuf = s.ringbuf)
    (hinstalled : s'.installed = s.installed) :
    InitInv s' (.act t ev :: tr) (Function.update g t (g t)) := by
  have hpub : ∀ r, Published r (.act t ev :: tr) ↔ Published r tr := by
    intro r
    rw [published_act]
    refine or_iff_left ?_
    rintro rfl
    cases hop
  rw [Function.update_eq_self]
  refine ⟨fun hall => (h.rest hall).mono hringbuf hinstalled hpub,
    fun u hu => (h.busy u hu).mono hringbuf hinstalled hpub, h.inside, fun hseen => ?_⟩
  rw [hinstalled]
  refine h.seen (hseen.imp (fun hmem => ?_) fun hmem => ?_)
  all_goals
    rcases List.mem_append.mp hmem with hmem | hmem
    · exact hmem
    · rw [← List.mem_singleton.mp hmem] at hop
      cases hop

/-- The one thread that is in such a call performs an operation of it. -/
theorem alone (h : InitInv s tr g) (hothers : ∀ u, u ≠ t → g u = .out)
    (hmine : runningCall t tr = some .isrInit) (hfit : v.Fits s' (.act t ev :: tr))
    (hkeep : s.installed = true → s'.installed = true)
    (hseen : ev = ⟨.loadInstalled, true⟩ ∨ ev = ⟨.storeInstalled, ()⟩ → s'.installed = true) :
    InitInv s' (.act t ev :: tr) (Function.update g t v) := by
  have hview : ∀ u, Function.update g t v u ≠ .out → u = t ∧ Function.update g t v u = v := by
    intro u hu
    by_cases hut : u = t
    · rw [hut, Function.update_self]
      exact ⟨rfl, rfl⟩
    · rw [Function.update_of_ne hut] at hu
      exact absurd (hothers u hut) hu
  refine ⟨fun hall => ?_, fun u hu => ?_, fun u hu => ?_, fun hev => ?_⟩
  · have hv := hall t
    rw [Function.update_self] at hv
    exact hv ▸ hfit
  · rw [(hview u hu).2]
    exact hfit
  · rw [(hview u hu).1]
    exact hmine
  · have hcases : ∀ x : EspEv, x ∈ actEvents (.act t ev :: tr) → x ∈ actEvents tr ∨ ev = x := by
      intro x hx
      rcases List.mem_append.mp hx with hx | hx
      · exact Or.inl hx
      · exact Or.inr (List.mem_singleton.mp hx).symm
    rcases hev with hev | hev
    · rcases hcases _ hev with hmem | heq
      · exact hkeep (h.seen (Or.inl hmem))
      · exact hseen (Or.inl heq)
    · rcases hcases _ hev with hmem | heq
      · exact hkeep (h.seen (Or.inr hmem))
      · exact hseen (Or.inr heq)

end InitInv

/-- Operations of `on9log_esp_isr_init` belong to a call of it. -/
theorem isrInit_of_ofInit {tr : EspTrace Tid} {t : Tid} {ev : EspEv}
    (h : (espSystem e Tid).Run c' (.act t ev :: tr)) (hev : ev.op.ofInit = true) :
    runningCall t tr = some .isrInit := by
  have hcall := h.runningCall_eq t
  have hlast : callEvents t (.act t ev :: tr) = callEvents t tr ++ [ev] := if_pos rfl
  cases hthread : c'.thread t with
  | none =>
    rw [(h.thread t).1 hthread] at hlast
    simp at hlast
  | some cp =>
    rw [hthread] at hcall
    obtain ⟨more, v, hpath⟩ := Prog.reach_extends ((h.thread t).2 cp.1 cp.2 hthread)
    by_cases hinit : cp.1 = .isrInit
    · rw [← hinit]
      exact hcall
    · have hno := espDoes_noInit (espDoes_body hpath) hinit ev (by rw [hlast]; simp)
      rw [hev] at hno
      cases hno

theorem InitInv.act {s s' : EspShared Tid} {tr : EspTrace Tid} {g : Tid → InitView} {t : Tid}
    {ev : EspEv} {v : InitView} (hrun : ∃ c, (espSystem e Tid).Run c (.act t ev :: tr))
    (hturns : InTurns tr) (h : InitInv s tr g) (hm : initViewStep e (g t) ev v)
    (hs : espStep e t ev.op ev.ret s s') :
    InitInv s' (.act t ev :: tr) (Function.update g t v) := by
  by_cases hop : ev.op.ofInit = false
  · obtain rfl := (initViewStep_other hop).mp hm
    have hsame : s'.ringbuf = s.ringbuf ∧ s'.installed = s.installed := by
      obtain ⟨o, r⟩ := ev
      cases o
      case core =>
        obtain ⟨core, -, rfl⟩ := hs
        exact ⟨rfl, rfl⟩
      case loadRingbuf =>
        obtain ⟨-, rfl⟩ := hs
        exact ⟨rfl, rfl⟩
      case taskCreate =>
        rcases hs with ⟨-, rfl⟩ | ⟨-, d, rfl⟩ <;> exact ⟨rfl, rfl⟩
      case ringbufferSend =>
        rcases hs with ⟨-, rfl⟩ | ⟨-, rfl⟩ <;> exact ⟨rfl, rfl⟩
      case ringbufferReceive =>
        rcases hs.2 with ⟨-, rfl⟩ | ⟨packet, rest, -, -, rfl⟩ <;> exact ⟨rfl, rfl⟩
      case ringbufferReturnItem =>
        obtain rfl := hs
        exact ⟨rfl, rfl⟩
      all_goals cases hop
    exact h.other hop hsame.1 hsame.2
  rw [Bool.not_eq_false] at hop
  obtain ⟨c, hc⟩ := hrun
  have hmine := isrInit_of_ofInit hc hop
  have hothers : ∀ u, u ≠ t → g u = .out := by
    intro u hut
    by_contra hu
    exact hut (hturns tr List.suffix_rfl u t (h.inside u hu) hmine)
  have hfit : (g t).Fits s tr := by
    by_cases ht : g t = .out
    · rw [ht]
      refine h.rest fun u => ?_
      by_cases hut : u = t
      · rw [hut, ht]
      · exact hothers u hut
    · exact h.busy t ht
  have hpub : (∀ r, ev ≠ ⟨.storeRingbuf r, ()⟩) → ∀ r, Published r (.act t ev :: tr) ↔
      Published r tr := by
    intro hne r
    rw [published_act]
    exact or_iff_left (hne r)
  obtain ⟨o, r⟩ := ev
  cases o
  case loadInstalled =>
    obtain ⟨hout, rfl⟩ := hm
    obtain ⟨hr, rfl⟩ := hs
    rw [hout] at hfit
    have hfit' : InitView.out.Fits s' (.act t ⟨.loadInstalled, r⟩ :: tr) :=
      hfit.mono rfl rfl (hpub nofun)
    refine h.alone hothers hmine ?_ id fun hseen => ?_
    · split_ifs with hleave
      · exact hfit'
      · rw [not_or] at hleave
        have hinstalled : s'.installed = false := hr.symm.trans (eq_false_of_ne_true hleave.1)
        refine ⟨hinstalled, ?_⟩
        unfold InitView.Fits at hfit'
        rwa [if_neg (by rw [hinstalled]; decide)] at hfit'
    · rcases hseen with heq | heq
      · cases heq
        exact hr.symm
      · cases heq
  case storeInstalled =>
    obtain ⟨⟨ringbuf, hset⟩, rfl⟩ := hm
    obtain rfl := hs
    rw [hset] at hfit
    refine h.alone hothers hmine ?_ (fun _ => rfl) fun _ => rfl
    unfold InitView.Fits
    rw [if_pos rfl]
    refine ⟨hfit.2.1, fun r' => ?_⟩
    rw [hpub nofun]
    exact hfit.2.2 r'
  case storeRingbuf ringbuf =>
    obtain ⟨hmade, rfl⟩ := hm
    obtain rfl := hs
    rw [hmade] at hfit
    obtain ⟨hinstalled, hnone, hnull⟩ := hfit
    refine h.alone hothers hmine ⟨hinstalled, hnull, fun r' => ?_⟩ (fun h => h) ?_
    · rw [published_act]
      refine ⟨fun hp => ?_, fun hr' => Or.inr (by rw [hr'])⟩
      rcases hp with hp | heq
      · exact absurd hp (hnone.2 r')
      · cases heq
        rfl
    · rintro (heq | heq) <;> cases heq
  case ringbufferCreate =>
    obtain ⟨hunset, rfl⟩ := hm
    rw [hunset] at hfit
    have hsame : s'.ringbuf = s.ringbuf ∧ s'.installed = s.installed := by
      rcases hs with ⟨-, rfl⟩ | ⟨-, -, rfl⟩ <;> exact ⟨rfl, rfl⟩
    obtain ⟨hinstalled, hnone⟩ := hfit.mono hsame.1 hsame.2 (hpub nofun)
    refine h.alone hothers hmine ?_ (fun h => hsame.2.trans h) ?_
    · split_ifs with hnull
      · unfold InitView.Fits
        rwa [if_neg (by rw [hinstalled]; decide)]
      · exact ⟨hinstalled, hnone, hnull⟩
    · rintro (heq | heq) <;> cases heq
  case ringbufferDelete ringbuf =>
    obtain ⟨hmade, rfl⟩ := hm
    obtain rfl := hs
    rw [hmade] at hfit
    obtain ⟨hinstalled, hnone, -⟩ : (InitView.made ringbuf).Fits (s.setRing ringbuf Ring.free)
        (.act t ⟨.ringbufferDelete ringbuf, ()⟩ :: tr) := hfit.mono rfl rfl (hpub nofun)
    refine h.alone hothers hmine ?_ (fun h => h) ?_
    · unfold InitView.Fits
      rwa [if_neg (by rw [hinstalled]; decide)]
    · rintro (heq | heq) <;> cases heq
  all_goals cases hop

/-- What holds in every run where the initialisations do not overlap. -/
theorem initInv_run (h : (espSystem e Tid).Run c' tr') (hturns : InTurns tr') :
    ∃ g : Tid → InitView, (∀ t, Steps (initViewStep e) .out (callEvents t tr') (g t)) ∧
      InitInv c'.state tr' g := by
  have hshort : ∀ {l : Label Tid EspCall EspOp EspOp.Ret EspRes} {tr : EspTrace Tid},
      InTurns (l :: tr) → InTurns tr := fun hl tr₁ hsuffix =>
    hl tr₁ (hsuffix.trans (List.suffix_cons _ _))
  have hcall : ∀ {g : Tid → InitView} {t : Tid} {l : Label Tid EspCall EspOp EspOp.Ret EspRes}
      {tr : EspTrace Tid}, g t = .out → (∀ u, t ≠ u → runningCall u (l :: tr) = runningCall u tr) →
      ∀ u, g u ≠ .out → runningCall u (l :: tr) = runningCall u tr := by
    intro g t l tr ht hl u hu
    refine hl u ?_
    rintro rfl
    exact hu ht
  obtain ⟨g, hg, hi⟩ := h.invariant_run (initViewStep_functional (e := e)) steps_init
    (I := fun s tr g => InTurns tr → InitInv s tr g) (fun _ => initInv_init)
    (fun s tr g t call hi ht hl => (hi (hshort hl)).turn rfl (hcall ht fun u htu => if_neg htu))
    (fun s tr g t call v hi ht hl => (hi (hshort hl)).turn rfl (hcall ht fun u htu => if_neg htu))
    fun s tr g t ev g' s' hrun hi hm hs hl => (hi (hshort hl)).act hrun (hshort hl) hm hs
  exact ⟨g, hg, hi hturns⟩

/-! ### The one ring -/

theorem InitCall.ok_seen {es : List EspEv} (h : InitCall e .ok es) :
    (⟨.loadInstalled, true⟩ : EspEv) ∈ es ∨ (⟨.storeInstalled, ()⟩ : EspEv) ∈ es := by
  cases h with
  | installed => exact Or.inl (List.mem_singleton_self _)
  | made r hr hsize => exact Or.inr (by simp)

theorem seen_of_ret {tr₁ : EspTrace Tid} {t : Tid}
    (h : (espSystem e Tid).Run c' (.ret t .isrInit (.init .ok) :: tr₁)) :
    (⟨.loadInstalled, true⟩ : EspEv) ∈ actEvents tr₁ ∨
      (⟨.storeInstalled, ()⟩ : EspEv) ∈ actEvents tr₁ := by
  obtain ⟨c₁, h₁⟩ := h.tail
  have hmem : ∀ ev ∈ callEvents t tr₁, ev ∈ actEvents tr₁ := by
    intro ev hev
    obtain ⟨done, hthread, -, -⟩ := h₁.history t
    have hmine : ev ∈ threadEvents t tr₁ := by
      rw [hthread]
      exact List.mem_append_right _ hev
    exact mem_actEvents_of_act (act_of_mem_threadEvents hmine)
  cases espDoes_body h.ret_path with
  | init err es hinit => exact hinit.ok_seen.imp (hmem _) (hmem _)

theorem enqueued_portSees (es : List Ev) : enqueued (es.filterMap portSees) = enqueued es := by
  unfold enqueued
  rw [List.filterMap_filterMap]
  refine List.filterMap_congr fun ev _ => ?_
  obtain ⟨o, r⟩ := ev
  cases o
  case isrEnqueuePacket packet => cases r <;> rfl
  all_goals rfl

/-- What ISR calls enqueue goes to the rings, here to one. -/
theorem enqueued_accepted (hm : (espLayer e Tid).Matches c' tr' c tr) {r : Ptr}
    (hone : ∀ ringbuf packet, (⟨.ringbufferSend ringbuf packet, true⟩ : EspEv) ∈ actEvents tr' →
      ringbuf = r) : enqueued (actEvents tr) = accepted r (actEvents tr') := by
  have hob : (actEvents tr).filterMap portSees = (actEvents tr').filterMap espSees := by
    rw [← observed_events, ← observed_events]
    exact congrArg (fun l => l.map Prod.snd) hm.observed
  rw [← enqueued_portSees, hob]
  unfold enqueued accepted
  rw [List.filterMap_filterMap]
  refine List.filterMap_congr fun ev hev => ?_
  obtain ⟨o, v⟩ := ev
  cases o
  case core o => cases o <;> rfl
  case ringbufferSend ringbuf packet =>
    cases v with
    | false => rfl
    | true =>
      obtain rfl := hone ringbuf packet hev
      exact (if_pos rfl).symm
  all_goals rfl

/-- Where the initialisations do not overlap there is at most one ring, the one the ISR calls
find; it has its task as soon as an initialisation has succeeded, and it took what the ISR
calls enqueued. -/
theorem isr_one_ring (h : (espSystem e Tid).Run c' tr') (hturns : InTurns tr') :
    ∃ c tr, (espLayer e Tid).Matches c' tr' c tr ∧
      ((c'.state.ringbuf = 0 ∧ enqueued (actEvents tr) = [] ∧
          ∀ t, .ret t .isrInit (.init .ok) ∉ tr') ∨
        (c'.state.ringbuf ≠ 0 ∧ (∀ r, Published r tr' → r = c'.state.ringbuf) ∧
          (c'.state.ring c'.state.ringbuf).alive = true ∧
          (c'.state.ring c'.state.ringbuf).task ≠ none ∧
          enqueued (actEvents tr) = accepted c'.state.ringbuf (actEvents tr'))) := by
  obtain ⟨c, tr, hm⟩ := (espLayer e Tid).refines h
  obtain ⟨gr, -, hring, -⟩ := ringInv_run h
  obtain ⟨g, -, hi⟩ := initInv_run h hturns
  have hsent : ∀ r packet, (⟨.ringbufferSend r packet, true⟩ : EspEv) ∈ actEvents tr' →
      Published r tr' := by
    intro r packet hmem
    by_contra hp
    have htaken : packet ∈ accepted r (actEvents tr') :=
      List.mem_filterMap.mpr ⟨_, hmem, if_pos rfl⟩
    rw [hring.unpublished r hp] at htaken
    cases htaken
  have hcases : OneRing c'.state tr' ∨ c'.state.installed = false ∧ NoRing c'.state tr' := by
    by_cases hall : ∀ u, g u = .out
    · have hrest := hi.rest hall
      unfold InitView.Fits at hrest
      split_ifs at hrest with hinstalled
      · exact Or.inl hrest
      · exact Or.inr ⟨eq_false_of_ne_true hinstalled, hrest⟩
    · obtain ⟨u, hu⟩ := not_forall.mp hall
      have hbusy := hi.busy u hu
      cases hg : g u with
      | out => exact absurd hg hu
      | unset =>
        rw [hg] at hbusy
        exact Or.inr hbusy
      | made r =>
        rw [hg] at hbusy
        exact Or.inr ⟨hbusy.1, hbusy.2.1⟩
      | set r =>
        rw [hg] at hbusy
        exact Or.inl hbusy.2
  refine ⟨c, tr, hm, ?_⟩
  rcases hcases with ⟨hnull, hone⟩ | ⟨hinstalled, hnull, hnone⟩
  · have hpub : Published c'.state.ringbuf tr' := (hone _).mpr rfl
    have htask := hring.published _ hpub
    refine Or.inr ⟨hnull, fun r hr => (hone r).mp hr, hring.alive _ htask, htask, ?_⟩
    exact enqueued_accepted hm fun r packet hmem => (hone r).mp (hsent r packet hmem)
  · refine Or.inl ⟨hnull, ?_, fun t hret => ?_⟩
    · rw [enqueued_accepted hm fun r packet hmem => absurd (hsent r packet hmem) (hnone r)]
      exact hring.unpublished 0 (hnone 0)
    · obtain ⟨tr₂, tr₁, rfl⟩ := List.append_of_mem hret
      obtain ⟨c₁, h₁⟩ := h.suffix
      have hmem : ∀ ev ∈ actEvents tr₁, ev ∈ actEvents (tr₂ ++ .ret t .isrInit (.init .ok) :: tr₁) := by
        intro ev hev
        rw [actEvents_append]
        exact List.mem_append_left _ hev
      rw [hi.seen ((seen_of_ret h₁).imp (hmem _) (hmem _))] at hinstalled
      cases hinstalled

theorem inTurns_of_one {tr : EspTrace Tid} {t : Tid}
    (h : ∀ u, u ≠ t → .isrInit ∉ callsOf u tr) : InTurns tr := by
  intro tr₁ hsuffix u v hu hv
  have hmine : ∀ w, runningCall w tr₁ = some .isrInit → w = t := by
    intro w hw
    by_contra hne
    exact h w hne (mem_callsOf_of_running hsuffix hw)
  rw [hmine u hu, hmine v hv]

/-- The thread that initialises, and what the ISR call enqueued behind it. -/
theorem isr_one_ring_small : ∃ c' tr', (espSystem smallEsp ℕ).Run c' tr' ∧
    ∃ c tr, (espLayer smallEsp ℕ).Matches c' tr' c tr ∧ c'.state.ringbuf = 10 ∧
      enqueued (actEvents tr) = accepted 10 (actEvents tr') := by
  obtain ⟨c', tr', hrun, hcalls, hend⟩ := run_small smallTurns (fun p => p.1.state.ringbuf) (a := 10)
    (by decide +kernel)
  have hturns : InTurns tr' := inTurns_of_one (t := 0) fun u hu => by
    rw [hcalls]
    unfold callsIn smallTurns
    by_cases h₁ : 1 = u
    · subst h₁
      simp
    · by_cases h₂ : 2 = u
      · subst h₂
        simp
      · simp [h₁, h₂, Ne.symm hu]
  obtain ⟨c, tr, hm, ⟨hnull, -⟩ | ⟨-, -, -, -, hqueue⟩⟩ := isr_one_ring hrun hturns
  · rw [hnull] at hend
    cases hend
  · rw [show c'.state.ringbuf = 10 from hend] at hqueue
    exact ⟨c', tr', hrun, c, tr, hm, hend, hqueue⟩

end On9log
