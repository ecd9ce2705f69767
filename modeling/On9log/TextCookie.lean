import On9log.TextCalls

/-!
# The cookie and the `FILE` of the plain-text build

The cookie is one global for all threads. In every run it points to the line of
the thread that holds the `FILE`, and only while that thread prints (`FileInv`),
so a message never ends in the line of another.
-/

namespace On9log
open Lib

/-! ### What a call does with the `FILE` -/

theorem fileStep_functional : Functional fileStep := by
  intro g e g₁ g₂ h₁ h₂
  obtain ⟨o, r⟩ := e
  cases o
  case core o =>
    cases o
    case emitLock => rw [h₁.2, h₂.2]
    case emitUnlock => rw [h₁.2, h₂.2]
    all_goals exact Eq.trans h₁ (Eq.symm h₂)
  case flockfile => rw [h₁.2.2, h₂.2.2]
  case setCookie =>
    obtain ⟨file₁, hg₁, rfl⟩ := h₁
    obtain ⟨file₂, hg₂, rfl⟩ := h₂
    rw [hg₁] at hg₂
    cases hg₂
    rfl
  case loadCookie =>
    obtain ⟨file₁, stray₁, hg₁, rfl⟩ := h₁
    obtain ⟨file₂, stray₂, hg₂, rfl⟩ := h₂
    rw [hg₁] at hg₂
    cases hg₂
    rfl
  case vfprintf => rw [h₁.2, h₂.2]
  case strayOutput => rw [h₁.2, h₂.2]
  case clearCookie =>
    obtain ⟨file₁, stray₁, hg₁, rfl⟩ := h₁
    obtain ⟨file₂, stray₂, hg₂, rfl⟩ := h₂
    rw [hg₁] at hg₂
    cases hg₂
    rfl
  case funlockfile => rw [h₁.2, h₂.2]
  all_goals exact Eq.trans h₁ (Eq.symm h₂)

theorem LineWritten.files {cfg : Config} {line : Line} {es : List TextEv}
    (h : LineWritten cfg line es) : Steps fileStep .out es .out := by
  obtain ⟨slots, b, ⟨body, -, ⟨file, hbody⟩, rfl⟩, rfl⟩ := h
  have hopening : Inside (lineOpening cfg slots ++ clockReads line.clock) := inside_opening
  have hlast : Steps fileStep (.locked file)
      ((finishing (live slots (List.range cfg.maxSinks))).map Ev.text ++
        [⟨.core .emitUnlock, ()⟩]) .out :=
    steps_append.mpr ⟨_, steps_file_inside (inside_finishing _) _, _, ⟨⟨file, rfl⟩, rfl⟩, rfl⟩
  have hrest := steps_append.mpr ⟨_, steps_file_inside hopening (.locked 0),
    steps_append.mpr ⟨_, hbody, hlast⟩⟩
  rw [List.cons_append, List.append_assoc, List.append_assoc]
  exact ⟨_, ⟨rfl, rfl⟩, hrest⟩

theorem TextSerial.files {cfg : Config} {n n' : UInt32} {es : List TextEv} {ls : List Line}
    (h : TextSerial cfg n es n' ls) : Steps fileStep .out es .out := by
  induction h with
  | nil => rfl
  | quiet e he _ ih =>
    refine ⟨.out, ?_, ih⟩
    obtain ⟨o, r⟩ := e
    cases o
    case core o => cases o <;> first | rfl | cases he
    all_goals first | rfl | cases he
  | exchange raw _ ih => exact ⟨_, rfl, ih⟩
  | line line hl _ ih => exact steps_append.mpr ⟨_, hl.files, ih⟩
  | table b hb _ ih =>
    have hinside := inside_tableSection (tableSection_of hb)
    refine ⟨_, ⟨rfl, rfl⟩, steps_append.mpr ⟨_, steps_file_inside hinside _, _, ?_, ih⟩⟩
    exact ⟨⟨0, rfl⟩, rfl⟩

theorem textBody_files {cfg : Config} {f : Formatters} (call : TextCall) (es : List TextEv)
    (v : Res) (h : (textBody cfg f call).Path es v) : Steps fileStep .out es .out := by
  obtain ⟨ls, hls⟩ := textWrites_textBody h
  exact hls.serial.files

/-! ### The cookie -/

section Files

variable {Tid : Type} [DecidableEq Tid] {cfg : Config} {f : Formatters}

/-- Who has locked which `FILE`, by the view of the holder of the emit lock. -/
def FileView.owners (t : Tid) : FileView → Ptr → Option Tid
  | .filed file => Function.update (fun _ => none) file (some t)
  | .printing file _ => Function.update (fun _ => none) file (some t)
  | _ => fun _ => none

def FileView.cookie (t : Tid) : FileView → Option Tid
  | .printing _ _ => some t
  | _ => none

structure FileInv (s : TextShared Tid) (g : Tid → FileView) : Prop where
  inside : ∀ t, s.core.emitOwner = some t ↔ g t ≠ .out
  idle : s.core.emitOwner = none → s.fileOwner = (fun _ => none) ∧ s.cookie = none
  held : ∀ t, s.core.emitOwner = some t →
    s.fileOwner = (g t).owners t ∧ s.cookie = (g t).cookie t
  tame : ∀ t file, g t ≠ .printing file true

/-- Nothing was printed through a cookie that pointed elsewhere. -/
def Tame (es : List TextEv) : Prop :=
  OwnCookie es ∧ ∀ data, (⟨.strayOutput data, ()⟩ : TextEv) ∉ es

section Steps

variable {s s' : TextShared Tid} {g : Tid → FileView} {t : Tid} {g' : FileView}

omit [DecidableEq Tid] in
theorem fileInv_init : FileInv (TextShared.init : TextShared Tid) fun _ => .out where
  inside t := by simp [TextShared.init, Shared.init]
  idle _ := ⟨rfl, rfl⟩
  held t h := by cases h
  tame t file h := by cases h

/-- A step of the holder of the emit lock that goes on holding it. -/
theorem FileInv.hold (h : FileInv s g) (ht : g t ≠ .out) (hg' : g' ≠ .out)
    (ho : s'.core.emitOwner = s.core.emitOwner) (hf : s'.fileOwner = g'.owners t)
    (hc : s'.cookie = g'.cookie t) (htame : ∀ file, g' ≠ .printing file true) :
    FileInv s' (Function.update g t g') := by
  have hown := (h.inside t).mpr ht
  refine ⟨fun u => ?_, fun hnone => ?_, fun u hu => ?_, fun u file => ?_⟩
  · rw [ho]
    by_cases hut : u = t
    · rw [hut, Function.update_self]
      exact ⟨fun _ => hg', fun _ => hown⟩
    · rw [Function.update_of_ne hut]
      exact h.inside u
  · rw [ho, hown] at hnone
    cases hnone
  · rw [ho, hown] at hu
    obtain rfl := Option.some.inj hu
    rw [Function.update_self]
    exact ⟨hf, hc⟩
  · by_cases hut : u = t
    · rw [hut, Function.update_self]
      exact htame file
    · rw [Function.update_of_ne hut]
      exact h.tame u file

/-- A step that has nothing to do with the `FILE`. -/
theorem FileInv.keep (h : FileInv s g) (ho : s'.core.emitOwner = s.core.emitOwner)
    (hf : s'.fileOwner = s.fileOwner) (hc : s'.cookie = s.cookie) :
    FileInv s' (Function.update g t (g t)) := by
  rw [Function.update_eq_self]
  refine ⟨fun u => ?_, fun hnone => ?_, fun u hu => ?_, h.tame⟩
  · rw [ho]
    exact h.inside u
  · rw [hf, hc]
    exact h.idle (ho ▸ hnone)
  · rw [hf, hc]
    exact h.held u (ho ▸ hu)

theorem FileInv.lock (h : FileInv s g) (hfree : s.core.emitOwner = none)
    (ho : s'.core.emitOwner = some t) (hf : s'.fileOwner = s.fileOwner)
    (hc : s'.cookie = s.cookie) : FileInv s' (Function.update g t (.locked 0)) := by
  have hout : ∀ u, g u = .out := by
    intro u
    by_contra hu
    have hown := (h.inside u).mpr hu
    rw [hfree] at hown
    cases hown
  refine ⟨fun u => ?_, fun hnone => ?_, fun u hu => ?_, fun u file => ?_⟩
  · rw [ho]
    by_cases hut : u = t
    · rw [hut, Function.update_self]
      exact ⟨fun _ => by simp, fun _ => rfl⟩
    · rw [Function.update_of_ne hut, hout u]
      exact ⟨fun hc => absurd (Option.some.inj hc).symm hut, fun hc => absurd rfl hc⟩
  · rw [ho] at hnone
    cases hnone
  · rw [ho] at hu
    obtain rfl := Option.some.inj hu
    rw [Function.update_self, hf, hc]
    exact h.idle hfree
  · by_cases hut : u = t
    · rw [hut, Function.update_self]
      simp
    · rw [Function.update_of_ne hut]
      exact h.tame u file

theorem FileInv.unlock {file : Ptr} (h : FileInv s g) (ht : g t = .locked file)
    (ho : s'.core.emitOwner = none) (hf : s'.fileOwner = s.fileOwner)
    (hc : s'.cookie = s.cookie) : FileInv s' (Function.update g t .out) := by
  have hown : s.core.emitOwner = some t := (h.inside t).mpr (by simp [ht])
  have hheld := h.held t hown
  rw [ht] at hheld
  refine ⟨fun u => ?_, fun _ => ?_, fun u hu => ?_, fun u file => ?_⟩
  · rw [ho]
    refine ⟨fun hnone => by simp at hnone, fun hu => ?_⟩
    by_cases hut : u = t
    · rw [hut, Function.update_self] at hu
      exact absurd rfl hu
    · rw [Function.update_of_ne hut] at hu
      have huown := (h.inside u).mpr hu
      rw [hown] at huown
      exact absurd (Option.some.inj huown).symm hut
  · rw [hf, hc]
    exact hheld
  · rw [ho] at hu
    cases hu
  · by_cases hut : u = t
    · rw [hut, Function.update_self]
      simp
    · rw [Function.update_of_ne hut]
      exact h.tame u file

omit [DecidableEq Tid] in
theorem FileInv.at (h : FileInv s g) (ht : g t ≠ .out) :
    s.fileOwner = (g t).owners t ∧ s.cookie = (g t).cookie t :=
  h.held t ((h.inside t).mpr ht)

omit [DecidableEq Tid] in
theorem sees_own {cookie : Option Tid} {line : CookieLine} (h : SeesCookie t cookie line)
    (hc : cookie = some t) : line = .own := by
  cases line with
  | null =>
    rw [hc] at h
    cases h
  | own => rfl
  | other =>
    obtain ⟨u, hu, hcu⟩ := h
    rw [hc] at hcu
    exact absurd (Option.some.inj hcu).symm hu

omit [DecidableEq Tid] in
theorem emitOwner_step {o : Op} {r : o.Ret} {core core' : Shared Tid}
    (h : step cfg t o r core core')
    (hl : o ≠ .emitLock) (hu : o ≠ .emitUnlock) : core'.emitOwner = core.emitOwner := by
  refine (mutex_emitLock cfg).other t o r core core' h ?_ ?_
  · cases o <;> first | rfl | exact absurd rfl hl
  · cases o <;> first | rfl | exact absurd rfl hu

theorem FileInv.act {e : TextEv} (h : FileInv s g) (hg : fileStep (g t) e g')
    (hs : textStep cfg t e.op e.ret s s') : FileInv s' (Function.update g t g') := by
  obtain ⟨o, r⟩ := e
  cases o
  case core o =>
    obtain ⟨core, hcore, rfl⟩ := hs
    by_cases hl : o = .emitLock
    · subst hl
      obtain ⟨-, rfl⟩ := hg
      obtain ⟨hfree, rfl⟩ := hcore
      exact h.lock hfree rfl rfl rfl
    by_cases hu : o = .emitUnlock
    · subst hu
      obtain ⟨⟨file, ht⟩, rfl⟩ := hg
      obtain rfl := hcore
      exact h.unlock ht rfl rfl rfl
    have hsame : g' = g t := by
      cases o
      case emitLock => exact absurd rfl hl
      case emitUnlock => exact absurd rfl hu
      all_goals exact hg
    rw [hsame]
    exact h.keep (emitOwner_step hcore hl hu) rfl rfl
  case loadStream =>
    obtain ⟨-, rfl⟩ := hs
    cases ht : g t with
    | locked loaded =>
      have hheld := h.at (t := t) (by simp [ht])
      rw [ht] at hg hheld
      rw [show g' = .locked r from hg]
      exact h.hold (by simp [ht]) (by simp) rfl hheld.1 hheld.2 (by simp)
    | _ =>
      rw [ht] at hg
      rw [show g' = g t from hg.trans ht.symm]
      exact h.keep rfl rfl rfl
  case openCookie =>
    rw [show g' = g t from hg]
    rcases hs with ⟨-, rfl⟩ | ⟨-, -, rfl⟩
    · exact h.keep rfl rfl rfl
    · exact h.keep rfl rfl rfl
  case portLock =>
    obtain ⟨-, rfl⟩ := hs
    rw [show g' = g t from hg]
    exact h.keep rfl rfl rfl
  case flockfile file =>
    obtain ⟨ht, -, rfl⟩ := hg
    obtain ⟨-, rfl⟩ := hs
    have hheld := h.at (t := t) (by simp [ht])
    rw [ht] at hheld
    refine h.hold (by simp [ht]) (by simp) rfl ?_ hheld.2 (by simp)
    show Function.update s.fileOwner file (some t) = _
    rw [hheld.1]
    rfl
  case setCookie =>
    obtain ⟨file, ht, rfl⟩ := hg
    obtain rfl := hs
    have hheld := h.at (t := t) (by simp [ht])
    rw [ht] at hheld
    exact h.hold (by simp [ht]) (by simp) rfl hheld.1 rfl (by simp)
  case loadCookie =>
    obtain ⟨file, stray, ht, rfl⟩ := hg
    obtain ⟨hsees, rfl⟩ := hs
    have hheld := h.at (t := t) (by simp [ht])
    rw [ht] at hheld
    have hown : r = .own := sees_own hsees hheld.2
    refine h.hold (by simp [ht]) (by simp) rfl hheld.1 hheld.2 fun file' => ?_
    simp [hown]
  case vfprintf =>
    obtain ⟨-, rfl⟩ := hg
    obtain rfl := hs
    exact h.keep rfl rfl rfl
  case strayOutput =>
    obtain ⟨-, rfl⟩ := hg
    obtain rfl := hs
    exact h.keep rfl rfl rfl
  case clearCookie =>
    obtain ⟨file, stray, ht, rfl⟩ := hg
    obtain rfl := hs
    have hheld := h.at (t := t) (by simp [ht])
    rw [ht] at hheld
    exact h.hold (by simp [ht]) (by simp) rfl hheld.1 rfl (by simp)
  case funlockfile file =>
    obtain ⟨ht, rfl⟩ := hg
    obtain rfl := hs
    have hheld := h.at (t := t) (by simp [ht])
    rw [ht] at hheld
    refine h.hold (by simp [ht]) (by simp) rfl ?_ hheld.2 (by simp)
    show Function.update s.fileOwner file none = _
    rw [hheld.1]
    exact (Function.update_idem _ _ _).trans (Function.update_eq_self _ _)
  all_goals
    obtain rfl := hs
    rw [show g' = g t from hg]
    exact h.keep rfl rfl rfl

end Steps

omit [DecidableEq Tid] in
theorem Tame.act {s s' : TextShared Tid} {g : Tid → FileView} {t : Tid} {e : TextEv}
    {g' : FileView} {es : List TextEv} (h : Tame es) (hinv : FileInv s g)
    (hg : fileStep (g t) e g') (hs : textStep cfg t e.op e.ret s s') : Tame (es ++ [e]) := by
  refine ⟨fun line hmem => ?_, fun data hmem => ?_⟩
  · rcases List.mem_append.mp hmem with hmem | hmem
    · exact h.1 line hmem
    · obtain rfl := List.mem_singleton.mp hmem
      obtain ⟨file, stray, ht, -⟩ := hg
      have hheld := hinv.at (t := t) (by simp [ht])
      rw [ht] at hheld
      exact sees_own hs.1 hheld.2
  · rcases List.mem_append.mp hmem with hmem | hmem
    · exact h.2 data hmem
    · obtain rfl := List.mem_singleton.mp hmem
      obtain ⟨⟨file, ht⟩, -⟩ := hg
      exact hinv.tame t file ht

variable {c : Lib.Config Tid TextCall TextOp TextOp.Ret Res (TextShared Tid)} {tr : TextTrace Tid}

theorem file_run (h : (textSystem Tid cfg f).Run c tr) :
    ∃ g : Tid → FileView, (∀ t, Steps fileStep .out (callEvents t tr) (g t)) ∧
      FileInv c.state g ∧ Tame (actEvents tr) := by
  refine h.invariant fileStep_functional textBody_files
    (I := fun s tr g => FileInv s g ∧ Tame (actEvents tr)) ⟨fileInv_init, ?_⟩
    (fun _ _ _ _ _ hi _ => hi) (fun _ _ _ _ _ _ hi _ => hi) ?_
  · exact ⟨fun line hmem => absurd hmem List.not_mem_nil, fun data => List.not_mem_nil⟩
  · intro s tr g t e g' s' hi hg hs
    exact ⟨hi.1.act hg hs, hi.2.act hi.1 hg hs⟩

end Files

end On9log
