import On9log.Lib.Threads

/-!
# One lock: what threads do while they hold it

For a system with one mutual-exclusion lock whose calls touch guarded
operations only between taking and releasing it. `Discipline Sec` is the
protocol of such a call: every complete critical section satisfies `Sec`.
`act_cases` says what the next operation of a run can be. A run is serial in
the guarded part of the state: its sections one after another and the beginning
of one more (`locked_steps`), each complete section satisfying `Sec`
(`closed_sec`) and the last one extending to such a section
(`openSection_completes`).
-/

namespace On9log.Lib

variable {Tid Call Op Res σ : Type} {Ret : Op → Type}

/-- Which operations take the lock, release it, or need it; who holds it. -/
structure LockSpec (Tid Op σ : Type) where
  isLock : Op → Bool
  isUnlock : Op → Bool
  guarded : Op → Bool
  owner : σ → Option Tid
  lock_ne_unlock : ∀ o, isLock o = true → isUnlock o = false
  lock_unguarded : ∀ o, isLock o = true → guarded o = false
  unlock_unguarded : ∀ o, isUnlock o = true → guarded o = false

namespace LockSpec

variable (L : LockSpec Tid Op σ)

/-- The protocol of a call: `none` outside the lock, `some b` inside it after
the events `b`. -/
def Discipline (Sec : List (Event Op Ret) → Prop) :
    Option (List (Event Op Ret)) → Event Op Ret → Option (List (Event Op Ret)) → Prop
  | none, e, g =>
    (L.isLock e.op = true ∧ g = some []) ∨
      (L.isLock e.op = false ∧ L.isUnlock e.op = false ∧ L.guarded e.op = false ∧ g = none)
  | some b, e, g =>
    (L.isUnlock e.op = true ∧ Sec b ∧ g = none) ∨
      (L.isUnlock e.op = false ∧ L.isLock e.op = false ∧ g = some (b ++ [e]))

theorem discipline_functional (Sec : List (Event Op Ret) → Prop) :
    Functional (L.Discipline Sec) := by
  intro g e g₁ g₂ h₁ h₂
  cases g with
  | none =>
    rcases h₁ with ⟨h₁, rfl⟩ | ⟨h₁, -, -, rfl⟩ <;> rcases h₂ with ⟨h₂, rfl⟩ | ⟨h₂, -, -, rfl⟩ <;>
      simp_all
  | some b =>
    rcases h₁ with ⟨h₁, -, rfl⟩ | ⟨h₁, -, rfl⟩ <;> rcases h₂ with ⟨h₂, -, rfl⟩ | ⟨h₂, -, rfl⟩ <;>
      simp_all

theorem steps_inside {Sec : List (Event Op Ret) → Prop} {es b : List (Event Op Ret)}
    (h : ∀ e ∈ es, L.isLock e.op = false ∧ L.isUnlock e.op = false) :
    Steps (L.Discipline Sec) (some b) es (some (b ++ es)) := by
  induction es generalizing b with
  | nil => simp [Steps]
  | cons e es ih =>
    have he := h e (List.mem_cons_self ..)
    refine ⟨some (b ++ [e]), Or.inr ⟨he.2, he.1, rfl⟩, ?_⟩
    simpa using ih (b := b ++ [e]) fun x hx => h x (List.mem_cons_of_mem _ hx)

theorem steps_section {Sec : List (Event Op Ret) → Prop} {a z : Event Op Ret}
    {es : List (Event Op Ret)} (ha : L.isLock a.op = true) (hz : L.isUnlock z.op = true)
    (h : ∀ e ∈ es, L.isLock e.op = false ∧ L.isUnlock e.op = false) (hs : Sec es) :
    Steps (L.Discipline Sec) none (a :: es ++ [z]) none := by
  refine ⟨some [], Or.inl ⟨ha, rfl⟩, steps_append.mpr ⟨some es, ?_, ?_⟩⟩
  · simpa using L.steps_inside (b := []) h
  · exact ⟨none, Or.inl ⟨hz, hs, rfl⟩, rfl⟩

theorem section_completes {τ : Type} {m : τ → Event Op Ret → τ → Prop}
    {Sec : List (Event Op Ret) → Prop} {b es : List (Event Op Ret)} {x x' : τ}
    (h : Steps (L.Discipline Sec) (some b) es none) (hx : Steps m x es x') :
    ∃ b' x₁, Sec (b ++ b') ∧ Steps m x b' x₁ := by
  induction es generalizing b x with
  | nil => cases h
  | cons e es ih =>
    obtain ⟨g, hg, hs⟩ := h
    obtain ⟨x₁, h₁, hx⟩ := hx
    rcases hg with ⟨-, hb, rfl⟩ | ⟨-, -, rfl⟩
    · exact ⟨[], x, by simpa using hb, rfl⟩
    · obtain ⟨b', x₂, hb', h₂⟩ := ih hs hx
      exact ⟨e :: b', x₂, by simpa using hb', x₁, h₁, h₂⟩

/-! ### Runs -/

variable [DecidableEq Tid]

def holder : List (Label Tid Call Op Ret Res) → Option Tid
  | [] => none
  | .act t e :: tr =>
    if L.isLock e.op then some t else if L.isUnlock e.op then none else holder tr
  | .invoke _ _ :: tr => holder tr
  | .ret _ _ _ :: tr => holder tr

def openSection : List (Label Tid Call Op Ret Res) → List (Event Op Ret)
  | [] => []
  | .act t e :: tr =>
    if L.isLock e.op || L.isUnlock e.op then []
    else if L.holder tr = some t then openSection tr ++ [e] else openSection tr
  | .invoke _ _ :: tr => openSection tr
  | .ret _ _ _ :: tr => openSection tr

def lockTrace : List (Label Tid Call Op Ret Res) → List (Label Tid Call Op Ret Res)
  | [] => []
  | .act _ e :: tr => if L.isLock e.op then tr else lockTrace tr
  | .invoke _ _ :: tr => lockTrace tr
  | .ret _ _ _ :: tr => lockTrace tr

/-- The finished critical sections of all threads, oldest first. -/
def closedSections : List (Label Tid Call Op Ret Res) → List (List (Event Op Ret))
  | [] => []
  | .act _ e :: tr =>
    if L.isUnlock e.op then closedSections tr ++ [L.openSection tr] else closedSections tr
  | .invoke _ _ :: tr => closedSections tr
  | .ret _ _ _ :: tr => closedSections tr

/-- All events performed under the lock, oldest first. -/
def lockedEvents (tr : List (Label Tid Call Op Ret Res)) : List (Event Op Ret) :=
  (L.closedSections tr).flatten ++ L.openSection tr

/-- A machine whose lock is a mutual-exclusion lock. -/
structure Mutex (S : System Tid Call Op Ret Res σ) : Prop where
  init : L.owner S.init = none
  lock : ∀ t o r s s', S.step t o r s s' → L.isLock o = true →
    L.owner s = none ∧ L.owner s' = some t
  unlock : ∀ t o r s s', S.step t o r s s' → L.isUnlock o = true → L.owner s' = none
  other : ∀ t o r s s', S.step t o r s s' → L.isLock o = false → L.isUnlock o = false →
    L.owner s' = L.owner s

section Runs

variable {S : System Tid Call Op Ret Res σ} {Sec : List (Event Op Ret) → Prop}
  {cfg : Config Tid Call Op Ret Res σ} {tr : List (Label Tid Call Op Ret Res)}

def view (tr : List (Label Tid Call Op Ret Res)) (t : Tid) : Option (List (Event Op Ret)) :=
  if L.holder tr = some t then some (L.openSection tr) else none

theorem view_eq_some {tr : List (Label Tid Call Op Ret Res)} {t : Tid}
    {b : List (Event Op Ret)} (h : L.view tr t = some b) :
    L.holder tr = some t ∧ L.openSection tr = b := by
  simp only [view] at h
  split at h
  · rename_i ht
    exact ⟨ht, Option.some.inj h⟩
  · cases h

theorem view_eq_none {tr : List (Label Tid Call Op Ret Res)} {t : Tid}
    (h : L.view tr t = none) : L.holder tr ≠ some t := by
  intro ht
  simp [view, ht] at h

/-- The owner in the state is the holder of the trace, and every thread's view
of the lock is the one its own events give. -/
theorem run_view [∀ o, Inhabited (Ret o)] (hM : L.Mutex S)
    (H : ∀ c es v, (S.body c).Path es v → Steps (L.Discipline Sec) none es none)
    (h : S.Run cfg tr) :
    L.owner cfg.state = L.holder tr ∧
      ∀ t, Steps (L.Discipline Sec) none (callEvents t tr) (L.view tr t) := by
  have key := h.invariant (L.discipline_functional Sec) H
    (I := fun s tr g => L.owner s = L.holder tr ∧ ∀ t, g t = L.view tr t)
    ⟨hM.init, fun t => by simp [view, holder]⟩
    (fun s tr g t c hi _ => ⟨hi.1, hi.2⟩)
    (fun s tr g t c v hi _ => ⟨hi.1, hi.2⟩)
    ?_
  · obtain ⟨g, hg, ho, hv⟩ := key
    exact ⟨ho, fun t => hv t ▸ hg t⟩
  · rintro s tr g t ⟨o, r⟩ g' s' ⟨ho, hv⟩ hm hs
    cases hgt : g t with
    | none =>
      rw [hgt] at hm
      rcases hm with ⟨hl, rfl⟩ | ⟨hl, hu, -, rfl⟩
      · have hown := hM.lock t o r s s' hs hl
        have hfree : L.holder tr = none := ho ▸ hown.1
        refine ⟨by simpa [holder, hl] using hown.2, fun u => ?_⟩
        by_cases hut : u = t
        · subst hut
          simp [view, holder, openSection, hl]
        · have hgu : g u = none := by simpa [view, hfree] using hv u
          have htu : ¬ t = u := fun e => hut e.symm
          simp [Function.update_of_ne hut, hgu, view, holder, hl, htu]
      · have hown := hM.other t o r s s' hs hl hu
        have hnt := L.view_eq_none ((hv t).symm.trans hgt)
        refine ⟨by simpa [holder, hl, hu] using hown.trans ho, fun u => ?_⟩
        by_cases hut : u = t
        · subst hut
          simp [view, holder, hl, hu, hnt]
        · simp [Function.update_of_ne hut, hv u, view, holder, openSection, hl, hu, hnt]
    | some b =>
      rw [hgt] at hm
      obtain ⟨hht, hob⟩ := L.view_eq_some ((hv t).symm.trans hgt)
      rcases hm with ⟨hu, -, rfl⟩ | ⟨hu, hl, rfl⟩
      · have hown := hM.unlock t o r s s' hs hu
        have hl : L.isLock o = false := by
          by_contra hl
          have := L.lock_ne_unlock o (by simpa using hl)
          simp_all
        refine ⟨by simpa [holder, hl, hu] using hown, fun u => ?_⟩
        by_cases hut : u = t
        · subst hut
          simp [view, holder, hl, hu]
        · have htu : ¬ t = u := fun e => hut e.symm
          have hgu : g u = none := by simpa [view, hht, htu] using hv u
          simp [Function.update_of_ne hut, hgu, view, holder, hl, hu]
      · have hown := hM.other t o r s s' hs hl hu
        refine ⟨by simpa [holder, hl, hu] using hown.trans ho, fun u => ?_⟩
        by_cases hut : u = t
        · subst hut
          simp [view, holder, openSection, hl, hu, hht, hob]
        · have htu : ¬ t = u := fun e => hut e.symm
          have hgu : g u = none := by simpa [view, hht, htu] using hv u
          simp [Function.update_of_ne hut, hgu, view, holder, hl, hu, hht, htu]

theorem act_cases [∀ o, Inhabited (Ret o)] (hM : L.Mutex S)
    (H : ∀ c es v, (S.body c).Path es v → Steps (L.Discipline Sec) none es none)
    {t : Tid} {e : Event Op Ret} (h : S.Run cfg (.act t e :: tr)) :
    (L.isLock e.op = true ∧ L.isUnlock e.op = false ∧ L.holder tr = none) ∨
      (L.isLock e.op = false ∧ L.isUnlock e.op = true ∧ L.holder tr = some t ∧
        Sec (L.openSection tr)) ∨
      (L.isLock e.op = false ∧ L.isUnlock e.op = false ∧ L.holder tr = some t) ∨
      (L.isLock e.op = false ∧ L.isUnlock e.op = false ∧ L.holder tr ≠ some t ∧
        L.guarded e.op = false) := by
  have hv := (L.run_view hM H h).2 t
  simp only [callEvents, if_pos] at hv
  obtain ⟨g₁, h₁, g₂, hm, -⟩ := steps_append.mp hv
  cases h with
  | act t c o k r s' h ht hs =>
    have hold := L.run_view hM H h
    have hg₁ : g₁ = L.view tr t := steps_unique (L.discipline_functional Sec) h₁ (hold.2 t)
    cases hgt : L.view tr t with
    | none =>
      rw [hg₁, hgt] at hm
      rcases hm with ⟨hl, -⟩ | ⟨hl, hu, hg, -⟩
      · have hown := hM.lock t o r _ s' hs hl
        exact Or.inl ⟨hl, L.lock_ne_unlock o hl, hold.1 ▸ hown.1⟩
      · exact Or.inr (Or.inr (Or.inr ⟨hl, hu, L.view_eq_none hgt, hg⟩))
    | some b =>
      rw [hg₁, hgt] at hm
      obtain ⟨hht, hob⟩ := L.view_eq_some hgt
      rcases hm with ⟨hu, hb, -⟩ | ⟨hu, hl, -⟩
      · have hl : L.isLock o = false := by
          by_contra hl
          have := L.lock_ne_unlock o (by simpa using hl)
          simp_all
        exact Or.inr (Or.inl ⟨hl, hu, hht, hob ▸ hb⟩)
      · exact Or.inr (Or.inr (Or.inl ⟨hl, hu, hht⟩))

/-- The holder can finish its section, whatever the machine `m` answers. -/
theorem openSection_completes [∀ o, Inhabited (Ret o)] {τ : Type}
    {m : τ → Event Op Ret → τ → Prop} (hM : L.Mutex S)
    (H : ∀ c es v, (S.body c).Path es v → Steps (L.Discipline Sec) none es none)
    (hm : Total m) (h : S.Run cfg tr) {t : Tid} (ht : L.holder tr = some t) (x : τ) :
    ∃ b x', Sec (L.openSection tr ++ b) ∧ Steps m x b x' := by
  have hv := (L.run_view hM H h).2 t
  have hview : L.view tr t = some (L.openSection tr) := by simp [view, ht]
  rw [hview] at hv
  rcases h.callEvents_reach t with h0 | ⟨c, q, hq⟩
  · rw [h0] at hv
    cases hv
  · obtain ⟨es, v, x', hp, hx⟩ := exists_path_steps hm q x
    obtain ⟨g, hg, hs⟩ := steps_append.mp (H c _ v (Prog.reach_path hq hp))
    rw [steps_unique (L.discipline_functional Sec) hg hv] at hs
    exact L.section_completes hs hx

/-! ### Serialisation -/

/-- Induction over the labels of a run by what the last one did to the lock. -/
theorem run_induction [∀ o, Inhabited (Ret o)] (hM : L.Mutex S)
    (H : ∀ c es v, (S.body c).Path es v → Steps (L.Discipline Sec) none es none)
    {I : Config Tid Call Op Ret Res σ → List (Label Tid Call Op Ret Res) → Prop}
    (hinit : ∀ cfg, S.Run cfg [] → I cfg [])
    (hcall : ∀ cfg cfg' tr l, S.Run cfg' (l :: tr) → S.Run cfg tr → (∀ t e, l ≠ .act t e) →
      cfg'.state = cfg.state → I cfg tr → I cfg' (l :: tr))
    (hlock : ∀ cfg cfg' tr t e, S.Run cfg' (.act t e :: tr) → S.step t e.op e.ret cfg.state
      cfg'.state → L.isLock e.op = true → L.isUnlock e.op = false → L.holder tr = none →
      I cfg tr → I cfg' (.act t e :: tr))
    (hunlock : ∀ cfg cfg' tr t e, S.Run cfg' (.act t e :: tr) → S.step t e.op e.ret cfg.state
      cfg'.state → L.isLock e.op = false → L.isUnlock e.op = true → L.holder tr = some t →
      Sec (L.openSection tr) → I cfg tr → I cfg' (.act t e :: tr))
    (hinside : ∀ cfg cfg' tr t e, S.Run cfg' (.act t e :: tr) → S.step t e.op e.ret cfg.state
      cfg'.state → L.isLock e.op = false → L.isUnlock e.op = false → L.holder tr = some t →
      I cfg tr → I cfg' (.act t e :: tr))
    (hfree : ∀ cfg cfg' tr t e, S.Run cfg' (.act t e :: tr) → S.step t e.op e.ret cfg.state
      cfg'.state → L.isLock e.op = false → L.isUnlock e.op = false → L.holder tr ≠ some t →
      L.guarded e.op = false → I cfg tr → I cfg' (.act t e :: tr))
    (h : S.Run cfg tr) : I cfg tr := by
  induction h with
  | init => exact hinit _ .init
  | invoke t c hrun ht ih => exact hcall _ _ _ _ (.invoke t c hrun ht) hrun (by simp) rfl ih
  | ret t c v hrun ht ih => exact hcall _ _ _ _ (.ret t c v hrun ht) hrun (by simp) rfl ih
  | act t c o k r s' hrun ht hs ih =>
    have hrun' := System.Run.act t c o k r s' hrun ht hs
    rcases L.act_cases hM H hrun' with ⟨hl, hu, hh⟩ | ⟨hl, hu, hh, hsec⟩ | ⟨hl, hu, hh⟩ |
      ⟨hl, hu, hh, hg⟩
    · exact hlock _ _ _ t _ hrun' hs hl hu hh ih
    · exact hunlock _ _ _ t _ hrun' hs hl hu hh hsec ih
    · exact hinside _ _ _ t _ hrun' hs hl hu hh ih
    · exact hfree _ _ _ t _ hrun' hs hl hu hh hg ih

theorem closed_sec [∀ o, Inhabited (Ret o)] (hM : L.Mutex S)
    (H : ∀ c es v, (S.body c).Path es v → Steps (L.Discipline Sec) none es none)
    (h : S.Run cfg tr) : ∀ b ∈ L.closedSections tr, Sec b := by
  refine L.run_induction hM H (I := fun _ tr => ∀ b ∈ L.closedSections tr, Sec b)
    ?_ ?_ ?_ ?_ ?_ ?_ h
  · intro _ _ b hb
    cases hb
  · intro _ _ tr l _ _ hl _ ih
    cases l with
    | act t e => exact absurd rfl (hl t e)
    | invoke t c => exact ih
    | ret t c v => exact ih
  · intro _ _ tr t e _ _ hl hu _ ih
    simpa [closedSections, hu] using ih
  · intro _ _ tr t e _ _ hl hu _ hsec ih b hb
    simp only [closedSections, hu, if_pos, List.mem_append, List.mem_singleton] at hb
    rcases hb with hb | rfl
    · exact ih b hb
    · exact hsec
  · intro _ _ tr t e _ _ hl hu _ ih
    simpa [closedSections, hu] using ih
  · intro _ _ tr t e _ _ hl hu _ _ ih
    simpa [closedSections, hu] using ih

theorem openSection_free [∀ o, Inhabited (Ret o)] (hM : L.Mutex S)
    (H : ∀ c es v, (S.body c).Path es v → Steps (L.Discipline Sec) none es none)
    (h : S.Run cfg tr) : L.holder tr = none → L.openSection tr = [] := by
  refine L.run_induction hM H (I := fun _ tr => L.holder tr = none → L.openSection tr = [])
    ?_ ?_ ?_ ?_ ?_ ?_ h
  · intro _ _ _
    rfl
  · intro _ _ tr l _ _ hl _ ih
    cases l with
    | act t e => exact absurd rfl (hl t e)
    | invoke t c => exact ih
    | ret t c v => exact ih
  · intro _ _ tr t e _ _ hl _ _ _ _
    simp [openSection, hl]
  · intro _ _ tr t e _ _ _ hu _ _ _ _
    simp [openSection, hu]
  · intro _ _ tr t e _ _ hl hu hh _ hn
    simp [holder, hl, hu, hh] at hn
  · intro _ _ tr t e _ _ hl hu hh _ ih hn
    simp only [holder, hl, hu] at hn
    simpa [openSection, hl, hu, hh] using ih hn

/-- In the guarded part of the state a run is its sections one after another. -/
theorem locked_steps [∀ o, Inhabited (Ret o)] (hM : L.Mutex S)
    (H : ∀ c es v, (S.body c).Path es v → Steps (L.Discipline Sec) none es none)
    {τ : Type} {p : σ → τ} {m : τ → Event Op Ret → τ → Prop}
    (hm : ∀ t o r s s', S.step t o r s s' → m (p s) ⟨o, r⟩ (p s'))
    (hu : ∀ t o r s s', S.step t o r s s' → L.guarded o = false → p s' = p s)
    (h : S.Run cfg tr) : Steps m (p S.init) (L.lockedEvents tr) (p cfg.state) := by
  refine L.run_induction hM H
    (I := fun cfg tr => Steps m (p S.init) (L.lockedEvents tr) (p cfg.state)) ?_ ?_ ?_ ?_ ?_ ?_ h
  · intro cfg hrun
    cases hrun
    rfl
  · intro _ _ tr l _ _ hl hs ih
    rw [hs]
    cases l with
    | act t e => exact absurd rfl (hl t e)
    | invoke t c => exact ih
    | ret t c v => exact ih
  · intro cfg cfg' tr t e hrun hs hl hul hh ih
    obtain ⟨_, hrun'⟩ := hrun.tail
    rw [hu _ _ _ _ _ hs (L.lock_unguarded _ hl)]
    simpa [lockedEvents, closedSections, openSection, hl, hul,
      L.openSection_free hM H hrun' hh] using ih
  · intro cfg cfg' tr t e _ hs hl hul _ _ ih
    rw [hu _ _ _ _ _ hs (L.unlock_unguarded _ hul)]
    simpa [lockedEvents, closedSections, openSection, hul] using ih
  · intro cfg cfg' tr t e _ hs hl hul hh ih
    have heq : L.lockedEvents (.act t e :: tr) = L.lockedEvents tr ++ [e] := by
      simp [lockedEvents, closedSections, openSection, hl, hul, hh]
    rw [heq]
    exact steps_append.mpr ⟨_, ih, _, hm _ _ _ _ _ hs, rfl⟩
  · intro cfg cfg' tr t e _ hs hl hul hh hg ih
    rw [hu _ _ _ _ _ hs hg]
    simpa [lockedEvents, closedSections, openSection, hl, hul, hh] using ih

/-- What the holder did since it took the lock, from the state it took it in. -/
theorem open_steps [∀ o, Inhabited (Ret o)] (hM : L.Mutex S)
    (H : ∀ c es v, (S.body c).Path es v → Steps (L.Discipline Sec) none es none)
    {τ : Type} {p : σ → τ} {m : τ → Event Op Ret → τ → Prop}
    (hm : ∀ t o r s s', S.step t o r s s' → m (p s) ⟨o, r⟩ (p s'))
    (hu : ∀ t o r s s', S.step t o r s s' → L.guarded o = false → p s' = p s)
    (h : S.Run cfg tr) : ∀ t, L.holder tr = some t →
      ∃ cfg₀, S.Run cfg₀ (L.lockTrace tr) ∧
        Steps m (p cfg₀.state) (L.openSection tr) (p cfg.state) := by
  refine L.run_induction hM H (I := fun cfg tr => ∀ t, L.holder tr = some t →
    ∃ cfg₀, S.Run cfg₀ (L.lockTrace tr) ∧
      Steps m (p cfg₀.state) (L.openSection tr) (p cfg.state)) ?_ ?_ ?_ ?_ ?_ ?_ h
  · intro _ _ t ht
    cases ht
  · intro _ _ tr l _ _ hl hs ih
    rw [hs]
    cases l with
    | act t e => exact absurd rfl (hl t e)
    | invoke t c => exact ih
    | ret t c v => exact ih
  · intro cfg cfg' tr t e hrun hs hl hul _ _ u hu'
    cases hrun with
    | @act cfg₀ _ _ c o k r s' hrun' ht hs' =>
      refine ⟨cfg₀, by simpa [lockTrace, hl] using hrun', ?_⟩
      have hp := hu _ _ _ _ _ hs' (L.lock_unguarded _ hl)
      simpa [openSection, hl, Steps] using hp
  · intro cfg cfg' tr t e _ _ hl hul _ _ _ u hu'
    simp [holder, hl, hul] at hu'
  · intro cfg cfg' tr t e _ hs hl hul hh ih u hu'
    obtain ⟨cfg₀, hrun₀, hsteps⟩ := ih t hh
    refine ⟨cfg₀, by simpa [lockTrace, hl] using hrun₀, ?_⟩
    have heq : L.openSection (.act t e :: tr) = L.openSection tr ++ [e] := by
      simp [openSection, hl, hul, hh]
    rw [heq]
    exact steps_append.mpr ⟨_, hsteps, _, hm _ _ _ _ _ hs, rfl⟩
  · intro cfg cfg' tr t e _ hs hl hul hh hg ih u hu'
    simp only [holder, hl, hul] at hu'
    obtain ⟨cfg₀, hrun₀, hsteps⟩ := ih u hu'
    refine ⟨cfg₀, by simpa [lockTrace, hl] using hrun₀, ?_⟩
    rw [hu _ _ _ _ _ hs hg]
    simpa [openSection, hl, hul, hh] using hsteps

omit [DecidableEq Tid] in
theorem lockTrace_suffix {tr : List (Label Tid Call Op Ret Res)} {t : Tid}
    (h : L.holder tr = some t) :
    ∃ e : Event Op Ret, L.isLock e.op = true ∧ (.act t e :: L.lockTrace tr) <:+ tr := by
  induction tr with
  | nil => cases h
  | cons l tr ih =>
    have keep : L.holder tr = some t → ∃ e : Event Op Ret, L.isLock e.op = true ∧
        (.act t e :: L.lockTrace tr) <:+ l :: tr := by
      intro h
      obtain ⟨e, he, hs⟩ := ih h
      exact ⟨e, he, hs.trans (List.suffix_cons l tr)⟩
    cases l with
    | invoke u c => exact keep h
    | ret u c v => exact keep h
    | act u e =>
      simp only [holder] at h
      by_cases hl : L.isLock e.op = true
      · rw [if_pos hl] at h
        cases h
        refine ⟨e, hl, ?_⟩
        simp only [lockTrace, if_pos hl]
        exact List.suffix_refl _
      · rw [if_neg hl] at h
        by_cases hu : L.isUnlock e.op = true
        · rw [if_pos hu] at h
          cases h
        · rw [if_neg hu] at h
          simp only [lockTrace, if_neg hl]
          exact keep h

omit [DecidableEq Tid] in
theorem lockTrace_eq {t : Tid} {e : Event Op Ret} {tr₁ tr₂ : List (Label Tid Call Op Ret Res)}
    (he : L.isLock e.op = true) (ht : L.holder (tr₂ ++ .act t e :: tr₁) = some t)
    (h : ∀ e', .act t e' ∈ tr₂ → L.isLock e'.op = false) :
    L.lockTrace (tr₂ ++ .act t e :: tr₁) = tr₁ := by
  induction tr₂ with
  | nil => simp [lockTrace, he]
  | cons l tr₂ ih =>
    have h' : ∀ e', .act t e' ∈ tr₂ → L.isLock e'.op = false := fun e' he' =>
      h e' (List.mem_cons_of_mem _ he')
    cases l with
    | invoke u c => exact ih ht h'
    | ret u c v => exact ih ht h'
    | act u e' =>
      simp only [List.cons_append, holder] at ht
      by_cases hl : L.isLock e'.op = true
      · rw [if_pos hl] at ht
        cases ht
        have := h e' (List.mem_cons_self ..)
        rw [hl] at this
        cases this
      · rw [if_neg hl] at ht
        by_cases hu : L.isUnlock e'.op = true
        · rw [if_pos hu] at ht
          cases ht
        · rw [if_neg hu] at ht
          simp only [List.cons_append, lockTrace, if_neg hl]
          exact ih ht h'

/-- Where in the run a call performed its only critical section `b`: it takes
the lock after `tr₀` and releases it after `tr₁`. -/
theorem call_section [∀ o, Inhabited (Ret o)] (hM : L.Mutex S)
    (H : ∀ c es v, (S.body c).Path es v → Steps (L.Discipline Sec) none es none)
    {τ : Type} {p : σ → τ} {m : τ → Event Op Ret → τ → Prop}
    (hm : ∀ t o r s s', S.step t o r s s' → m (p s) ⟨o, r⟩ (p s'))
    (hu : ∀ t o r s s', S.step t o r s s' → L.guarded o = false → p s' = p s)
    (h : S.Run cfg tr) {t : Tid} {a z : Event Op Ret} {b : List (Event Op Ret)}
    (ha : L.isLock a.op = true) (hb : ∀ e ∈ b, L.isLock e.op = false ∧ L.isUnlock e.op = false)
    (he : callEvents t tr = a :: b ++ [z]) :
    ∃ tr₀ tr₁ tr₂ tr₃ cfg₀ cfg₁, tr₁ = tr₂ ++ .act t a :: tr₀ ∧ tr = tr₃ ++ .act t z :: tr₁ ∧
      callEvents t tr₀ = [] ∧ S.Run cfg₀ tr₀ ∧ S.Run cfg₁ tr₁ ∧
      Steps m (p cfg₀.state) b (p cfg₁.state) := by
  obtain ⟨tr₁, tr₃, rfl, h₁, -⟩ := callEvents_split he
  obtain ⟨cfg₂, hrun₂⟩ := h.suffix
  obtain ⟨cfg₁, hrun₁⟩ := hrun₂.tail
  obtain ⟨tr₀, tr₂, rfl, h₀, hin⟩ := callEvents_split (show callEvents t tr₁ = [] ++ a :: b from h₁)
  have hview := (L.run_view hM H hrun₁).2 t
  rw [h₁] at hview
  have hsteps : Steps (L.Discipline Sec) none (a :: b) (some b) :=
    ⟨some [], Or.inl ⟨ha, rfl⟩, L.steps_inside (b := []) hb⟩
  have hv := steps_unique (L.discipline_functional Sec) hview hsteps
  obtain ⟨hh, hopen⟩ := L.view_eq_some hv
  obtain ⟨cfg₀, hrun₀, hs⟩ := L.open_steps hM H hm hu hrun₁ t hh
  rw [hopen] at hs
  rw [L.lockTrace_eq ha hh fun e' he' => (hb e' (hin e' he')).1] at hrun₀
  exact ⟨tr₀, _, tr₂, tr₃, cfg₀, cfg₁, rfl, rfl, h₀, hrun₀, hrun₁, hs⟩

/-- Events that need the lock happen in the sections and nowhere else. -/
theorem filter_lockedEvents [∀ o, Inhabited (Ret o)] (hM : L.Mutex S)
    (H : ∀ c es v, (S.body c).Path es v → Steps (L.Discipline Sec) none es none)
    (h : S.Run cfg tr) :
    (actEvents tr).filter (fun e => L.guarded e.op) =
        (L.lockedEvents tr).filter (fun e => L.guarded e.op) ∧
      (L.lockedEvents tr).Sublist (actEvents tr) := by
  refine L.run_induction hM H (I := fun _ tr =>
    (actEvents tr).filter (fun e => L.guarded e.op) =
        (L.lockedEvents tr).filter (fun e => L.guarded e.op) ∧
      (L.lockedEvents tr).Sublist (actEvents tr)) ?_ ?_ ?_ ?_ ?_ ?_ h
  · intro _ _
    exact ⟨rfl, List.Sublist.refl _⟩
  · intro _ _ tr l _ _ hl _ ih
    cases l with
    | act t e => exact absurd rfl (hl t e)
    | invoke t c => exact ih
    | ret t c v => exact ih
  · intro _ _ tr t e hrun _ hl hul hh ih
    obtain ⟨_, hrun'⟩ := hrun.tail
    have heq : L.lockedEvents (.act t e :: tr) = L.lockedEvents tr := by
      simp [lockedEvents, closedSections, openSection, hl, hul, L.openSection_free hM H hrun' hh]
    rw [heq, actEvents, List.filter_append, ih.1]
    exact ⟨by simp [L.lock_unguarded _ hl], ih.2.trans (List.sublist_append_left _ _)⟩
  · intro _ _ tr t e _ _ hl hul _ _ ih
    have heq : L.lockedEvents (.act t e :: tr) = L.lockedEvents tr := by
      simp [lockedEvents, closedSections, openSection, hul]
    rw [heq, actEvents, List.filter_append, ih.1]
    exact ⟨by simp [L.unlock_unguarded _ hul], ih.2.trans (List.sublist_append_left _ _)⟩
  · intro _ _ tr t e _ _ hl hul hh ih
    have heq : L.lockedEvents (.act t e :: tr) = L.lockedEvents tr ++ [e] := by
      simp [lockedEvents, closedSections, openSection, hl, hul, hh]
    rw [heq, actEvents, List.filter_append, List.filter_append, ih.1]
    exact ⟨rfl, ih.2.append (List.Sublist.refl _)⟩
  · intro _ _ tr t e _ _ hl hul hh hg ih
    have heq : L.lockedEvents (.act t e :: tr) = L.lockedEvents tr := by
      simp [lockedEvents, closedSections, openSection, hl, hul, hh]
    rw [heq, actEvents, List.filter_append, ih.1]
    exact ⟨by simp [hg], ih.2.trans (List.sublist_append_left _ _)⟩

end Runs

end LockSpec

end On9log.Lib
