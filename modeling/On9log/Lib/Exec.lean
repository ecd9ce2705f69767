import On9log.Lib.Lock

/-!
# Executing one call alone

A deterministic machine `m` answers the operations of a single thread.
`Prog.exec` runs a program on it; `System.Run.solo` says that such an execution
of a whole call is a run of the system, and `exec_of_discipline` that it only
stops early when the lock is not free.
-/

namespace On9log.Lib

variable {Tid Call Op Res σ : Type} {Ret : Op → Type} {α : Type}

/-- `none` when the machine cannot answer, else the state reached, what was
performed and the result. -/
def Prog.exec (m : σ → (o : Op) → Option (Ret o × σ)) :
    Prog Op Ret α → σ → Option (σ × List (Event Op Ret) × α)
  | .done a, s => some (s, [], a)
  | .step o k, s =>
    match m s o with
    | none => none
    | some (r, s₁) =>
      match (k r).exec m s₁ with
      | none => none
      | some (s', es, a) => some (s', ⟨o, r⟩ :: es, a)

section Exec

variable {m : σ → (o : Op) → Option (Ret o × σ)}

theorem Prog.exec_step {o : Op} {k : Ret o → Prog Op Ret α} {s s' : σ}
    {es : List (Event Op Ret)} {a : α} (h : (Prog.step o k).exec m s = some (s', es, a)) :
    ∃ r s₁ es₁, m s o = some (r, s₁) ∧ (k r).exec m s₁ = some (s', es₁, a) ∧
      es = ⟨o, r⟩ :: es₁ := by
  unfold Prog.exec at h
  split at h
  · cases h
  · rename_i r s₁ hm
    split at h
    · cases h
    · rename_i s₂ es₁ b hk
      simp only [Option.some.injEq, Prod.mk.injEq] at h
      obtain ⟨rfl, rfl, rfl⟩ := h
      exact ⟨r, s₁, es₁, hm, hk, rfl⟩

variable {S : System Tid Call Op Ret Res σ} {t : Tid}

theorem Prog.exec_path {p : Prog Op Ret α} {s s' : σ} {es : List (Event Op Ret)} {v : α}
    (hx : p.exec m s = some (s', es, v)) : p.Path es v := by
  induction p generalizing s es with
  | done a =>
    simp only [Prog.exec, Option.some.injEq, Prod.mk.injEq] at hx
    obtain ⟨-, rfl, rfl⟩ := hx
    exact (Prog.path_done _ _ _).mpr ⟨rfl, rfl⟩
  | step o k ih =>
    obtain ⟨r, s₁, es₁, -, h₂, rfl⟩ := Prog.exec_step hx
    exact (Prog.path_step _ _ _ _).mpr ⟨r, es₁, rfl, ih r h₂⟩

/-- Every answer was given by the machine. -/
theorem Prog.exec_answers {p : Prog Op Ret α} {s s' : σ} {es : List (Event Op Ret)} {v : α}
    (hx : p.exec m s = some (s', es, v)) {e : Event Op Ret} (he : e ∈ es) :
    ∃ s₁ s₂, m s₁ e.op = some (e.ret, s₂) := by
  induction p generalizing s es with
  | done a =>
    simp only [Prog.exec, Option.some.injEq, Prod.mk.injEq] at hx
    obtain ⟨-, rfl, -⟩ := hx
    cases he
  | step o k ih =>
    obtain ⟨r, s₁, es₁, h₁, h₂, rfl⟩ := Prog.exec_step hx
    rcases List.mem_cons.mp he with rfl | he
    · exact ⟨s, s₁, h₁⟩
    · exact ih r h₂ he

/-- A call that finds the lock free runs to its end if the machine answers
everything but a second lock. -/
theorem LockSpec.exec_of_discipline [∀ o, Inhabited (Ret o)] (L : LockSpec Tid Op σ)
    {Sec : List (Event Op Ret) → Prop} (hM : L.Mutex S)
    (hm : ∀ s o r s', m s o = some (r, s') → S.step t o r s s')
    (hans : ∀ s o, m s o = none → L.isLock o = true ∧ L.owner s ≠ none)
    {p : Prog Op Ret α} {g : Option (List (Event Op Ret))} {s : σ}
    (hp : ∀ es v, p.Path es v → Steps (L.Discipline Sec) g es none)
    (hg : g = none → L.owner s = none) : ∃ s' es v, p.exec m s = some (s', es, v) := by
  induction p generalizing g s with
  | done a => exact ⟨s, [], a, rfl⟩
  | step o k ih =>
    have hstep : ∀ r, ∃ g₁, L.Discipline Sec g ⟨o, r⟩ g₁ ∧
        ∀ es v, (k r).Path es v → Steps (L.Discipline Sec) g₁ es none := by
      intro r
      obtain ⟨es, v, hk⟩ := Prog.exists_path (k r)
      obtain ⟨g₁, hd, -⟩ := hp _ v ((Prog.path_step _ _ _ _).mpr ⟨r, es, rfl, hk⟩)
      refine ⟨g₁, hd, fun es' v' hk' => ?_⟩
      obtain ⟨g₂, hd', hs⟩ := hp _ v' ((Prog.path_step _ _ _ _).mpr ⟨r, es', rfl, hk'⟩)
      rw [L.discipline_functional Sec g _ _ _ hd hd']
      exact hs
    cases hmo : m s o with
    | none =>
      obtain ⟨hl, hown⟩ := hans s o hmo
      obtain ⟨g₁, hd, -⟩ := hstep default
      cases g with
      | none => exact absurd (hg rfl) hown
      | some b =>
        rcases hd with ⟨hu, -⟩ | ⟨-, hl', -⟩
        · have hul := L.lock_ne_unlock o hl
          exact absurd hu (by simp [hul])
        · exact absurd hl (by simp [hl'])
    | some rs =>
      obtain ⟨r, s₁⟩ := rs
      obtain ⟨g₁, hd, hk⟩ := hstep r
      have hms := hm s o r s₁ hmo
      have hg₁ : g₁ = none → L.owner s₁ = none := by
        intro hn
        subst hn
        cases g with
        | none =>
          rcases hd with ⟨-, h⟩ | ⟨hl, hu, -⟩
          · cases h
          · rw [hM.other t o r s s₁ hms hl hu]
            exact hg rfl
        | some b =>
          rcases hd with ⟨hu, -⟩ | ⟨-, -, h⟩
          · exact hM.unlock t o r s s₁ hms hu
          · cases h
      obtain ⟨s', es, v, hx⟩ := ih r hk hg₁
      refine ⟨s', ⟨o, r⟩ :: es, v, ?_⟩
      simp only [Prog.exec, hmo, hx]

variable [DecidableEq Tid] {cfg : Config Tid Call Op Ret Res σ}
  {tr : List (Label Tid Call Op Ret Res)}

theorem System.Run.exec (hm : ∀ s o r s', m s o = some (r, s') → S.step t o r s s') {c : Call}
    {p : Prog Op Ret Res} {s' : σ} {es : List (Event Op Ret)} {v : Res} (h : S.Run cfg tr)
    (ht : cfg.thread t = some (c, p)) (hx : p.exec m cfg.state = some (s', es, v)) :
    S.Run ⟨s', Function.update cfg.thread t (some (c, .done v))⟩
      ((es.map fun e => Label.act t e).reverse ++ tr) := by
  induction p generalizing cfg tr es with
  | done a =>
    simp only [Prog.exec, Option.some.injEq, Prod.mk.injEq] at hx
    obtain ⟨rfl, rfl, rfl⟩ := hx
    rw [← ht, Function.update_eq_self]
    exact h
  | step o k ih =>
    obtain ⟨r, s₁, es₁, h₁, h₂, rfl⟩ := Prog.exec_step hx
    have hrun := System.Run.act t c o k r s₁ h ht (hm _ _ _ _ h₁)
    have hfin := ih r hrun (Function.update_self ..) h₂
    simpa using hfin

theorem System.Run.solo (hm : ∀ s o r s', m s o = some (r, s') → S.step t o r s s') {c : Call}
    {s' : σ} {es : List (Event Op Ret)} {v : Res} (h : S.Run cfg tr) (ht : cfg.thread t = none)
    (hx : (S.body c).exec m cfg.state = some (s', es, v)) :
    S.Run ⟨s', cfg.thread⟩
      (.ret t c v :: ((es.map fun e => Label.act t e).reverse ++ .invoke t c :: tr)) := by
  have h₁ := (System.Run.invoke t c h ht).exec hm (Function.update_self ..) hx
  have h₂ := System.Run.ret t c v h₁ (Function.update_self ..)
  have hthread : Function.update cfg.thread t none = cfg.thread := by
    rw [← ht, Function.update_eq_self]
  simpa [hthread] using h₂

end Exec

/-! ### Executing a schedule -/

/-- One entry of a schedule: a thread calls, performs some operations or returns. -/
inductive Turn (Tid Call : Type) where
  | invoke (t : Tid) (c : Call)
  | perform (t : Tid) (n : ℕ)
  | ret (t : Tid)

variable [DecidableEq Tid] (S : System Tid Call Op Ret Res σ)
  (m : Tid → σ → (o : Op) → Option (Ret o × σ))

/-- The configuration a run has reached and its trace. -/
abbrev Point (Tid Call Op : Type) (Ret : Op → Type) (Res σ : Type) :=
  Config Tid Call Op Ret Res σ × List (Label Tid Call Op Ret Res)

def System.performOne (t : Tid) (p : Point Tid Call Op Ret Res σ) :
    Option (Point Tid Call Op Ret Res σ) :=
  match p.1.thread t with
  | some (c, .step o k) =>
    (m t p.1.state o).map fun rs =>
      (⟨rs.2, Function.update p.1.thread t (some (c, k rs.1))⟩, .act t ⟨o, rs.1⟩ :: p.2)
  | _ => none

def System.performMany (t : Tid) : ℕ → Point Tid Call Op Ret Res σ →
    Option (Point Tid Call Op Ret Res σ)
  | 0, p => some p
  | n + 1, p => (System.performOne m t p).bind (System.performMany t n)

def System.turn (p : Point Tid Call Op Ret Res σ) :
    Turn Tid Call → Option (Point Tid Call Op Ret Res σ)
  | .invoke t c =>
    if (p.1.thread t).isNone then
      some (⟨p.1.state, Function.update p.1.thread t (some (c, S.body c))⟩, .invoke t c :: p.2)
    else none
  | .perform t n => System.performMany m t n p
  | .ret t =>
    match p.1.thread t with
    | some (c, .done v) => some (⟨p.1.state, Function.update p.1.thread t none⟩, .ret t c v :: p.2)
    | _ => none

def System.schedule (turns : List (Turn Tid Call)) : Option (Point Tid Call Op Ret Res σ) :=
  turns.foldlM (System.turn S m) (⟨S.init, fun _ => none⟩, [])

variable {S m} (hm : ∀ t s o r s', m t s o = some (r, s') → S.step t o r s s')

section Schedule

variable {p q : Point Tid Call Op Ret Res σ}

include hm in
theorem System.Run.performOne {t : Tid} (h : S.Run p.1 p.2)
    (hp : System.performOne m t p = some q) : S.Run q.1 q.2 := by
  unfold System.performOne at hp
  split at hp
  · rename_i c o k ht
    obtain ⟨⟨r, s'⟩, hr, rfl⟩ := Option.map_eq_some_iff.mp hp
    exact .act t c o k r s' h ht (hm t _ o r s' hr)
  · cases hp

include hm in
theorem System.Run.performMany {t : Tid} {n : ℕ} (h : S.Run p.1 p.2)
    (hp : System.performMany m t n p = some q) : S.Run q.1 q.2 := by
  induction n generalizing p with
  | zero =>
    cases hp
    exact h
  | succ n ih =>
    obtain ⟨p₁, h₁, h₂⟩ := Option.bind_eq_some_iff.mp hp
    exact ih (h.performOne hm h₁) h₂

include hm in
theorem System.Run.turn {a : Turn Tid Call} (h : S.Run p.1 p.2)
    (hp : System.turn S m p a = some q) : S.Run q.1 q.2 := by
  cases a with
  | invoke t c =>
    simp only [System.turn] at hp
    split at hp
    · rename_i ht
      cases hp
      exact .invoke t c h (Option.isNone_iff_eq_none.mp ht)
    · cases hp
  | perform t n => exact h.performMany hm hp
  | ret t =>
    simp only [System.turn] at hp
    split at hp
    · rename_i c v ht
      cases hp
      exact .ret t c v h ht
    · cases hp

include hm in
/-- A schedule that the machine can follow to its end is a run. -/
theorem System.run_schedule {turns : List (Turn Tid Call)}
    (hp : System.schedule S m turns = some q) : S.Run q.1 q.2 := by
  suffices ∀ p : Point Tid Call Op Ret Res σ, S.Run p.1 p.2 →
      turns.foldlM (System.turn S m) p = some q → S.Run q.1 q.2 from this _ .init hp
  clear hp
  induction turns with
  | nil =>
    intro p h hp
    cases hp
    exact h
  | cons a turns ih =>
    intro p h hp
    obtain ⟨p₁, h₁, h₂⟩ := Option.bind_eq_some_iff.mp hp
    exact ih p₁ (h.turn hm h₁) h₂

omit hm

/-- The calls of a thread in a schedule. -/
def callsIn (t : Tid) (turns : List (Turn Tid Call)) : List Call :=
  turns.filterMap fun a => match a with
    | .invoke u c => if u = t then some c else none
    | _ => none

/-- All answers in a trace were given by the machine. -/
def Answered (m : Tid → σ → (o : Op) → Option (Ret o × σ)) (tr : List (Label Tid Call Op Ret Res)) :
    Prop :=
  ∀ t e, .act t e ∈ tr → ∃ s s', m t s e.op = some (e.ret, s')

/-- `q` is reached from `p` by operations the machine answered. -/
def Performed (m : Tid → σ → (o : Op) → Option (Ret o × σ)) (p q : Point Tid Call Op Ret Res σ) :
    Prop :=
  (∀ t, callsOf t q.2 = callsOf t p.2) ∧ (Answered m p.2 → Answered m q.2)

theorem performed_one {t : Tid} (hp : System.performOne m t p = some q) : Performed m p q := by
  unfold System.performOne at hp
  split at hp
  · obtain ⟨⟨r, s'⟩, hr, rfl⟩ := Option.map_eq_some_iff.mp hp
    refine ⟨fun _ => rfl, fun ha u e he => ?_⟩
    rcases List.mem_cons.mp he with he | he
    · cases he
      exact ⟨_, _, hr⟩
    · exact ha u e he
  · cases hp

theorem performed_many {t : Tid} {n : ℕ} (hp : System.performMany m t n p = some q) :
    Performed m p q := by
  induction n generalizing p with
  | zero =>
    cases hp
    exact ⟨fun _ => rfl, id⟩
  | succ n ih =>
    obtain ⟨p₁, h₁, h₂⟩ := Option.bind_eq_some_iff.mp hp
    obtain ⟨hc₁, ha₁⟩ := performed_one h₁
    obtain ⟨hc₂, ha₂⟩ := ih h₂
    exact ⟨fun t => (hc₂ t).trans (hc₁ t), fun ha => ha₂ (ha₁ ha)⟩

theorem turn_calls {a : Turn Tid Call} (hp : System.turn S m p a = some q) :
    (∀ t, callsOf t q.2 = callsOf t p.2 ++ callsIn t [a]) ∧ (Answered m p.2 → Answered m q.2) := by
  have hskip : ∀ l : Label Tid Call Op Ret Res, (∀ t e, l ≠ .act t e) →
      Answered m p.2 → Answered m (l :: p.2) := by
    intro l hl ha u e he
    rcases List.mem_cons.mp he with he | he
    · exact absurd he.symm (hl u e)
    · exact ha u e he
  cases a with
  | invoke t c =>
    simp only [System.turn] at hp
    split at hp
    · cases hp
      refine ⟨fun u => ?_, hskip _ (by simp)⟩
      by_cases hut : t = u <;> simp [callsOf, callsIn, hut]
    · cases hp
  | perform t n =>
    obtain ⟨hc, ha⟩ := performed_many hp
    exact ⟨fun u => by simp [hc u, callsIn], ha⟩
  | ret t =>
    simp only [System.turn] at hp
    split at hp
    · cases hp
      exact ⟨fun u => by simp [callsOf, callsIn], hskip _ (by simp)⟩
    · cases hp

/-- The calls and the answers in the trace of a schedule. -/
theorem schedule_calls {turns : List (Turn Tid Call)} (hp : System.schedule S m turns = some q) :
    (∀ t, callsOf t q.2 = callsIn t turns) ∧ Answered m q.2 := by
  suffices ∀ p : Point Tid Call Op Ret Res σ, turns.foldlM (System.turn S m) p = some q →
      (∀ t, callsOf t q.2 = callsOf t p.2 ++ callsIn t turns) ∧
        (Answered m p.2 → Answered m q.2) by
    obtain ⟨hc, ha⟩ := this _ hp
    exact ⟨hc, ha fun t e he => absurd he List.not_mem_nil⟩
  clear hp
  induction turns with
  | nil =>
    intro p hp
    cases hp
    exact ⟨fun t => (List.append_nil _).symm, id⟩
  | cons a turns ih =>
    intro p hp
    obtain ⟨p₁, h₁, h₂⟩ := Option.bind_eq_some_iff.mp hp
    obtain ⟨hc₁, ha₁⟩ := turn_calls h₁
    obtain ⟨hc₂, ha₂⟩ := ih p₁ h₂
    refine ⟨fun t => ?_, fun ha => ha₂ (ha₁ ha)⟩
    have hsplit : callsIn t ([a] ++ turns) = callsIn t [a] ++ callsIn t turns :=
      List.filterMap_append
    rw [List.singleton_append] at hsplit
    rw [hc₂ t, hc₁ t, hsplit, List.append_assoc]

end Schedule

end On9log.Lib
