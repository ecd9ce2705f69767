import On9log.Lib.Prog

/-!
# Interleaved runs of threads

A system has a shared state, a program for every call and a rule that says
which answers an operation may get. Any idle thread may invoke any call at any
time; a running thread performs one operation a step, and any number of threads
interleave. A run records its trace, newest label first.

A protocol is a relation `m : G → Event → G → Prop` on the view `G` one thread
has of its own progress. If every complete path of every call goes from the
idle view to the idle view, each thread of each run has a view, and
`System.Run.invariant` proves an invariant of the shared state, the trace and
all views from one obligation for each kind of label.
-/

namespace On9log.Lib

variable {Tid Call Op Res σ G : Type} {Ret : Op → Type}

/-- Shared state, call bodies, and the answers a thread may get in a state. -/
structure System (Tid Call Op : Type) (Ret : Op → Type) (Res σ : Type) where
  body : Call → Prog Op Ret Res
  step : Tid → (o : Op) → Ret o → σ → σ → Prop
  init : σ

inductive Label (Tid Call Op : Type) (Ret : Op → Type) (Res : Type) where
  | invoke (t : Tid) (c : Call)
  | act (t : Tid) (e : Event Op Ret)
  | ret (t : Tid) (c : Call) (v : Res)

structure Config (Tid Call Op : Type) (Ret : Op → Type) (Res σ : Type) where
  state : σ
  thread : Tid → Option (Call × Prog Op Ret Res)

variable [DecidableEq Tid]

/-- `S.Run cfg tr`: the system can be in `cfg` after the labels `tr`. -/
inductive System.Run (S : System Tid Call Op Ret Res σ) :
    Config Tid Call Op Ret Res σ → List (Label Tid Call Op Ret Res) → Prop
  | init : S.Run ⟨S.init, fun _ => none⟩ []
  | invoke {cfg tr} (t : Tid) (c : Call) : S.Run cfg tr → cfg.thread t = none →
      S.Run ⟨cfg.state, Function.update cfg.thread t (some (c, S.body c))⟩ (.invoke t c :: tr)
  | act {cfg tr} (t : Tid) (c : Call) (o : Op) (k : Ret o → Prog Op Ret Res) (r : Ret o)
      (s' : σ) : S.Run cfg tr → cfg.thread t = some (c, .step o k) →
      S.step t o r cfg.state s' →
      S.Run ⟨s', Function.update cfg.thread t (some (c, k r))⟩ (.act t ⟨o, r⟩ :: tr)
  | ret {cfg tr} (t : Tid) (c : Call) (v : Res) : S.Run cfg tr →
      cfg.thread t = some (c, .done v) →
      S.Run ⟨cfg.state, Function.update cfg.thread t none⟩ (.ret t c v :: tr)

/-- What thread `t` has performed in its current call, oldest first. -/
def callEvents (t : Tid) : List (Label Tid Call Op Ret Res) → List (Event Op Ret)
  | [] => []
  | .invoke u _ :: tr => if u = t then [] else callEvents t tr
  | .act u e :: tr => if u = t then callEvents t tr ++ [e] else callEvents t tr
  | .ret u _ _ :: tr => if u = t then [] else callEvents t tr

/-- Everything thread `t` has performed, oldest first. -/
def threadEvents (t : Tid) : List (Label Tid Call Op Ret Res) → List (Event Op Ret)
  | [] => []
  | .act u e :: tr => if u = t then threadEvents t tr ++ [e] else threadEvents t tr
  | .invoke _ _ :: tr => threadEvents t tr
  | .ret _ _ _ :: tr => threadEvents t tr

/-- The calls thread `t` has made, oldest first. -/
def callsOf (t : Tid) : List (Label Tid Call Op Ret Res) → List Call
  | [] => []
  | .invoke u c :: tr => if u = t then callsOf t tr ++ [c] else callsOf t tr
  | .act _ _ :: tr => callsOf t tr
  | .ret _ _ _ :: tr => callsOf t tr

/-- The call thread `t` is in. -/
def runningCall (t : Tid) : List (Label Tid Call Op Ret Res) → Option Call
  | [] => none
  | .invoke u c :: tr => if u = t then some c else runningCall t tr
  | .act _ _ :: tr => runningCall t tr
  | .ret u _ _ :: tr => if u = t then none else runningCall t tr

theorem mem_callsOf_of_running {t : Tid} {c : Call} {tr₁ tr : List (Label Tid Call Op Ret Res)}
    (hsuffix : tr₁ <:+ tr) (h : runningCall t tr₁ = some c) : c ∈ callsOf t tr := by
  obtain ⟨tr₂, rfl⟩ := hsuffix
  induction tr₂ with
  | nil =>
    rw [List.nil_append]
    induction tr₁ with
    | nil => cases h
    | cons l tr₁ ih =>
      cases l with
      | invoke u d =>
        by_cases hut : u = t
        · simp only [runningCall, if_pos hut, Option.some.injEq] at h
          simp [callsOf, hut, h]
        · simp only [runningCall, if_neg hut] at h
          simpa [callsOf, hut] using ih h
      | act u e => exact ih h
      | ret u d v =>
        by_cases hut : u = t
        · simp [runningCall, hut] at h
        · simp only [runningCall, if_neg hut] at h
          exact ih h
  | cons l tr₂ ih =>
    cases l with
    | invoke u d =>
      by_cases hut : u = t
      · simp only [List.cons_append, callsOf, if_pos hut]
        exact List.mem_append_left _ ih
      · simpa [callsOf, hut] using ih
    | act u e => exact ih
    | ret u d v => exact ih

/-- Everything performed so far by all threads, oldest first. -/
def actEvents : List (Label Tid Call Op Ret Res) → List (Event Op Ret)
  | [] => []
  | .act _ e :: tr => actEvents tr ++ [e]
  | .invoke _ _ :: tr => actEvents tr
  | .ret _ _ _ :: tr => actEvents tr

omit [DecidableEq Tid] in
theorem actEvents_append (tr₂ tr₁ : List (Label Tid Call Op Ret Res)) :
    actEvents (tr₂ ++ tr₁) = actEvents tr₁ ++ actEvents tr₂ := by
  induction tr₂ with
  | nil => simp [actEvents]
  | cons l tr₂ ih => cases l <;> simp [actEvents, ih]

omit [DecidableEq Tid] in
theorem mem_actEvents_of_act {tr : List (Label Tid Call Op Ret Res)} {t : Tid}
    {e : Event Op Ret} (h : .act t e ∈ tr) : e ∈ actEvents tr := by
  obtain ⟨tr₂, tr₁, rfl⟩ := List.append_of_mem h
  rw [actEvents_append]
  exact List.mem_append_left _ (List.mem_append_right _ (List.mem_singleton_self e))

omit [DecidableEq Tid] in
theorem act_of_mem_actEvents {tr : List (Label Tid Call Op Ret Res)} {e : Event Op Ret}
    (h : e ∈ actEvents tr) : ∃ t, .act t e ∈ tr := by
  induction tr with
  | nil => cases h
  | cons l tr ih =>
    have tail : e ∈ actEvents tr → ∃ t, .act t e ∈ l :: tr := fun h => by
      obtain ⟨t, ht⟩ := ih h
      exact ⟨t, List.mem_cons_of_mem _ ht⟩
    cases l with
    | invoke t c => exact tail h
    | ret t c v => exact tail h
    | act t e' =>
      rcases List.mem_append.mp h with h | h
      · exact tail h
      · rw [List.mem_singleton.mp h]
        exact ⟨t, List.mem_cons_self ..⟩

theorem act_of_mem_threadEvents {tr : List (Label Tid Call Op Ret Res)} {t : Tid}
    {e : Event Op Ret} (h : e ∈ threadEvents t tr) : .act t e ∈ tr := by
  induction tr with
  | nil => cases h
  | cons l tr ih =>
    cases l with
    | invoke u c => exact List.mem_cons_of_mem _ (ih h)
    | ret u c v => exact List.mem_cons_of_mem _ (ih h)
    | act u e' =>
      by_cases hut : u = t
      · subst hut
        rw [threadEvents, if_pos rfl] at h
        rcases List.mem_append.mp h with h | h
        · exact List.mem_cons_of_mem _ (ih h)
        · rw [List.mem_singleton.mp h]
          exact List.mem_cons_self ..
      · rw [threadEvents, if_neg hut] at h
        exact List.mem_cons_of_mem _ (ih h)

/-- Where in the run a thread performed an event of its current call. -/
theorem callEvents_split {t : Tid} {tr : List (Label Tid Call Op Ret Res)}
    {es₁ es₂ : List (Event Op Ret)} {e : Event Op Ret}
    (h : callEvents t tr = es₁ ++ e :: es₂) :
    ∃ tr₁ tr₂, tr = tr₂ ++ .act t e :: tr₁ ∧ callEvents t tr₁ = es₁ ∧
      ∀ e', .act t e' ∈ tr₂ → e' ∈ es₂ := by
  induction tr generalizing es₂ with
  | nil => simp [callEvents] at h
  | cons l tr ih =>
    have other : callEvents t tr = es₁ ++ e :: es₂ → (∀ e', l ≠ .act t e') →
        ∃ tr₁ tr₂, l :: tr = tr₂ ++ .act t e :: tr₁ ∧ callEvents t tr₁ = es₁ ∧
          ∀ e', .act t e' ∈ tr₂ → e' ∈ es₂ := by
      intro h hl
      obtain ⟨tr₁, tr₂, rfl, h₁, h₂⟩ := ih h
      refine ⟨tr₁, l :: tr₂, rfl, h₁, fun e' he' => ?_⟩
      rcases List.mem_cons.mp he' with he' | he'
      · exact absurd he'.symm (hl e')
      · exact h₂ e' he'
    cases l with
    | invoke u c =>
      by_cases hu : u = t
      · simp [callEvents, hu] at h
      · exact other (by simpa [callEvents, hu] using h) (by simp)
    | ret u c v =>
      by_cases hu : u = t
      · simp [callEvents, hu] at h
      · exact other (by simpa [callEvents, hu] using h) (by simp)
    | act u e' =>
      by_cases hu : u = t
      · subst hu
        simp only [callEvents, if_pos] at h
        rcases List.eq_nil_or_concat' es₂ with rfl | ⟨es₃, last, rfl⟩
        · obtain ⟨hes, he⟩ := List.append_inj' h rfl
          cases he
          exact ⟨tr, [], rfl, hes, by simp⟩
        · rw [← List.cons_append, ← List.append_assoc] at h
          obtain ⟨hes, he⟩ := List.append_inj' h rfl
          cases he
          obtain ⟨tr₁, tr₂, rfl, h₁, h₂⟩ := ih hes
          refine ⟨tr₁, .act u e' :: tr₂, rfl, h₁, fun e₁ he₁ => ?_⟩
          rcases List.mem_cons.mp he₁ with he₁ | he₁
          · cases he₁
            simp
          · exact List.mem_append_left _ (h₂ e₁ he₁)
      · refine other (by simpa [callEvents, hu] using h) fun e₁ he₁ => hu ?_
        cases he₁
        rfl

namespace System.Run

variable {S : System Tid Call Op Ret Res σ} {cfg : Config Tid Call Op Ret Res σ}
  {tr : List (Label Tid Call Op Ret Res)} {l : Label Tid Call Op Ret Res}

theorem tail (h : S.Run cfg (l :: tr)) : ∃ cfg', S.Run cfg' tr := by
  cases h with
  | invoke t c h _ => exact ⟨_, h⟩
  | act t c o k r s' h _ _ => exact ⟨_, h⟩
  | ret t c v h _ => exact ⟨_, h⟩

theorem suffix {tr' : List (Label Tid Call Op Ret Res)} (h : S.Run cfg (tr' ++ tr)) :
    ∃ cfg', S.Run cfg' tr := by
  induction tr' generalizing cfg with
  | nil => exact ⟨cfg, h⟩
  | cons l tr' ih =>
    obtain ⟨cfg', h'⟩ := h.tail
    exact ih h'

/-- A running thread is where its call's program is after its own events. -/
theorem thread (h : S.Run cfg tr) (t : Tid) :
    (cfg.thread t = none → callEvents t tr = []) ∧
      ∀ c p, cfg.thread t = some (c, p) → (S.body c).Reach (callEvents t tr) p := by
  induction h with
  | init => simp [callEvents]
  | invoke u c _ hu ih =>
    by_cases hut : u = t
    · subst hut
      refine ⟨by simp, ?_⟩
      intro c' p hp
      simp only [Function.update_self, Option.some.injEq, Prod.mk.injEq] at hp
      obtain ⟨rfl, rfl⟩ := hp
      simpa [callEvents] using Prog.reach_nil (S.body c)
    · simpa [callEvents, hut, Function.update_of_ne (Ne.symm hut)] using ih
  | act u c o k r s' _ hu _ ih =>
    by_cases hut : u = t
    · subst hut
      refine ⟨by simp, ?_⟩
      intro c' p hp
      simp only [Function.update_self, Option.some.injEq, Prod.mk.injEq] at hp
      obtain ⟨rfl, rfl⟩ := hp
      simp only [callEvents, if_pos]
      exact Prog.reach_snoc rfl (ih.2 _ _ hu) r
    · simpa [callEvents, hut, Function.update_of_ne (Ne.symm hut)] using ih
  | ret u c v _ hu ih =>
    by_cases hut : u = t
    · subst hut
      simp [callEvents]
    · simpa [callEvents, hut, Function.update_of_ne (Ne.symm hut)] using ih

theorem runningCall_eq (h : S.Run cfg tr) (t : Tid) :
    runningCall t tr = (cfg.thread t).map Prod.fst := by
  induction h with
  | init => rfl
  | invoke u c _ hu ih =>
    by_cases hut : u = t
    · subst hut
      simp [runningCall]
    · simpa [runningCall, hut, Function.update_of_ne (Ne.symm hut)] using ih
  | act u c o k r s' _ hu _ ih =>
    by_cases hut : u = t
    · subst hut
      simpa [runningCall, hu] using ih
    · simpa [runningCall, Function.update_of_ne (Ne.symm hut)] using ih
  | ret u c v _ hu ih =>
    by_cases hut : u = t
    · subst hut
      simp [runningCall]
    · simpa [runningCall, hut, Function.update_of_ne (Ne.symm hut)] using ih

theorem ret_path {t : Tid} {c : Call} {v : Res} (h : S.Run cfg (.ret t c v :: tr)) :
    (S.body c).Path (callEvents t tr) v := by
  cases h with
  | ret _ _ _ h hu => exact Prog.path_of_reach_done ((h.thread t).2 _ _ hu)

theorem callEvents_reach (h : S.Run cfg tr) (t : Tid) :
    callEvents t tr = [] ∨ ∃ c q, (S.body c).Reach (callEvents t tr) q := by
  cases ht : cfg.thread t with
  | none => exact Or.inl ((h.thread t).1 ht)
  | some cp => exact Or.inr ⟨cp.1, cp.2, (h.thread t).2 cp.1 cp.2 ht⟩

/-- A thread has performed the calls it returned from, each from beginning to
end, and then what it has done of its current call. -/
theorem history (h : S.Run cfg tr) (t : Tid) :
    ∃ done : List (Call × List (Event Op Ret)),
      threadEvents t tr = done.flatMap Prod.snd ++ callEvents t tr ∧
      callsOf t tr = done.map Prod.fst ++ (cfg.thread t).toList.map Prod.fst ∧
      ∀ p ∈ done, ∃ v, (S.body p.1).Path p.2 v := by
  induction h with
  | init => exact ⟨[], rfl, rfl, by simp⟩
  | @invoke cfg tr u c hrun hu ih =>
    obtain ⟨done, hev, hcalls, hdone⟩ := ih
    refine ⟨done, ?_, ?_, hdone⟩
    · by_cases hut : u = t
      · subst hut
        have hidle := (hrun.thread u).1 hu
        simpa [threadEvents, callEvents, hidle] using hev
      · simpa [threadEvents, callEvents, hut] using hev
    · by_cases hut : u = t
      · subst hut
        simpa [callsOf, hu] using hcalls
      · simpa [callsOf, hut, Function.update_of_ne (Ne.symm hut)] using hcalls
  | @act cfg tr u c o k r s' hrun hu hs ih =>
    obtain ⟨done, hev, hcalls, hdone⟩ := ih
    refine ⟨done, ?_, ?_, hdone⟩
    · by_cases hut : u = t
      · simp [threadEvents, callEvents, hut, hev]
      · simpa [threadEvents, callEvents, hut] using hev
    · by_cases hut : u = t
      · subst hut
        simpa [callsOf, hu] using hcalls
      · simpa [callsOf, Function.update_of_ne (Ne.symm hut)] using hcalls
  | @ret cfg tr u c v hrun hu ih =>
    obtain ⟨done, hev, hcalls, hdone⟩ := ih
    by_cases hut : u = t
    · subst hut
      refine ⟨done ++ [(c, callEvents u tr)], ?_, ?_, fun p hp => ?_⟩
      · simpa [threadEvents, callEvents] using hev
      · simpa [callsOf, hu] using hcalls
      · rcases List.mem_append.mp hp with hp | hp
        · exact hdone p hp
        · rw [List.mem_singleton.mp hp]
          exact ⟨v, Prog.path_of_reach_done ((hrun.thread u).2 _ _ hu)⟩
    · refine ⟨done, ?_, ?_, hdone⟩
      · simpa [threadEvents, callEvents, hut] using hev
      · simpa [callsOf, Function.update_of_ne (Ne.symm hut)] using hcalls

/-- A thread back from its only call. -/
theorem only_call (h : S.Run cfg tr) {t : Tid} {c : Call} (hc : callsOf t tr = [c])
    (ht : cfg.thread t = none) : ∃ v, (S.body c).Path (threadEvents t tr) v := by
  obtain ⟨done, hev, hcalls, hdone⟩ := h.history t
  rw [(h.thread t).1 ht, List.append_nil] at hev
  rw [ht, hc] at hcalls
  simp only [Option.toList_none, List.map_nil, List.append_nil] at hcalls
  obtain ⟨p, rfl, hp⟩ := List.map_eq_singleton_iff.mp hcalls.symm
  obtain ⟨v, hv⟩ := hdone p (List.mem_singleton_self p)
  rw [hev, ← hp]
  exact ⟨v, by simpa using hv⟩

/-- Every event of a thread belongs to a complete execution of one of its calls. -/
theorem mem_threadEvents [∀ o, Inhabited (Ret o)] (h : S.Run cfg tr) {t : Tid}
    {e : Event Op Ret} (he : e ∈ threadEvents t tr) :
    ∃ c ∈ callsOf t tr, ∃ es v, (S.body c).Path es v ∧ e ∈ es := by
  obtain ⟨done, hev, hcalls, hdone⟩ := h.history t
  rw [hev] at he
  rw [hcalls]
  rcases List.mem_append.mp he with he | he
  · obtain ⟨p, hp, hmem⟩ := List.mem_flatMap.mp he
    obtain ⟨v, hv⟩ := hdone p hp
    exact ⟨p.1, List.mem_append_left _ (List.mem_map_of_mem hp), p.2, v, hv, hmem⟩
  · cases ht : cfg.thread t with
    | none =>
      rw [(h.thread t).1 ht] at he
      cases he
    | some cp =>
      obtain ⟨es, v, hp⟩ := Prog.reach_extends ((h.thread t).2 cp.1 cp.2 ht)
      exact ⟨cp.1, List.mem_append_right _ (by simp), _, v, hp, List.mem_append_left _ he⟩

/-- Every event of a run belongs to a complete execution of some call. -/
theorem mem_actEvents [∀ o, Inhabited (Ret o)] (h : S.Run cfg tr) {e : Event Op Ret}
    (he : e ∈ actEvents tr) : ∃ c es v, (S.body c).Path es v ∧ e ∈ es := by
  induction h with
  | init => cases he
  | invoke t c _ _ ih => exact ih he
  | ret t c v _ _ ih => exact ih he
  | act t c o k r s' h ht _ ih =>
    rcases List.mem_append.mp he with he | he
    · exact ih he
    · rw [List.mem_singleton.mp he]
      obtain ⟨es, v, hp⟩ := Prog.reach_extends (Prog.reach_snoc rfl ((h.thread t).2 _ _ ht) r)
      refine ⟨c, _, v, hp, ?_⟩
      simp

end System.Run

/-! ### Protocols -/

def Steps (m : G → Event Op Ret → G → Prop) : G → List (Event Op Ret) → G → Prop
  | g, [], g' => g' = g
  | g, e :: es, g' => ∃ g₁, m g e g₁ ∧ Steps m g₁ es g'

theorem steps_append {m : G → Event Op Ret → G → Prop} {g g' : G}
    {es₁ es₂ : List (Event Op Ret)} :
    Steps m g (es₁ ++ es₂) g' ↔ ∃ g₁, Steps m g es₁ g₁ ∧ Steps m g₁ es₂ g' := by
  induction es₁ generalizing g with
  | nil => simp [Steps]
  | cons e es₁ ih =>
    simp only [List.cons_append, Steps, ih]
    constructor
    · rintro ⟨g₁, h, g₂, h₁, h₂⟩
      exact ⟨g₂, ⟨g₁, h, h₁⟩, h₂⟩
    · rintro ⟨g₂, ⟨g₁, h, h₁⟩, h₂⟩
      exact ⟨g₁, h, g₂, h₁, h₂⟩

def Functional (m : G → Event Op Ret → G → Prop) : Prop :=
  ∀ g e g₁ g₂, m g e g₁ → m g e g₂ → g₁ = g₂

theorem steps_unique {m : G → Event Op Ret → G → Prop} (hm : Functional m) {g g₁ g₂ : G}
    {es : List (Event Op Ret)} (h₁ : Steps m g es g₁) (h₂ : Steps m g es g₂) : g₁ = g₂ := by
  induction es generalizing g with
  | nil => exact h₁.trans h₂.symm
  | cons e es ih =>
    obtain ⟨a, ha, h₁⟩ := h₁
    obtain ⟨b, hb, h₂⟩ := h₂
    rw [hm g e a b ha hb] at h₁
    exact ih h₁ h₂

/-- Every operation is answered in every state. -/
def Total (m : G → Event Op Ret → G → Prop) : Prop := ∀ g o, ∃ r g', m g ⟨o, r⟩ g'

theorem exists_path_steps {α : Type} {m : G → Event Op Ret → G → Prop} (hm : Total m)
    (p : Prog Op Ret α) (g : G) : ∃ es v g', p.Path es v ∧ Steps m g es g' := by
  induction p generalizing g with
  | done a => exact ⟨[], a, g, (Prog.path_done _ _ _).mpr ⟨rfl, rfl⟩, rfl⟩
  | step o k ih =>
    obtain ⟨r, g₁, h₁⟩ := hm g o
    obtain ⟨es, v, g', hp, hs⟩ := ih r g₁
    exact ⟨⟨o, r⟩ :: es, v, g', (Prog.path_step _ _ _ _).mpr ⟨r, es, rfl, hp⟩, g₁, h₁, hs⟩

/-- The protocol allows what a thread is about to perform. -/
theorem System.Run.next [∀ o, Inhabited (Ret o)] {S : System Tid Call Op Ret Res σ}
    {m : G → Event Op Ret → G → Prop} {g₀ g : G} (hm : Functional m)
    (H : ∀ c es v, (S.body c).Path es v → Steps m g₀ es g₀)
    {cfg : Config Tid Call Op Ret Res σ} {tr : List (Label Tid Call Op Ret Res)}
    (h : S.Run cfg tr) {t : Tid} {c : Call} {o : Op} {k : Ret o → Prog Op Ret Res}
    (ht : cfg.thread t = some (c, .step o k)) (hg : Steps m g₀ (callEvents t tr) g) (r : Ret o) :
    ∃ g', m g ⟨o, r⟩ g' := by
  -- the call's events up to and including this one begin a complete path
  obtain ⟨es', v, hp⟩ := Prog.reach_extends (Prog.reach_snoc rfl ((h.thread t).2 _ _ ht) r)
  obtain ⟨g', hsteps, -⟩ := steps_append.mp (H c _ v hp)
  obtain ⟨g₁, h₁, g₂, hm₂, -⟩ := steps_append.mp hsteps
  rw [steps_unique hm h₁ hg] at hm₂
  exact ⟨g₂, hm₂⟩

/-- The invariant rule: `H` is checked once for each call, the four others once
for each kind of label. A step may use that it is one of a run. -/
theorem System.Run.invariant_run [∀ o, Inhabited (Ret o)] {S : System Tid Call Op Ret Res σ}
    {m : G → Event Op Ret → G → Prop} {g₀ : G} (hm : Functional m)
    (H : ∀ c es v, (S.body c).Path es v → Steps m g₀ es g₀)
    {I : σ → List (Label Tid Call Op Ret Res) → (Tid → G) → Prop}
    (hinit : I S.init [] fun _ => g₀)
    (hinvoke : ∀ s tr g t c, I s tr g → g t = g₀ → I s (.invoke t c :: tr) g)
    (hret : ∀ s tr g t c v, I s tr g → g t = g₀ → I s (.ret t c v :: tr) g)
    (hact : ∀ s tr g t e g' s', (∃ cfg, S.Run cfg (.act t e :: tr)) → I s tr g → m (g t) e g' →
      S.step t e.op e.ret s s' → I s' (.act t e :: tr) (Function.update g t g'))
    {cfg : Config Tid Call Op Ret Res σ} {tr : List (Label Tid Call Op Ret Res)}
    (h : S.Run cfg tr) :
    ∃ g : Tid → G, (∀ t, Steps m g₀ (callEvents t tr) (g t)) ∧ I cfg.state tr g := by
  induction h with
  | init => exact ⟨fun _ => g₀, fun _ => rfl, hinit⟩
  | @invoke cfg tr t c hrun ht ih =>
    obtain ⟨g, hg, hi⟩ := ih
    have hgt : g t = g₀ := by
      have h0 := hg t
      rw [(hrun.thread t).1 ht] at h0
      exact h0
    refine ⟨g, fun u => ?_, hinvoke _ _ _ _ _ hi hgt⟩
    by_cases hut : t = u
    · subst hut
      simpa [callEvents, Steps] using hgt
    · simpa [callEvents, hut] using hg u
  | @ret cfg tr t c v hrun ht ih =>
    obtain ⟨g, hg, hi⟩ := ih
    have hgt : g t = g₀ :=
      steps_unique hm (hg t) (H c _ v (Prog.path_of_reach_done ((hrun.thread t).2 _ _ ht)))
    refine ⟨g, fun u => ?_, hret _ _ _ _ _ _ hi hgt⟩
    by_cases hut : t = u
    · subst hut
      simpa [callEvents, Steps] using hgt
    · simpa [callEvents, hut] using hg u
  | @act cfg tr t c o k r s' hrun ht hs ih =>
    obtain ⟨g, hg, hi⟩ := ih
    obtain ⟨g', hm₂⟩ := hrun.next hm H ht (hg t) r
    have hsteps : Steps m g₀ (callEvents t tr ++ [⟨o, r⟩]) g' :=
      steps_append.mpr ⟨g t, hg t, g', hm₂, rfl⟩
    have hnext := hrun.act t c o k r s' ht hs
    refine ⟨Function.update g t g', fun u => ?_, hact _ _ _ _ _ _ _ ⟨_, hnext⟩ hi hm₂ hs⟩
    by_cases hut : t = u
    · subst hut
      simpa [callEvents] using hsteps
    · simpa [callEvents, hut, Function.update_of_ne (Ne.symm hut)] using hg u

theorem System.Run.invariant [∀ o, Inhabited (Ret o)] {S : System Tid Call Op Ret Res σ}
    {m : G → Event Op Ret → G → Prop} {g₀ : G} (hm : Functional m)
    (H : ∀ c es v, (S.body c).Path es v → Steps m g₀ es g₀)
    {I : σ → List (Label Tid Call Op Ret Res) → (Tid → G) → Prop}
    (hinit : I S.init [] fun _ => g₀)
    (hinvoke : ∀ s tr g t c, I s tr g → g t = g₀ → I s (.invoke t c :: tr) g)
    (hret : ∀ s tr g t c v, I s tr g → g t = g₀ → I s (.ret t c v :: tr) g)
    (hact : ∀ s tr g t e g' s', I s tr g → m (g t) e g' → S.step t e.op e.ret s s' →
      I s' (.act t e :: tr) (Function.update g t g'))
    {cfg : Config Tid Call Op Ret Res σ} {tr : List (Label Tid Call Op Ret Res)}
    (h : S.Run cfg tr) :
    ∃ g : Tid → G, (∀ t, Steps m g₀ (callEvents t tr) (g t)) ∧ I cfg.state tr g :=
  h.invariant_run hm H hinit hinvoke hret fun s tr g t e g' s' _ => hact s tr g t e g' s'

end On9log.Lib
