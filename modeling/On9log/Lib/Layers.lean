import On9log.Lib.Expand

/-!
# One system built on another

The calls of the upper system `S'` are scripts: they perform operations of their
own and make calls of the lower system `S`, whose operations are programs over
the operations of `S'`. An observation is what an event of either system does to
the state they share. Each program for an operation of `S` has at most one event
that is observed; there the operation takes effect, and an operation with no
observation leaves the state of `S` alone. So every run of `S'` is a run of `S`
with the same observations in the same order.
-/

namespace On9log.Lib

variable {Tid Call Call' Op Op' Res Res' σ σ' B : Type} {Ret : Op → Type} {Ret' : Op' → Type}
  {α β : Type}

theorem Prog.expand_bind (f : (o : Op) → Prog Op' Ret' (Ret o)) (p : Prog Op Ret α)
    (k : α → Prog Op Ret β) : (p >>= k).expand f = p.expand f >>= fun a => (k a).expand f := by
  induction p with
  | done a => rfl
  | step o q ih =>
    show (f o >>= fun r => (q r >>= k).expand f) = (f o >>= fun r => (q r).expand f) >>= _
    rw [LawfulMonad.bind_assoc]
    exact congrArg (f o >>= ·) (funext ih)

abbrev ScriptRet (Call Res : Type) (Ret' : Op' → Type) : Op' ⊕ Call → Type :=
  Sum.elim Ret' fun _ => Res

/-- A program that may also make calls of another system. -/
abbrev Script (Call Res : Type) (Ret' : Op' → Type) (α : Type) :=
  Prog (Op' ⊕ Call) (ScriptRet Call Res Ret') α

instance inhabitedScriptRet [Inhabited Res] [∀ o, Inhabited (Ret' o)] (x : Op' ⊕ Call) :
    Inhabited (ScriptRet Call Res Ret' x) := by
  cases x with
  | inl o => exact inferInstanceAs (Inhabited (Ret' o))
  | inr c => exact inferInstanceAs (Inhabited Res)

/-- How a script runs: its calls with each of their operations performed by `impl`. -/
def performScript (S : System Tid Call Op Ret Res σ) (impl : (o : Op) → Prog Op' Ret' (Ret o)) :
    (x : Op' ⊕ Call) → Prog Op' Ret' (ScriptRet Call Res Ret' x)
  | .inl o => Prog.op o
  | .inr c => (S.body c).expand impl

namespace Script

/-- A program that makes no calls. -/
def own (p : Prog Op' Ret' α) : Script Call Res Ret' α := p.expand fun o => Prog.op (.inl o)

def call (c : Call) : Script Call Res Ret' Res := Prog.op (Sum.inr c : Op' ⊕ Call)

/-- No operation of the script itself is observed. -/
def Hidden (ob' : Event Op' Ret' → Option B) (p : Script Call Res Ret' α) : Prop :=
  ∀ es v, p.Path es v → ∀ o r, ⟨.inl o, r⟩ ∈ es → ob' ⟨o, r⟩ = none

variable {S : System Tid Call Op Ret Res σ} {impl : (o : Op) → Prog Op' Ret' (Ret o)}

@[simp] theorem expand_own (p : Prog Op' Ret' α) :
    (own p : Script Call Res Ret' α).expand (performScript S impl) = p := by
  induction p with
  | done a => rfl
  | step o k ih =>
    show Prog.step o (fun r => (own (k r)).expand (performScript S impl)) = .step o k
    exact congrArg (Prog.step o) (funext ih)

@[simp] theorem expand_call (c : Call) :
    (call c : Script Call Res Ret' Res).expand (performScript S impl) =
      (S.body c).expand impl := by
  show ((S.body c).expand impl).bind (fun a => .done a) = _
  exact Prog.bind_done _

theorem own_path {p : Prog Op' Ret' α} {es : List (Event (Op' ⊕ Call) (ScriptRet Call Res Ret'))}
    {v : α} (h : (own p).Path es v) : ∃ es', p.Path es' v := by
  induction p generalizing es with
  | done a =>
    obtain ⟨-, rfl⟩ := (Prog.path_done _ _ _).mp h
    exact ⟨[], (Prog.path_done _ _ _).mpr ⟨rfl, rfl⟩⟩
  | step o k ih =>
    obtain ⟨r, es₁, -, h₁⟩ := (Prog.path_step _ _ _ _).mp h
    obtain ⟨es', hp⟩ := ih r h₁
    exact ⟨⟨o, r⟩ :: es', (Prog.path_step _ _ _ _).mpr ⟨r, es', rfl, hp⟩⟩

section Hidden

variable {ob' : Event Op' Ret' → Option B}

theorem hidden_pure (a : α) : (pure a : Script Call Res Ret' α).Hidden ob' := by
  intro es v h o r hmem
  obtain ⟨rfl, -⟩ := (Prog.path_pure _ _ _).mp h
  cases hmem

theorem hidden_call (c : Call) : (call c : Script Call Res Ret' Res).Hidden ob' := by
  intro es v h o r hmem
  rw [(Prog.path_op (Sum.inr c : Op' ⊕ Call) es v).mp h] at hmem
  cases List.mem_singleton.mp hmem

theorem Hidden.bind {p : Script Call Res Ret' α} {f : α → Script Call Res Ret' β}
    (hp : p.Hidden ob') (hf : ∀ a, (f a).Hidden ob') : (p >>= f).Hidden ob' := by
  intro es v h o r hmem
  obtain ⟨a, es₁, es₂, rfl, h₁, h₂⟩ := (Prog.path_bind _ _ _ _).mp h
  rcases List.mem_append.mp hmem with hmem | hmem
  · exact hp es₁ a h₁ o r hmem
  · exact hf a es₂ v h₂ o r hmem

theorem hidden_own {p : Prog Op' Ret' α} (hp : ∀ es v, p.Path es v → ∀ e ∈ es, ob' e = none) :
    (own p : Script Call Res Ret' α).Hidden ob' := by
  induction p with
  | done a => exact hidden_pure a
  | step o k ih =>
    intro es v h o₁ r₁ hmem
    obtain ⟨r, es₁, rfl, h₁⟩ := (Prog.path_step _ _ _ _).mp h
    have hpath : ∀ es' v', (k r).Path es' v' → ∀ e ∈ ⟨o, r⟩ :: es', ob' e = none := by
      intro es' v' h'
      exact hp _ v' ((Prog.path_step _ _ _ _).mpr ⟨r, es', rfl, h'⟩)
    rcases List.mem_cons.mp hmem with heq | hmem
    · cases heq
      obtain ⟨es', hk⟩ := (own_path h₁)
      exact hpath es' v hk _ (List.mem_cons_self ..)
    · exact ih r (fun es' v' h' e he => hpath es' v' h' e (List.mem_cons_of_mem _ he)) es₁ v h₁
        o₁ r₁ hmem

end Hidden

end Script

/-- What the threads did that is observed, oldest first. -/
def observed (ob : Event Op Ret → Option B) : List (Label Tid Call Op Ret Res) → List (Tid × B)
  | [] => []
  | .act t e :: tr => observed ob tr ++ ((ob e).map fun b => (t, b)).toList
  | .invoke _ _ :: tr => observed ob tr
  | .ret _ _ _ :: tr => observed ob tr

@[simp] theorem observed_act (ob : Event Op Ret → Option B) (t : Tid) (e : Event Op Ret)
    (tr : List (Label Tid Call Op Ret Res)) :
    observed ob (.act t e :: tr) = observed ob tr ++ ((ob e).map fun b => (t, b)).toList := rfl

theorem observed_events (ob : Event Op Ret → Option B) (tr : List (Label Tid Call Op Ret Res)) :
    (observed ob tr).map Prod.snd = (actEvents tr).filterMap ob := by
  induction tr with
  | nil => rfl
  | cons l tr ih =>
    cases l with
    | invoke t c => exact ih
    | ret t c v => exact ih
    | act t e =>
      rw [observed_act, List.map_append, ih, actEvents, List.filterMap_append]
      cases hb : ob e <;> simp [hb]

/-- A thread's observations are those of its own events. -/
theorem observed_thread [DecidableEq Tid] (ob : Event Op Ret → Option B) (t : Tid)
    (tr : List (Label Tid Call Op Ret Res)) :
    ((observed ob tr).filter fun p => p.1 = t).map Prod.snd = (threadEvents t tr).filterMap ob := by
  induction tr with
  | nil => rfl
  | cons l tr ih =>
    cases l with
    | invoke u c => exact ih
    | ret u c v => exact ih
    | act u e =>
      rw [observed_act, List.filter_append, List.map_append, ih]
      by_cases hut : u = t
      · cases hb : ob e <;> simp [threadEvents, hut, hb]
      · cases hb : ob e <;> simp [threadEvents, hut]

/-- What only one thread does is in its own events. -/
theorem filterMap_thread [DecidableEq Tid] {f : Event Op Ret → Option B} {t : Tid}
    {tr : List (Label Tid Call Op Ret Res)} (h : ∀ u e, .act u e ∈ tr → f e ≠ none → u = t) :
    (actEvents tr).filterMap f = (threadEvents t tr).filterMap f := by
  rw [← observed_events, ← observed_thread, List.filter_eq_self.mpr fun p hp => ?_]
  refine decide_eq_true ?_
  induction tr with
  | nil => cases hp
  | cons l tr ih =>
    have htail := fun u e hmem => h u e (List.mem_cons_of_mem _ hmem)
    cases l with
    | invoke u c => exact ih htail hp
    | ret u c v => exact ih htail hp
    | act u e =>
      rcases List.mem_append.mp hp with hp | hp
      · exact ih htail hp
      · cases hb : f e with
        | none => simp [hb] at hp
        | some b =>
          simp only [hb, Option.map_some, Option.toList_some, List.mem_singleton] at hp
          rw [hp]
          exact h u e (List.mem_cons_self ..) (by simp [hb])

structure Layer (S : System Tid Call Op Ret Res σ) (S' : System Tid Call' Op' Ret' Res' σ')
    (B : Type) where
  script : Call' → Script Call Res Ret' Res'
  impl : (o : Op) → Prog Op' Ret' (Ret o)
  ob : Event Op Ret → Option B
  ob' : Event Op' Ret' → Option B
  state : σ' → σ
  body : ∀ c, S'.body c = (script c).expand (performScript S impl)
  init : state S'.init = S.init
  starts : ∀ o, ∃ o' k, impl o = .step o' k
  /-- The operations of a script itself are not observed. -/
  own : ∀ c, (script c).Hidden ob'
  hidden : ∀ t o r s s', S'.step t o r s s' → ob' ⟨o, r⟩ = none → state s' = state s
  impl_observed : ∀ o es r, (impl o).Path es r → es.filterMap ob' = (ob ⟨o, r⟩).toList
  ob_inj : ∀ o r₁ r₂ b, ob ⟨o, r₁⟩ = some b → ob ⟨o, r₂⟩ = some b → r₁ = r₂
  effect : ∀ t o' r' s s' o r b, S'.step t o' r' s s' → ob' ⟨o', r'⟩ = some b →
    ob ⟨o, r⟩ = some b → S.step t o r (state s) (state s')
  stutter : ∀ t o r s, ob ⟨o, r⟩ = none → S.step t o r s s

namespace Layer

variable {S : System Tid Call Op Ret Res σ} {S' : System Tid Call' Op' Ret' Res' σ'}
  (L : Layer S S' B)

abbrev perform := performScript S L.impl

/-! ### Inside a call -/

/-- `x` is where the upper system stands in a call when the lower one stands at
`p`: before the program of an operation, inside it with the observation still to
come, or inside it with the operation done. -/
inductive Stands : Prog Op' Ret' α → Prog Op Ret α → Prop
  | here (p : Prog Op Ret α) : Stands (p.expand L.impl) p
  | early (o : Op) (k : Ret o → Prog Op Ret α) {es : List (Event Op' Ret')} {o' : Op'}
      {k' : Ret' o' → Prog Op' Ret' (Ret o)} : (L.impl o).Reach es (.step o' k') →
      es.filterMap L.ob' = [] →
      Stands (Prog.step o' k' >>= fun r => (k r).expand L.impl) (.step o k)
  | late (o : Op) (k : Ret o → Prog Op Ret α) (r : Ret o) {o' : Op'}
      {k' : Ret' o' → Prog Op' Ret' (Ret o)} :
      (∀ es r', (Prog.step o' k').Path es r' → r' = r ∧ es.filterMap L.ob' = []) →
      Stands (Prog.step o' k' >>= fun r => (k r).expand L.impl) (k r)

variable {L}

theorem Stands.of_done {v : α} {p : Prog Op Ret α} (h : L.Stands (.done v) p) : p = .done v := by
  generalize hx : (Prog.done v : Prog Op' Ret' α) = x at h
  cases h with
  | here =>
    cases p with
    | done a =>
      cases hx
      rfl
    | step o k =>
      obtain ⟨o', k', himpl⟩ := L.starts o
      simp only [Prog.expand, himpl] at hx
      cases hx
  | early => cases hx
  | late => cases hx

variable [∀ o, Inhabited (Ret' o)]

/-- A step inside the program of an operation that has not been observed. -/
theorem Stands.step_early {o : Op} {k : Ret o → Prog Op Ret α} {es : List (Event Op' Ret')}
    {o' : Op'} {k' : Ret' o' → Prog Op' Ret' (Ret o)} (hreach : (L.impl o).Reach es (.step o' k'))
    (hes : es.filterMap L.ob' = []) (r' : Ret' o') :
    (L.ob' ⟨o', r'⟩ = none ∧
      L.Stands (k' r' >>= fun r => (k r).expand L.impl) (.step o k)) ∨
    ∃ r, L.ob ⟨o, r⟩ = L.ob' ⟨o', r'⟩ ∧
      L.Stands (k' r' >>= fun r => (k r).expand L.impl) (k r) := by
  have hnext := Prog.reach_snoc rfl hreach r'
  have hpath : ∀ es' r, (k' r').Path es' r →
      (L.ob' ⟨o', r'⟩).toList ++ es'.filterMap L.ob' = (L.ob ⟨o, r⟩).toList := by
    intro es' r hr
    have hob := L.impl_observed o _ r (Prog.reach_path hnext hr)
    rw [List.filterMap_append, List.filterMap_append, hes, List.nil_append] at hob
    rw [← hob]
    cases hb : L.ob' ⟨o', r'⟩ <;> simp [hb]
  cases hk : k' r' with
  | done r =>
    -- the operation ends here, whether it was observed now or not at all
    have hob := hpath [] r (by rw [hk]; exact (Prog.path_done _ _ _).mpr ⟨rfl, rfl⟩)
    rw [List.filterMap_nil, List.append_nil] at hob
    have heq : L.ob ⟨o, r⟩ = L.ob' ⟨o', r'⟩ := by
      cases hb : L.ob ⟨o, r⟩ <;> cases hb' : L.ob' ⟨o', r'⟩ <;> simp_all
    exact Or.inr ⟨r, heq, .here (k r)⟩
  | step o₂ k₂ =>
    cases hb : L.ob' ⟨o', r'⟩ with
    | none =>
      refine Or.inl ⟨rfl, .early o k (hk ▸ hnext) ?_⟩
      rw [List.filterMap_append, hes]
      simp [hb]
    | some b =>
      have hlate : ∀ es' r, (k' r').Path es' r → L.ob ⟨o, r⟩ = some b ∧ es'.filterMap L.ob' = [] := by
        intro es' r hr
        have hob := hpath es' r hr
        rw [hb] at hob
        cases hr' : L.ob ⟨o, r⟩ with
        | none => simp [hr'] at hob
        | some b' =>
          rw [hr'] at hob
          simp only [Option.toList_some, List.singleton_append, List.cons.injEq] at hob
          exact ⟨by rw [hob.1], hob.2⟩
      obtain ⟨es₀, r, hr⟩ := Prog.exists_path (k' r')
      obtain ⟨hobr, -⟩ := hlate es₀ r hr
      refine Or.inr ⟨r, hobr, .late o k r fun es₁ r₁ h₁ => ?_⟩
      obtain ⟨hob₁, hes₁⟩ := hlate es₁ r₁ (hk ▸ h₁)
      exact ⟨L.ob_inj o r₁ r b hob₁ hobr, hes₁⟩

/-- One step inside a call: hidden, or the next operation of the lower system. -/
theorem Stands.step {o' : Op'} {K : Ret' o' → Prog Op' Ret' α} {p : Prog Op Ret α}
    (h : L.Stands (.step o' K) p) (r' : Ret' o') :
    (L.ob' ⟨o', r'⟩ = none ∧ L.Stands (K r') p) ∨
    ∃ o k r, p = .step o k ∧ L.ob ⟨o, r⟩ = L.ob' ⟨o', r'⟩ ∧ L.Stands (K r') (k r) := by
  generalize hx : Prog.step o' K = x at h
  cases h with
  | here =>
    cases p with
    | done a => cases hx
    | step o k =>
      obtain ⟨o₁, k₁, himpl⟩ := L.starts o
      simp only [Prog.expand, himpl] at hx
      cases hx
      have hreach : (L.impl o).Reach [] (.step o' k₁) := himpl ▸ Prog.reach_nil _
      rcases step_early hreach rfl r' with ⟨hob, hs⟩ | ⟨r, hob, hs⟩
      · exact Or.inl ⟨hob, hs⟩
      · exact Or.inr ⟨o, k, r, rfl, hob, hs⟩
  | early o k hreach hes =>
    cases hx
    rcases step_early hreach hes r' with ⟨hob, hs⟩ | ⟨r, hob, hs⟩
    · exact Or.inl ⟨hob, hs⟩
    · exact Or.inr ⟨o, k, r, rfl, hob, hs⟩
  | @late o k r _ k' hrest =>
    cases hx
    have htail : ∀ es r₁, (k' r').Path es r₁ →
        L.ob' ⟨o', r'⟩ = none ∧ r₁ = r ∧ es.filterMap L.ob' = [] := by
      intro es r₁ h₁
      obtain ⟨hr, hes⟩ := hrest _ r₁ ((Prog.path_step _ _ _ _).mpr ⟨r', es, rfl, h₁⟩)
      rw [List.filterMap_cons] at hes
      cases hb : L.ob' ⟨o', r'⟩ <;> simp_all
    obtain ⟨es₀, r₀, h₀⟩ := Prog.exists_path (k' r')
    refine Or.inl ⟨(htail es₀ r₀ h₀).1, ?_⟩
    show L.Stands (k' r' >>= fun r => (k r).expand L.impl) (k r)
    cases hk : k' r' with
    | done r₁ =>
      obtain ⟨-, rfl, -⟩ := htail [] r₁ (by rw [hk]; exact (Prog.path_done _ _ _).mpr ⟨rfl, rfl⟩)
      exact .here (k r₁)
    | step o₂ k₂ => exact .late o k r fun es r₁ h₁ => (htail es r₁ (hk ▸ h₁)).2

/-! ### Whole runs -/

section Runs

variable [DecidableEq Tid]

/-- The calls of a script so far have returned in the lower run. -/
def Returned (t : Tid) (hist : List (Event (Op' ⊕ Call) (ScriptRet Call Res Ret')))
    (tr : List (Label Tid Call Op Ret Res)) : Prop :=
  ∀ c v, ⟨.inr c, v⟩ ∈ hist → .ret t c v ∈ tr

/-- Where a thread stands in the lower system when it has `X` left to do of `script c'`. -/
inductive Tracks (L : Layer S S' B) (c' : Call')
    (hist : List (Event (Op' ⊕ Call) (ScriptRet Call Res Ret'))) :
    Prog Op' Ret' Res' → Option (Call × Prog Op Ret Res) → Prop
  | own (q : Script Call Res Ret' Res') : (L.script c').Reach hist q →
      (∀ c k, q ≠ .step (.inr c) k) → Tracks L c' hist (q.expand L.perform) none
  | inside (c : Call) (k : Res → Script Call Res Ret' Res') (p : Prog Op Ret Res) {o' : Op'}
      {K : Ret' o' → Prog Op' Ret' Res} : (L.script c').Reach hist (.step (.inr c) k) →
      L.Stands (.step o' K) p →
      Tracks L c' hist (Prog.step o' K >>= fun v => (k v).expand L.perform) (some (c, p))

/-- The runs of the two systems that belong together. -/
structure Matches (L : Layer S S' B) (cfg' : Config Tid Call' Op' Ret' Res' σ')
    (tr' : List (Label Tid Call' Op' Ret' Res')) (cfg : Config Tid Call Op Ret Res σ)
    (tr : List (Label Tid Call Op Ret Res)) : Prop where
  run : S.Run cfg tr
  state : cfg.state = L.state cfg'.state
  observed : observed L.ob tr = observed L.ob' tr'
  idle : ∀ t, cfg'.thread t = none → cfg.thread t = none
  busy : ∀ t c' X, cfg'.thread t = some (c', X) →
    ∃ hist, Returned t hist tr ∧ L.Tracks c' hist X (cfg.thread t)
  returned : ∀ t c' v', .ret t c' v' ∈ tr' →
    ∃ hist, (L.script c').Path hist v' ∧ Returned t hist tr

omit [∀ o, Inhabited (Ret' o)] [DecidableEq Tid] in
theorem Tracks.of_done {c' : Call'} {hist : List (Event (Op' ⊕ Call) (ScriptRet Call Res Ret'))}
    {v : Res'} {th : Option (Call × Prog Op Ret Res)} (h : L.Tracks c' hist (.done v) th) :
    th = none ∧ (L.script c').Path hist v := by
  generalize hX : (Prog.done v : Prog Op' Ret' Res') = X at h
  cases h with
  | own q hq hcall =>
    cases q with
    | done a =>
      cases hX
      exact ⟨rfl, Prog.path_of_reach_done hq⟩
    | step x k =>
      cases x with
      | inl o => cases hX
      | inr c => exact absurd rfl (hcall c k)
  | inside => cases hX

omit [∀ o, Inhabited (Ret' o)] [DecidableEq Tid] in
theorem Returned.mono {t : Tid} {hist : List (Event (Op' ⊕ Call) (ScriptRet Call Res Ret'))}
    {tr tr₂ : List (Label Tid Call Op Ret Res)} (h : Returned t hist tr)
    (hsub : ∀ l ∈ tr, l ∈ tr₂) : Returned t hist tr₂ :=
  fun c v hmem => hsub _ (h c v hmem)

/-- A thread of the lower system makes every call that its script is about to
make and that performs nothing. -/
structure Settles (L : Layer S S' B) (t : Tid) (c' : Call') (X : Prog Op' Ret' Res')
    (cfg cfg₂ : Config Tid Call Op Ret Res σ) (tr tr₂ : List (Label Tid Call Op Ret Res)) :
    Prop where
  run : S.Run cfg₂ tr₂
  state : cfg₂.state = cfg.state
  others : ∀ u, u ≠ t → cfg₂.thread u = cfg.thread u
  observed : observed L.ob tr₂ = observed L.ob tr
  mono : ∀ l ∈ tr, l ∈ tr₂
  tracks : ∃ hist, Returned t hist tr₂ ∧ L.Tracks c' hist X (cfg₂.thread t)

omit [∀ o, Inhabited (Ret' o)] in
theorem settles (L : Layer S S' B) {t : Tid} {c' : Call'} {q : Script Call Res Ret' Res'}
    {hist : List (Event (Op' ⊕ Call) (ScriptRet Call Res Ret'))}
    {cfg : Config Tid Call Op Ret Res σ} {tr : List (Label Tid Call Op Ret Res)}
    (h : S.Run cfg tr) (ht : cfg.thread t = none) (hq : (L.script c').Reach hist q)
    (hret : Returned t hist tr) :
    ∃ cfg₂ tr₂, Settles L t c' (q.expand L.perform) cfg cfg₂ tr tr₂ := by
  induction q generalizing hist cfg tr with
  | done v =>
    have htracks : L.Tracks c' hist (Prog.expand L.perform (.done v)) (cfg.thread t) :=
      ht ▸ .own _ hq (by simp)
    exact ⟨cfg, tr, h, rfl, fun _ _ => rfl, rfl, fun _ hl => hl, hist, hret, htracks⟩
  | step x k ih =>
    cases x with
    | inl o =>
      have htracks : L.Tracks c' hist (Prog.expand L.perform (.step (.inl o) k)) (cfg.thread t) :=
        ht ▸ .own _ hq (fun _ _ heq => nomatch heq)
      exact ⟨cfg, tr, h, rfl, fun _ _ => rfl, rfl, fun _ hl => hl, hist, hret, htracks⟩
    | inr c =>
      have hinv := System.Run.invoke t c h ht
      cases hbody : S.body c with
      | done v =>
        -- a call that performs nothing is over at once
        rw [hbody] at hinv
        have hdone := System.Run.ret t c v hinv (Function.update_self ..)
        have hidle : Function.update (Function.update cfg.thread t (some (c, .done v))) t none =
            cfg.thread := by
          rw [Function.update_idem, ← ht, Function.update_eq_self]
        simp only [hidle] at hdone
        have hret' : Returned t (hist ++ [⟨.inr c, v⟩]) (.ret t c v :: .invoke t c :: tr) := by
          intro c₁ v₁ hmem
          rcases List.mem_append.mp hmem with hmem | hmem
          · exact List.mem_cons_of_mem _ (List.mem_cons_of_mem _ (hret c₁ v₁ hmem))
          · cases List.mem_singleton.mp hmem
            exact List.mem_cons_self ..
        obtain ⟨cfg₂, tr₂, hs⟩ := ih v hdone ht (Prog.reach_snoc rfl hq v) hret'
        have hX : Prog.expand L.perform (.step (.inr c) k) = (k v).expand L.perform := by
          show ((S.body c).expand L.impl >>= _) = _
          rw [hbody]
          rfl
        refine ⟨cfg₂, tr₂, hs.run, hs.state, hs.others, hs.observed, fun l hl => ?_, hX ▸ hs.tracks⟩
        exact hs.mono l (List.mem_cons_of_mem _ (List.mem_cons_of_mem _ hl))
      | step o p =>
        obtain ⟨o', k', himpl⟩ := L.starts o
        have hstands := Stands.here (L := L) (S.body c)
        have hX : (S.body c).expand L.impl =
            .step o' fun r => k' r >>= fun r => (p r).expand L.impl := by
          rw [hbody]
          simp only [Prog.expand, himpl]
          rfl
        rw [hX] at hstands
        refine ⟨_, _, hinv, rfl, fun u hu => Function.update_of_ne hu _ _, rfl,
          fun _ => List.mem_cons_of_mem _, hist, hret.mono fun _ => List.mem_cons_of_mem _, ?_⟩
        show L.Tracks c' hist ((S.body c).expand L.impl >>= fun v => (k v).expand L.perform) _
        rw [hX]
        simp only [Function.update_self]
        exact .inside c k (S.body c) hq hstands

omit [∀ o, Inhabited (Ret' o)] in
/-- One thread of the upper system moves, the lower system follows. -/
theorem Matches.moved {cfg' : Config Tid Call' Op' Ret' Res' σ'}
    {tr' : List (Label Tid Call' Op' Ret' Res')} {cfg cfg₂ : Config Tid Call Op Ret Res σ}
    {tr tr₂ : List (Label Tid Call Op Ret Res)} (h : L.Matches cfg' tr' cfg tr) {t : Tid}
    {c' : Call'} {X : Prog Op' Ret' Res'} {s' : σ'} {l : Label Tid Call' Op' Ret' Res'}
    (hrun : S.Run cfg₂ tr₂) (hstate : cfg₂.state = L.state s')
    (hob : Lib.observed L.ob tr₂ = Lib.observed L.ob' (l :: tr'))
    (hothers : ∀ u, u ≠ t → cfg₂.thread u = cfg.thread u) (hmono : ∀ l ∈ tr, l ∈ tr₂)
    (htracks : ∃ hist, Returned t hist tr₂ ∧ L.Tracks c' hist X (cfg₂.thread t))
    (hl : ∀ u d v, l ≠ .ret u d v) :
    L.Matches ⟨s', Function.update cfg'.thread t (some (c', X))⟩ (l :: tr') cfg₂ tr₂ where
  run := hrun
  state := hstate
  observed := hob
  idle u hu := by
    by_cases hut : u = t
    · subst hut
      simp at hu
    · rw [hothers u hut]
      exact h.idle u (by simpa [Function.update_of_ne hut] using hu)
  busy u d Y hu := by
    by_cases hut : u = t
    · subst hut
      simp only [Function.update_self, Option.some.injEq, Prod.mk.injEq] at hu
      obtain ⟨rfl, rfl⟩ := hu
      exact htracks
    · simp only [Function.update_of_ne hut] at hu
      obtain ⟨hist, hret, hY⟩ := h.busy u d Y hu
      rw [hothers u hut]
      exact ⟨hist, hret.mono hmono, hY⟩
  returned u d v hmem := by
    rcases List.mem_cons.mp hmem with hmem | hmem
    · exact absurd hmem.symm (hl u d v)
    · obtain ⟨hist, hpath, hret⟩ := h.returned u d v hmem
      exact ⟨hist, hpath, hret.mono hmono⟩

omit [∀ o, Inhabited (Ret' o)] in
/-- After a step inside a call; where the call has come to its end, it returns in the
lower system. -/
theorem Matches.follows {cfg' : Config Tid Call' Op' Ret' Res' σ'}
    {tr' : List (Label Tid Call' Op' Ret' Res')} {cfg cfg₁ : Config Tid Call Op Ret Res σ}
    {tr tr₁ : List (Label Tid Call Op Ret Res)} (h : L.Matches cfg' tr' cfg tr) {t : Tid}
    {c' : Call'} {s' : σ'} {e : Event Op' Ret'} {c : Call} {x : Prog Op' Ret' Res}
    {p : Prog Op Ret Res} {k : Res → Script Call Res Ret' Res'}
    {hist : List (Event (Op' ⊕ Call) (ScriptRet Call Res Ret'))}
    (hreach : (L.script c').Reach hist (.step (.inr c) k)) (hhist : Returned t hist tr)
    (hx : L.Stands x p) (hrun : S.Run cfg₁ tr₁) (ht : cfg₁.thread t = some (c, p))
    (hstate : cfg₁.state = L.state s')
    (hob : Lib.observed L.ob tr₁ = Lib.observed L.ob' (.act t e :: tr'))
    (hothers : ∀ u, u ≠ t → cfg₁.thread u = cfg.thread u) (hmono : ∀ l ∈ tr, l ∈ tr₁) :
    ∃ cfg₂ tr₂, L.Matches
      ⟨s', Function.update cfg'.thread t (some (c', x >>= fun v => (k v).expand L.perform))⟩
      (.act t e :: tr') cfg₂ tr₂ := by
  cases x with
  | step o' K =>
    refine ⟨cfg₁, tr₁, h.moved hrun hstate hob hothers hmono ?_ (by simp)⟩
    exact ⟨hist, hhist.mono hmono, ht ▸ .inside c k p hreach hx⟩
  | done v =>
    obtain rfl := hx.of_done
    have hdone := System.Run.ret t c v hrun ht
    have hret : Returned t (hist ++ [⟨.inr c, v⟩]) (.ret t c v :: tr₁) := by
      intro c₁ v₁ hmem
      rcases List.mem_append.mp hmem with hmem | hmem
      · exact List.mem_cons_of_mem _ (hmono _ (hhist c₁ v₁ hmem))
      · cases List.mem_singleton.mp hmem
        exact List.mem_cons_self ..
    obtain ⟨cfg₂, tr₂, hs⟩ := settles L hdone (Function.update_self ..)
      (Prog.reach_snoc rfl hreach v) hret
    have hothers₂ : ∀ u, u ≠ t → cfg₂.thread u = cfg.thread u := by
      intro u hu
      rw [hs.others u hu, ← hothers u hu]
      exact Function.update_of_ne hu _ _
    exact ⟨cfg₂, tr₂, h.moved hs.run (hs.state.trans hstate) (hs.observed.trans hob) hothers₂
      (fun l hl => hs.mono l (List.mem_cons_of_mem _ (hmono l hl))) hs.tracks (by simp)⟩

theorem Matches.act [Inhabited Res] {cfg' : Config Tid Call' Op' Ret' Res' σ'}
    {tr' : List (Label Tid Call' Op' Ret' Res')} {cfg : Config Tid Call Op Ret Res σ}
    {tr : List (Label Tid Call Op Ret Res)} (h : L.Matches cfg' tr' cfg tr) {t : Tid} {c' : Call'}
    {o' : Op'} {K : Ret' o' → Prog Op' Ret' Res'} {r' : Ret' o'} {s' : σ'}
    (ht : cfg'.thread t = some (c', .step o' K)) (hs : S'.step t o' r' cfg'.state s') :
    ∃ cfg₂ tr₂, L.Matches ⟨s', Function.update cfg'.thread t (some (c', K r'))⟩
      (.act t ⟨o', r'⟩ :: tr') cfg₂ tr₂ := by
  obtain ⟨hist, hret, htracks⟩ := h.busy t c' _ ht
  generalize hX : Prog.step o' K = X at htracks
  generalize hth : cfg.thread t = th at htracks
  cases htracks with
  | own q hq hcall =>
    cases q with
    | done v => cases hX
    | step x k =>
      cases x with
      | inr c => exact absurd rfl (hcall c k)
      | inl o =>
        cases hX
        have hnext := Prog.reach_snoc rfl hq r'
        obtain ⟨es, v, hpath⟩ := Prog.reach_extends hnext
        have hob := L.own c' _ v hpath o' r' (by simp)
        have hret' : Returned t (hist ++ [⟨.inl o', r'⟩]) tr := by
          intro c v hmem
          rcases List.mem_append.mp hmem with hmem | hmem
          · exact hret c v hmem
          · cases List.mem_singleton.mp hmem
        obtain ⟨cfg₂, tr₂, hset⟩ := settles L h.run hth hnext hret'
        refine ⟨cfg₂, tr₂, h.moved hset.run ?_ ?_ hset.others hset.mono hset.tracks (by simp)⟩
        · rw [hset.state, h.state, L.hidden t o' r' _ _ hs hob]
        · rw [hset.observed, h.observed]
          simp [hob]
  | inside c k p hq hstands =>
    cases hX
    rcases hstands.step r' with ⟨hob, hx⟩ | ⟨o, kp, r, rfl, hob, hx⟩
    · refine h.follows hq hret hx h.run hth ?_ ?_ (fun _ _ => rfl) fun _ hl => hl
      · rw [h.state, L.hidden t o' r' _ _ hs hob]
      · rw [h.observed]
        simp [hob]
    · have hstep : S.step t o r cfg.state (L.state s') := by
        rw [h.state]
        cases hb : L.ob' ⟨o', r'⟩ with
        | none =>
          rw [L.hidden t o' r' _ _ hs hb]
          exact L.stutter t o r _ (hob.trans hb)
        | some b => exact L.effect t o' r' _ _ o r b hs hb (hob.trans hb)
      refine h.follows hq hret hx (System.Run.act t c o kp r _ h.run hth hstep)
        (Function.update_self ..) rfl ?_ (fun u hu => Function.update_of_ne hu _ _)
        fun _ hl => List.mem_cons_of_mem _ hl
      simp [h.observed, hob]

/-- Every run of the upper system is a run of the lower one. -/
theorem refines [Inhabited Res] (L : Layer S S' B) {cfg' : Config Tid Call' Op' Ret' Res' σ'}
    {tr' : List (Label Tid Call' Op' Ret' Res')} (h : S'.Run cfg' tr') :
    ∃ cfg tr, L.Matches cfg' tr' cfg tr := by
  induction h with
  | init => exact ⟨⟨S.init, fun _ => none⟩, [], .init, L.init.symm, rfl, fun _ _ => rfl, nofun, nofun⟩
  | @act cfg' tr' t c' o' K r' s' hrun ht hs ih =>
    obtain ⟨cfg, tr, hm⟩ := ih
    exact hm.act ht hs
  | @invoke cfg' tr' t c' hrun ht ih =>
    obtain ⟨cfg, tr, hm⟩ := ih
    obtain ⟨cfg₂, tr₂, hset⟩ := settles L hm.run (hm.idle t ht)
      (Prog.reach_nil (L.script c')) (show Returned t [] tr from nofun)
    refine ⟨cfg₂, tr₂, ?_⟩
    have hbody := L.body c'
    rw [hbody]
    exact hm.moved hset.run (hset.state.trans hm.state) (hset.observed.trans hm.observed)
      hset.others hset.mono hset.tracks (by simp)
  | @ret cfg' tr' t c' v' hrun ht ih =>
    obtain ⟨cfg, tr, hm⟩ := ih
    obtain ⟨hist, hret, htracks⟩ := hm.busy t c' _ ht
    -- the script is at its end, so the thread is idle in the lower system too
    obtain ⟨hidle, hpath⟩ := htracks.of_done
    refine ⟨cfg, tr, hm.run, hm.state, hm.observed, fun u hu => ?_, fun u d X hu => ?_,
      fun u d v hmem => ?_⟩
    · by_cases hut : u = t
      · rw [hut]
        exact hidle
      · exact hm.idle u (by simpa [Function.update_of_ne hut] using hu)
    · by_cases hut : u = t
      · subst hut
        simp at hu
      · exact hm.busy u d X (by simpa [Function.update_of_ne hut] using hu)
    · rcases List.mem_cons.mp hmem with hmem | hmem
      · cases hmem
        exact ⟨hist, hpath, hret⟩
      · exact hm.returned u d v hmem

end Runs

end Layer

end On9log.Lib
