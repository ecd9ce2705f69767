import On9log.FilterMap
import On9log.Lib.Exec

/-!
# Tag-filter writers by critical sections (on9log.c:1622-1747)

Any number of tasks set and clear tag levels. Each section under the port lock
is one operation, the allocation between the two sections of
`on9log_set_tag_level` another, so that between any two operations the lock is
free. `peak` remembers the largest number of overrides in force so far.
-/

namespace On9log
open Lib

variable {Tid : Type} [DecidableEq Tid] {cfg : FilterConfig}

/-! ### The writers -/

inductive FilterOp where
  | matchSection (tag : List UInt8) (level : ℕ)
  | malloc
  | allocatedSection (tag : List UInt8) (level : ℕ)
  | clearSection (tag : List UInt8)
  | storeDefault (level : ℕ)

abbrev FilterOp.Ret : FilterOp → Type
  | .matchSection _ _ => Bool
  | .malloc => Bool
  | .allocatedSection _ _ => Err
  | .clearSection _ => Err
  | .storeDefault _ => Unit

instance (o : FilterOp) : Inhabited o.Ret :=
  match o with
  | .matchSection _ _ | .malloc => ⟨false⟩
  | .allocatedSection _ _ | .clearSection _ => ⟨.ok⟩
  | .storeDefault _ => ⟨()⟩

abbrev FilterProg := Prog FilterOp FilterOp.Ret

inductive WriterCall where
  | setLevel (level : ℕ)
  | setTagLevel (tag : Option (List UInt8)) (level : ℕ)
  | clearTagLevel (tag : Option (List UInt8))

/-- `on9log_set_level`. -/
def setLevel (level : ℕ) : FilterProg Err := do
  if validLevel level = false then pure .ok
  else do
    Prog.op (FilterOp.storeDefault level)
    pure .ok

/-- `on9log_set_tag_level`. -/
def setTagLevel (tag : Option (List UInt8)) (level : ℕ) : FilterProg Err :=
  match tag with
  | none => pure .invalidArg
  | some tag => do
    if validLevel level = false then pure .invalidArg
    else do
      let matched ← Prog.op (FilterOp.matchSection tag level)
      if matched = true then pure .ok
      else do
        let copied ← Prog.op FilterOp.malloc
        if copied = false then pure .noMem
        else Prog.op (FilterOp.allocatedSection tag level)

/-- `on9log_clear_tag_level`. -/
def clearTagLevel (tag : Option (List UInt8)) : FilterProg Err :=
  match tag with
  | none => pure .invalidArg
  | some tag => Prog.op (FilterOp.clearSection tag)

def WriterCall.body : WriterCall → FilterProg Err
  | .setLevel level => On9log.setLevel level
  | .setTagLevel tag level => On9log.setTagLevel tag level
  | .clearTagLevel tag => On9log.clearTagLevel tag

/-! ### The list they share -/

/-- Overrides in force: the tags of active nodes. -/
def Filters.inForce (s : Filters) : ℕ :=
  ((s.nodes.filter FilterNode.active).map FilterNode.tag).dedup.length

structure TrackedFilters where
  filters : Filters
  peak : ℕ

def TrackedFilters.to (s : TrackedFilters) (filters : Filters) : TrackedFilters :=
  ⟨filters, max s.peak filters.inForce⟩

def writerStep (cfg : FilterConfig) :
    (o : FilterOp) → o.Ret → TrackedFilters → TrackedFilters → Prop
  | .matchSection tag level, matched, s, s' =>
    match s.filters.setMatching cfg tag level with
    | some filters => matched = true ∧ s' = s.to filters
    | none => matched = false ∧ s' = s
  | .malloc, _, s, s' => s' = s
  | .allocatedSection tag level, err, s, s' => ∃ callocOk,
    err = (s.filters.setAllocated cfg tag level callocOk).1 ∧
      s' = s.to (s.filters.setAllocated cfg tag level callocOk).2
  | .clearSection tag, err, s, s' =>
    err = (s.filters.clearMatching cfg tag).1 ∧ s' = s.to (s.filters.clearMatching cfg tag).2
  | .storeDefault level, _, s, s' => s' = s.to { s.filters with defaultLevel := level }

def writerSystem (Tid : Type) (cfg : FilterConfig) :
    System Tid WriterCall FilterOp FilterOp.Ret Err TrackedFilters where
  body := WriterCall.body
  step _ := writerStep cfg
  init := ⟨Filters.init, 0⟩

/-! ### A task on its own -/

def WriterCall.filterCall (mallocOk callocOk : Bool) : WriterCall → FilterCall
  | .setLevel level => .setLevel level
  | .setTagLevel tag level => .setTagLevel tag level mallocOk callocOk
  | .clearTagLevel tag => .clearTagLevel tag

/-- What a complete call performs, by the branch it takes. -/
inductive WriterPath : WriterCall → List (Event FilterOp FilterOp.Ret) → Err → Prop
  | ignored {level : ℕ} : levelVerbose < level → WriterPath (.setLevel level) [] .ok
  | stored {level : ℕ} : level ≤ levelVerbose →
      WriterPath (.setLevel level) [⟨.storeDefault level, ()⟩] .ok
  | rejected {tag : Option (List UInt8)} {level : ℕ} : tag = none ∨ levelVerbose < level →
      WriterPath (.setTagLevel tag level) [] .invalidArg
  | matched {tag : List UInt8} {level : ℕ} : level ≤ levelVerbose →
      WriterPath (.setTagLevel (some tag) level) [⟨.matchSection tag level, true⟩] .ok
  | noCopy {tag : List UInt8} {level : ℕ} : level ≤ levelVerbose →
      WriterPath (.setTagLevel (some tag) level)
        [⟨.matchSection tag level, false⟩, ⟨.malloc, false⟩] .noMem
  | allocated {tag : List UInt8} {level : ℕ} (err : Err) : level ≤ levelVerbose →
      WriterPath (.setTagLevel (some tag) level)
        [⟨.matchSection tag level, false⟩, ⟨.malloc, true⟩, ⟨.allocatedSection tag level, err⟩] err
  | notCleared : WriterPath (.clearTagLevel none) [] .invalidArg
  | cleared {tag : List UInt8} (err : Err) :
      WriterPath (.clearTagLevel (some tag)) [⟨.clearSection tag, err⟩] err

theorem writerPath_body {c : WriterCall} {es : List (Event FilterOp FilterOp.Ret)} {err : Err}
    (hp : c.body.Path es err) : WriterPath c es err := by
  have hvalid : ∀ {level : ℕ}, validLevel level ≠ false → level ≤ levelVerbose := by
    intro level hv
    have hle : ¬ levelVerbose < level := fun hlt => hv (validLevel_eq_false.mpr hlt)
    omega
  cases c with
  | setLevel level =>
    unfold WriterCall.body setLevel at hp
    rcases (Prog.path_ite _ _ _ _ _).mp hp with ⟨hv, hp⟩ | ⟨hv, hp⟩
    · obtain ⟨rfl, rfl⟩ := (Prog.path_pure _ _ _).mp hp
      exact .ignored (validLevel_eq_false.mp hv)
    · obtain ⟨hop, rfl⟩ := Prog.path_then_pure hp
      rw [(Prog.path_op _ _ _).mp hop]
      exact .stored (hvalid hv)
  | setTagLevel tag level =>
    unfold WriterCall.body setTagLevel at hp
    cases tag with
    | none =>
      obtain ⟨rfl, rfl⟩ := (Prog.path_pure _ _ _).mp hp
      exact .rejected (Or.inl rfl)
    | some tag =>
      rcases (Prog.path_ite _ _ _ _ _).mp hp with ⟨hv, hp⟩ | ⟨hv, hp⟩
      · obtain ⟨rfl, rfl⟩ := (Prog.path_pure _ _ _).mp hp
        exact .rejected (Or.inr (validLevel_eq_false.mp hv))
      obtain ⟨matched, es₁, es₂, rfl, h₁, hp⟩ := (Prog.path_bind _ _ _ _).mp hp
      rw [(Prog.path_op _ _ _).mp h₁]
      rcases (Prog.path_ite _ _ _ _ _).mp hp with ⟨hm, hp⟩ | ⟨hm, hp⟩
      · obtain ⟨rfl, rfl⟩ := (Prog.path_pure _ _ _).mp hp
        rw [hm]
        exact .matched (hvalid hv)
      obtain ⟨copied, es₃, es₄, rfl, h₂, hp⟩ := (Prog.path_bind _ _ _ _).mp hp
      rw [(Prog.path_op _ _ _).mp h₂, Bool.eq_false_of_not_eq_true hm]
      rcases (Prog.path_ite _ _ _ _ _).mp hp with ⟨hc, hp⟩ | ⟨hc, hp⟩
      · obtain ⟨rfl, rfl⟩ := (Prog.path_pure _ _ _).mp hp
        rw [hc]
        exact .noCopy (hvalid hv)
      · rw [(Prog.path_op _ _ _).mp hp, Bool.eq_true_of_not_eq_false hc]
        exact .allocated err (hvalid hv)
  | clearTagLevel tag =>
    unfold WriterCall.body clearTagLevel at hp
    cases tag with
    | none =>
      obtain ⟨rfl, rfl⟩ := (Prog.path_pure _ _ _).mp hp
      exact .notCleared
    | some tag =>
      rw [(Prog.path_op _ _ _).mp hp]
      exact .cleared err

/-- A call that no other task interrupts is the call of the sequential model. -/
theorem call_alone {c : WriterCall} {s s' : TrackedFilters}
    {es : List (Event FilterOp FilterOp.Ret)} {err : Err} (hp : c.body.Path es err)
    (hs : Steps (fun s e s' => writerStep cfg e.op e.ret s s') s es s') :
    ∃ mallocOk callocOk,
      (c.filterCall mallocOk callocOk).apply cfg s.filters = (err, s'.filters) := by
  have hvalid : ∀ {level : ℕ}, level ≤ levelVerbose → validLevel level = true := by
    intro level hle
    exact decide_eq_true ⟨Nat.zero_le level, hle⟩
  cases writerPath_body hp with
  | ignored h =>
    rw [hs]
    refine ⟨true, true, ?_⟩
    simp [WriterCall.filterCall, FilterCall.apply, Filters.setLevel, validLevel_eq_false.mpr h]
  | stored h =>
    obtain ⟨s₁, h₁, rfl⟩ := hs
    refine ⟨true, true, ?_⟩
    rw [h₁]
    simp [WriterCall.filterCall, FilterCall.apply, Filters.setLevel, hvalid h, TrackedFilters.to]
  | @rejected tag level h =>
    rw [hs]
    refine ⟨true, true, ?_⟩
    cases tag with
    | none => rfl
    | some tag =>
      have hlevel := h.resolve_left (Option.some_ne_none tag)
      simp [WriterCall.filterCall, FilterCall.apply, Filters.setTagLevel,
        validLevel_eq_false.mpr hlevel]
  | @matched tag level h =>
    obtain ⟨s₁, h₁, rfl⟩ := hs
    refine ⟨true, true, ?_⟩
    simp only [writerStep] at h₁
    cases hm : s.filters.setMatching cfg tag level with
    | some filters =>
      simp only [hm] at h₁
      simp [WriterCall.filterCall, FilterCall.apply, Filters.setTagLevel, hvalid h, hm, h₁,
        TrackedFilters.to]
    | none => simp [hm] at h₁
  | @noCopy tag level h =>
    obtain ⟨s₁, h₁, s₂, h₂, rfl⟩ := hs
    refine ⟨false, true, ?_⟩
    simp only [writerStep] at h₁ h₂
    cases hm : s.filters.setMatching cfg tag level with
    | some filters => simp [hm] at h₁
    | none =>
      simp only [hm] at h₁
      simp [WriterCall.filterCall, FilterCall.apply, Filters.setTagLevel, hvalid h, hm, h₁, h₂]
  | @allocated tag level err h =>
    obtain ⟨s₁, h₁, s₂, h₂, s₃, ⟨callocOk, herr, h₃⟩, rfl⟩ := hs
    refine ⟨true, callocOk, ?_⟩
    simp only [writerStep] at h₁ h₂
    cases hm : s.filters.setMatching cfg tag level with
    | some filters => simp [hm] at h₁
    | none =>
      simp only [hm, true_and] at h₁
      have herr' : err = (s₂.filters.setAllocated cfg tag level callocOk).1 := herr
      rw [h₃, herr', h₂, h₁]
      simp [WriterCall.filterCall, FilterCall.apply, Filters.setTagLevel, hvalid h, hm,
        TrackedFilters.to]
  | notCleared =>
    rw [hs]
    exact ⟨true, true, rfl⟩
  | cleared err =>
    obtain ⟨s₁, ⟨herr, h₁⟩, rfl⟩ := hs
    refine ⟨true, true, ?_⟩
    rw [h₁]
    exact Prod.ext herr.symm rfl

/-! ### Any interleaving -/

/-- What the writers ask of a section. -/
def FilterOp.Valid : FilterOp → Prop
  | .matchSection _ level | .allocatedSection _ level | .storeDefault level => level ≤ levelVerbose
  | .malloc | .clearSection _ => True

theorem valid_body (c : WriterCall) {es : List (Event FilterOp FilterOp.Ret)} {err : Err}
    (hp : c.body.Path es err) : ∀ e ∈ es, e.op.Valid := by
  cases writerPath_body hp with
  | ignored | rejected | notCleared => simp
  | stored h | matched h | noCopy h | allocated err h => simp [FilterOp.Valid, h]
  | cleared err => simp [FilterOp.Valid]

structure TrackedFilters.Ok (cfg : FilterConfig) (s : TrackedFilters) : Prop where
  wf : s.filters.WF cfg
  peak : s.filters.nodes.length ≤ s.peak

theorem Filters.WF.inForce_eq {s : Filters} (h : s.WF cfg) : s.inForce = s.activeCount := by
  have hsub : ((s.nodes.filter FilterNode.active).map FilterNode.tag).Sublist
      (s.nodes.map FilterNode.tag) := List.filter_sublist.map FilterNode.tag
  have hnodup := h.distinct.sublist hsub
  unfold inForce
  rw [hnodup.dedup, List.length_map, h.count, List.countP_eq_length_filter]

theorem TrackedFilters.Ok.to_self {s : TrackedFilters} (h : s.Ok cfg) : (s.to s.filters).Ok cfg :=
  ⟨h.wf, h.peak.trans (Nat.le_max_left ..)⟩

theorem Moves.ok {s : TrackedFilters} {filters : Filters} {tag : List UInt8} {level : Option ℕ}
    (h : s.Ok cfg) (hm : Moves cfg s.filters filters tag level) : (s.to filters).Ok cfg := by
  refine ⟨hm.wf, ?_⟩
  have hforce := hm.wf.inForce_eq
  have hpeak := h.peak
  unfold TrackedFilters.to
  rcases hm.grows with hsame | hall
  · dsimp only
    omega
  · dsimp only
    omega

theorem TrackedFilters.Ok.step {s s' : TrackedFilters} {o : FilterOp} {r : o.Ret} (h : s.Ok cfg)
    (hv : o.Valid) (hs : writerStep cfg o r s s') : s'.Ok cfg := by
  cases o with
  | matchSection tag level =>
    simp only [writerStep] at hs
    cases hm : s.filters.setMatching cfg tag level with
    | some filters =>
      simp only [hm] at hs
      rw [hs.2]
      exact (Filters.setMatching_moves h.wf hv hm).ok h
    | none =>
      simp only [hm] at hs
      rw [hs.2]
      exact h
  | malloc =>
    rw [hs]
    exact h
  | allocatedSection tag level =>
    obtain ⟨callocOk, -, rfl⟩ := hs
    rcases Filters.setAllocated_moves h.wf hv callocOk with ⟨-, hmoves⟩ | ⟨-, hsame⟩
    · exact hmoves.ok h
    · rw [hsame]
      exact h.to_self
  | clearSection tag =>
    obtain ⟨-, rfl⟩ := hs
    rcases Filters.clearMatching_moves h.wf with ⟨-, hmoves⟩ | ⟨-, hsame, -⟩
    · exact hmoves.ok h
    · rw [hsame]
      exact h.to_self
  | storeDefault level =>
    rw [hs]
    refine ⟨⟨h.wf.distinct, h.wf.head, h.wf.count, h.wf.bound, h.wf.levels, hv⟩, ?_⟩
    exact h.peak.trans (Nat.le_max_left ..)

theorem writers_keep_list {c : Lib.Config Tid WriterCall FilterOp FilterOp.Ret Err TrackedFilters}
    {tr : List (Label Tid WriterCall FilterOp FilterOp.Ret Err)}
    (h : (writerSystem Tid cfg).Run c tr) :
    let s := c.state.filters
    (s.nodes.map FilterNode.tag).Nodup ∧ s.activeCount = s.nodes.countP FilterNode.active ∧
      s.head = s.nodes.head?.map FilterNode.addr ∧ (∀ n ∈ s.nodes, n.level ≤ levelVerbose) ∧
      s.nodes.length ≤ c.state.peak := by
  have hok : c.state.Ok cfg := by
    induction h with
    | init => exact ⟨wf_init cfg, Nat.le_refl _⟩
    | invoke _ _ _ _ ih => exact ih
    | ret _ _ _ _ _ ih => exact ih
    | @act c tr t call o k r s' hrun ht hs ih =>
      have hnext := System.Run.act t call o k r s' hrun ht hs
      have hmem : (⟨o, r⟩ : Event _ _) ∈ actEvents (.act t ⟨o, r⟩ :: tr) := by simp [actEvents]
      obtain ⟨call', es, err, hp, he⟩ := hnext.mem_actEvents hmem
      exact ih.step (valid_body call' hp _ he) hs
  exact ⟨hok.wf.distinct, hok.wf.count, hok.wf.head, hok.wf.levels, hok.peak⟩

/-! ### Two tasks add one tag -/

/-- The sections answered with allocations that succeed. -/
def writerReply (cfg : FilterConfig) (s : TrackedFilters) :
    (o : FilterOp) → Option (o.Ret × TrackedFilters)
  | .matchSection tag level =>
    match s.filters.setMatching cfg tag level with
    | some filters => some (true, s.to filters)
    | none => some (false, s)
  | .malloc => some (true, s)
  | .allocatedSection tag level =>
    let r := s.filters.setAllocated cfg tag level true
    some (r.1, s.to r.2)
  | .clearSection tag =>
    let r := s.filters.clearMatching cfg tag
    some (r.1, s.to r.2)
  | .storeDefault level => some ((), s.to { s.filters with defaultLevel := level })

theorem step_of_writerReply {s s' : TrackedFilters} {o : FilterOp} {r : o.Ret}
    (h : writerReply cfg s o = some (r, s')) : writerStep cfg o r s s' := by
  cases o with
  | matchSection tag level =>
    simp only [writerReply] at h
    simp only [writerStep]
    cases hm : s.filters.setMatching cfg tag level with
    | some filters => simpa [hm, eq_comm] using h
    | none => simpa [hm, eq_comm] using h
  | malloc =>
    simp only [writerReply, Option.some.injEq, Prod.mk.injEq] at h
    exact h.2.symm
  | allocatedSection tag level => exact ⟨true, by simpa [writerReply, eq_comm] using h⟩
  | clearSection tag => simpa [writerReply, writerStep, eq_comm] using h
  | storeDefault level => simpa [writerReply, writerStep, eq_comm] using h

/-- Both tasks find no node for the tag before either allocates. -/
def raceTurns : List (Turn ℕ WriterCall) :=
  [.invoke 0 (.setTagLevel (some [97]) 1), .invoke 1 (.setTagLevel (some [97]) 2),
    .perform 0 2, .perform 1 2, .perform 0 1, .perform 1 1, .ret 0, .ret 1]

theorem writers_keep_list_race :
    ∃ (c : Lib.Config ℕ WriterCall FilterOp FilterOp.Ret Err TrackedFilters)
      (tr : List (Label ℕ WriterCall FilterOp FilterOp.Ret Err)),
      (writerSystem ℕ roomyConfig).Run c tr ∧ c.state.filters.nodes = [⟨0, [97], 2, true⟩] ∧
      (c.state.filters.nodes.map FilterNode.tag).Nodup ∧
      c.state.filters.activeCount = c.state.filters.nodes.countP FilterNode.active ∧
      c.state.filters.head = c.state.filters.nodes.head?.map FilterNode.addr ∧
      (∀ n ∈ c.state.filters.nodes, n.level ≤ levelVerbose) ∧
      c.state.filters.nodes.length ≤ c.state.peak := by
  have hdone : (System.schedule (writerSystem ℕ roomyConfig) (fun _ => writerReply roomyConfig)
      raceTurns).map (fun q => q.1.state.filters.nodes) = some [⟨0, [97], 2, true⟩] := by
    decide +kernel
  obtain ⟨q, hq, hnodes⟩ := Option.map_eq_some_iff.mp hdone
  have hrun := System.run_schedule (fun _ _ _ _ _ => step_of_writerReply) hq
  exact ⟨q.1, q.2, hrun, hnodes, writers_keep_list hrun⟩

end On9log
