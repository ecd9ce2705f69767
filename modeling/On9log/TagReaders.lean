import On9log.TagHazard

/-!
# The string a lookup compares (on9log.c:1391-1416, 1670-1690)

As long as the counter of readers can count the lookups in a node, none of them
compares a freed string. `crowd` is the run that goes wrong: a counter of `w`
bits is zero again when `2 ^ w` lookups are in the node.
-/

namespace On9log
open Lib

variable {Tid : Type} [DecidableEq Tid] {cfg : HazardConfig} {s s' : HazardState Tid} {t : Tid}

/-- The pointer a lookup has read from a node. -/
def LookupPc.configured : LookupPc → Option (Option ℕ)
  | .compare _ p | .loadLevel _ p _ | .subReaders _ p _ _ => some p
  | _ => none

/-- The level it has read. -/
def LookupPc.level : LookupPc → Option ℕ
  | .subReaders _ _ _ level => some level
  | _ => none

abbrev HazardState.Reached (cfg : HazardConfig) (s : HazardState Tid) : Prop :=
  Reach .init (HazardState.Next cfg) (HazardState.Fewer cfg) s

theorem HazardState.Reached.inv (h : s.Reached cfg) : s.Inv cfg := by
  apply Reach.invariant h HazardState.inv_init
  rintro s s' hi hfew ⟨t, x, hx⟩
  exact hi.taken hfew (HazardState.taken_of_step hx)

/-! ### Runs given by what the tasks do in turn -/

def HazardState.run (cfg : HazardConfig) (turns : List (Tid × Choice)) (s : HazardState Tid) :
    Option (HazardState Tid) :=
  turns.foldlM (fun s turn => s.step cfg turn.1 turn.2) s

theorem HazardState.step_other {x : Choice} (h : s.step cfg t x = some s') {u : Tid} (hut : u ≠ t) :
    s'.pc u = s.pc u := by
  cases HazardState.taken_of_step h with
  | access job q q' h' hin hstep => rfl
  | _ => exact Function.update_of_ne hut _ _

theorem HazardState.reach_run {P I : HazardState Tid → Prop} {init : HazardState Tid}
    {turns : List (Tid × Choice)} (hP : ∀ s, I s → P s)
    (hI : ∀ turn ∈ turns, ∀ s s' : HazardState Tid, I s → s.step cfg turn.1 turn.2 = some s' → I s')
    (h : Reach init (HazardState.Next cfg) P s) (hs : I s) (hrun : s.run cfg turns = some s') :
    Reach init (HazardState.Next cfg) P s' ∧ I s' := by
  induction turns generalizing s with
  | nil =>
    cases hrun
    exact ⟨h, hs⟩
  | cons turn turns ih =>
    obtain ⟨s₁, hstep, hrest⟩ := Option.bind_eq_some_iff.mp hrun
    have hs₁ := hI turn (List.mem_cons_self ..) s s₁ hs hstep
    exact ih (fun turn' hturn => hI turn' (List.mem_cons_of_mem _ hturn))
      (.step h (hP s hs) ⟨turn.1, turn.2, hstep⟩) hs₁ hrest

theorem Pc.holds_le_one (p : Pc) (i : ℕ) : p.holds i ≤ 1 := by
  cases p with
  | lookup tag p =>
    cases p <;> simp only [Pc.holds, LookupPc.holds] <;> first | omega | (split <;> omega)
  | _ => exact Nat.zero_le _

/-- Only the tasks in `T` have ever run. -/
def HazardState.Only (T : Finset Tid) (s : HazardState Tid) : Prop := ∀ u, u ∉ T → s.pc u = .idle

theorem HazardState.Only.fewer {T : Finset Tid} (hs : s.Only T) (hT : T.card < 2 ^ cfg.uintBits) :
    s.Fewer cfg := by
  intro i n hsum
  have hT' : SumIs (fun t => (s.pc t).holds i) (∑ t ∈ T, (s.pc t).holds i) := by
    refine ⟨T, fun u hu => ?_, rfl⟩
    have hidle := hs u hu
    dsimp only
    rw [hidle]
    rfl
  have hbound := Finset.sum_le_card_nsmul T (fun t => (s.pc t).holds i) 1 fun t _ =>
    (s.pc t).holds_le_one i
  rw [hsum.unique hT']
  simp only [smul_eq_mul, mul_one] at hbound
  omega

theorem HazardState.Only.step {T : Finset Tid} (hs : s.Only T) (ht : t ∈ T) {x : Choice}
    (h : s.step cfg t x = some s') : s'.Only T := by
  intro u hu
  have hut : u ≠ t := fun he => hu (he ▸ ht)
  rw [HazardState.step_other h hut]
  exact hs u hu

/-- A run of fewer tasks than the counter counts up to. -/
theorem HazardState.reached_run {T : Finset Tid} (hT : T.card < 2 ^ cfg.uintBits)
    {turns : List (Tid × Choice)} (hturns : ∀ turn ∈ turns, turn.1 ∈ T)
    (hrun : HazardState.init.run cfg turns = some s) : s.Reached cfg := by
  have hrun' := HazardState.reach_run (P := HazardState.Fewer cfg) (I := HazardState.Only T)
    (fun s hs => hs.fewer hT) (fun turn hturn s s' hs hstep => hs.step (hturns turn hturn) hstep)
    Reach.init (fun _ _ => rfl) hrun
  exact hrun'.1

/-- A task on its own does what it does in any state that looks the same to it. -/
theorem HazardState.step_local {r r' : HazardState Tid} {x : Choice} (h : r.step cfg t x = some r')
    (hheap : s.heap = r.heap) (hinside : s.inside = r.inside) (hpc : s.pc t = r.pc t) :
    s.step cfg t x = some ⟨r'.heap, r'.inside, Function.update s.pc t (r'.pc t)⟩ := by
  obtain ⟨q, hq, rfl⟩ := Option.map_eq_some_iff.mp h
  unfold step
  rw [hheap, hinside, hpc, hq]
  simp

theorem HazardState.run_local {r r' : HazardState Tid} {xs : List Choice}
    (h : r.run cfg (xs.map (Prod.mk t)) = some r') (hheap : s.heap = r.heap)
    (hinside : s.inside = r.inside) (hpc : s.pc t = r.pc t) :
    ∃ s', s.run cfg (xs.map (Prod.mk t)) = some s' ∧ s'.heap = r'.heap ∧ s'.inside = r'.inside ∧
      s'.pc t = r'.pc t ∧ ∀ u, u ≠ t → s'.pc u = s.pc u := by
  induction xs generalizing r s with
  | nil =>
    cases h
    exact ⟨s, rfl, hheap, hinside, hpc, fun _ _ => rfl⟩
  | cons x xs ih =>
    obtain ⟨r₁, hstep, hrest⟩ := Option.bind_eq_some_iff.mp h
    have hlocal := HazardState.step_local hstep hheap hinside hpc
    obtain ⟨s', hrun, hs'⟩ := ih (s := ⟨r₁.heap, r₁.inside, Function.update s.pc t (r₁.pc t)⟩) hrest
      rfl rfl (Function.update_self ..)
    refine ⟨s', ?_, hs'.1, hs'.2.1, hs'.2.2.1, fun u hut => ?_⟩
    · exact Option.bind_eq_some_iff.mpr ⟨_, hlocal, hrun⟩
    · rw [hs'.2.2.2 u hut]
      exact Function.update_of_ne hut _ _

/-! ### What a lookup reads -/

/-- No tag is freed or replaced while a lookup compares it, as long as fewer
lookups are in a node than the counter can count. -/
theorem tag_live_while_compared (h : s.Reached cfg) {i : ℕ} {tag : Option (List UInt8)}
    {p : LookupPc} (hp : s.pc t = .lookup tag p) (hr : p.reading i) :
    (∀ u job q, s.inside = some (u, job, q) → ¬ q.overwrites i) ∧
    ∃ b c, (s.heap.node i).tag = some b ∧ s.heap.block b = some c ∧
      (∀ configured, p.configured = some configured → configured = some b) ∧
      ∀ level, p.level = some level → (i, c, level) ∈ s.heap.settings := by
  have hi := HazardState.Reached.inv h
  have hk := hi.knows t tag p hp
  have hlt : i < s.heap.len := hk.lt_of_holds (by rw [LookupPc.holds_of_reading hr]; exact nofun)
  obtain ⟨c, hc⟩ := hi.heap.live_of_reading (hi.unharmed hp) hr hlt
  obtain ⟨b, hb, hblock⟩ := Option.bind_eq_some_iff.mp hc
  refine ⟨fun u job q hin => ?_, b, c, hb, hblock, fun configured hconf => ?_, fun level hl => ?_⟩
  · apply hi.unharmed hp job q i _ hr
    rw [HazardState.holder, hin]
    rfl
  · cases p with
    | compare j p | loadLevel j p _ | subReaders j p _ _ =>
      cases hr
      cases hconf
      rw [← hb]
      first | exact hk.2 | exact hk.2.1
    | _ => cases hconf
  · cases p with
    | subReaders j p _ l =>
      cases hr
      cases hl
      obtain ⟨-, -, -, c', hc', hmem⟩ := hk
      rw [hc] at hc'
      cases hc'
      exact hmem
    | _ => cases hl

def crowdConfig : HazardConfig := { roomyConfig with uintBits := 32 }

/-- A whole call that sets the tag "a" in an empty list. -/
def addTag : List Choice := .write (.setTagLevel (some [97]) 1) :: List.replicate 17 (.go true)

/-- Task 1 looks the tag up after task 0 has set it. -/
def readTurns : List (ℕ × Choice) :=
  addTag.map (Prod.mk 0) ++ (1, .lookup (some [97])) :: List.replicate 8 (1, .go true)

theorem tag_live_while_compared_read : ∃ s : HazardState ℕ, s.Reached crowdConfig ∧
    s.pc 1 = .lookup (some [97]) (.subReaders 0 (some 0) true 1) ∧
    (∀ u job q, s.inside = some (u, job, q) → ¬ q.overwrites 0) ∧
    ∃ b c, (s.heap.node 0).tag = some b ∧ s.heap.block b = some c ∧
      (∀ configured, some (some 0) = some configured → configured = some b) ∧
      ∀ level, some 1 = some level → (0, c, level) ∈ s.heap.settings := by
  have hseen : (HazardState.init.run crowdConfig readTurns).map (fun s => s.pc 1) =
      some (.lookup (some [97]) (.subReaders 0 (some 0) true 1)) := by
    decide +kernel
  obtain ⟨s, hs, hpc⟩ := Option.map_eq_some_iff.mp hseen
  have hreached : s.Reached crowdConfig :=
    HazardState.reached_run (T := {0, 1}) (by decide) (by decide) hs
  exact ⟨s, hreached, hpc, tag_live_while_compared hreached hpc rfl⟩

/-! ### A counter that overflows -/

abbrev HazardState.Reachable (cfg : HazardConfig) (s : HazardState Tid) : Prop :=
  Reach .init (HazardState.Next cfg) (fun _ => True) s

theorem HazardState.Reachable.run {turns : List (Tid × Choice)} (h : s.Reachable cfg)
    (hrun : s.run cfg turns = some s') : s'.Reachable cfg :=
  (HazardState.reach_run (I := fun _ => True) (fun _ h => h) (fun _ _ _ _ _ _ => trivial) h trivial
    hrun).1

/-- One more lookup counts itself in and finds the node active. -/
theorem HazardState.Reachable.enter (h : s.Reachable cfg) (ht : s.pc t = .idle) {i : ℕ}
    (tag : Option (List UInt8)) (hcount : s.heap.activeCount ≠ 0) (hhead : s.heap.head = some i)
    (hact : (s.heap.node i).active = true) :
    HazardState.Reachable cfg ⟨s.heap.addReaders cfg i, s.inside,
      Function.update s.pc t (.lookup tag (.loadTag i))⟩ := by
  have hact' : ((s.heap.addReaders cfg i).node i).active = true := by
    rw [TagHeap.addReaders, TagHeap.node_storeReaders, if_pos rfl]
    exact hact
  have hrun : s.run cfg ((t, .lookup tag) :: List.replicate 5 (t, .go true)) =
      some ⟨s.heap.addReaders cfg i, s.inside,
        Function.update s.pc t (.lookup tag (.loadTag i))⟩ := by
    simp [HazardState.run, List.replicate, HazardState.step, taskStep, lookupStep, ht, hcount, hhead,
      hact, hact', LookupPc.walk, Function.update_idem]
  exact h.run hrun

/-- The tag is cleared, and its node taken for the tag "b" as far as freeing the
string of the first. -/
def retakeTag : List Choice :=
  .write (.clearTagLevel (some [97])) :: List.replicate 6 (.go true) ++
    .write (.setTagLevel (some [98]) 2) :: List.replicate 13 (.go true)

def taggedHeap : TagHeap :=
  ((HazardState.init.run crowdConfig (addTag.map (Prod.mk 0))).map HazardState.heap).getD .init

theorem tagged_run : ∃ s : HazardState ℕ, s.Reachable crowdConfig ∧ s.heap = taggedHeap ∧
    s.inside = none ∧ ∀ u, s.pc u = .idle := by
  have hseen : (HazardState.init.run crowdConfig (addTag.map (Prod.mk 0))).map
      (fun s => (s.inside.isNone, s.pc 0)) = some (true, .idle) := by
    decide +kernel
  obtain ⟨r, hr, hseen⟩ := Option.map_eq_some_iff.mp hseen
  have hheap : r.heap = taggedHeap := by
    unfold taggedHeap
    rw [hr]
    rfl
  obtain ⟨s, hs, -, -, -, hother⟩ := HazardState.run_local hr (s := .init) rfl rfl rfl
  have hrs : r = s := Option.some.inj (hr.symm.trans hs)
  simp only [Prod.mk.injEq, Option.isNone_iff_eq_none] at hseen
  refine ⟨r, HazardState.Reachable.run .init hr, hheap, hseen.1, fun u => ?_⟩
  by_cases hu : u = 0
  · rw [hu]
    exact hseen.2
  · rw [hrs, hother u hu]
    rfl

theorem tagged_node : taggedHeap.activeCount = 1 ∧ taggedHeap.head = some 0 ∧
    taggedHeap.node 0 = ⟨none, some 0, 1, true, 0⟩ := by
  decide +kernel

/-- `k` lookups at once, all past the second check of the node. -/
theorem crowd (k : ℕ) : ∃ s : HazardState ℕ, s.Reachable crowdConfig ∧
    s.heap = taggedHeap.storeReaders 0 (k % 2 ^ 32) ∧ s.inside = none ∧
    (∀ u, 1 ≤ u → u ≤ k → s.pc u = .lookup (some [97]) (.loadTag 0)) ∧
    ∀ u, u = 0 ∨ k < u → s.pc u = .idle := by
  obtain ⟨hcount, hhead, hnode⟩ := tagged_node
  induction k with
  | zero =>
    obtain ⟨s, hs, hheap, hinside, hpc⟩ := tagged_run
    have hzero : taggedHeap.storeReaders 0 0 = taggedHeap := by
      have hsame : Function.update taggedHeap.node 0 { taggedHeap.node 0 with readers := 0 } =
          taggedHeap.node := by
        rw [Function.update_eq_self_iff, hnode]
      unfold TagHeap.storeReaders TagHeap.setNode
      rw [hsame]
    refine ⟨s, hs, ?_, hinside, fun u h₁ h₀ => by omega, fun u _ => hpc u⟩
    rw [hheap, Nat.zero_mod, hzero]
  | succ k ih =>
    obtain ⟨s, hs, hheap, hinside, hpc, hidle⟩ := ih
    have hactive : (s.heap.node 0).active = true := by
      rw [hheap, TagHeap.node_storeReaders, if_pos rfl, hnode]
    have hentered := hs.enter (hidle (k + 1) (Or.inr (Nat.lt_succ_self k))) (some [97])
      (by rw [hheap]; exact hcount ▸ nofun) (by rw [hheap]; exact hhead) hactive
    refine ⟨_, hentered, ?_, hinside, fun u h₁ hk => ?_, fun u hu => ?_⟩
    · have hreaders : (s.heap.node 0).readers = k % 2 ^ 32 := by
        rw [hheap, TagHeap.node_storeReaders, if_pos rfl]
      have hnext : ((s.heap.node 0).readers + 1) % 2 ^ crowdConfig.uintBits = (k + 1) % 2 ^ 32 := by
        rw [hreaders]
        exact Nat.mod_add_mod k (2 ^ 32) 1
      dsimp only
      rw [TagHeap.addReaders, hnext, hheap]
      unfold TagHeap.storeReaders TagHeap.setNode
      simp [Function.update_idem]
    · by_cases huk : u = k + 1
      · rw [huk]
        exact Function.update_self ..
      · exact (Function.update_of_ne huk _ _).trans (hpc u h₁ (by omega))
    · have huk : u ≠ k + 1 := by omega
      exact (Function.update_of_ne huk _ _).trans (hidle u (by omega))

/-- With one lookup for each value of the counter the writer sees none of them,
and frees the tag they are about to compare. -/
theorem tag_freed_under_crowd : ∃ s : HazardState ℕ, s.Reachable crowdConfig ∧
    s.pc 1 = .lookup (some [97]) (.loadTag 0) ∧
    (∃ u job q, s.inside = some (u, job, q) ∧ q.overwrites 0) ∧ s.heap.contents 0 = none := by
  obtain ⟨s, hs, hheap, hinside, hpc, hidle⟩ := crowd (2 ^ 32)
  rw [Nat.mod_self] at hheap
  have hseen : (HazardState.run crowdConfig (retakeTag.map (Prod.mk 0))
      ⟨taggedHeap.storeReaders 0 0, none, fun _ => .idle⟩).map
      (fun r => (r.inside, r.heap.contents 0)) =
        some (some (0, .set [98] 2 (some 1), .storeTag 0), none) := by
    decide +kernel
  obtain ⟨r, hr, hseen⟩ := Option.map_eq_some_iff.mp hseen
  obtain ⟨s', hrun, hheap', hinside', -, hother⟩ := HazardState.run_local hr hheap hinside
    (hidle 0 (Or.inl rfl))
  rw [Prod.mk.injEq] at hseen
  refine ⟨s', hs.run hrun, ?_, ⟨0, _, _, hinside'.trans hseen.1, rfl⟩, ?_⟩
  · rw [hother 1 nofun]
    exact hpc 1 (Nat.le_refl 1) Nat.one_le_two_pow
  · rw [hheap']
    exact hseen.2

end On9log
