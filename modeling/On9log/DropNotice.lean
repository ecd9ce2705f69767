import On9log.DropAccounting

/-!
# Who hears of a drop

The dropped counter is cleared before the emit lock is taken, and only under
the lock is it known whether a sink is registered. Each count taken from the
counter is carried by one DROPPED packet (`cleared_run`); `Heard` says that
these packets reach a sink as long as no thread takes the lock with a count in
hand while the table is empty.
-/

namespace On9log
open Lib

section Runs

variable {Tid : Type} [DecidableEq Tid] {cfg : Config}

structure Heard (cfg : Config) (es : List Ev) (g : Tid → Debt) : Prop where
  funded : ∀ t, (g t).inside = true → (g t).taken ≠ 0 →
    registered cfg (wireOf cfg es).table ≠ []
  current : ∀ t s, (g t).inside = true → (g t).taken ≠ 0 →
    (wireOf cfg es).current = some s → s.sinks ≠ []
  sent : ∀ s ∈ (wireOf cfg es).sent, s.pkt.dropCount ≠ 0 → s.sinks ≠ []

omit [DecidableEq Tid] in
theorem heard_init : Heard cfg [] (fun _ : Tid => Debt.none) where
  funded _ hin := by cases hin
  current _ _ hin := by cases hin
  sent _ hs := by cases hs

omit [DecidableEq Tid] in
theorem Heard.keep {es : List Ev} {g g' : Tid → Debt} (h : Heard cfg es g) {e : Ev}
    (hw : wireOf cfg (es ++ [e]) = wireOf cfg es)
    (hg : ∀ t, (g' t).inside = true → (g' t).taken ≠ 0 →
      (g t).inside = true ∧ (g t).taken ≠ 0) : Heard cfg (es ++ [e]) g' where
  funded t hin ht := by
    rw [hw]
    exact h.funded t (hg t hin ht).1 (hg t hin ht).2
  current t s hin ht hs := by
    rw [hw] at hs
    exact h.current t s (hg t hin ht).1 (hg t hin ht).2 hs
  sent := by
    rw [hw]
    exact h.sent

/-- Only the holder is inside. -/
theorem Books.inside_unique {s : Shared Tid} {es : List Ev} {g : Tid → Debt}
    (h : Books cfg s es g) {t u : Tid} (ht : (g t).inside = true) (hu : (g u).inside = true) :
    u = t := by
  have hot := (h.inside t).mp ht
  have hou := (h.inside u).mp hu
  rw [hot] at hou
  exact (Option.some.inj hou).symm

theorem Heard.act {s : Shared Tid} {es : List Ev} {g : Tid → Debt} {t : Tid} {e : Ev} {d : Debt}
    (h : Heard cfg es g) (hb : Books cfg s es g) (hd : debtStep (g t) e d)
    (hfree : e.op = .emitLock → s.emitOwner = none)
    (hlock : e.op = .emitLock → (g t).taken ≠ 0 → registered cfg (wireOf cfg es).table ≠ []) :
    Heard cfg (es ++ [e]) (Function.update g t d) := by
  have hplain : wireOf cfg (es ++ [e]) = wireOf cfg es →
      (d.inside = true → d.taken ≠ 0 → (g t).inside = true ∧ (g t).taken ≠ 0) →
      Heard cfg (es ++ [e]) (Function.update g t d) := by
    intro hw hdg
    refine h.keep hw fun u hin ht => ?_
    by_cases hu : u = t
    · subst hu
      rw [Function.update_self] at hin ht
      exact hdg hin ht
    · rw [Function.update_of_ne hu] at hin ht
      exact ⟨hin, ht⟩
  -- while `t` holds the lock, what is said of the holder is said of `t`
  have hheld : ∀ u, (g t).inside = true → (Function.update g t d u).inside = true → u = t := by
    intro u ht hin
    by_cases hu : u = t
    · exact hu
    · rw [Function.update_of_ne hu] at hin
      exact hb.inside_unique ht hin
  obtain ⟨o, r⟩ := e
  cases o
  case exchangeDropped =>
    obtain ⟨hin, -, rfl⟩ := hd
    refine hplain (wireOf_snoc _ _) fun hin' _ => ?_
    rw [show (g t).inside = true from hin'] at hin
    cases hin
  case emitLock =>
    obtain ⟨-, rfl⟩ := hd
    have hw : wireOf cfg (es ++ [⟨.emitLock, r⟩]) = wireOf cfg es := wireOf_snoc _ _
    have hidle := hb.idle (hfree rfl)
    have hout : ∀ u, u ≠ t →
        (Function.update g t { g t with inside := true } u).inside ≠ true := by
      intro u hu hin
      rw [Function.update_of_ne hu] at hin
      have ho := (hb.inside u).mp hin
      rw [hfree rfl] at ho
      cases ho
    refine ⟨fun u hin ht => ?_, fun u s' _ _ hs => ?_, ?_⟩
    · by_cases hu : u = t
      · subst hu
        rw [Function.update_self] at ht
        rw [hw]
        exact hlock rfl ht
      · exact absurd hin (hout u hu)
    · rw [hw, hidle] at hs
      cases hs
    · rw [hw]
      exact h.sent
  case emitUnlock =>
    obtain ⟨-, -, rfl⟩ := hd
    exact hplain (wireOf_snoc _ _) fun hin _ => by cases hin
  case storeSlot =>
    obtain ⟨hin, hz, rfl⟩ := hd
    have hzero : ∀ u, (Function.update g t (g t) u).inside = true →
        (Function.update g t (g t) u).taken = 0 := by
      intro u hu
      rw [hheld u hin hu, Function.update_self]
      exact hz
    refine ⟨fun u hu ht => absurd (hzero u hu) ht, fun u s' hu ht _ => absurd (hzero u hu) ht, ?_⟩
    rw [wireOf_snoc]
    exact h.sent
  case stream call =>
    cases call with
    | start origin header =>
      obtain ⟨hin, -, rfl⟩ := hd
      refine ⟨fun u hu ht => ?_, fun u s' hu ht hs => ?_, ?_⟩
      · have hut := hheld u hin hu
        subst hut
        rw [Function.update_self] at ht
        rw [wireOf_snoc]
        exact h.funded u hin ht
      · have hut := hheld u hin hu
        subst hut
        rw [Function.update_self] at ht
        rw [wireOf_snoc] at hs
        rw [← Option.some.inj hs]
        exact h.funded u hin ht
      · rw [wireOf_snoc]
        exact h.sent
    | payload c =>
      obtain ⟨hin, rfl⟩ := hd
      refine ⟨fun u hu ht => ?_, fun u s' hu ht hs => ?_, ?_⟩
      · have hut := hheld u hin hu
        subst hut
        rw [Function.update_self] at ht
        rw [wireOf_snoc]
        exact h.funded u hin ht
      · have hut := hheld u hin hu
        subst hut
        rw [Function.update_self] at ht
        rw [wireOf_snoc] at hs
        obtain ⟨s₀, hs₀, rfl⟩ := Option.map_eq_some_iff.mp hs
        exact h.current u s₀ hin ht hs₀
      · rw [wireOf_snoc]
        exact h.sent
    | finish =>
      obtain ⟨hin, ⟨pkt, hpkt, hcount⟩, rfl⟩ := hd
      have hzero : ∀ u, (Function.update g t { g t with taken := 0, current := none } u).inside
          = true → (Function.update g t { g t with taken := 0, current := none } u).taken = 0 := by
        intro u hu
        rw [hheld u hin hu, Function.update_self]
      refine ⟨fun u hu ht => absurd (hzero u hu) ht, fun u s' hu ht _ => absurd (hzero u hu) ht, ?_⟩
      rw [wireOf_snoc]
      intro s' hs hne
      rcases List.mem_append.mp hs with hs | hs
      · exact h.sent s' hs hne
      · have hcur := Option.mem_toList.mp hs
        have hwire := hb.wire hin
        rw [hpkt, hcur] at hwire
        have hp : pkt = s'.pkt := Option.some.inj hwire
        rw [← hp, hcount] at hne
        exact h.current t s' hin hne hcur
  all_goals
    obtain rfl := hd
    exact hplain (wireOf_snoc _ _) fun hin ht => ⟨hin, ht⟩

variable {c : Lib.Config Tid Call Op Op.Ret Res (Shared Tid)}
  {tr : List (Label Tid Call Op Op.Ret Res)}

/-- The DROPPED packets that were delivered to a sink. -/
def heard (sent : List Sent) : List Sent := sent.filter fun s => !s.sinks.isEmpty

/-- Every non-zero count taken from the counter is carried by a DROPPED packet
of its own that was delivered to a registered sink, or is still being sent. -/
def DropsHeard (cfg : Config) (tr : List (Label Tid Call Op Op.Ret Res)) : Prop :=
  ∃ P, SumIs (fun t => owed (takenBy (callEvents t tr))) P ∧
    cleared (actEvents tr) = reports (heard (wireOf cfg (actEvents tr)).sent) + P

/-- No thread takes the emit lock for a DROPPED packet while no sink is registered. -/
def SinkAtNotices (cfg : Config) : List (Label Tid Call Op Op.Ret Res) → Prop
  | [] => True
  | .invoke _ _ :: tr => SinkAtNotices cfg tr
  | .ret _ _ _ :: tr => SinkAtNotices cfg tr
  | .act t e :: tr => (e.op = .emitLock → takenBy (callEvents t tr) ≠ 0 →
      registered cfg (wireOf cfg (actEvents tr)).table ≠ []) ∧ SinkAtNotices cfg tr

instance decidableSinkAtNotices : (tr : List (Label Tid Call Op Op.Ret Res)) →
    Decidable (SinkAtNotices cfg tr)
  | [] => isTrue trivial
  | .invoke _ _ :: tr => decidableSinkAtNotices tr
  | .ret _ _ _ :: tr => decidableSinkAtNotices tr
  | .act _ _ :: tr =>
    have := decidableSinkAtNotices tr
    inferInstanceAs (Decidable (_ ∧ _))

theorem heard_run (h : (system Tid cfg).Run c tr) (hsink : SinkAtNotices cfg tr) :
    ∀ s ∈ (wireOf cfg (actEvents tr)).sent, s.pkt.dropCount ≠ 0 → s.sinks ≠ [] := by
  have hcall : ∀ call es v, (body cfg call).Path es v →
      Steps debtStep Debt.none es Debt.none := fun _ _ _ hp => (serial_body hp).steps_debt
  have key := h.invariant debtStep_functional hcall
    (I := fun s tr g => Books cfg s (actEvents tr) g ∧
      (∀ t, (g t).taken = takenBy (callEvents t tr)) ∧
      (SinkAtNotices cfg tr → Heard cfg (actEvents tr) g))
    ⟨books_init, fun _ => rfl, fun _ => heard_init⟩ ?_ ?_ ?_
  · obtain ⟨g, -, -, -, hheard⟩ := key
    exact (hheard hsink).sent
  · intro s tr g t call ⟨hb, htk, hh⟩ hg
    refine ⟨hb, fun u => ?_, hh⟩
    by_cases hu : t = u
    · subst hu
      rw [hg]
      simp [callEvents, Debt.none, takenBy]
    · simpa [callEvents, hu] using htk u
  · intro s tr g t call v ⟨hb, htk, hh⟩ hg
    refine ⟨hb, fun u => ?_, hh⟩
    by_cases hu : t = u
    · subst hu
      rw [hg]
      simp [callEvents, Debt.none, takenBy]
    · simpa [callEvents, hu] using htk u
  · intro s tr g t e d s' ⟨hb, htk, hh⟩ hd hs
    refine ⟨hb.act hd hs, fun u => ?_, fun hsink => ?_⟩
    · by_cases hu : t = u
      · subst hu
        have hsnoc : callEvents t (.act t e :: tr) = callEvents t tr ++ [e] := by
          simp [callEvents]
        rw [Function.update_self, debtStep_taken hd, hsnoc, htk t]
        unfold takenBy
        rw [List.foldl_append]
        rfl
      · have hne : u ≠ t := fun h => hu h.symm
        simpa [callEvents, hu, Function.update_of_ne hne] using htk u
    · refine (hh hsink.2).act hb hd ?_ ?_
      · intro ho
        obtain ⟨o, r⟩ := e
        obtain rfl : o = .emitLock := ho
        exact hs.1
      · intro ho ht
        obtain ⟨o, r⟩ := e
        obtain rfl : o = .emitLock := ho
        rw [htk t] at ht
        exact hsink.1 rfl ht

theorem reports_heard {sent : List Sent}
    (h : ∀ s ∈ sent, s.pkt.dropCount ≠ 0 → s.sinks ≠ []) : reports (heard sent) = reports sent := by
  induction sent with
  | nil => rfl
  | cons s sent ih =>
    have ih' := ih fun x hx => h x (List.mem_cons_of_mem _ hx)
    have hs := h s (List.mem_cons_self ..)
    unfold reports heard at ih' ⊢
    by_cases he : s.sinks = []
    · have hz : s.pkt.dropCount = 0 := by
        by_contra hne
        exact hs hne he
      have hnone : owed s.pkt.dropCount = 0 := if_pos hz
      simp [he, hnone, ih']
    · simp [he, ih']

end Runs

end On9log
