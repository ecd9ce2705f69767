import On9log.Delivery

/-!
# Every reachable moment of a run

A run is serial under the emit lock, so its events are settled sections and
the beginning of one more. `Settled.sec` takes a complete section, and
`Settled.part` cuts one anywhere; `progress_run` puts both together for all
interleavings of all calls.
-/

namespace On9log
open Lib Lib.LittleEndian

/-! ### Sections of the sink table -/

section Table

variable {cfg : Config} {es b l : List Ev} {x x' : Emit} {e : SinkEntry} {r : Err}

theorem silent_onlyLoads (h : OnlyLoads b) : Silent b := by
  intro e he
  obtain ⟨i, hi⟩ := h e he
  rw [hi]
  exact ⟨by simp, by simp, by simp⟩

theorem silent_store (h : OnlyLoads l) (i : ℕ) (e : SinkEntry) :
    Silent (l ++ [⟨.storeSlot i e, ()⟩]) := by
  intro ev hev
  rcases List.mem_append.mp hev with hev | hev
  · exact silent_onlyLoads h ev hev
  · rw [List.mem_singleton.mp hev]
    exact ⟨by simp, by simp, by simp⟩

theorem Settled.loads (h : Settled cfg es x) (hl : OnlyLoads b)
    (hs : Steps (emitStep cfg) x b x') : Settled cfg (es ++ b) x' := by
  obtain ⟨hx, -⟩ := steps_onlyLoads hl hs
  refine h.silent (silent_onlyLoads hl) hs ?_ ?_
  · rw [hx]
    exact h.ok
  · rw [hx]

theorem Settled.store {i : ℕ} (h : Settled cfg es x) (hl : OnlyLoads l)
    (hs : Steps (emitStep cfg) x (l ++ [⟨.storeSlot i e, ()⟩]) x')
    (hok : TableIs x.sinks l → TableOk cfg (Function.update x.sinks i e)) :
    Settled cfg (es ++ (l ++ [⟨.storeSlot i e, ()⟩])) x' := by
  obtain ⟨x₁, h₁, x₂, h₂, h₃⟩ := steps_append.mp hs
  obtain ⟨hx₁, ht⟩ := steps_onlyLoads hl h₁
  have hx' : x' = { x with sinks := Function.update x.sinks i e } := by
    rw [show x' = x₂ from h₃, show x₂ = _ from h₂, hx₁]
  refine h.silent (silent_store hl i e) hs ?_ ?_
  · rw [hx']
    exact hok ht
  · rw [hx']

theorem Settled.add (h : Settled cfg es x) (he : e.sink ≠ 0) (hb : AddSection cfg e r b)
    (hs : Steps (emitStep cfg) x b x') : Settled cfg (es ++ b) x' := by
  cases hb with
  | present _ hl _ => exact h.loads hl hs
  | inserted l i hl hi hnew =>
    refine h.store hl hs fun ht => ?_
    exact h.ok.insert he (hnew _ ht).1
  | full _ hl _ => exact h.loads hl hs

theorem Settled.remove (h : Settled cfg es x) (hb : RemoveSection cfg e r b)
    (hs : Steps (emitStep cfg) x b x') : Settled cfg (es ++ b) x' := by
  cases hb with
  | removed l i hl hi _ => exact h.store hl hs fun _ => h.ok.remove i
  | absent _ hl _ => exact h.loads hl hs

/-- A proper beginning of a table section only reads. -/
theorem onlyLoads_of_append {b b' : List Ev} (hb' : b' ≠ []) (h : TableSection (b ++ b')) :
    OnlyLoads b := by
  rcases h with h | ⟨l, i, e, hl, heq⟩
  · exact fun ev hev => h ev (List.mem_append_left _ hev)
  · obtain rfl | ⟨b₁, last, rfl⟩ := List.eq_nil_or_concat' b'
    · exact absurd rfl hb'
    · rw [← List.append_assoc] at heq
      obtain ⟨heq, -⟩ := List.append_inj' heq rfl
      exact fun ev hev => hl ev (heq ▸ List.mem_append_left _ hev)

end Table

theorem Settled.sec {cfg : Config} {es b : List Ev} {x x' : Emit} {v : ℕ}
    (h : Settled cfg es x) (hb : CoreSection cfg v b) (hs : Steps (emitStep cfg) x b x') :
    Settled cfg (es ++ b) x' := by
  cases hb with
  | packet slots pkt _ hsec hp => exact h.packet hsec hp hs
  | add e r _ he hadd => exact h.add he hadd hs
  | remove e r _ _ hrem => exact h.remove hrem hs

theorem settled_sections {cfg : Config} {secs : List (List Ev)} {es : List Ev} {x x' : Emit}
    (h : Settled cfg es x) (hsec : ∀ b ∈ secs, ∃ v, CoreSection cfg v b)
    (hs : Steps (emitStep cfg) x secs.flatten x') : Settled cfg (es ++ secs.flatten) x' := by
  induction secs generalizing es x with
  | nil =>
    rw [show x' = x from hs, List.flatten_nil, List.append_nil]
    exact h
  | cons b secs ih =>
    obtain ⟨x₁, h₁, h₂⟩ := steps_append.mp hs
    obtain ⟨v, hb⟩ := hsec b (List.mem_cons_self ..)
    have h' := ih (h.sec hb h₁) (fun b hb => hsec b (List.mem_cons_of_mem _ hb)) h₂
    rwa [List.append_assoc] at h'

/-! ### In the middle of a section -/

/-- What `e` has seen: the packets sent while it was registered, then the
beginning of the one in progress. -/
def SeesWhole (w : Wire) (e : SinkEntry) (calls : List SinkCall) : Prop :=
  ∃ part, calls = (w.to e).flatMap Packet.calls ++ part ∧
    (part = [] ∨ ∃ (s : Sent) (pkt : Packet), w.current = some s ∧ e ∈ s.sinks ∧
      pkt.origin = s.pkt.origin ∧ pkt.header = s.pkt.header ∧ part <+: pkt.calls)

structure Progress (cfg : Config) (es : List Ev) (x : Emit) : Prop where
  table : (wireOf cfg es).table = x.sinks
  ok : TableOk cfg x.sinks
  calls : ∀ e, SeesWhole (wireOf cfg es) e (sinkCalls e es)
  numbers : seqNumbers (wireOf cfg es).started =
    (List.range (seqNumbers (wireOf cfg es).started).length).map fun i => i % 65536
  clocks : (sentClocks (wireOf cfg es).started).Sublist (readings es)
  sound : ∀ s ∈ (wireOf cfg es).sent, s.pkt.Sound
  numbered : ∀ s ∈ (wireOf cfg es).started, ∃ num, Numbered s.pkt.origin s.pkt.header num

theorem Settled.started {cfg : Config} {es : List Ev} {x : Emit} (h : Settled cfg es x) :
    (wireOf cfg es).started = (wireOf cfg es).sent := by
  rw [Wire.started, h.idle]
  exact List.append_nil _

/-- Nothing of the next packet has been handed out yet. -/
theorem Settled.before {cfg : Config} {es b : List Ev} {x x' : Emit} (h : Settled cfg es x)
    (hb : ∀ e ∈ b, (∀ c, e.op ≠ .stream c) ∧ ∀ s c, e.op ≠ .call s c)
    (hs : Steps (emitStep cfg) x b x') (hok : TableOk cfg x'.sinks) :
    Progress cfg (es ++ b) x' := by
  obtain ⟨hc, hsent⟩ := foldl_wireStep_noStream cfg (fun e he => (hb e he).1)
    (wireOf cfg es)
  have hstarted : (wireOf cfg (es ++ b)).started = (wireOf cfg es).sent := by
    rw [wireOf_append, Wire.started, hc, hsent]
    exact h.started
  refine ⟨?_, hok, fun e => ⟨[], ?_, Or.inl rfl⟩, ?_, ?_, ?_, ?_⟩
  · rw [wireOf_append]
    exact steps_table hs h.table
  · rw [sinkCalls_append, sinkCalls_noCall (fun e he => (hb e he).2), wireOf_append, Wire.to,
      hsent, List.append_nil, List.append_nil]
    exact h.calls e
  · rw [hstarted]
    exact h.sequence.numbers
  · rw [hstarted, readings_append, h.clocks]
    exact List.sublist_append_left _ _
  · rw [wireOf_append, hsent]
    exact h.sound
  · rw [hstarted]
    exact h.numbered

theorem Settled.progress {cfg : Config} {es : List Ev} {x : Emit} (h : Settled cfg es x) :
    Progress cfg es x := by
  have hp := h.before (b := []) (by simp) rfl h.ok
  rwa [List.append_nil] at hp

/-- Between the header and the end of a packet only its chunks grow. -/
theorem foldl_wireStep_inner (cfg : Config) {b : List Ev} {w : Wire} {s : Sent}
    (hw : w.current = some s) (hb : Inner b) :
    ∃ cs, b.foldl (wireStep cfg) w =
      ⟨w.table, some ⟨⟨s.pkt.origin, s.pkt.header, cs⟩, s.sinks⟩, w.sent⟩ := by
  induction b generalizing w s with
  | nil =>
    refine ⟨s.pkt.chunks, ?_⟩
    cases w
    simp_all
  | cons e b ih =>
    have hb' : Inner b := fun e he => hb e (List.mem_cons_of_mem _ he)
    rcases hb e (List.mem_cons_self ..) with ⟨m, rfl⟩ | ⟨c, rfl⟩ | ⟨s', c, rfl⟩
    · exact ih hw hb'
    · have hstep : (wireStep cfg w ⟨.stream (.payload c), ()⟩).current = some (s.addChunk c) := by
        simp [wireStep, hw]
      obtain ⟨cs, hcs⟩ := ih hstep hb'
      exact ⟨cs, hcs⟩
    · exact ih hw hb'

/-- A packet section cut before its end: either nothing has been handed out,
or the header has and some of what follows it. -/
theorem packetSection_cut {sinks : List SinkEntry} {pkt : Packet} {body pre b b' : List Ev}
    (hb' : b' ≠ []) (h : b ++ b' = pre ++ packetBody sinks pkt body) :
    b <+: pre ∨ ∃ b₁, b = pre ++ (⟨.stream (.start pkt.origin pkt.header), ()⟩ :: b₁) ∧
      b₁ <+: packetInside sinks pkt body := by
  rcases List.append_eq_append_iff.mp h with ⟨a, rfl, -⟩ | ⟨c, rfl, hc⟩
  · exact Or.inl (List.prefix_append _ _)
  rw [packetBody_eq] at hc
  cases c with
  | nil => exact Or.inl (by simp)
  | cons ev b₁ =>
    obtain ⟨rfl, -⟩ := List.cons.inj hc
    refine Or.inr ⟨b₁, rfl, ?_⟩
    obtain rfl | ⟨b₂, last, rfl⟩ := List.eq_nil_or_concat' b'
    · exact absurd rfl hb'
    · rw [← List.append_assoc] at hc
      obtain ⟨hc, -⟩ := List.append_inj' (List.cons.inj hc).2 rfl
      rw [hc]
      exact List.prefix_append _ _

theorem Settled.part_packet {cfg : Config} {es b b' : List Ev} {x x₁ x₂ : Emit}
    (h : Settled cfg es x) {slots : ℕ → SinkEntry} {pkt : Packet}
    (hb : PacketSection cfg slots pkt (b ++ b')) (hb' : b' ≠ [])
    (h₁ : Steps (emitStep cfg) x b x₁) (h₂ : Steps (emitStep cfg) x₁ b' x₂) :
    Progress cfg (es ++ b) x₁ := by
  obtain ⟨num, body, hnum, hem, heq, hs'⟩ :=
    packetSection_steps hb (steps_append.mpr ⟨x₁, h₁, h₂⟩)
  obtain ⟨hsinks, hread, hts, hseq⟩ := steps_numbered hnum hs'
  have hpre : ∀ e ∈ slotReads slots (List.range cfg.maxSinks) ++ num,
      (∃ i slot, e = ⟨.loadSlot i, slot⟩) ∨ (∃ raw, e = ⟨.fetchAddSeq, raw⟩) ∨
        ∃ now, e = ⟨.timestampMs, now⟩ := by
    intro e he
    rcases List.mem_append.mp he with he | he
    · obtain ⟨i, -, rfl⟩ := List.mem_map.mp he
      exact Or.inl ⟨i, _, rfl⟩
    · exact Or.inr (hnum.mem he)
  have hsilent : ∀ e ∈ slotReads slots (List.range cfg.maxSinks) ++ num,
      (∀ c, e.op ≠ .stream c) ∧ ∀ s c, e.op ≠ .call s c := by
    intro e he
    rcases hpre e he with ⟨i, slot, rfl⟩ | ⟨raw, rfl⟩ | ⟨now, rfl⟩ <;>
      exact ⟨by simp, by simp⟩
  have hnostore : x₁.sinks = x.sinks := by
    rw [← steps_table h₁ h.table, ← h.table]
    exact foldl_wireStep_noStore (fun e he => hb.noStore e (List.mem_append_left _ he)) _
  have hok : TableOk cfg x₁.sinks := by
    rw [hnostore]
    exact h.ok
  rw [← List.append_assoc] at heq
  rcases packetSection_cut hb' heq with ⟨a, ha⟩ | ⟨b₁, hbeq, hb₁⟩
  · refine h.before (fun e he => hsilent e ?_) h₁ hok
    rw [← ha]
    exact List.mem_append_left _ he
  · have hinner : Inner b₁ := fun e he => inner_packetInside hem e (hb₁.subset he)
    obtain ⟨cs, hcs⟩ := foldl_wireStep_inner cfg (w := ⟨(wireOf cfg es).table,
      some ⟨⟨pkt.origin, pkt.header, []⟩, registered cfg x.sinks⟩, (wireOf cfg es).sent⟩) rfl hinner
    have hwire : wireOf cfg (es ++ b) = ⟨(wireOf cfg es).table,
        some ⟨⟨pkt.origin, pkt.header, cs⟩, registered cfg x.sinks⟩, (wireOf cfg es).sent⟩ := by
      rw [wireOf_append, hbeq, List.foldl_append, List.foldl_append, foldl_wireStep_slotReads,
        foldl_wireStep_numbered hnum, List.foldl_cons]
      rw [← h.table] at hcs ⊢
      exact hcs
    have hstarted : (wireOf cfg (es ++ b)).started =
        (wireOf cfg es).sent ++ [⟨⟨pkt.origin, pkt.header, cs⟩, registered cfg x.sinks⟩] := by
      rw [hwire]
      rfl
    refine ⟨?_, hok, fun e => ?_, ?_, ?_, ?_, ?_⟩
    · rw [wireOf_append]
      exact steps_table h₁ h.table
    · refine ⟨sinkCalls e b, ?_, ?_⟩
      · rw [hwire, sinkCalls_append, h.calls]
        rfl
      · have hpre : sinkCalls e b <+: if e ∈ registered cfg x.sinks then pkt.calls else [] := by
          rw [← sinkCalls_packetBody (nodup_registered h.ok) hem]
          have hall : sinkCalls e (b ++ b') =
              sinkCalls e (packetBody (registered cfg x.sinks) pkt body) := by
            rw [heq, sinkCalls_append, sinkCalls_append, sinkCalls_slotReads,
              sinkCalls_numbered e hnum]
            rfl
          rw [← hall, sinkCalls_append]
          exact List.prefix_append _ _
        by_cases he : e ∈ registered cfg x.sinks
        · rw [if_pos he] at hpre
          exact Or.inr ⟨_, pkt, by rw [hwire], he, rfl, rfl, hpre⟩
        · rw [if_neg he] at hpre
          exact Or.inl (List.prefix_nil.mp hpre)
    · have hseq' := (h.sequence.snoc (s := ⟨⟨pkt.origin, pkt.header, cs⟩,
        registered cfg x.sinks⟩) hts hseq).numbers
      rw [hstarted]
      exact hseq'
    · have hr : readings (es ++ b) = readings es ++ pkt.clock.toList := by
        have hb₁r : readings b₁ = [] := readings_streaming hinner.streaming
        rw [readings_append, hbeq, readings_append, readings_append, readings_slotReads, hread]
        have hcons : readings (⟨.stream (.start pkt.origin pkt.header), ()⟩ :: b₁) = [] := hb₁r
        rw [hcons, List.append_nil]
        rfl
      have hc : sentClocks ((wireOf cfg es).sent ++
          [⟨⟨pkt.origin, pkt.header, cs⟩, registered cfg x.sinks⟩]) =
          sentClocks (wireOf cfg es).sent ++ pkt.clock.toList := by
        unfold sentClocks
        rw [List.filterMap_append]
        cases hcl : pkt.clock <;> simp [Packet.clock] at hcl ⊢ <;> simp [hcl]
      rw [hstarted, hr, hc, h.clocks]
    · rw [hwire]
      exact h.sound
    · rw [hstarted]
      intro s hs
      rcases List.mem_append.mp hs with hs | hs
      · exact h.numbered s hs
      · rw [List.mem_singleton.mp hs]
        exact ⟨num, hnum⟩

theorem Settled.part {cfg : Config} {es b b' : List Ev} {x x₁ x₂ : Emit} {v : ℕ}
    (h : Settled cfg es x) (hb : CoreSection cfg v (b ++ b'))
    (h₁ : Steps (emitStep cfg) x b x₁) (h₂ : Steps (emitStep cfg) x₁ b' x₂) :
    Progress cfg (es ++ b) x₁ := by
  by_cases hb' : b' = []
  · subst hb'
    rw [List.append_nil] at hb
    exact (h.sec hb h₁).progress
  · have htable : TableSection (b ++ b') → Progress cfg (es ++ b) x₁ := fun hshape =>
      (h.loads (onlyLoads_of_append hb' hshape) h₁).progress
    generalize hall : b ++ b' = all at hb
    cases hb with
    | packet slots pkt _ hsec hp => exact h.part_packet (hall ▸ hsec) hb' h₁ h₂
    | add e r _ _ hadd => exact htable (hall ▸ hadd.tableSection)
    | remove e r _ _ hrem => exact htable (hall ▸ hrem.tableSection)

/-! ### Runs -/

section Runs

variable {Tid : Type} {cfg : Config}

theorem wireStep_unguarded (w : Wire) {e : Ev} (he : (emitLockSpec Tid).guarded e.op = false) :
    wireStep cfg w e = w := by
  obtain ⟨o, r⟩ := e
  cases o
  case storeSlot => cases he
  case stream => cases he
  all_goals rfl

variable (Tid) in
theorem wireOf_filter (es : List Ev) :
    wireOf cfg (es.filter fun e => (emitLockSpec Tid).guarded e.op) = wireOf cfg es := by
  unfold wireOf
  generalize (⟨fun _ => SinkEntry.free, none, []⟩ : Wire) = w
  induction es generalizing w with
  | nil => rfl
  | cons e es ih =>
    cases he : (emitLockSpec Tid).guarded e.op with
    | true => simpa [List.filter_cons, he] using ih (wireStep cfg w e)
    | false => simpa [List.filter_cons, he, wireStep_unguarded w he] using ih w

variable (Tid) in
theorem sinkCalls_filter (e : SinkEntry) (es : List Ev) :
    sinkCalls e (es.filter fun e => (emitLockSpec Tid).guarded e.op) = sinkCalls e es := by
  unfold sinkCalls
  rw [List.filterMap_filter]
  congr
  funext ev
  obtain ⟨o, r⟩ := ev
  cases o <;> rfl

variable [DecidableEq Tid] {c : Lib.Config Tid Call Op Op.Ret Res (Shared Tid)}
  {tr : List (Label Tid Call Op Op.Ret Res)}

theorem settled_closed (h : (system Tid cfg).Run c tr) :
    ∃ x, Settled cfg ((emitLockSpec Tid).closedSections tr).flatten x ∧
      Steps (emitStep cfg) x ((emitLockSpec Tid).openSection tr) c.state.emit := by
  have hs := (emitLockSpec Tid).locked_steps (mutex_emitLock cfg) body_disciplined
    (p := Shared.emit) (m := emitStep cfg) emitStep_of_step emit_of_unguarded h
  obtain ⟨x, h₁, h₂⟩ := steps_append.mp hs
  have hsec := (emitLockSpec Tid).closed_sec (mutex_emitLock cfg) body_disciplined h
  exact ⟨x, settled_sections (settled_nil cfg) hsec h₁, h₂⟩

theorem progress_locked (h : (system Tid cfg).Run c tr) :
    Progress cfg ((emitLockSpec Tid).lockedEvents tr) c.state.emit ∧
      (c.state.emitOwner = none →
        (wireOf cfg ((emitLockSpec Tid).lockedEvents tr)).current = none) := by
  obtain ⟨x, hx, hs⟩ := settled_closed h
  have hown := ((emitLockSpec Tid).run_view (mutex_emitLock cfg) body_disciplined h).1
  unfold LockSpec.lockedEvents
  cases hh : (emitLockSpec Tid).holder tr with
  | none =>
    have ho := (emitLockSpec Tid).openSection_free (mutex_emitLock cfg) body_disciplined h hh
    rw [ho] at hs ⊢
    rw [List.append_nil, show c.state.emit = x from hs]
    exact ⟨hx.progress, fun _ => hx.idle⟩
  | some t =>
    obtain ⟨b', x', ⟨v, hb⟩, hs'⟩ := (emitLockSpec Tid).openSection_completes (mutex_emitLock cfg)
      body_disciplined (total_emitStep cfg) h hh c.state.emit
    refine ⟨hx.part hb hs hs', fun hnone => ?_⟩
    have hown' : c.state.emitOwner = some t := hown.trans hh
    rw [hown'] at hnone
    cases hnone

theorem progress_run (h : (system Tid cfg).Run c tr) :
    Progress cfg (actEvents tr) c.state.emit ∧
      (c.state.emitOwner = none → (wireOf cfg (actEvents tr)).current = none) := by
  obtain ⟨hf, hsub⟩ :=
    (emitLockSpec Tid).filter_lockedEvents (mutex_emitLock cfg) body_disciplined h
  have hw : wireOf cfg (actEvents tr) = wireOf cfg ((emitLockSpec Tid).lockedEvents tr) := by
    rw [← wireOf_filter Tid, hf, wireOf_filter]
  have hc : ∀ e, sinkCalls e (actEvents tr) =
      sinkCalls e ((emitLockSpec Tid).lockedEvents tr) := by
    intro e
    rw [← sinkCalls_filter Tid, hf, sinkCalls_filter]
  obtain ⟨hp, hidle⟩ := progress_locked h
  rw [hw]
  refine ⟨?_, hidle⟩
  refine ⟨?_, hp.ok, fun e => ?_, ?_, ?_, ?_, ?_⟩
  · rw [hw]
    exact hp.table
  · rw [hw, hc]
    exact hp.calls e
  · rw [hw]
    exact hp.numbers
  · rw [hw]
    exact hp.clocks.trans (hsub.filterMap _)
  · rw [hw]
    exact hp.sound
  · rw [hw]
    exact hp.numbered

end Runs

end On9log
