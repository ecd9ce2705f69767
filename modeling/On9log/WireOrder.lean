import On9log.Outcome
import On9log.Progress
import On9log.Solo

/-!
# Packets on the wire: whole, numbered without a gap, in the order of the clock

The packets started in a run carry the numbers 0, 1, 2, … modulo 2^16, TIME_SYNC
packets left out (`Progress.numbers`), so neighbours differ by one, across the
wrap too. Every number a call takes belongs to a packet it sends.
-/

namespace On9log
open Lib Lib.LittleEndian

variable {Tid : Type} [DecidableEq Tid] {cfg : Config}
  {c : Lib.Config Tid Call Op Op.Ret Res (Shared Tid)}
  {tr : List (Label Tid Call Op Op.Ret Res)}

/-! ### Numbers -/

theorem chain_range (a n : ℕ) :
    ((List.range' a n).map fun i => i % 65536).IsChain fun x y => y = (x + 1) % 65536 := by
  induction n generalizing a with
  | zero => exact .nil
  | succ n ih =>
    have hn := ih (a + 1)
    rw [List.range'_succ, List.map_cons]
    cases n with
    | zero => exact .singleton _
    | succ n =>
      rw [List.range'_succ, List.map_cons] at hn ⊢
      refine .cons_cons ?_ hn
      omega

theorem seqNumbers_part {l₁ l₂ : List Sent} (h : l₁ <:+: l₂) :
    seqNumbers l₁ <:+: seqNumbers l₂ := by
  obtain ⟨s, t, rfl⟩ := h
  rw [seqNumbers_append, seqNumbers_append]
  exact ⟨_, _, rfl⟩

theorem chain_of_infix {sent seg : List Sent} (h : seqNumbers sent =
    (List.range (seqNumbers sent).length).map fun i => i % 65536) (hseg : seg <:+: sent) :
    (seqNumbers seg).IsChain fun x y => y = (x + 1) % 65536 := by
  have hall : (seqNumbers sent).IsChain fun x y => y = (x + 1) % 65536 := by
    rw [h, List.range_eq_range']
    exact chain_range 0 _
  exact hall.infix (seqNumbers_part hseg)

/-! ### Times -/

theorem readings_ordered (h : (system Tid cfg).Run c tr) :
    (readings (actEvents tr)).Pairwise (· ≤ ·) ∧ ∀ r ∈ readings (actEvents tr), r ≤ c.state.clock := by
  induction h with
  | init => exact ⟨.nil, by simp [actEvents, readings]⟩
  | invoke t call _ _ ih => exact ih
  | ret t call v _ _ ih => exact ih
  | @act c tr t call o k r s' _ _ hs ih =>
    obtain ⟨hord, hle⟩ := ih
    have hmono : c.state.clock ≤ s'.clock ∧ ∀ now, (⟨o, r⟩ : Ev) = ⟨.timestampMs, now⟩ →
        c.state.clock ≤ now ∧ now = s'.clock := by
      have hs' : step cfg t o r c.state s' := hs
      cases o
      case timestampMs =>
        obtain ⟨hc, rfl⟩ := hs'
        refine ⟨hc, fun now h => ?_⟩
        cases h
        exact ⟨hc, rfl⟩
      case emitLock =>
        obtain ⟨-, rfl⟩ := hs'
        exact ⟨Nat.le_refl _, fun now h => by cases h⟩
      case loadSlot =>
        obtain ⟨-, rfl⟩ := hs'
        exact ⟨Nat.le_refl _, fun now h => by cases h⟩
      case fetchAddSeq =>
        obtain ⟨-, rfl⟩ := hs'
        exact ⟨Nat.le_refl _, fun now h => by cases h⟩
      case exchangeDropped =>
        obtain ⟨-, rfl⟩ := hs'
        exact ⟨Nat.le_refl _, fun now h => by cases h⟩
      all_goals
        obtain rfl := hs'
        exact ⟨Nat.le_refl _, fun now h => by cases h⟩
    have hlast : readings [(⟨o, r⟩ : Ev)] = [] ∨
        ∃ now, (⟨o, r⟩ : Ev) = ⟨.timestampMs, now⟩ ∧ readings [(⟨o, r⟩ : Ev)] = [now] := by
      cases o
      case timestampMs => exact Or.inr ⟨r, rfl, rfl⟩
      all_goals exact Or.inl rfl
    rw [actEvents, readings_append]
    rcases hlast with hlast | ⟨now, heq, hlast⟩
    · rw [hlast, List.append_nil]
      exact ⟨hord, fun x hx => (hle x hx).trans hmono.1⟩
    · obtain ⟨hge, hnow⟩ := hmono.2 now heq
      rw [hlast]
      refine ⟨List.pairwise_append.mpr ⟨hord, List.pairwise_singleton _ _, ?_⟩, ?_⟩
      · intro x hx y hy
        rw [List.mem_singleton.mp hy]
        exact (hle x hx).trans hge
      · intro x hx
        rcases List.mem_append.mp hx with hx | hx
        · exact (hle x hx).trans hmono.1
        · rw [List.mem_singleton.mp hx, hnow]

theorem Numbered.time {type : PacketType} {now : ℕ} {header : List UInt8} {num : List Ev}
    (h : Numbered (.built type now) header num) : headerTimeMs header = now % 2 ^ 32 := by
  cases h with
  | built _ level raw _ tagId fmtId payloadLen _ =>
    rw [headerTimeMs_headerBytes]
    exact UInt32.toNat_ofNat'

/-! ### Calls -/

/-- Filtered out, or rejected. -/
def SendsNothing (cfg : Config) (call : Call) (v : Res) (es : List Ev) : Prop :=
  (∃ level tag, call.filter = some (level, tag) ∧ ¬ Passes cfg level tag es) ∨
    ∃ packet, call = .dispatchPacket packet ∧ v = .err .invalidArg

/-- Dropped, or the dispatch of a TIME_SYNC packet. -/
def SendsUnnumbered (call : Call) (es : List Ev) : Prop :=
  (⟨.addDropped, ()⟩ : Ev) ∈ es ∨ ∃ p, call = .dispatchPacket (some p) ∧
    headerType (p.take packetHeaderLen) = PacketType.timeSync.code

/-- The sequence numbers of one call: one for each packet it sends, but for
TIME_SYNC packets, and none beyond its notice where it has no such packet. -/
def NumbersItsPackets (cfg : Config) (call : Call) (v : Res) (es : List Ev) : Prop :=
  ∃ notices pkts, Notice notices ∧
    streamCalls es = (notices ++ pkts).flatMap Packet.streamCalls ∧
    numbersTaken es = (inSequence (notices ++ pkts)).length ∧
    (SendsNothing cfg call v es → notices ++ pkts = []) ∧
    (SendsUnnumbered call es → inSequence pkts = [])

theorem drops_pos {es : List Ev} (h : (⟨.addDropped, ()⟩ : Ev) ∈ es) : 0 < drops es :=
  List.countP_pos_iff.mpr ⟨_, h, by simp⟩

theorem Outcome.notice {call : Call} {v : Res} {es : List Ev} {notices pkts : List Packet} {d : ℕ}
    {enq : List (List UInt8)} (h : Outcome cfg call v es notices pkts d enq) : Notice notices := by
  cases h with
  | filtered _ _ _ _ _ _ => exact notice_nil
  | emitted _ _ _ _ _ _ _ _ _ hn _ => exact hn
  | dropped _ _ _ _ _ _ _ hn => exact hn
  | enqueued _ _ _ _ _ _ _ _ => exact notice_nil
  | noBackend _ _ _ _ => exact notice_nil
  | relayed _ _ _ _ _ _ _ hn => exact hn
  | boot _ _ _ _ _ => exact notice_nil
  | silent _ _ _ => exact notice_nil

theorem Outcome.sendsNothing {call : Call} {v : Res} {es : List Ev} {notices pkts : List Packet}
    {d : ℕ} {enq : List (List UInt8)} (h : Outcome cfg call v es notices pkts d enq)
    (hnone : SendsNothing cfg call v es) : notices ++ pkts = [] := by
  have hlog : ∀ level tag, call.filter = some (level, tag) → Passes cfg level tag es →
      notices ++ pkts = [] := by
    intro level tag hc hpass
    rcases hnone with ⟨level', tag', hc', hblock⟩ | ⟨packet, rfl, -⟩
    · rw [hc] at hc'
      cases hc'
      exact absurd hpass hblock
    · cases hc
  cases h with
  | filtered _ _ _ _ _ _ => rfl
  | emitted _ _ level tag _ _ hc _ hpass _ _ => exact hlog level tag hc hpass
  | dropped _ _ level tag _ hc hpass _ => exact hlog level tag hc hpass
  | enqueued _ _ _ _ _ _ _ _ => rfl
  | noBackend _ _ _ _ => rfl
  | relayed _ p pkt _ hcall _ _ _ =>
    subst hcall
    rcases hnone with ⟨level, tag, hc, -⟩ | ⟨packet, -, hv⟩
    · cases hc
    · cases hv
  | boot _ _ _ pkt hcall =>
    subst hcall
    rcases hnone with ⟨level, tag, hc, -⟩ | ⟨packet, hc, -⟩
    · cases hc
    · cases hc
  | silent _ _ _ => rfl

theorem Outcome.sendsUnnumbered {call : Call} {v : Res} {es : List Ev}
    {notices pkts : List Packet} {d : ℕ} {enq : List (List UInt8)}
    (h : Outcome cfg call v es notices pkts d enq) (hd : drops es = d)
    (hun : SendsUnnumbered call es) : inSequence pkts = [] := by
  have hdrop : (⟨.addDropped, ()⟩ : Ev) ∈ es → 0 < d := fun hmem => hd ▸ drops_pos hmem
  cases h with
  | filtered _ _ _ _ _ _ => rfl
  | emitted _ _ _ _ _ _ hc _ _ _ _ =>
    rcases hun with hmem | ⟨p, rfl, -⟩
    · exact absurd (hdrop hmem) (Nat.lt_irrefl 0)
    · cases hc
  | dropped _ _ _ _ _ _ _ _ => rfl
  | enqueued _ _ _ _ _ _ _ _ => rfl
  | noBackend _ _ _ _ => rfl
  | relayed _ p pkt _ hcall _ ht _ =>
    rcases hun with hmem | ⟨p', hcall', hsync⟩
    · exact absurd (hdrop hmem) (Nat.lt_irrefl 0)
    · rw [hcall] at hcall'
      cases hcall'
      simp [inSequence, Packet.isTimeSync, ht, hsync]
  | boot _ _ _ pkt hcall =>
    rcases hun with hmem | ⟨p', hcall', -⟩
    · exact absurd (hdrop hmem) (Nat.lt_irrefl 0)
    · rw [hcall] at hcall'
      cases hcall'
  | silent _ _ _ => rfl

theorem Ends.numbers {call : Call} {v : Res} {es : List Ev} (h : Ends cfg call v es) :
    NumbersItsPackets cfg call v es := by
  obtain ⟨notices, pkts, d, enq, hout, heff⟩ := h
  exact ⟨notices, pkts, hout.notice, heff.streams, heff.numbers, hout.sendsNothing,
    hout.sendsUnnumbered heff.drops⟩

/-- The order of packets on the wire, for every interleaving: what each sink
sees is whole packets; packets started while a sink stays registered have
consecutive numbers; clock readings are in order and are what the headers
carry; and no call takes a number it does not send. -/
theorem wire_order (h : (system Tid cfg).Run c tr) :
    (∀ e, SeesWhole (wireOf cfg (actEvents tr)) e (sinkCalls e (actEvents tr))) ∧
    (∀ e seg, seg <:+: (wireOf cfg (actEvents tr)).started → (∀ s ∈ seg, e ∈ s.sinks) →
      (seqNumbers seg).IsChain fun x y => y = (x + 1) % 65536) ∧
    ((sentClocks (wireOf cfg (actEvents tr)).started).Pairwise (· ≤ ·) ∧
      ∀ s ∈ (wireOf cfg (actEvents tr)).started, ∀ type now, s.pkt.origin = .built type now →
        headerTimeMs s.pkt.header = now % 2 ^ 32) ∧
    ∀ t call v tr', (.ret t call v :: tr') <:+ tr →
      NumbersItsPackets cfg call v (callEvents t tr') := by
  obtain ⟨hp, -⟩ := progress_run h
  refine ⟨hp.calls, fun e seg hseg _ => chain_of_infix hp.numbers hseg,
    ⟨(readings_ordered h).1.sublist hp.clocks, fun s hs type now ho => ?_⟩,
    fun t call v tr' hsuf => ?_⟩
  · obtain ⟨num, hnum⟩ := hp.numbered s hs
    rw [ho] at hnum
    exact hnum.time
  · obtain ⟨tr₂, rfl⟩ := hsuf
    obtain ⟨c', h'⟩ := h.suffix
    exact (performs_ret h').ends.numbers

/-- Two BOOT packets for a registered sink. -/
theorem wire_order_two_boots : ∃ c tr, (system ℕ smallConfig).Run c tr ∧
    seqNumbers (wireOf smallConfig (actEvents tr)).started = [0, 1] ∧
    SeesWhole (wireOf smallConfig (actEvents tr)) ⟨1, 7⟩ (sinkCalls ⟨1, 7⟩ (actEvents tr)) := by
  obtain ⟨c, tr, hrun, -, hseq⟩ := run_from_init smallConfig quietWorld (0 : ℕ)
    [.addSink 1 ⟨1, 1, 1⟩ 7, .emitBoot 3 1, .emitBoot 3 1]
    (fun p => seqNumbers (wireOf smallConfig (actEvents p.2)).started) (a := [0, 1]) (by decide +kernel)
  exact ⟨c, tr, hrun, hseq, (wire_order hrun).1 ⟨1, 7⟩⟩

end On9log
