import On9log.DropAccounting

/-!
# From a call to the wire

`sentPackets` are the packets a call handed to the stream. A packet that a call
emitted is on the wire (`packet_sent`), at whatever moment of the run the call
did so and whatever the other threads did meanwhile.
-/

namespace On9log
open Lib

variable {Tid : Type} [DecidableEq Tid] {cfg : Config}
  {c : Lib.Config Tid Call Op Op.Ret Res (Shared Tid)}
  {tr : List (Label Tid Call Op Op.Ret Res)} {t : Tid}

/-! ### The packets of a call -/

def gather (p : Option Packet × List Packet) : StreamCall → Option Packet × List Packet
  | .start origin header => (some ⟨origin, header, []⟩, p.2)
  | .payload c => (p.1.map (Packet.addChunk c), p.2)
  | .finish => (none, p.2 ++ p.1.toList)

def sentPackets (es : List Ev) : List Packet := ((streamCalls es).foldl gather (none, [])).2

theorem foldl_gather_chunks (pkt : Packet) (pkts : List Packet) (cs : List Chunk) :
    (cs.map StreamCall.payload).foldl gather (some pkt, pkts) =
      (some { pkt with chunks := pkt.chunks ++ cs }, pkts) := by
  induction cs generalizing pkt with
  | nil => simp
  | cons c cs ih =>
    rw [List.map_cons, List.foldl_cons]
    have hstep : gather (some pkt, pkts) (.payload c) = (some (pkt.addChunk c), pkts) := rfl
    rw [hstep, ih]
    simp [Packet.addChunk]

theorem foldl_gather_packets (done pkts : List Packet) :
    (pkts.flatMap Packet.streamCalls).foldl gather (none, done) = (none, done ++ pkts) := by
  induction pkts generalizing done with
  | nil => simp
  | cons pkt pkts ih =>
    have hone : pkt.streamCalls.foldl gather (none, done) = (none, done ++ [pkt]) := by
      unfold Packet.streamCalls
      rw [List.cons_append, List.foldl_cons, List.foldl_append]
      have hstart : gather (none, done) (.start pkt.origin pkt.header) =
          (some ⟨pkt.origin, pkt.header, []⟩, done) := rfl
      rw [hstart, foldl_gather_chunks]
      rfl
    rw [List.flatMap_cons, List.foldl_append, hone, ih]
    simp

theorem Effects.sentPackets {es : List Ev} {pkts : List Packet} {d : ℕ} {enq : List (List UInt8)}
    (h : Effects es pkts d enq) : sentPackets es = pkts := by
  unfold On9log.sentPackets
  rw [h.streams, foldl_gather_packets]
  rfl

/-! ### On the wire -/

/-- Packets that were sent stay sent. -/
theorem sent_mono (cfg : Config) (es₁ es₂ : List Ev) :
    (wireOf cfg es₁).sent <+: (wireOf cfg (es₁ ++ es₂)).sent := by
  rw [wireOf_append]
  generalize wireOf cfg es₁ = w
  induction es₂ generalizing w with
  | nil => exact List.prefix_rfl
  | cons e es₂ ih =>
    have hstep : w.sent <+: (wireStep cfg w e).sent := by
      obtain ⟨o, r⟩ := e
      cases o
      case stream call =>
        cases call with
        | start origin header => exact List.prefix_rfl
        | payload c => exact List.prefix_rfl
        | finish => exact List.prefix_append _ _
      all_goals exact List.prefix_rfl
    exact hstep.trans (ih _)

/-- What thread `t` was sending when it ended a packet. -/
theorem finish_sent (h : (system Tid cfg).Run c tr) {tr₁ : List (Label Tid Call Op Op.Ret Res)}
    (hsuf : (.act t ⟨.stream .finish, ()⟩ :: tr₁) <:+ tr) {pkt : Packet}
    (hdebt : ∀ g, Steps debtStep Debt.none (callEvents t tr₁) g →
      g.inside = true ∧ g.current = some pkt) :
    ∃ s ∈ (wireOf cfg (actEvents tr)).sent, s.pkt = pkt := by
  obtain ⟨tr₂, rfl⟩ := hsuf
  obtain ⟨c₂, h₂⟩ := h.suffix
  obtain ⟨c₁, h₁⟩ := h₂.tail
  obtain ⟨g, hg, hbooks⟩ := exists_books h₁
  obtain ⟨hin, hcur⟩ := hdebt (g t) (hg t)
  have hwire := hbooks.wire hin
  rw [hcur] at hwire
  obtain ⟨s, hs, rfl⟩ := Option.map_eq_some_iff.mp hwire.symm
  refine ⟨s, ?_, rfl⟩
  rw [actEvents_append]
  apply (sent_mono cfg _ _).subset
  rw [actEvents, wireOf_snoc]
  show s ∈ (wireOf cfg (actEvents tr₁)).sent ++ (wireOf cfg (actEvents tr₁)).current.toList
  rw [hs]
  simp

theorem packet_sent (h : (system Tid cfg).Run c tr) {es₁ es es₂ : List Ev} {pkt : Packet}
    (hes : callEvents t tr = es₁ ++ (es ++ es₂)) (hem : Emission cfg pkt es) :
    ∃ s ∈ (wireOf cfg (actEvents tr)).sent, s.pkt = pkt := by
  obtain ⟨slots, b, ⟨num, body, hnum, hbody, rfl⟩, rfl⟩ := hem
  have hsplit : callEvents t tr = (es₁ ++ ⟨.emitLock, ()⟩ ::
      (slotReads slots (List.range cfg.maxSinks) ++ (num ++
        (broadcast (live slots (List.range cfg.maxSinks)) (.start pkt.origin pkt.header) ++
          (body ++ (live slots (List.range cfg.maxSinks)).map fun e => ⟨.call e .endCb, ()⟩))))) ++
      ⟨.stream .finish, ()⟩ :: (⟨.emitUnlock, ()⟩ :: es₂) := by
    rw [hes]
    simp [finishing]
  obtain ⟨tr₁, tr₂, rfl, hev, -⟩ := callEvents_split hsplit
  refine finish_sent h (List.suffix_append _ _) fun g hg => ?_
  rw [hev] at hg
  obtain ⟨g₁, -, g₂, ⟨-, rfl⟩, hg⟩ := steps_append.mp hg
  obtain ⟨g₃, hr, hg⟩ := steps_append.mp hg
  rw [steps_unique debtStep_functional hr (steps_debt_reads _)] at hg
  obtain ⟨g₄, hn, hg⟩ := steps_append.mp hg
  rw [steps_unique debtStep_functional hn (hnum.steps_debt _)] at hg
  -- the start of the packet says that none was in progress
  have hnone : g₁.current = none := by
    obtain ⟨g₅, ⟨g₆, hs, -⟩, -⟩ := steps_append.mp hg
    exact hs.2.1
  have hfwd := steps_debt_packet hbody g₁.taken
  obtain ⟨v, inside, current⟩ := g₁
  obtain rfl : current = none := hnone
  rw [steps_unique debtStep_functional hg hfwd]
  exact ⟨rfl, rfl⟩

end On9log
