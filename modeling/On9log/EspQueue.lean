import On9log.EspRing
import On9log.IsrTask
import On9log.PayloadLen

/-!
# From the ring buffer to the wire (on9log_esp_isr.c:46-168)

The task of a ring hands the core what the ring took, in this order and each item
once. Where one thread alone initialises the module there is one ring, so what
the ISR calls enqueue goes out in the order it was enqueued.
-/

namespace On9log
open Lib

variable {e : EspBuild} {Tid : Type} {es es₁ es₂ : List EspEv} {r : Ptr}

/-! ### Packets of part of a call -/

theorem gather_mono (st : Option Packet × List Packet) (calls : List StreamCall) :
    st.2 <+: (calls.foldl gather st).2 := by
  induction calls generalizing st with
  | nil => exact List.prefix_refl _
  | cons call calls ih =>
    refine List.IsPrefix.trans ?_ (ih _)
    cases call with
    | start origin header => exact List.prefix_refl _
    | payload c => exact List.prefix_refl _
    | finish => exact List.prefix_append _ _

theorem gather_behind (done : List Packet) (st : Option Packet × List Packet)
    (calls : List StreamCall) :
    calls.foldl gather (st.1, done ++ st.2) =
      ((calls.foldl gather st).1, done ++ (calls.foldl gather st).2) := by
  induction calls generalizing st with
  | nil => rfl
  | cons call calls ih =>
    have hstep : gather (st.1, done ++ st.2) call =
        ((gather st call).1, done ++ (gather st call).2) := by
      cases call with
      | start origin header => rfl
      | payload c => rfl
      | finish => exact congrArg (Prod.mk none) (List.append_assoc ..)
    rw [List.foldl_cons, List.foldl_cons, hstep, ih]

/-- The calls for some packets, up to any point, have sent the first of them. -/
theorem gather_part {calls rest : List StreamCall} {pkts : List Packet}
    (h : calls ++ rest = pkts.flatMap Packet.streamCalls) :
    ∃ k, k <+: pkts ∧ ∀ done, (calls.foldl gather (none, done)).2 = done ++ k := by
  have hall := foldl_gather_packets [] pkts
  rw [← h, List.foldl_append] at hall
  have hpart := gather_mono (calls.foldl gather (none, [])) rest
  rw [hall] at hpart
  refine ⟨_, hpart, fun done => ?_⟩
  have hbehind := gather_behind done (none, []) calls
  rw [List.append_nil] at hbehind
  rw [hbehind]

/-! ### What the core does for the drain task -/

/-- The calls of the stream among the events, the core's own. -/
def espStream (es : List EspEv) : List StreamCall := streamCalls (es.filterMap espSees)

theorem espStream_append (es₁ es₂ : List EspEv) :
    espStream (es₁ ++ es₂) = espStream es₁ ++ espStream es₂ := by
  unfold espStream
  rw [List.filterMap_append, streamCalls_append]

theorem streamCalls_portSees (es : List Ev) :
    streamCalls (es.filterMap portSees) = streamCalls es := by
  unfold streamCalls
  rw [List.filterMap_filterMap]
  refine List.filterMap_congr fun ev _ => ?_
  obtain ⟨o, r⟩ := ev
  cases o
  case isrEnqueuePacket packet => cases r <;> rfl
  all_goals rfl

theorem espStream_expand {α : Type} {p : Core α} {v : α}
    (h : (p.expand espPerform).Path es v) :
    ∃ es', p.Path es' v ∧ espStream es = streamCalls es' := by
  obtain ⟨es', hpath, hex⟩ := Prog.path_expand h
  refine ⟨es', hpath, ?_⟩
  have hsees : es.filterMap espSees = es'.filterMap portSees := by
    clear h hpath
    induction hex with
    | nil => rfl
    | cons ev hb _ ih =>
      rw [List.filterMap_append, sees_espPerform hb, ih, List.filterMap_cons]
      cases portSees ev <;> rfl
  rw [espStream, hsees, streamCalls_portSees]

/-- The packet a packet on the wire was made from elsewhere. -/
def Packet.relays (pkt : Packet) : Option (List UInt8) :=
  match pkt.origin with
  | .relayed packet => some packet
  | .built _ _ => none

/-- The packet is `packet` with a sequence number. -/
def Packet.RelayOf (pkt : Packet) (packet : List UInt8) : Prop :=
  pkt.origin = .relayed packet ∧ pkt.payload = packet.drop packetHeaderLen ∧
    ∃ raw, pkt.header = renumber (packet.take packetHeaderLen) (UInt16.ofNat raw)

theorem IsrPacket.header_bytes {cfg : Config} {packet : List UInt8} (h : IsrPacket cfg packet) :
    packetHeaderLen ≤ packet.length ∧ packet.getD 0 0 = packetMagic ∧
      headerType (packet.take packetHeaderLen) ≠ PacketType.timeSync.code := by
  obtain ⟨level, now, tagId, fmtId, payload, rfl, -, -⟩ := h
  refine ⟨?_, rfl, ?_⟩
  · rw [List.length_append, length_headerBytes]
    exact Nat.le_add_right _ _
  · rw [List.take_left' (length_headerBytes ..), headerType_headerBytes]
    decide

/-- Dispatching a packet of an ISR call sends it, behind at most a notice. -/
theorem dispatch_stream {cfg : Config} {packet : List UInt8} {v : Res} {es : List Ev}
    (hp : IsrPacket cfg packet) (h : (body cfg (.dispatchPacket (some packet))).Path es v) :
    ∃ notices pkt, Notice notices ∧ pkt.RelayOf packet ∧
      streamCalls es = (notices ++ [pkt]).flatMap Packet.streamCalls := by
  obtain ⟨err, hd, -⟩ := path_bind_pure h
  obtain ⟨hlen, hmagic, htype⟩ := hp.header_bytes
  have hok := dispatch_accepts hlen hmagic hd
  have hcall := dispatchCall_dispatchPacket hd
  generalize hpkt : some packet = opacket at hcall
  cases hcall with
  | rejected => cases hok
  | relayed p' header raw flush es' hpacket hf hem =>
    rw [hpacket] at hpkt
    cases hpkt
    obtain ⟨notices, hn, hfe⟩ := hf.effects
    have hstreams := (hfe.append hem.effects).streams
    obtain ⟨slots, b, ⟨num, body, hnum, -, -⟩, -⟩ := hem
    refine ⟨notices, _, hn, ⟨rfl, ?_, dispatch_numbers hnum htype⟩, hstreams⟩
    exact payloadOf_chunksOf ⟨packet.drop packetHeaderLen, 0, .metaData⟩

/-! ### The drain task -/

/-- What the core has sent for some turns of the drain task. -/
structure Drains (r : Ptr) (es : List EspEv) (pkts : List Packet) : Prop where
  streams : espStream es = pkts.flatMap Packet.streamCalls
  relays : pkts.filterMap Packet.relays = returned r es
  each : ∀ pkt ∈ pkts, pkt.IsNotice ∨ ∃ packet, pkt.RelayOf packet

theorem Drains.append {pkts₁ pkts₂ : List Packet} (h₁ : Drains r es₁ pkts₁)
    (h₂ : Drains r es₂ pkts₂) : Drains r (es₁ ++ es₂) (pkts₁ ++ pkts₂) where
  streams := by rw [espStream_append, h₁.streams, h₂.streams, List.flatMap_append]
  relays := by rw [List.filterMap_append, h₁.relays, h₂.relays, returned_append]
  each pkt hpkt := by
    rcases List.mem_append.mp hpkt with hpkt | hpkt
    · exact h₁.each pkt hpkt
    · exact h₂.each pkt hpkt

theorem relays_notice {notices : List Packet} (h : Notice notices) :
    notices.filterMap Packet.relays = [] := by
  refine List.filterMap_eq_nil_iff.mpr fun pkt hpkt => ?_
  obtain ⟨now, horigin⟩ := h.2 pkt hpkt
  unfold Packet.relays
  rw [horigin]

theorem Packet.RelayOf.relays {pkt : Packet} {packet : List UInt8} (h : pkt.RelayOf packet) :
    pkt.relays = some packet := by
  unfold Packet.relays
  rw [h.1]

theorem returned_core (h : ∀ ev ∈ es, ev.op.isCore = true) : returned r es = [] := by
  refine List.filterMap_eq_nil_iff.mpr fun ev hev => ?_
  have hcore := h ev hev
  obtain ⟨o, v⟩ := ev
  cases o
  case ringbufferReturnItem => cases hcore
  all_goals rfl

theorem DrainCall.drains {cfg : Config} (h : DrainCall cfg r es)
    (hpackets : ∀ packet, (⟨.ringbufferReceive r, some packet⟩ : EspEv) ∈ es →
      IsrPacket cfg packet) : ∃ pkts, Drains r es pkts := by
  cases h with
  | nothing => exact ⟨[], rfl, rfl, nofun⟩
  | item packet v b hb =>
    obtain ⟨es', hpath, hstream⟩ := espStream_expand hb
    obtain ⟨notices, pkt, hn, hpkt, hsent⟩ := dispatch_stream (hpackets packet (by simp)) hpath
    refine ⟨notices ++ [pkt], ⟨?_, ?_, fun x hx => ?_⟩⟩
    · have hreceive : espStream [⟨.ringbufferReceive r, some packet⟩] = [] := rfl
      have hreturn : espStream [⟨.ringbufferReturnItem r packet, ()⟩] = [] := rfl
      rw [← hsent, ← hstream, ← List.singleton_append, espStream_append, espStream_append, hreceive,
        hreturn, List.append_nil, List.nil_append]
    · have hturn : returned r (⟨.ringbufferReceive r, some packet⟩ ::
          (b ++ [⟨.ringbufferReturnItem r packet, ()⟩])) = [packet] := by
        rw [← List.singleton_append, returned_append, returned_append,
          returned_core (path_expand_core hb).1]
        simp [returned]
      rw [hturn, List.filterMap_append, relays_notice hn]
      simp [hpkt.relays]
    · rcases List.mem_append.mp hx with hx | hx
      · exact Or.inl (hn.2 x hx)
      · rw [List.mem_singleton.mp hx]
        exact Or.inr ⟨packet, hpkt⟩

theorem DrainCall.receive_first {cfg : Config} {first : EspEv} (h : DrainCall cfg r (first :: es))
    {packet : List UInt8} (hmem : (⟨.ringbufferReceive r, some packet⟩ : EspEv) ∈ first :: es) :
    first = ⟨.ringbufferReceive r, some packet⟩ := by
  cases h with
  | nothing => exact (List.mem_singleton.mp hmem).symm
  | item p v b hb =>
    rcases List.mem_cons.mp hmem with heq | hmem
    · exact heq.symm
    · rcases List.mem_append.mp hmem with hmem | hmem
      · cases (path_expand_core hb).1 _ hmem
      · cases List.mem_singleton.mp hmem

/-- A turn up to any point: the task has nothing in hand and the core has sent what was
returned, or the item in hand may be sent already. -/
theorem DrainCall.part {cfg : Config} {more : List EspEv} (h : DrainCall cfg r (es ++ more))
    (hpackets : ∀ packet, (⟨.ringbufferReceive r, some packet⟩ : EspEv) ∈ es →
      IsrPacket cfg packet) :
    ∃ k, (∀ done, ((espStream es).foldl gather (none, done)).2 = done ++ k) ∧
      (∀ pkt ∈ k, pkt.IsNotice ∨ ∃ packet, pkt.RelayOf packet) ∧
      (k.filterMap Packet.relays = returned r es ∧ Steps espViewStep .idle es .idle ∨
        ∃ packet, returned r es = [] ∧ Steps espViewStep .idle es (.hand r packet) ∧
          (k.filterMap Packet.relays = [] ∨ k.filterMap Packet.relays = [packet])) := by
  rcases es with _ | ⟨first, es⟩
  · exact ⟨[], fun done => (List.append_nil done).symm, nofun, Or.inl ⟨rfl, rfl⟩⟩
  have hall : ∀ packet, (⟨.ringbufferReceive r, some packet⟩ : EspEv) ∈ first :: es ++ more →
      IsrPacket cfg packet := fun packet hmem =>
    hpackets packet (h.receive_first hmem ▸ List.mem_cons_self ..)
  obtain ⟨pkts, hd⟩ := h.drains hall
  rcases List.eq_nil_or_concat' more with rfl | ⟨more, last, rfl⟩
  · rw [List.append_nil] at h hd
    refine ⟨pkts, fun done => ?_, hd.each, Or.inl ⟨hd.relays, h.steps⟩⟩
    rw [hd.streams, foldl_gather_packets]
  have hstreams := hd.streams
  rw [espStream_append] at hstreams
  obtain ⟨k, hk, hsent⟩ := gather_part hstreams
  refine ⟨k, hsent, fun pkt hpkt => hd.each pkt (hk.subset hpkt), Or.inr ?_⟩
  have hrelays := hk.filterMap Packet.relays
  rw [hd.relays] at hrelays
  generalize hes : first :: es ++ (more ++ [last]) = whole at h hrelays
  cases h with
  | nothing => simp at hes
  | item packet v b hb =>
    rw [List.cons_append] at hes
    obtain ⟨rfl, htail⟩ := List.cons.inj hes
    rw [← List.append_assoc] at htail
    obtain ⟨rfl, -⟩ := List.append_inj' htail rfl
    have hcore : ∀ ev ∈ es, ev.op.isCore = true := fun ev hev =>
      (path_expand_core hb).1 ev (List.mem_append_left _ hev)
    have hnone : returned r (⟨.ringbufferReceive r, some packet⟩ :: es) = [] := by
      rw [← List.singleton_append, returned_append, returned_core hcore]
      rfl
    refine ⟨packet, hnone, ⟨.hand r packet, ⟨rfl, rfl⟩, steps_isCore hcore _⟩, ?_⟩
    -- of the whole turn only this one item is returned
    rw [← List.singleton_append, returned_append, returned_append,
      returned_core (path_expand_core hb).1] at hrelays
    have hone : returned r [⟨.ringbufferReturnItem r packet, ()⟩] = [packet] := by
      simp [returned]
    rw [hone] at hrelays
    rcases List.prefix_cons_iff.mp hrelays with hnil | ⟨l, hl, hnil⟩
    · exact Or.inl hnil
    · rw [List.prefix_nil.mp hnil] at hl
      exact Or.inr hl

section Run

variable [DecidableEq Tid] {c' : Lib.Config Tid EspCall EspOp EspOp.Ret EspRes (EspShared Tid)}
  {tr' : EspTrace Tid} {c : Lib.Config Tid Call Op Op.Ret Res (Shared Tid)}
  {tr : List (Label Tid Call Op Op.Ret Res)} {d : Tid}

theorem thread_stream (hm : (espLayer e Tid).Matches c' tr' c tr) (t : Tid) :
    streamCalls (threadEvents t tr) = espStream (threadEvents t tr') := by
  rw [← streamCalls_portSees, ← observed_thread portSees t tr]
  unfold espStream
  rw [← observed_thread espSees t tr']
  exact congrArg (fun l => streamCalls ((l.filter fun p => p.1 = t).map Prod.snd)) hm.observed

/-- Every ring holds packets of ISR calls. -/
theorem isrPacket_of_accepted (hm : (espLayer e Tid).Matches c' tr' c tr) {packet : List UInt8}
    (h : packet ∈ accepted r (actEvents tr')) : IsrPacket e.cfg packet := by
  obtain ⟨ev, hev, hsome⟩ := List.mem_filterMap.mp h
  have hsend : ev = ⟨.ringbufferSend r packet, true⟩ := by
    obtain ⟨o, v⟩ := ev
    cases o
    case ringbufferSend ringbuf p =>
      cases v with
      | false => cases hsome
      | true =>
        by_cases hr : ringbuf = r
        · simp only [hr, if_pos, Option.some.injEq] at hsome
          rw [hr, hsome]
        · simp [hr] at hsome
    all_goals cases hsome
  have hob := congrArg (fun l => l.map Prod.snd) hm.observed
  simp only [observed_events] at hob
  have hcore : (⟨.isrEnqueuePacket packet, true⟩ : Ev) ∈ (actEvents tr').filterMap espSees :=
    List.mem_filterMap.mpr ⟨ev, hev, by rw [hsend]; rfl⟩
  obtain ⟨ev', hev', hsees⟩ := List.mem_filterMap.mp ((hob.symm) ▸ hcore)
  rw [← portSees_some hsees] at hev'
  exact isrPacket_of_enqueued hm.run hev'

/-- All turns of the drain task that are over. -/
theorem drains_done {cfg : Config} {done : List (EspCall × List EspEv)}
    (hdone : ∀ p ∈ done, DrainCall cfg r p.2)
    (hpackets : ∀ packet, (⟨.ringbufferReceive r, some packet⟩ : EspEv) ∈ done.flatMap Prod.snd →
      IsrPacket cfg packet) : ∃ pkts, Drains r (done.flatMap Prod.snd) pkts := by
  induction done with
  | nil => exact ⟨[], rfl, rfl, nofun⟩
  | cons p done ih =>
    rw [List.flatMap_cons] at hpackets
    obtain ⟨pkts₁, h₁⟩ := (hdone p (List.mem_cons_self ..)).drains fun packet hmem =>
      hpackets packet (List.mem_append_left _ hmem)
    obtain ⟨pkts₂, h₂⟩ := ih (fun q hq => hdone q (List.mem_cons_of_mem _ hq))
      fun packet hmem => hpackets packet (List.mem_append_right _ hmem)
    exact ⟨pkts₁ ++ pkts₂, h₁.append h₂⟩

theorem returned_thread (h : RingUse c'.state tr') (htask : (c'.state.ring r).task = some d) :
    returned r (actEvents tr') = returned r (threadEvents d tr') := by
  refine filterMap_thread fun u ev hmem hsome => ?_
  obtain ⟨o, v⟩ := ev
  cases o
  case ringbufferReturnItem ringbuf packet =>
    by_cases hr : ringbuf = r
    · rw [hr] at hmem
      exact Option.some.inj ((h.byTask u r packet hmem).symm.trans htask)
    · exact absurd (if_neg hr) hsome
  all_goals exact absurd rfl hsome

/-- A thread that runs the loop of the drain task. -/
theorem drainCall_of_loop (h : (espSystem e Tid).Run c' tr')
    (hloop : ∀ call ∈ callsOf d tr', call = .drain r) :
    ∃ done : List (EspCall × List EspEv),
      threadEvents d tr' = done.flatMap Prod.snd ++ callEvents d tr' ∧
      (∀ p ∈ done, DrainCall e.cfg r p.2) ∧
      (callEvents d tr' = [] ∨ ∃ more, DrainCall e.cfg r (callEvents d tr' ++ more)) := by
  have hdrain : ∀ {call : EspCall} {es : List EspEv} {v : EspRes}, call ∈ callsOf d tr' →
      (espBody e Tid call).Path es v → DrainCall e.cfg r es := by
    intro call es v hcall hpath
    rw [hloop call hcall] at hpath
    cases espDoes_body hpath with
    | drain _ es hd => exact hd
  obtain ⟨done, hev, hcalls, hdone⟩ := h.history d
  refine ⟨done, hev, fun p hp => ?_, ?_⟩
  · obtain ⟨v, hv⟩ := hdone p hp
    refine hdrain ?_ hv
    rw [hcalls]
    exact List.mem_append_left _ (List.mem_map_of_mem hp)
  · cases ht : c'.thread d with
    | none => exact Or.inl ((h.thread d).1 ht)
    | some cp =>
      obtain ⟨more, v, hpath⟩ := Prog.reach_extends ((h.thread d).2 cp.1 cp.2 ht)
      refine Or.inr ⟨more, hdrain ?_ hpath⟩
      rw [hcalls, ht]
      simp

/-- What a thread in this loop has sent, and what it has in hand. -/
theorem sent_of_loop (h : (espSystem e Tid).Run c' tr') (hm : (espLayer e Tid).Matches c' tr' c tr)
    (huse : RingUse c'.state tr') (hloop : ∀ call ∈ callsOf d tr', call = .drain r) :
    (∀ pkt ∈ sentByThread e.cfg d tr, pkt.IsNotice ∨ ∃ packet, pkt.RelayOf packet) ∧
      ((sentByThread e.cfg d tr).filterMap Packet.relays = returned r (threadEvents d tr') ∧
          Steps espViewStep .idle (callEvents d tr') .idle ∨
        ∃ packet, Steps espViewStep .idle (callEvents d tr') (.hand r packet) ∧
          ((sentByThread e.cfg d tr).filterMap Packet.relays = returned r (threadEvents d tr') ∨
            (sentByThread e.cfg d tr).filterMap Packet.relays =
              returned r (threadEvents d tr') ++ [packet])) := by
  obtain ⟨done, hev, hdone, hcurrent⟩ := drainCall_of_loop h hloop
  have hpackets : ∀ packet,
      (⟨.ringbufferReceive r, some packet⟩ : EspEv) ∈ threadEvents d tr' →
      IsrPacket e.cfg packet := fun packet hmem =>
    isrPacket_of_accepted hm (huse.taken d r packet (act_of_mem_threadEvents hmem))
  rw [hev] at hpackets ⊢
  obtain ⟨pkts, hd⟩ := drains_done hdone fun packet hmem =>
    hpackets packet (List.mem_append_left _ hmem)
  have hsent : sentByThread e.cfg d tr =
      ((espStream (callEvents d tr')).foldl gather (none, pkts)).2 := by
    rw [sent_by hm.run]
    unfold sentPackets
    rw [thread_stream hm, hev, espStream_append, List.foldl_append, hd.streams,
      foldl_gather_packets, List.nil_append]
  rcases hcurrent with hnil | ⟨more, hmore⟩
  · rw [hnil] at hsent ⊢
    have hpkts : sentByThread e.cfg d tr = pkts := hsent
    rw [hpkts, List.append_nil]
    exact ⟨hd.each, Or.inl ⟨hd.relays, rfl⟩⟩
  · obtain ⟨k, hk, heach, hcase⟩ := hmore.part fun packet hmem =>
      hpackets packet (List.mem_append_right _ hmem)
    rw [hsent, hk, List.filterMap_append, hd.relays, returned_append]
    refine ⟨fun pkt hpkt => ?_, ?_⟩
    · rcases List.mem_append.mp hpkt with hpkt | hpkt
      · exact hd.each pkt hpkt
      · exact heach pkt hpkt
    rcases hcase with ⟨hrelays, hidle⟩ | ⟨packet, hnone, hhand, hrelays⟩
    · exact Or.inl ⟨by rw [hrelays], hidle⟩
    · refine Or.inr ⟨packet, hhand, ?_⟩
      rw [hnone, List.append_nil]
      rcases hrelays with hrelays | hrelays
      · exact Or.inl (by rw [hrelays, List.append_nil])
      · exact Or.inr (by rw [hrelays])

/-- What a ring has taken goes out on the wire in this order, each item once, as far as the
task of the ring has come: all but what is waiting, and the item it has in hand. -/
theorem ring_drained (h : (espSystem e Tid).Run c' tr') (htask : (c'.state.ring r).task = some d)
    (hloop : ∀ call ∈ callsOf d tr', call = .drain r) :
    ∃ c tr, (espLayer e Tid).Matches c' tr' c tr ∧ ∃ rest,
      accepted r (actEvents tr') =
        (sentByThread e.cfg d tr).filterMap Packet.relays ++ rest ∧
      (rest = (c'.state.ring r).waiting ∨
        ∃ packet, rest = packet :: (c'.state.ring r).waiting) ∧
      (c'.thread d = none → rest = (c'.state.ring r).waiting) ∧
      ∀ pkt ∈ sentByThread e.cfg d tr, pkt.IsNotice ∨
        ∃ packet ∈ accepted r (actEvents tr'), pkt.RelayOf packet := by
  obtain ⟨c, tr, hm⟩ := (espLayer e Tid).refines h
  obtain ⟨g, hg, hinv, huse⟩ := ringInv_run h
  refine ⟨c, tr, hm, ?_⟩
  have hqueue := hinv.queue r
  rw [returned_thread huse htask] at hqueue
  obtain ⟨heach, hcase⟩ := sent_of_loop h hm huse hloop
  have hends : ∀ rest, accepted r (actEvents tr') =
      (sentByThread e.cfg d tr).filterMap Packet.relays ++ rest →
      ∀ pkt ∈ sentByThread e.cfg d tr, pkt.IsNotice ∨
        ∃ packet ∈ accepted r (actEvents tr'), pkt.RelayOf packet := by
    intro rest hrest pkt hpkt
    rcases heach pkt hpkt with hn | ⟨packet, hrelay⟩
    · exact Or.inl hn
    · refine Or.inr ⟨packet, ?_, hrelay⟩
      rw [hrest]
      exact List.mem_append_left _ (List.mem_filterMap.mpr ⟨pkt, hpkt, hrelay.relays⟩)
  rcases hcase with ⟨hrelays, hidle⟩ | ⟨packet, hhand, hrelays⟩
  · have hview := steps_unique espViewStep_functional (hg d) hidle
    have hreceived : (c'.state.ring r).received = [] := by
      rcases hinv.hands r with hnil | ⟨t, packet, ht⟩
      · exact hnil
      · have hsame := (hinv.inHand ht).2
        rw [htask] at hsame
        rw [← Option.some.inj hsame, hview] at ht
        cases ht
    rw [hreceived, List.append_nil, ← hrelays] at hqueue
    exact ⟨_, hqueue, Or.inl rfl, fun _ => rfl, hends _ hqueue⟩
  · have hview := steps_unique espViewStep_functional (hg d) hhand
    have hbusy : c'.thread d ≠ none := by
      intro hnone
      rw [(h.thread d).1 hnone] at hhand
      cases hhand
    rw [(hinv.inHand hview).1] at hqueue
    rcases hrelays with hrelays | hrelays
    · rw [← hrelays, List.append_assoc] at hqueue
      exact ⟨_, hqueue, Or.inr ⟨packet, rfl⟩, fun hnone => absurd hnone hbusy, hends _ hqueue⟩
    · rw [← hrelays] at hqueue
      exact ⟨_, hqueue, Or.inl rfl, fun _ => rfl, hends _ hqueue⟩

end Run

/-- The packet of an ISR call, drained. -/
theorem ring_drained_small : ∃ c' tr', (espSystem smallEsp ℕ).Run c' tr' ∧
    (accepted 10 (actEvents tr')).length = 1 ∧
    ∃ c tr, (espLayer smallEsp ℕ).Matches c' tr' c tr ∧
      accepted 10 (actEvents tr') =
        (sentByThread smallConfig 1 tr).filterMap Packet.relays := by
  obtain ⟨c', tr', hrun, hcalls, hend⟩ := run_small smallTurns
    (fun p => ((p.1.state.ring 10).task, (p.1.state.ring 10).waiting, (p.1.thread 1).isNone,
      (accepted 10 (actEvents p.2)).length)) (a := (some 1, [], true, 1)) (by decide +kernel)
  simp only [Prod.mk.injEq] at hend
  obtain ⟨htask, hwaiting, hidle, hlen⟩ := hend
  have hloop : ∀ call ∈ callsOf 1 tr', call = .drain 10 := by
    rw [hcalls]
    exact fun call hcall => List.mem_singleton.mp hcall
  obtain ⟨c, tr, hm, rest, hqueue, -, hrest, -⟩ := ring_drained hrun htask hloop
  rw [hrest (Option.isNone_iff_eq_none.mp hidle), hwaiting, List.append_nil] at hqueue
  exact ⟨c', tr', hrun, hlen, c, tr, hm, hqueue⟩

end On9log
