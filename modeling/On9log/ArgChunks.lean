import On9log.Decode

/-!
# LOG packets by argument (on9log.c:574-695, 822-851)

Every payload callback of a LOG packet names the argument it is a part of, so a
sink can split the payload without reading the type table.
-/

namespace On9log
open Lib Lib.LittleEndian

/-! ### Chunks with an index -/

/-- The chunks a sink files under `idx`. -/
def chunksAt (cs : List Chunk) (idx : ArgIndex) : List Chunk :=
  cs.filter fun c => decide (c.currArgIndex = idx)

/-- Meta data, then arguments below `n` in order; no callback is for nothing. -/
structure ByArgument (n : ℕ) (cs : List Chunk) : Prop where
  count : ∀ c ∈ cs, c.totalArgCnt = n
  nonempty : ∀ c ∈ cs, c.bytes ≠ []
  order : ∃ (k : ℕ) (is : List ℕ), cs.map Chunk.currArgIndex =
    List.replicate k .metaData ++ is.map .arg ∧ is.Pairwise (· ≤ ·) ∧ ∀ i ∈ is, i < n

variable {cs : List Chunk} {total n : ℕ} {idx idx' : ArgIndex} {parts : ℕ → List Chunk}

theorem Emits.nonempty {sinks : List SinkEntry} {es : List Ev} (h : Emits sinks es cs) :
    ∀ c ∈ cs, c.bytes ≠ [] := by
  induction h with
  | nil => exact fun c hc => absurd hc List.not_mem_nil
  | memory mem _ ih => exact ih
  | chunk c hc _ ih =>
    intro c' hc'
    rcases List.mem_cons.mp hc' with rfl | hc'
    · exact hc
    · exact ih c' hc'

theorem Tagged.indexes (h : Tagged total idx cs) :
    cs.map Chunk.currArgIndex = List.replicate cs.length idx := by
  rw [List.map_congr_left fun c hc => (h c hc).2]
  exact List.map_const' ..

theorem Tagged.chunksAt_self (h : Tagged total idx cs) : chunksAt cs idx = cs := by
  apply List.filter_eq_self.mpr
  intro c hc
  rw [(h c hc).2]
  exact decide_eq_true rfl

theorem Tagged.chunksAt_ne (h : Tagged total idx cs) (hne : idx ≠ idx') :
    chunksAt cs idx' = [] := by
  apply List.filter_eq_nil_iff.mpr
  intro c hc
  rw [(h c hc).2]
  simpa using hne

theorem chunksAt_append (cs cs' : List Chunk) (idx : ArgIndex) :
    chunksAt (cs ++ cs') idx = chunksAt cs idx ++ chunksAt cs' idx := List.filter_append ..

/-- The arguments' chunks filed under `idx` are the part of that argument, if there is one. -/
theorem chunksAt_parts (h : ∀ i < n, Tagged total (.arg i) (parts i)) :
    chunksAt ((List.range n).flatMap parts) .metaData = [] ∧
      ∀ i < n, chunksAt ((List.range n).flatMap parts) (.arg i) = parts i := by
  induction n with
  | zero => exact ⟨rfl, fun i hi => absurd hi (Nat.not_lt_zero i)⟩
  | succ n ih =>
    obtain ⟨hmeta, hargs⟩ := ih fun i hi => h i (Nat.lt_succ_of_lt hi)
    have hlast := h n (Nat.lt_succ_self n)
    have hsplit : (List.range (n + 1)).flatMap parts = (List.range n).flatMap parts ++ parts n := by
      rw [List.range_succ, List.flatMap_append, List.flatMap_singleton]
    rw [hsplit]
    refine ⟨?_, fun i hi => ?_⟩
    · rw [chunksAt_append, hmeta, hlast.chunksAt_ne (by simp)]
      rfl
    · rw [chunksAt_append]
      rcases Nat.lt_succ_iff_lt_or_eq.mp hi with hlt | rfl
      · have hne : ArgIndex.arg n ≠ .arg i := fun he => by
          cases he
          exact Nat.lt_irrefl n hlt
        rw [hargs i hlt, hlast.chunksAt_ne hne, List.append_nil]
      · have hnone : chunksAt ((List.range i).flatMap parts) (.arg i) = [] := by
          apply List.filter_eq_nil_iff.mpr
          intro c hc
          obtain ⟨j, hj, hc⟩ := List.mem_flatMap.mp hc
          have hlt := List.mem_range.mp hj
          rw [(h j (by omega) c hc).2]
          simp
          omega
        rw [hnone, hlast.chunksAt_self, List.nil_append]

theorem indexes_parts (h : ∀ i < n, Tagged total (.arg i) (parts i)) :
    ∃ is : List ℕ, ((List.range n).flatMap parts).map Chunk.currArgIndex = is.map .arg ∧
      is.Pairwise (· ≤ ·) ∧ ∀ i ∈ is, i < n := by
  induction n with
  | zero => exact ⟨[], rfl, .nil, fun i hi => absurd hi List.not_mem_nil⟩
  | succ n ih =>
    obtain ⟨is, hmap, hsorted, hlt⟩ := ih fun i hi => h i (Nat.lt_succ_of_lt hi)
    refine ⟨is ++ List.replicate (parts n).length n, ?_, ?_, fun i hi => ?_⟩
    · rw [List.range_succ, List.flatMap_append, List.flatMap_singleton, List.map_append, hmap,
        (h n (Nat.lt_succ_self n)).indexes, List.map_append, List.map_replicate]
    · rw [List.pairwise_append]
      refine ⟨hsorted, List.pairwise_replicate.mpr (Or.inr (Nat.le_refl n)), fun i hi j hj => ?_⟩
      rw [List.eq_of_mem_replicate hj]
      exact Nat.le_of_lt (hlt i hi)
    · rcases List.mem_append.mp hi with hi | hi
      · exact Nat.lt_succ_of_lt (hlt i hi)
      · rw [List.eq_of_mem_replicate hi]
        exact Nat.lt_succ_self n

section Log

variable {cfg : Config} {mem : Mem} {level : ℕ} {tag format : Ptr} {tagWire formatWire : WireStr}
  {mask : UInt32} {argTypes : ArgTypes} {argCount : UInt8} {args : VaList} {len : ℕ → UInt32}
  {es : List Ev}

theorem LogChunks.byArgument
    (h : LogChunks es tag format tagWire formatWire argTypes argCount args len cs)
    (hne : ∀ c ∈ cs, c.bytes ≠ []) : ByArgument argCount.toNat cs := by
  obtain ⟨metaCs, parts, rfl, hmeta, -, hparts⟩ := h
  have htagged : ∀ i < argCount.toNat, Tagged argCount.toNat (.arg i) (parts i) :=
    fun i hi => (hparts i hi).1
  obtain ⟨is, hmap, hsorted, hlt⟩ := indexes_parts htagged
  refine ⟨fun c hc => ?_, hne, metaCs.length, is, ?_, hsorted, hlt⟩
  · rcases List.mem_append.mp hc with hc | hc
    · exact (hmeta c hc).1
    · obtain ⟨i, hi, hc⟩ := List.mem_flatMap.mp hc
      exact (htagged i (List.mem_range.mp hi) c hc).1
  · rw [List.map_append, hmeta.indexes, hmap]

/-- What is filed as meta data, and under each argument. -/
theorem LogChunks.bytes_at (hm : MemIs mem es)
    (hlen : ∀ i < argCount.toNat, len i = argLenIn cfg mem argTypes mask args i)
    (h : LogChunks es tag format (tagWireIn cfg mem tag) (tagWireIn cfg mem format) argTypes
      argCount args len cs) :
    payloadOf (chunksAt cs .metaData) = wireStrBytes mem tag (tagWireIn cfg mem tag) ++
        (wireStrBytes mem format (tagWireIn cfg mem format) ++
          (argCount :: typeTable argTypes argCount.toNat)) ∧
      ∀ i < argCount.toNat,
        payloadOf (chunksAt cs (.arg i)) = argWire cfg mem argTypes mask args i := by
  obtain ⟨metaCs, parts, rfl, hmeta, ⟨t, f, ht, hf, hpay⟩, hparts⟩ := h
  obtain ⟨hnone, hargs⟩ := chunksAt_parts fun i hi => (hparts i hi).1
  refine ⟨?_, fun i hi => ?_⟩
  · rw [chunksAt_append, hmeta.chunksAt_self, hnone, List.append_nil, hpay, ht.bytes hm,
      hf.bytes hm]
  · rw [chunksAt_append, hmeta.chunksAt_ne (by simp), List.nil_append, hargs i hi,
      (hparts i hi).2.2 mem hm, hlen i hi]
    rfl

theorem Emission.nonempty {pkt : Packet} (h : Emission cfg pkt es) :
    ∀ c ∈ pkt.chunks, c.bytes ≠ [] := by
  obtain ⟨slots, b, ⟨num, body, -, hem, -⟩, -⟩ := h
  exact hem.nonempty

/-- The LOG packet of a task call, if it sends one. -/
theorem Written.log_packet (h : Written cfg level tag format mask argTypes argCount args es)
    {pkt : Packet} {now : ℕ} (hpkt : pkt ∈ sentPackets es) (ho : pkt.origin = .built .log now) :
    (∃ es₁ es₂, es = es₁ ++ es₂ ∧ Emission cfg pkt es₂) ∧ ByArgument argCount.toNat pkt.chunks ∧
      ∀ mem, MemIs mem es →
      payloadOf (chunksAt pkt.chunks .metaData) = wireStrBytes mem tag (tagWireIn cfg mem tag) ++
          (wireStrBytes mem format (tagWireIn cfg mem format) ++
            (argCount :: typeTable argTypes argCount.toNat)) ∧
        ∀ i < argCount.toNat,
          payloadOf (chunksAt pkt.chunks (.arg i)) = argWire cfg mem argTypes mask args i := by
  cases h with
  | blocked gate hg =>
    rw [hg.effects.sentPackets] at hpkt
    cases hpkt
  | passed gate flush es' raw hg hf hw =>
    obtain ⟨notices, ⟨-, hnotices⟩, hfe⟩ := hf.effects
    have hnotice : pkt ∉ notices := by
      intro hin
      obtain ⟨now', ho'⟩ := hnotices pkt hin
      rw [ho] at ho'
      cases ho'
    cases hw with
    | dropped looks honly hnone =>
      have hall := hg.effects.append (hfe.append ((effects_memory honly).append effects_addDropped))
      rw [hall.sentPackets] at hpkt
      simp only [List.append_nil, List.nil_append] at hpkt
      exact absurd hpkt hnotice
    | sent looks es'' tagWire formatWire len payloadLen seq now' cs honly hsome hn hlt hpl hcs hem =>
      have hall := hg.effects.append (hfe.append ((effects_memory honly).append hem.effects))
      rw [hall.sentPackets] at hpkt
      simp only [List.nil_append] at hpkt
      obtain rfl := List.mem_singleton.mp ((List.mem_append.mp hpkt).resolve_left hnotice)
      refine ⟨⟨gate ++ (flush ++ looks), es'', by simp only [List.append_assoc], hem⟩,
        hcs.byArgument hem.nonempty, fun mem hm => ?_⟩
      obtain ⟨-, hm⟩ := memIs_append.mp hm
      obtain ⟨-, hm⟩ := memIs_append.mp hm
      obtain ⟨hm₁, hm₂⟩ := memIs_append.mp hm
      obtain ⟨rfl, rfl, hmeas⟩ := hsome mem hm₁
      exact hcs.bytes_at hm₂ ((measure_eq ..).2 _ _ hmeas).2

end Log

/-! ### The wire form of a value -/

/-- A NULL string is a length alone. -/
def Value.wire : Value → List UInt8
  | .bits32 v => bytesLE 4 v
  | .bits64 v => bytesLE 8 v
  | .pointer v => bytesLE 4 v
  | .string none => bytesLE 4 0xffffffff
  | .string (some bs) => bytesLE 4 bs.length ++ bs

section Wire

variable {cfg : Config} {mem : Mem} {types : ArgTypes} {mask : UInt32} {args rest : VaList}
  {a : VaArg} {i : ℕ}

theorem stringBytes_eq {str : Ptr} {n : ℕ} (hn : n ≤ cfg.maxDynamicStringLen) :
    stringBytes mem str (UInt32.ofNat n) = (Value.string (some (readBytes mem str n))).wire := by
  obtain ⟨htoNat, hne⟩ := ofNat_len hn
  unfold stringBytes Value.wire
  dsimp only
  rw [if_neg hne, htoNat, length_readBytes]

/-- An argument goes out as the wire form of its value. -/
theorem argWire_eq (htype : argTypeAt types i = a.type.code)
    (hargs : vaAfter types args i = a :: rest) :
    argWire cfg mem types mask args i =
      (a.value cfg mem (precisionOf types mask args i)).wire := by
  unfold argWire argBytes argLenIn
  rw [htype, ArgsType.ofCode_code, hargs]
  cases a with
  | u32 v => rfl
  | u64 v => rfl
  | voidPtr p =>
    show bytesLE 4 (UInt32.ofNat p).toNat = bytesLE 4 (p % 2 ^ 32)
    rw [UInt32.toNat_ofNat']
  | charPtr str =>
    show stringBytes mem str (clippedLen cfg mem str _) = Value.wire (.string _)
    by_cases hstr : str = 0
    · rw [clippedLen_null cfg mem hstr, if_pos hstr]
      rfl
    · obtain ⟨n, hn, hlen, hdata⟩ :=
        clippedLen_eq cfg mem hstr (precisionOf types mask args i)
      rw [hlen, stringBytes_eq hn, hdata, if_neg hstr]
  | viewPtr view =>
    cases view with
    | none => rfl
    | some view =>
      show stringBytes mem view.data (viewLen cfg (some view)) = Value.wire (.string _)
      by_cases hnull : view.data = 0 ∧ view.len ≠ 0
      · rw [viewLen_null hnull, if_pos hnull]
        rfl
      · rw [viewLen_eq hnull, if_neg hnull, stringBytes_eq (Nat.min_le_right _ _)]

/-- The values of a call whose table describes its arguments, on the wire. -/
theorem argWire_valuesOf {value : Value}
    (hvalue : (valuesOf cfg mem mask args)[i]? = some value) :
    i < args.length ∧ argWire cfg mem (some (typesOf args)) mask args i = value.wire := by
  have hlt : i < args.length := by
    have h := (List.getElem?_eq_some_iff.mp hvalue).1
    unfold valuesOf at h
    rwa [List.length_mapIdx] at h
  have hget : value = (args[i]).value cfg mem (precisionOf (some (typesOf args)) mask args i) := by
    simpa [valuesOf, hlt] using hvalue.symm
  exact ⟨hlt, by rw [argWire_eq (argTypeAt_typesOf hlt) (vaAfter_typesOf_cons hlt), hget]⟩

end Wire

/-! ### In a run -/

/-- An inline tag and format, the count and the type table. -/
def LogCall.metaBytes (cfg : Config) (mem : Mem) (l : LogCall) : List UInt8 :=
  wireStrBytes mem l.tag (tagWireIn cfg mem l.tag) ++
    (wireStrBytes mem l.format (tagWireIn cfg mem l.format) ++
      (UInt8.ofNat l.args.length :: typesOf l.args))

section Runs

variable {Tid : Type} [DecidableEq Tid] {cfg : Config}
  {c : Lib.Config Tid Call Op Op.Ret Res (Shared Tid)} {tr : List (Label Tid Call Op Op.Ret Res)}
  {t : Tid} {call : Call} {v : Res} {l : LogCall}

/-- Every sink sees whole packets. The chunks of a LOG packet a returned call sent carry its
number of arguments and come in order; filed by index they are the meta data and the wire
forms of the arguments, where `mem` is what the call sees of its strings. A call that passed
the filter and fits did send a LOG packet. -/
theorem chunks_by_argument (h : (system Tid cfg).Run c (.ret t call v :: tr)) (hl : call.Logs l)
    (hargs : l.args.length ≤ maxArgs) :
    (∀ e, SeesWhole (wireOf cfg (actEvents tr)) e (sinkCalls e (actEvents tr))) ∧
    (∀ pkt ∈ sentPackets (callEvents t tr), ∀ now, pkt.origin = .built .log now →
      (∃ s ∈ (wireOf cfg (actEvents tr)).sent, s.pkt = pkt) ∧
      ByArgument l.args.length pkt.chunks ∧
      ∀ mem, MemIs mem (callEvents t tr) →
        payloadOf (chunksAt pkt.chunks .metaData) = l.metaBytes cfg mem ∧
        ∀ i value, (valuesOf cfg mem l.mask l.args)[i]? = some value →
          payloadOf (chunksAt pkt.chunks (.arg i)) = value.wire) ∧
    ∀ mem, MemIs mem (callEvents t tr) → Passes cfg l.level l.tag (callEvents t tr) →
      (l.payload cfg mem).length ≤ payloadLenMax →
        ∃ pkt ∈ sentPackets (callEvents t tr), ∃ now, pkt.origin = .built .log now := by
  obtain ⟨c', hrun⟩ := h.tail
  have hwritten := hl.written hargs (performs_ret h)
  have hcount : (UInt8.ofNat l.args.length).toNat = l.args.length := toNat_ofNat_argCount hargs
  refine ⟨(progress_run hrun).1.calls, fun pkt hpkt now ho => ?_, fun mem hm hpass hfit => ?_⟩
  · obtain ⟨⟨es₁, es₂, hes, hem⟩, hby, hbytes⟩ := hwritten.log_packet hpkt ho
    rw [hcount] at hby hbytes
    have hes' : callEvents t tr = es₁ ++ (es₂ ++ []) := by rw [hes, List.append_nil]
    refine ⟨packet_sent hrun hes' hem, hby, fun mem hm => ?_⟩
    obtain ⟨hmeta, hparts⟩ := hbytes mem hm
    rw [typeTable_typesOf] at hmeta
    refine ⟨hmeta, fun i value hvalue => ?_⟩
    obtain ⟨hi, hwire⟩ := argWire_valuesOf hvalue
    rw [hparts i hi, hwire]
  · obtain ⟨notices, -, ⟨hbig, -⟩ | hsent⟩ := hwritten.exact hm hpass
    · rw [hcount] at hbig
      unfold LogCall.payload at hfit
      omega
    · obtain ⟨-, -, pkt, seq, now, es₁, es₂, heff, ho, -⟩ := hsent
      refine ⟨pkt, ?_, now, ho⟩
      rw [heff.sentPackets]
      exact List.mem_append_right _ (List.mem_singleton_self pkt)

end Runs

/-- A word and an empty string, told apart by their indexes. -/
theorem chunks_by_argument_pair : ∃ c tr v, (system ℕ smallConfig).Run c
      (.ret 0 (.write 3 0 2000 (some (typesOf [.u32 7, .charPtr 2000])) [.u32 7, .charPtr 2000]) v
        :: tr) ∧
    ∃ pkt ∈ sentPackets (callEvents 0 tr), ByArgument 2 pkt.chunks ∧
      payloadOf (chunksAt pkt.chunks (.arg 0)) = [7, 0, 0, 0] ∧
      payloadOf (chunksAt pkt.chunks (.arg 1)) = [0, 0, 0, 0] := by
  obtain ⟨c, tr, v, hrun, hm, hpass, -⟩ := run_call smallConfig quietWorld (0 : ℕ)
    (.write 3 0 2000 (some (typesOf [.u32 7, .charPtr 2000])) [.u32 7, .charPtr 2000])
    (fun p => drops p.1) (a := 0) (by decide +kernel)
  have hopen := hpass 3 0 rfl ⟨by unfold levelInRange; decide, by decide, by decide⟩
  obtain ⟨-, hpkts, hsent⟩ :=
    chunks_by_argument hrun (.write 3 0 2000 [.u32 7, .charPtr 2000]) (by decide)
  obtain ⟨pkt, hpkt, now, ho⟩ := hsent _ hm hopen (by decide +kernel)
  obtain ⟨-, hby, hbytes⟩ := hpkts pkt hpkt now ho
  obtain ⟨-, hvalues⟩ := hbytes _ hm
  refine ⟨c, tr, v, hrun, pkt, hpkt, hby, ?_, ?_⟩
  · exact hvalues 0 (.bits32 7) (by decide)
  · exact hvalues 1 (.string (some [])) (by decide)

end On9log
