import On9log.Measured
import On9log.Sending

/-!
# The LOG packet of a task call

A call that passes the filter, with arguments a header can describe and with
strings that do not change, sends one LOG packet; `logPayload` is its payload
and `Written.exact` says so.
-/

namespace On9log
open Lib Lib.LittleEndian

variable {cfg : Config} {mem : Mem} {level : ℕ} {tag format : Ptr} {mask : UInt32}
  {argTypes : ArgTypes} {argCount : UInt8} {args : VaList} {es : List Ev}

/-- The wire form of argument `i`. -/
def argWire (cfg : Config) (mem : Mem) (argTypes : ArgTypes) (mask : UInt32) (args : VaList)
    (i : ℕ) : List UInt8 :=
  argBytes mem (argTypeAt argTypes i) (argLenIn cfg mem argTypes mask args i)
    (vaAfter argTypes args i)

def tagWireIn (cfg : Config) (mem : Mem) (str : Ptr) : WireStr :=
  wireStrIn cfg mem str cfg.maxDynamicStringLen

def logPayload (cfg : Config) (mem : Mem) (tag format : Ptr) (mask : UInt32)
    (argTypes : ArgTypes) (argCount : UInt8) (args : VaList) : List UInt8 :=
  wireStrBytes mem tag (tagWireIn cfg mem tag) ++
    (wireStrBytes mem format (tagWireIn cfg mem format) ++
      (argCount :: typeTable argTypes argCount.toNat ++
        (List.range argCount.toNat).flatMap (argWire cfg mem argTypes mask args)))

theorem length_flatMap_range (n : ℕ) (f : ℕ → List UInt8) :
    ((List.range n).flatMap f).length = ∑ i ∈ Finset.range n, (f i).length := by
  induction n with
  | zero => rfl
  | succ n ih => simp [List.range_succ, Finset.sum_range_succ, ih]

theorem length_logPayload (cfg : Config) (mem : Mem) (tag format : Ptr) (mask : UInt32)
    (argTypes : ArgTypes) (argCount : UInt8) (args : VaList) :
    (logPayload cfg mem tag format mask argTypes argCount args).length =
      logPayloadLen cfg mem argTypes mask args argCount.toNat
        (wireStrSize (tagWireIn cfg mem tag) + wireStrSize (tagWireIn cfg mem format)) := by
  unfold logPayload logPayloadLen typeTable
  simp only [List.length_append, List.length_cons, List.length_map, List.length_range,
    length_wireStrBytes, length_flatMap_range, argWire, length_argBytes]
  omega

/-- The packet `on9log_vwrite` sends for a call at its sequence number and time. -/
def logPacket (cfg : Config) (mem : Mem) (level : ℕ) (tag format : Ptr) (mask : UInt32)
    (argTypes : ArgTypes) (argCount : UInt8) (args : VaList) (seq now : ℕ) :
    List UInt8 × List UInt8 :=
  let payload := logPayload cfg mem tag format mask argTypes argCount args
  (headerBytes .log level (UInt16.ofNat seq) (UInt32.ofNat now) (tagWireIn cfg mem tag).id
    (tagWireIn cfg mem format).id (UInt16.ofNat payload.length), payload)

theorem LogChunks.payload {len : ℕ → UInt32} {cs : List Chunk} (hm : MemIs mem es)
    (hlen : ∀ i < argCount.toNat, len i = argLenIn cfg mem argTypes mask args i)
    (h : LogChunks es tag format (tagWireIn cfg mem tag) (tagWireIn cfg mem format) argTypes
      argCount args len cs) :
    payloadOf cs = logPayload cfg mem tag format mask argTypes argCount args := by
  obtain ⟨metaCs, parts, rfl, -, ⟨t, f, ht, hf, hmeta⟩, hparts⟩ := h
  have hargs : payloadOf ((List.range argCount.toNat).flatMap parts) =
      (List.range argCount.toNat).flatMap (argWire cfg mem argTypes mask args) := by
    have hflat : payloadOf ((List.range argCount.toNat).flatMap parts) =
        (List.range argCount.toNat).flatMap fun i => payloadOf (parts i) := by
      unfold payloadOf
      rw [List.flatMap_assoc]
    rw [hflat]
    apply List.flatMap_congr
    intro i hi
    have hi' := List.mem_range.mp hi
    rw [(hparts i hi').2.2 mem hm, hlen i hi']
    rfl
  rw [payloadOf_append, hmeta, hargs, ht.bytes hm, hf.bytes hm]
  unfold logPayload
  simp only [List.append_assoc, List.cons_append]

/-- A task call that passed the filter either drops what no header can describe,
or sends exactly its LOG packet. -/
theorem LogWritten.exact (hm : MemIs mem es)
    (h : LogWritten cfg level tag format mask argTypes argCount args es) :
    ((maxArgs < argCount.toNat ∨ payloadLenMax <
        (logPayload cfg mem tag format mask argTypes argCount args).length) ∧ Effects es [] 1 []) ∨
      (argCount.toNat ≤ maxArgs ∧
        (logPayload cfg mem tag format mask argTypes argCount args).length ≤ payloadLenMax ∧
        ∃ pkt seq now es₁ es₂, Effects es [pkt] 0 [] ∧ pkt.origin = .built .log now ∧
          es = es₁ ++ es₂ ∧ Emission cfg pkt es₂ ∧
          (pkt.header, pkt.payload) =
            logPacket cfg mem level tag format mask argTypes argCount args seq now) := by
  have hlen := length_logPayload cfg mem tag format mask argTypes argCount args
  unfold tagWireIn at hlen
  cases h with
  | dropped looks honly hnone =>
    obtain ⟨hm', -⟩ := memIs_append.mp hm
    refine Or.inl ⟨?_, (effects_memory honly).append effects_addDropped⟩
    rw [hlen]
    exact (measure_eq ..).1.mp (hnone mem hm')
  | sent looks es' tagWire formatWire len payloadLen seq now cs honly hsome hn hlt hpl hcs hem =>
    obtain ⟨hm₁, hm₂⟩ := memIs_append.mp hm
    obtain ⟨htag, hformat, hmeas⟩ := hsome mem hm₁
    subst htag hformat
    obtain ⟨htotal, hlens⟩ := (measure_eq ..).2 _ _ hmeas
    have hpay := hcs.payload hm₂ hlens
    rw [← hlen] at htotal
    refine Or.inr ⟨hn, ?_, _, seq, now, looks, es', (effects_memory honly).append hem.effects, rfl,
      rfl, hem, ?_⟩
    · rw [← htotal]
      unfold payloadLenMax
      omega
    · have hofNat : payloadLen = UInt16.ofNat payloadLen.toNat := (UInt16.ofNat_toNat).symm
      unfold Packet.payload builtPacket logPacket
      rw [← hpay] at htotal ⊢
      rw [hofNat, htotal]
      rfl

/-- What an enabled task call does: nothing sent and one counted drop if no
header can describe it, else exactly its LOG packet. -/
theorem Written.exact (hm : MemIs mem es) (hpass : Passes cfg level tag es)
    (h : Written cfg level tag format mask argTypes argCount args es) :
    ∃ notices, Notice notices ∧
      (((maxArgs < argCount.toNat ∨ payloadLenMax <
          (logPayload cfg mem tag format mask argTypes argCount args).length) ∧
          Effects es notices 1 []) ∨
        (argCount.toNat ≤ maxArgs ∧
          (logPayload cfg mem tag format mask argTypes argCount args).length ≤ payloadLenMax ∧
          ∃ pkt seq now es₁ es₂, Effects es (notices ++ [pkt]) 0 [] ∧
            pkt.origin = .built .log now ∧ es = es₁ ++ es₂ ∧ Emission cfg pkt es₂ ∧
            (pkt.header, pkt.payload) =
              logPacket cfg mem level tag format mask argTypes argCount args seq now)) := by
  cases h with
  | blocked _ hg => exact absurd hpass hg.blocks
  | passed gate flush es' raw hg hf hw =>
    obtain ⟨-, hm'⟩ := memIs_append.mp hm
    obtain ⟨-, hm'⟩ := memIs_append.mp hm'
    obtain ⟨notices, hn, hfe⟩ := hf.effects
    refine ⟨notices, hn, ?_⟩
    rcases hw.exact hm' with ⟨hbig, he⟩ | ⟨hle, hfit, pkt, seq, now, e₁, e₂, he, ho, rfl, hem, hp⟩
    · have hall := hg.effects.append (hfe.append he)
      simp only [List.append_nil, List.nil_append, Nat.zero_add] at hall
      exact Or.inl ⟨hbig, hall⟩
    · have hall := hg.effects.append (hfe.append he)
      refine Or.inr ⟨hle, hfit, pkt, seq, now, gate ++ (flush ++ e₁), e₂, hall, ho, ?_, hem, hp⟩
      simp only [List.append_assoc]

end On9log
