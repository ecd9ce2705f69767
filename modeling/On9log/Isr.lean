import On9log.Sections

/-!
# Logging from an ISR (on9log.c:970-1088, 2281-2352)

The packet is written into a fixed buffer and enqueued; the drain task hands it
to `on9log_dispatch_packet` later. With a type table that passed the ISR check,
`encodeIsr_spec` says exactly which bytes are written and when they fit.
-/

namespace On9log
open Lib Lib.LittleEndian

/-- The loop of `on9log_arg_types_are_isr_safe`, with the rounds left. -/
def isrSafeFrom (argTypes : ArgTypes) (idx : ℕ) : ℕ → Bool
  | 0 => false
  | left + 1 =>
    match ArgsType.ofCode (argTypeAt argTypes idx) with
    | some .none => true
    | some .bits32 => isrSafeFrom argTypes (idx + 1) left
    | some .bits64 => isrSafeFrom argTypes (idx + 1) left
    | some .pointer => isrSafeFrom argTypes (idx + 1) left
    | _ => false

def argTypesAreIsrSafe (argTypes : ArgTypes) : Bool := isrSafeFrom argTypes 0 256

def putIsrArg (argTypes : ArgTypes) (st : Encoder × VaList) (idx : ℕ) : Encoder × VaList :=
  match ArgsType.ofCode (argTypeAt argTypes idx) with
  | some .bits32 => (putU32 st.1 (vaU32 st.2), st.2.tail)
  | some .bits64 => (putU64 st.1 (vaU64 st.2), st.2.tail)
  | some .pointer => (putU32 st.1 (UInt32.ofNat (vaVoidPtr st.2)), st.2.tail)
  | _ => ({ st.1 with overflow := true }, st.2)

/-- Argument count, type table and values. -/
def putIsrArgs (argTypes : ArgTypes) (argCount : UInt8) (args : VaList) (enc : Encoder) :
    Encoder :=
  let enc := putU8 enc argCount
  let enc := (List.range argCount.toNat).foldl
    (fun enc idx => putU8 enc (argTypeAt argTypes idx)) enc
  ((List.range argCount.toNat).foldl (putIsrArg argTypes) (enc, args)).1

/-- The last two header bytes, overwritten with the payload length. -/
def patchPayloadLen (packet : List UInt8) : List UInt8 :=
  let payloadLen := packet.length - packetHeaderLen
  (packet.set 16 (UInt8.ofNat (payloadLen &&& 0xff))).set 17 (UInt8.ofNat (payloadLen >>> 8))

def encodeIsrLogPacket (cfg : Config) (packetCap : ℕ) (level : ℕ) (tag format : Ptr)
    (argTypes : ArgTypes) (args : VaList) : Core (Option (List UInt8)) := do
  let inlineMax :=
    if packetCap < cfg.maxDynamicStringLen then packetCap else cfg.maxDynamicStringLen
  let tagWire ← wireStr cfg tag inlineMax
  let formatWire ← wireStr cfg format inlineMax
  let now ← isrTimestampMs
  let enc := putHeader (Encoder.new packetCap) .log level 0 (UInt32.ofNat now) tagWire.id
    formatWire.id 0
  let enc ← putWireStr enc tag tagWire
  let enc ← putWireStr enc format formatWire
  let enc := putIsrArgs argTypes (argCount argTypes) args enc
  pure (if enc.overflow then none else some (patchPayloadLen enc.data))

def vwriteIsr (cfg : Config) (level : ℕ) (tag format : Ptr) (argTypes : ArgTypes)
    (args : VaList) : Core Bool := do
  let enabled ← levelEnabled cfg level tag
  if enabled = false then pure true
  else do
    let ready ← isrReady
    if ready = false then pure true
    else if argTypesAreIsrSafe argTypes = false then do
      addDropped
      pure false
    else do
      let encoded ← encodeIsrLogPacket cfg cfg.isrPacketMax level tag format argTypes args
      match encoded with
      | none => do
        addDropped
        pure false
      | some packet => do
        let ok ← isrEnqueuePacket packet
        if ok = true then pure true
        else do
          addDropped
          pure false

/-! ### Header bytes overwritten -/

theorem renumber_headerBytes (type : PacketType) (level : ℕ) (seq seq' : UInt16)
    (timeMs tagId fmtId : UInt32) (payloadLen : UInt16) :
    renumber (headerBytes type level seq timeMs tagId fmtId payloadLen) seq' =
      headerBytes type level seq' timeMs tagId fmtId payloadLen := by
  have h := (writes_putU16 seq').new 2 (by simp)
  have e : [(seq' &&& 0xff).toUInt8, (seq' >>> 8).toUInt8] = bytesLE 2 seq'.toNat := by
    rw [← h.2]
    rfl
  have hs : ∀ s : UInt16, ∃ x y, bytesLE 2 s.toNat = [x, y] := fun s => ⟨_, _, rfl⟩
  obtain ⟨x, y, hxy⟩ := hs seq
  unfold headerBytes renumber
  rw [← e, hxy]
  simp

@[simp] theorem headerType_renumber (header : List UInt8) (seq : UInt16) :
    headerType (renumber header seq) = headerType header := by
  simp [headerType, renumber, List.getD_eq_getElem?_getD]

theorem headerSeq_renumber {header : List UInt8} (h : packetHeaderLen ≤ header.length)
    (seq : UInt16) : headerSeq (renumber header seq) = seq.toNat := by
  have hb : [(seq &&& 0xff).toUInt8, (seq >>> 8).toUInt8] = bytesLE 2 seq.toNat := by
    rw [← ((writes_putU16 seq).new 2 (by simp)).2]
    rfl
  match header, h with
  | a :: b :: c :: d :: rest, _ =>
    have he : headerSeq (renumber (a :: b :: c :: d :: rest) seq) =
        valLE [(seq &&& 0xff).toUInt8, (seq >>> 8).toUInt8] := rfl
    rw [he, hb, valLE_bytesLE 2 seq.toNat seq.toNat_lt]

theorem headerPayloadLen_renumber {header : List UInt8} (h : packetHeaderLen ≤ header.length)
    (seq : UInt16) : headerPayloadLen (renumber header seq) = headerPayloadLen header := by
  match header, h with
  | a :: b :: c :: d :: rest, _ => rfl

theorem patchPayloadLen_headerBytes (type : PacketType) (level : ℕ) (seq : UInt16)
    (timeMs tagId fmtId : UInt32) (payload : List UInt8) :
    patchPayloadLen (headerBytes type level seq timeMs tagId fmtId 0 ++ payload) =
      headerBytes type level seq timeMs tagId fmtId (UInt16.ofNat payload.length) ++ payload := by
  have hl : (headerBytes type level seq timeMs tagId fmtId 0 ++ payload).length -
      packetHeaderLen = payload.length := by
    rw [List.length_append, length_headerBytes]
    omega
  have hb : bytesLE 2 (UInt16.ofNat payload.length).toNat =
      [UInt8.ofNat (payload.length &&& 0xff), UInt8.ofNat (payload.length >>> 8)] := by
    simp only [bytesLE, List.cons.injEq, and_true]
    refine ⟨?_, ?_⟩ <;> apply UInt8.toNat_inj.mp <;>
      simp only [UInt8.toNat_ofNat', UInt16.toNat_ofNat', and_byte, Nat.shiftRight_eq_div_pow,
        Nat.reducePow] <;>
      omega
  unfold patchPayloadLen
  dsimp only
  rw [hl]
  unfold headerBytes
  rw [hb]
  simp [bytesLE]

/-! ### What the encoder writes -/

theorem Writes.nil : Writes [] fun enc => enc :=
  ⟨fun _ => rfl, fun enc => by have := enc.len_le; simp; omega, fun _ _ => by simp⟩

/-- Whether a put into a fresh encoder overflows, and what it holds otherwise. -/
theorem Writes.new_eq {bs : List UInt8} {f : Encoder → Encoder} (hf : Writes bs f) (cap : ℕ)
    (g : List UInt8 → List UInt8) :
    (if (f (Encoder.new cap)).overflow then none else some (g (f (Encoder.new cap)).data)) =
      if cap < bs.length then none else some (g bs) := by
  by_cases hc : cap < bs.length
  · have ho : (f (Encoder.new cap)).overflow = true :=
      (hf.overflow _).mpr (Or.inr (by simpa [Encoder.new] using hc))
    rw [if_pos hc, if_pos ho]
  · obtain ⟨ho, hd⟩ := hf.new cap (Nat.not_lt.mp hc)
    rw [if_neg hc, ho, hd]
    rfl

theorem writes_foldl_putU8 (l : List ℕ) (f : ℕ → UInt8) :
    Writes (l.map f) fun enc => l.foldl (fun enc idx => putU8 enc (f idx)) enc := by
  induction l with
  | nil => exact Writes.nil
  | cons a l ih =>
    have h := (writes_putU8 (f a)).comp ih
    exact h

/-- The bytes of an ISR-safe argument. -/
def scalarBytes (argType : UInt8) (args : VaList) : List UInt8 :=
  match ArgsType.ofCode argType with
  | some .bits32 => bytesLE 4 (vaU32 args).toNat
  | some .bits64 => bytesLE 8 (vaU64 args).toNat
  | some .pointer => bytesLE 4 (UInt32.ofNat (vaVoidPtr args)).toNat
  | _ => []

def IsrSafeCode (argType : UInt8) : Prop :=
  ArgsType.ofCode argType = some .bits32 ∨ ArgsType.ofCode argType = some .bits64 ∨
    ArgsType.ofCode argType = some .pointer

theorem isrSafeFrom_code {argTypes : ArgTypes} {idx left i n : ℕ}
    (h : isrSafeFrom argTypes idx left = true) (h₁ : idx ≤ i)
    (hnz : ∀ j, idx ≤ j → j < n → argTypeAt argTypes j ≠ 0) (h₂ : i < n) :
    IsrSafeCode (argTypeAt argTypes i) := by
  induction left generalizing idx with
  | zero => simp [isrSafeFrom] at h
  | succ left ih =>
    have hrec : isrSafeFrom argTypes (idx + 1) left = true → IsrSafeCode (argTypeAt argTypes idx) →
        IsrSafeCode (argTypeAt argTypes i) := by
      intro h hidx
      by_cases hi : i = idx
      · rw [hi]
        exact hidx
      · exact ih h (by omega) fun j hj hjn => hnz j (by omega) hjn
    have hcode : ArgsType.ofCode (argTypeAt argTypes idx) ≠ some .none := by
      have h0 := hnz idx (Nat.le_refl _) (by omega)
      unfold ArgsType.ofCode
      rw [if_neg h0]
      repeat' split
      all_goals simp
    unfold isrSafeFrom at h
    split at h
    · rename_i hc
      exact absurd hc hcode
    · exact hrec h (Or.inl ‹_›)
    · exact hrec h (Or.inr (Or.inl ‹_›))
    · exact hrec h (Or.inr (Or.inr ‹_›))
    · cases h

theorem isrSafe_code {argTypes : ArgTypes} (h : argTypesAreIsrSafe argTypes = true) (i : ℕ)
    (hi : i < (argCount argTypes).toNat) : IsrSafeCode (argTypeAt argTypes i) :=
  isrSafeFrom_code h (Nat.zero_le i) (fun j _ hj => argTypeAt_ne_zero argTypes j hj) hi

theorem length_scalarBytes_le (argType : UInt8) (args : VaList) :
    (scalarBytes argType args).length ≤ 8 := by
  unfold scalarBytes
  split <;> simp

/-- All argument values of an ISR packet. -/
def scalarArgs (argTypes : ArgTypes) (args : VaList) (n : ℕ) : List UInt8 :=
  (List.range n).flatMap fun i => scalarBytes (argTypeAt argTypes i) (vaAfter argTypes args i)

theorem length_scalarArgs_le (argTypes : ArgTypes) (args : VaList) (n : ℕ) :
    (scalarArgs argTypes args n).length ≤ 8 * n := by
  unfold scalarArgs
  induction n with
  | zero => simp
  | succ n ih =>
    have h := length_scalarBytes_le (argTypeAt argTypes n) (vaAfter argTypes args n)
    simp only [List.range_succ, List.flatMap_append, List.flatMap_singleton, List.length_append]
    omega

theorem writes_putIsrArg {argTypes : ArgTypes} {idx : ℕ}
    (h : IsrSafeCode (argTypeAt argTypes idx)) (args : VaList) :
    Writes (scalarBytes (argTypeAt argTypes idx) args)
        (fun enc => (putIsrArg argTypes (enc, args) idx).1) ∧
      ∀ enc, (putIsrArg argTypes (enc, args) idx).2 = vaRest (argTypeAt argTypes idx) args := by
  unfold putIsrArg scalarBytes vaRest
  rcases h with h | h | h
  all_goals simp only [h]
  · exact ⟨writes_putU32 _, fun _ => trivial⟩
  · exact ⟨writes_putU64 _, fun _ => trivial⟩
  · exact ⟨writes_putU32 _, fun _ => trivial⟩

theorem writes_foldl_putIsrArg {argTypes : ArgTypes} {n : ℕ}
    (h : ∀ i < n, IsrSafeCode (argTypeAt argTypes i)) (args : VaList) :
    Writes (scalarArgs argTypes args n)
        (fun enc => ((List.range n).foldl (putIsrArg argTypes) (enc, args)).1) ∧
      ∀ enc, ((List.range n).foldl (putIsrArg argTypes) (enc, args)).2 =
        vaAfter argTypes args n := by
  induction n with
  | zero => exact ⟨Writes.nil, fun _ => rfl⟩
  | succ n ih =>
    obtain ⟨hw, hrest⟩ := ih fun i hi => h i (by omega)
    obtain ⟨hw', hrest'⟩ := writes_putIsrArg (h n (by omega)) (vaAfter argTypes args n)
    have hstep : ∀ enc, (List.range (n + 1)).foldl (putIsrArg argTypes) (enc, args) =
        putIsrArg argTypes (((List.range n).foldl (putIsrArg argTypes) (enc, args)).1,
          vaAfter argTypes args n) n := by
      intro enc
      rw [List.range_succ, List.foldl_append, ← hrest enc]
      rfl
    simp only [hstep]
    refine ⟨?_, fun enc => hrest' _⟩
    have hcomp := hw.comp hw'
    simpa [scalarArgs, List.range_succ] using hcomp

theorem writes_putIsrArgs {argTypes : ArgTypes} {argCount : UInt8}
    (h : ∀ i < argCount.toNat, IsrSafeCode (argTypeAt argTypes i)) (args : VaList) :
    Writes (argCount :: typeTable argTypes argCount.toNat ++ scalarArgs argTypes args argCount.toNat)
      (putIsrArgs argTypes argCount args) := by
  have h₁ := (writes_putU8 argCount).comp
    (writes_foldl_putU8 (List.range argCount.toNat) (argTypeAt argTypes))
  have h₂ := h₁.comp (writes_foldl_putIsrArg h args).1
  exact h₂

theorem putWireStr_spec {enc enc' : Encoder} {str : Ptr} {wire : WireStr} {es : List Ev}
    (h : (putWireStr enc str wire).Path es enc') :
    (∀ e ∈ es, e.op = .memory) ∧ ∃ f bs, Writes bs f ∧ enc' = f enc ∧ InlineOf es str wire bs := by
  unfold putWireStr at h
  rcases (Prog.path_ite _ _ _ _ _).mp h with ⟨hi, h⟩ | ⟨hi, h⟩
  · obtain ⟨mem, e₁, e₂, rfl, h₁, h₂⟩ := (Prog.path_bind _ _ _ _).mp h
    obtain ⟨rfl, rfl⟩ := (Prog.path_pure _ _ _).mp h₂
    have hw := (writes_putU32 wire.len).comp (writes_putBytes (readBytes mem str wire.len.toNat))
    have hr := Reads.once h₁ fun m => readBytes m str wire.len.toNat
    rw [List.append_nil]
    exact ⟨hr.only, _, _, hw, rfl, Or.inl ⟨hi, _, length_readBytes _ _ _, rfl, hr.value⟩⟩
  · obtain ⟨rfl, rfl⟩ := (Prog.path_pure _ _ _).mp h
    exact ⟨by simp, _, [], Writes.nil, rfl, Or.inr ⟨hi, rfl⟩⟩

/-- The payload of an ISR packet with `pre` as inline tag and format. -/
def isrPayload (pre : List UInt8) (argTypes : ArgTypes) (args : VaList) : List UInt8 :=
  pre ++ (argCount argTypes :: typeTable argTypes (argCount argTypes).toNat ++
    scalarArgs argTypes args (argCount argTypes).toNat)

/-- What encoding an ISR packet performs and returns: the packet if it fits. -/
def IsrEncoded (cfg : Config) (packetCap level : ℕ) (tag format : Ptr) (argTypes : ArgTypes)
    (args : VaList) (es : List Ev) (r : Option (List UInt8)) : Prop :=
  ∃ (now : ℕ) (tagWire formatWire : WireStr) (t f : List UInt8),
    (∀ e ∈ es, e.op = .memory ∨ e.op = .isrTimestampMs) ∧
    (⟨.isrTimestampMs, now⟩ : Ev) ∈ es ∧
    tagWire.len.toNat ≤ min packetCap cfg.maxDynamicStringLen ∧
    formatWire.len.toNat ≤ min packetCap cfg.maxDynamicStringLen ∧
    InlineOf es tag tagWire t ∧ InlineOf es format formatWire f ∧
    (∀ mem, MemIs mem es →
      tagWire = wireStrIn cfg mem tag (min packetCap cfg.maxDynamicStringLen) ∧
      formatWire = wireStrIn cfg mem format (min packetCap cfg.maxDynamicStringLen)) ∧
    r = if packetCap < packetHeaderLen + (isrPayload (t ++ f) argTypes args).length then none
      else some (headerBytes .log level 0 (UInt32.ofNat now) tagWire.id formatWire.id
        (UInt16.ofNat (isrPayload (t ++ f) argTypes args).length) ++
          isrPayload (t ++ f) argTypes args)

theorem isrEncoded_encodeIsrLogPacket {cfg : Config} {packetCap level : ℕ} {tag format : Ptr}
    {argTypes : ArgTypes} {args : VaList} {es : List Ev} {r : Option (List UInt8)}
    (hsafe : argTypesAreIsrSafe argTypes = true)
    (h : (encodeIsrLogPacket cfg packetCap level tag format argTypes args).Path es r) :
    IsrEncoded cfg packetCap level tag format argTypes args es r := by
  have hmin : (if packetCap < cfg.maxDynamicStringLen then packetCap
      else cfg.maxDynamicStringLen) = min packetCap cfg.maxDynamicStringLen := by
    split <;> omega
  unfold encodeIsrLogPacket at h
  simp only [hmin] at h
  obtain ⟨tagWire, e₁, _, rfl, h₁, h⟩ := (Prog.path_bind _ _ _ _).mp h
  obtain ⟨formatWire, e₂, _, rfl, h₂, h⟩ := (Prog.path_bind _ _ _ _).mp h
  obtain ⟨now, e₃, _, rfl, h₃, h⟩ := (Prog.path_bind _ _ _ _).mp h
  obtain ⟨enc₁, e₄, _, rfl, h₄, h⟩ := (Prog.path_bind _ _ _ _).mp h
  obtain ⟨enc₂, e₅, _, rfl, h₅, h⟩ := (Prog.path_bind _ _ _ _).mp h
  obtain ⟨rfl, rfl⟩ := (Prog.path_pure _ _ _).mp h
  have r₁ := reads_wireStr h₁
  have r₂ := reads_wireStr h₂
  have hstr := cfg.string_le
  have hle : min packetCap cfg.maxDynamicStringLen ≤ uint32Max := by
    unfold uint32Max at *
    omega
  obtain ⟨only₄, f₄, bs₄, hw₄, rfl, hin₄⟩ := putWireStr_spec h₄
  obtain ⟨only₅, f₅, bs₅, hw₅, rfl, hin₅⟩ := putWireStr_spec h₅
  have hargs := writes_putIsrArgs (isrSafe_code hsafe) args
  have hw := (((writes_putHeader .log level 0 (UInt32.ofNat now) tagWire.id formatWire.id 0).comp
    hw₄).comp hw₅).comp hargs
  rw [path_isrTimestampMs.mp h₃]
  refine ⟨now, tagWire, formatWire, bs₄, bs₅, ?_, by simp, wireStr_len_le hle h₁,
    wireStr_len_le hle h₂, hin₄.of_subset ?_, hin₅.of_subset ?_, ?_, ?_⟩
  · intro e he
    simp only [List.mem_append, List.mem_singleton, List.not_mem_nil, or_false] at he
    rcases he with he | he | he | he | he
    · exact Or.inl (r₁.only e he)
    · exact Or.inl (r₂.only e he)
    · exact Or.inr (by rw [he])
    · exact Or.inl (only₄ e he)
    · exact Or.inl (only₅ e he)
  · intro e he
    simp only [List.mem_append]
    tauto
  · intro e he
    simp only [List.mem_append]
    tauto
  · intro mem hm
    simp only [memIs_append] at hm
    exact ⟨r₁.value mem hm.1, r₂.value mem hm.2.1⟩
  · have hassoc : headerBytes .log level 0 (UInt32.ofNat now) tagWire.id formatWire.id 0 ++ bs₄ ++
        bs₅ ++ (argCount argTypes :: typeTable argTypes (argCount argTypes).toNat ++
          scalarArgs argTypes args (argCount argTypes).toNat) =
        headerBytes .log level 0 (UInt32.ofNat now) tagWire.id formatWire.id 0 ++
          isrPayload (bs₄ ++ bs₅) argTypes args := by
      simp only [isrPayload, List.append_assoc]
    rw [hassoc] at hw
    have hfit := hw.new_eq packetCap patchPayloadLen
    rw [patchPayloadLen_headerBytes, List.length_append, length_headerBytes] at hfit
    exact hfit

theorem length_isrPayload_le {cfg : Config} {pre : List UInt8} {argTypes : ArgTypes}
    {args : VaList} {tagWire formatWire : WireStr}
    (htag : tagWire.len.toNat ≤ cfg.maxDynamicStringLen)
    (hformat : formatWire.len.toNat ≤ cfg.maxDynamicStringLen)
    (hpre : pre.length = wireStrSize tagWire + wireStrSize formatWire) :
    (isrPayload pre argTypes args).length ≤
      2 * (4 + cfg.maxDynamicStringLen) + 1 + 255 + 8 * 255 := by
  have h₁ := wireStrSize_le htag
  have h₂ := wireStrSize_le hformat
  have h₃ := length_scalarArgs_le argTypes args (argCount argTypes).toNat
  have h₄ := (argCount argTypes).toNat_lt
  simp only [isrPayload, typeTable, List.length_append, List.length_cons, List.length_map,
    List.length_range]
  omega

/-- A packet `on9log_write_isr` puts into the ring buffer. -/
def IsrPacket (cfg : Config) (packet : List UInt8) : Prop :=
  ∃ level now tagId fmtId payload,
    packet = headerBytes .log level 0 now tagId fmtId (UInt16.ofNat payload.length) ++ payload ∧
    payload.length ≤ 2 * (4 + cfg.maxDynamicStringLen) + 1 + 255 + 8 * 255 ∧
    packet.length ≤ cfg.isrPacketMax

theorem IsrEncoded.isrPacket {cfg : Config} {level : ℕ} {tag format : Ptr}
    {argTypes : ArgTypes} {args : VaList} {es : List Ev} {packet : List UInt8}
    (h : IsrEncoded cfg cfg.isrPacketMax level tag format argTypes args es (some packet)) :
    IsrPacket cfg packet := by
  obtain ⟨now, tagWire, formatWire, t, f, -, -, htag, hformat, ht, hf, -, hr⟩ := h
  split at hr
  · cases hr
  · rename_i hfit
    simp only [Option.some.injEq] at hr
    have hpre : (t ++ f).length = wireStrSize tagWire + wireStrSize formatWire := by
      rw [List.length_append, ht.length, hf.length]
    refine ⟨level, UInt32.ofNat now, tagWire.id, formatWire.id, isrPayload (t ++ f) argTypes args,
      hr, length_isrPayload_le (by omega) (by omega) hpre, ?_⟩
    rw [hr, List.length_append, length_headerBytes]
    omega

/-- What one `on9log_write_isr` call performs and returns. -/
inductive IsrCall (cfg : Config) (level : ℕ) (tag format : Ptr) (argTypes : ArgTypes)
    (args : VaList) : Bool → List Ev → Prop
  | blocked (gate : List Ev) : Gate cfg level tag false gate →
      IsrCall cfg level tag format argTypes args true gate
  | notReady (gate : List Ev) : Gate cfg level tag true gate →
      IsrCall cfg level tag format argTypes args true (gate ++ [⟨.isrReady, false⟩])
  | unsafeArgs (gate : List Ev) : Gate cfg level tag true gate →
      argTypesAreIsrSafe argTypes = false →
      IsrCall cfg level tag format argTypes args false
        (gate ++ [⟨.isrReady, true⟩, ⟨.addDropped, ()⟩])
  | tooLong (gate es : List Ev) : Gate cfg level tag true gate →
      argTypesAreIsrSafe argTypes = true →
      IsrEncoded cfg cfg.isrPacketMax level tag format argTypes args es none →
      IsrCall cfg level tag format argTypes args false
        (gate ++ (⟨.isrReady, true⟩ :: es ++ [⟨.addDropped, ()⟩]))
  | encoded (gate es : List Ev) (packet : List UInt8) (ok : Bool) : Gate cfg level tag true gate →
      argTypesAreIsrSafe argTypes = true →
      IsrEncoded cfg cfg.isrPacketMax level tag format argTypes args es (some packet) →
      IsrCall cfg level tag format argTypes args ok
        (gate ++ (⟨.isrReady, true⟩ :: es ++ (⟨.isrEnqueuePacket packet, ok⟩ ::
          if ok then [] else [⟨.addDropped, ()⟩])))

/-- The head the ISR calls share: the filter, then the port's answer. -/
theorem path_isrGated {cfg : Config} {level : ℕ} {tag : Ptr} {p : Core Bool} {v : Bool}
    {es : List Ev}
    (h : (do let enabled ← levelEnabled cfg level tag
             if enabled = false then pure true
             else do
               let ready ← isrReady
               if ready = false then pure true else p : Core Bool).Path es v) :
    (Gate cfg level tag false es ∧ v = true) ∨
    (∃ gate, es = gate ++ [⟨.isrReady, false⟩] ∧ Gate cfg level tag true gate ∧ v = true) ∨
    ∃ gate rest, es = gate ++ ([⟨.isrReady, true⟩] ++ rest) ∧ Gate cfg level tag true gate ∧
      p.Path rest v := by
  obtain ⟨enabled, gate, _, rfl, hgate, h⟩ := (Prog.path_bind _ _ _ _).mp h
  have hg := gate_levelEnabled hgate
  rcases (Prog.path_ite _ _ _ _ _).mp h with ⟨rfl, h⟩ | ⟨hc, h⟩
  · obtain ⟨rfl, rfl⟩ := (Prog.path_pure _ _ _).mp h
    rw [List.append_nil]
    exact Or.inl ⟨hg, rfl⟩
  rw [Bool.not_eq_false] at hc
  rw [hc] at hg
  obtain ⟨ready, e₁, rest, rfl, h₁, h⟩ := (Prog.path_bind _ _ _ _).mp h
  rw [path_isrReady.mp h₁]
  right
  rcases (Prog.path_ite _ _ _ _ _).mp h with ⟨hready, h⟩ | ⟨hready, h⟩
  · obtain ⟨rfl, rfl⟩ := (Prog.path_pure _ _ _).mp h
    rw [hready]
    exact Or.inl ⟨gate, rfl, hg, rfl⟩
  · rw [Bool.not_eq_false] at hready
    rw [hready]
    exact Or.inr ⟨gate, rest, rfl, hg, h⟩

theorem isrCall_vwriteIsr {cfg : Config} {level : ℕ} {tag format : Ptr} {argTypes : ArgTypes}
    {args : VaList} {es : List Ev} {v : Bool}
    (h : (vwriteIsr cfg level tag format argTypes args).Path es v) :
    IsrCall cfg level tag format argTypes args v es := by
  rcases path_isrGated h with ⟨hg, rfl⟩ | ⟨gate, rfl, hg, rfl⟩ | ⟨gate, rest, rfl, hg, h⟩
  · exact .blocked es hg
  · exact .notReady gate hg
  rcases (Prog.path_ite _ _ _ _ _).mp h with ⟨hs, h⟩ | ⟨hs, h⟩
  · obtain ⟨h₂, rfl⟩ := Prog.path_then_pure h
    rw [path_addDropped.mp h₂]
    exact .unsafeArgs gate hg hs
  rw [Bool.not_eq_false] at hs
  obtain ⟨encoded, e₂, _, rfl, h₂, h⟩ := (Prog.path_bind _ _ _ _).mp h
  have henc := isrEncoded_encodeIsrLogPacket hs h₂
  cases encoded with
  | none =>
    obtain ⟨h₃, rfl⟩ := Prog.path_then_pure h
    rw [path_addDropped.mp h₃]
    exact .tooLong gate e₂ hg hs henc
  | some packet =>
    obtain ⟨ok, e₃, _, rfl, h₃, h⟩ := (Prog.path_bind _ _ _ _).mp h
    rw [path_isrEnqueuePacket.mp h₃]
    rcases (Prog.path_ite _ _ _ _ _).mp h with ⟨hok, h⟩ | ⟨hok, h⟩
    · obtain ⟨rfl, rfl⟩ := (Prog.path_pure _ _ _).mp h
      rw [hok]
      exact .encoded gate e₂ packet true hg hs henc
    · rw [Bool.not_eq_true] at hok
      rw [hok]
      obtain ⟨h₄, rfl⟩ := Prog.path_then_pure h
      rw [path_addDropped.mp h₄]
      exact .encoded gate e₂ packet false hg hs henc

end On9log
