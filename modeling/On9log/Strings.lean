import On9log.Stream

/-!
# String lengths and inline strings (on9log.c:243-265, 619-751)

A string is measured first and sent later, and its bytes may change in
between. Each look at memory is one `memory` operation. `Reads` describes code
that only looks at memory, and what it returns when all looks see the same
bytes; `Sends` does so for code that hands chunks to an open stream.
-/

namespace On9log
open Lib Lib.LittleEndian

/-- `on9log_bounded_strlen`, `len` counting down. -/
def boundedStrlen (mem : Mem) (str : Ptr) : ℕ → ℕ
  | 0 => 0
  | maxLen + 1 => if mem str = 0 then 0 else boundedStrlen mem (str + 1) maxLen + 1

def nullStringLen : UInt32 := 0xffffffff

def cstrLen (cfg : Config) (str : Ptr) (hasPrecision : Bool) (precision : Int32) : Core UInt32 :=
  if str = 0 then pure nullStringLen
  else do
    let mem ← readMemory
    let len := boundedStrlen mem str cfg.maxDynamicStringLen
    if hasPrecision ∧ 0 ≤ precision.toInt ∧ precision.toInt < len then
      pure (UInt32.ofNat precision.toInt.toNat)
    else pure (UInt32.ofNat len)

/-- `on9log_string_view_t`. -/
structure StringView where
  data : Ptr
  len : ℕ
  deriving DecidableEq

def viewLen (cfg : Config) : Option StringView → UInt32
  | none => nullStringLen
  | some view =>
    if view.data = 0 ∧ view.len ≠ 0 then nullStringLen
    else UInt32.ofNat
      (if view.len > cfg.maxDynamicStringLen then cfg.maxDynamicStringLen else view.len)

def emitString (stream : Stream) (str : Ptr) (strLen : UInt32) (totalArgCnt : ℕ)
    (currArgIndex : ArgIndex) : Core Unit :=
  if strLen = nullStringLen then emitU32 stream nullStringLen totalArgCnt currArgIndex
  else emitStringBytes stream str strLen totalArgCnt currArgIndex

/-- `on9log_wire_str_t`: by address, or inline with `len` bytes in the payload. -/
structure WireStr where
  id : UInt32
  len : UInt32
  deriving DecidableEq

def wireStr (cfg : Config) (str : Ptr) (maxLen : ℕ) : Core WireStr :=
  if str ≠ 0 ∧ cfg.addrInImage str = false then do
    let mem ← readMemory
    pure ⟨idInline, UInt32.ofNat (boundedStrlen mem str maxLen)⟩
  else pure ⟨UInt32.ofNat str, 0⟩

def wireStrSize (wire : WireStr) : ℕ := if wire.id = idInline then 4 + wire.len.toNat else 0

def emitWireStr (stream : Stream) (str : Ptr) (wire : WireStr) (totalArgCnt : ℕ) : Core Unit :=
  if wire.id = idInline then emitStringBytes stream str wire.len totalArgCnt .metaData
  else pure ()

def putWireStr (enc : Encoder) (str : Ptr) (wire : WireStr) : Core Encoder :=
  if wire.id = idInline then do
    let mem ← readMemory
    pure (putBytes (putU32 enc wire.len) (readBytes mem str wire.len.toNat))
  else pure enc

/-! ### Code that only looks at memory -/

/-- All looks at memory in `es` saw `mem`. -/
def MemIs (mem : Mem) (es : List Ev) : Prop := ∀ m, (⟨.memory, m⟩ : Ev) ∈ es → m = mem

theorem memIs_append {mem : Mem} {es₁ es₂ : List Ev} :
    MemIs mem (es₁ ++ es₂) ↔ MemIs mem es₁ ∧ MemIs mem es₂ := by
  simp only [MemIs, List.mem_append]
  exact ⟨fun h => ⟨fun m hm => h m (Or.inl hm), fun m hm => h m (Or.inr hm)⟩,
    fun h m hm => hm.elim (h.1 m) (h.2 m)⟩

structure Reads {α : Type} (es : List Ev) (v : α) (f : Mem → α) : Prop where
  only : ∀ e ∈ es, e.op = .memory
  value : ∀ mem, MemIs mem es → v = f mem

theorem Reads.nil {α : Type} (v : α) : Reads [] v fun _ => v :=
  ⟨fun _ h => absurd h (by simp), fun _ _ => rfl⟩

theorem Reads.bind {α β : Type} {es₁ es₂ : List Ev} {v : α} {w : β} {f : Mem → α}
    {g : α → Mem → β} (h₁ : Reads es₁ v f) (h₂ : Reads es₂ w (g v)) :
    Reads (es₁ ++ es₂) w fun mem => g (f mem) mem where
  only e he := (List.mem_append.mp he).elim (h₁.only e) (h₂.only e)
  value mem hm := by
    obtain ⟨hm₁, hm₂⟩ := memIs_append.mp hm
    rw [h₂.value mem hm₂, h₁.value mem hm₁]

theorem Reads.once {α : Type} {es : List Ev} {mem : Mem} (h : readMemory.Path es mem)
    (f : Mem → α) : Reads es (f mem) f where
  only e he := by
    rw [path_readMemory.mp h, List.mem_singleton] at he
    rw [he]
  value m hm := by rw [hm mem (by rw [path_readMemory.mp h]; exact List.mem_singleton_self _)]

theorem Reads.foldlM {β : Type} {f : β → ℕ → Core β} {g : Mem → β → ℕ → β} {b : β} {n : ℕ}
    (hf : ∀ b i es b', (f b i).Path es b' → Reads es b' fun mem => g mem b i) {es : List Ev} {v : β}
    (h : ((List.range n).foldlM f b).Path es v) :
    Reads es v fun mem => (List.range n).foldl (g mem) b := by
  refine Prog.path_foldlM_range (P := fun k es v => Reads es v fun mem =>
    (List.range k).foldl (g mem) b) (Reads.nil b) (fun k es b₁ es' b₂ _ hk hstep => ?_) h
  have h2 := hk.bind (g := fun a mem => g mem a k) (hf b₁ k es' b₂ hstep)
  simpa [List.range_succ] using h2

/-! ### Lengths -/

theorem boundedStrlen_le (mem : Mem) (str : Ptr) (maxLen : ℕ) :
    boundedStrlen mem str maxLen ≤ maxLen := by
  induction maxLen generalizing str with
  | zero => rfl
  | succ maxLen ih =>
    have h := ih (str + 1)
    unfold boundedStrlen
    split <;> omega

theorem boundedStrlen_ne_zero (mem : Mem) (str : Ptr) (maxLen i : ℕ)
    (hi : i < boundedStrlen mem str maxLen) : mem (str + i) ≠ 0 := by
  induction maxLen generalizing str i with
  | zero => simp [boundedStrlen] at hi
  | succ maxLen ih =>
    unfold boundedStrlen at hi
    split at hi
    · omega
    · rename_i hne
      cases i with
      | zero => exact hne
      | succ i =>
        have h := ih (str + 1) i (by omega)
        rwa [Nat.add_assoc, Nat.add_comm 1 i] at h

theorem boundedStrlen_stop (mem : Mem) (str : Ptr) (maxLen : ℕ)
    (h : boundedStrlen mem str maxLen < maxLen) :
    mem (str + boundedStrlen mem str maxLen) = 0 := by
  induction maxLen generalizing str with
  | zero => omega
  | succ maxLen ih =>
    unfold boundedStrlen at h ⊢
    split
    · assumption
    · rename_i hne
      rw [if_neg hne] at h
      have := ih (str + 1) (by omega)
      rwa [Nat.add_assoc, Nat.add_comm 1 _] at this

/-- What `on9log_cstr_len` returns when memory does not change. -/
def cstrLenIn (cfg : Config) (mem : Mem) (str : Ptr) (hasPrecision : Bool) (precision : Int32) :
    UInt32 :=
  if str = 0 then nullStringLen
  else if hasPrecision ∧ 0 ≤ precision.toInt ∧
      precision.toInt < boundedStrlen mem str cfg.maxDynamicStringLen then
    UInt32.ofNat precision.toInt.toNat
  else UInt32.ofNat (boundedStrlen mem str cfg.maxDynamicStringLen)

theorem reads_cstrLen {cfg : Config} {str : Ptr} {hasPrecision : Bool} {precision : Int32}
    {es : List Ev} {len : UInt32} (h : (cstrLen cfg str hasPrecision precision).Path es len) :
    Reads es len fun mem => cstrLenIn cfg mem str hasPrecision precision := by
  unfold cstrLen at h
  split at h
  · rename_i h0
    obtain ⟨rfl, rfl⟩ := (Prog.path_pure _ _ _).mp h
    simpa [cstrLenIn, h0] using Reads.nil nullStringLen
  · rename_i h0
    obtain ⟨mem, es₁, es₂, rfl, h₁, h₂⟩ := (Prog.path_bind _ _ _ _).mp h
    have hv : es₂ = [] ∧ len = cstrLenIn cfg mem str hasPrecision precision := by
      simp only [cstrLenIn, if_neg h0]
      rcases (Prog.path_ite _ _ _ _ _).mp h₂ with ⟨hc, h₂⟩ | ⟨hc, h₂⟩
      · rw [if_pos hc]
        exact (Prog.path_pure _ _ _).mp h₂
      · rw [if_neg hc]
        exact (Prog.path_pure _ _ _).mp h₂
    obtain ⟨rfl, rfl⟩ := hv
    rw [List.append_nil]
    exact Reads.once h₁ fun m => cstrLenIn cfg m str hasPrecision precision

/-- What `on9log_wire_str` returns when memory does not change. -/
def wireStrIn (cfg : Config) (mem : Mem) (str : Ptr) (maxLen : ℕ) : WireStr :=
  if str ≠ 0 ∧ cfg.addrInImage str = false then
    ⟨idInline, UInt32.ofNat (boundedStrlen mem str maxLen)⟩
  else ⟨UInt32.ofNat str, 0⟩

theorem reads_wireStr {cfg : Config} {str : Ptr} {maxLen : ℕ} {es : List Ev} {wire : WireStr}
    (h : (wireStr cfg str maxLen).Path es wire) :
    Reads es wire fun mem => wireStrIn cfg mem str maxLen := by
  unfold wireStr at h
  split at h
  · rename_i hc
    obtain ⟨mem, es₁, es₂, rfl, h₁, h₂⟩ := (Prog.path_bind _ _ _ _).mp h
    obtain ⟨rfl, rfl⟩ := (Prog.path_pure _ _ _).mp h₂
    simp only [wireStrIn, if_pos hc]
    rw [List.append_nil]
    exact Reads.once h₁ fun m =>
      (⟨idInline, UInt32.ofNat (boundedStrlen m str maxLen)⟩ : WireStr)
  · rename_i hc
    obtain ⟨rfl, rfl⟩ := (Prog.path_pure _ _ _).mp h
    simpa only [wireStrIn, if_neg hc] using Reads.nil _

theorem wireStr_len_le {cfg : Config} {str : Ptr} {maxLen : ℕ} {es : List Ev} {wire : WireStr}
    (hmax : maxLen ≤ uint32Max) (h : (wireStr cfg str maxLen).Path es wire) :
    wire.len.toNat ≤ maxLen := by
  unfold wireStr at h
  split at h
  · obtain ⟨mem, es₁, es₂, rfl, h₁, h₂⟩ := (Prog.path_bind _ _ _ _).mp h
    obtain ⟨rfl, rfl⟩ := (Prog.path_pure _ _ _).mp h₂
    have hle := boundedStrlen_le mem str maxLen
    unfold uint32Max at hmax
    rw [UInt32.toNat_ofNat']
    omega
  · obtain ⟨rfl, rfl⟩ := (Prog.path_pure _ _ _).mp h
    simp

theorem wireStrSize_le {wire : WireStr} {maxLen : ℕ} (h : wire.len.toNat ≤ maxLen) :
    wireStrSize wire ≤ 4 + maxLen := by
  unfold wireStrSize
  split <;> omega

/-! ### Chunks a string is sent in -/

/-- `es` hands the chunks `cs` to the sinks; these have `len` bytes, and carry
`bytes mem` if all looks at memory see `mem`. -/
structure Carries (sinks : List SinkEntry) (es : List Ev) (cs : List Chunk) (len : ℕ)
    (bytes : Mem → List UInt8) : Prop where
  emits : Emits sinks es cs
  length : (payloadOf cs).length = len
  bytes : ∀ mem, MemIs mem es → payloadOf cs = bytes mem

/-- All chunks have one argument count and index. -/
def Tagged (total : ℕ) (idx : ArgIndex) (cs : List Chunk) : Prop :=
  ∀ c ∈ cs, c.totalArgCnt = total ∧ c.currArgIndex = idx

structure Sends (sinks : List SinkEntry) (es : List Ev) (cs : List Chunk) (total : ℕ)
    (idx : ArgIndex) (len : ℕ) (bytes : Mem → List UInt8) : Prop
    extends Carries sinks es cs len bytes where
  tagged : Tagged total idx cs

theorem Carries.append {sinks : List SinkEntry} {es₁ es₂ : List Ev} {cs₁ cs₂ : List Chunk}
    {len₁ len₂ : ℕ} {bytes₁ bytes₂ : Mem → List UInt8} (h₁ : Carries sinks es₁ cs₁ len₁ bytes₁)
    (h₂ : Carries sinks es₂ cs₂ len₂ bytes₂) :
    Carries sinks (es₁ ++ es₂) (cs₁ ++ cs₂) (len₁ + len₂) fun mem => bytes₁ mem ++ bytes₂ mem where
  emits := h₁.emits.append h₂.emits
  length := by rw [payloadOf_append, List.length_append, h₁.length, h₂.length]
  bytes mem hm := by
    obtain ⟨hm₁, hm₂⟩ := memIs_append.mp hm
    rw [payloadOf_append, h₁.bytes mem hm₁, h₂.bytes mem hm₂]

section Sends

variable {sinks : List SinkEntry} {stream : Stream} {es es₁ es₂ : List Ev} {v : Unit}
  {total : ℕ} {idx : ArgIndex}

theorem Sends.nil : Sends sinks [] [] total idx 0 fun _ => [] :=
  ⟨⟨.nil, rfl, fun _ _ => rfl⟩, fun _ hc => absurd hc (List.not_mem_nil)⟩

theorem Sends.append {cs₁ cs₂ : List Chunk} {len₁ len₂ : ℕ} {bytes₁ bytes₂ : Mem → List UInt8}
    (h₁ : Sends sinks es₁ cs₁ total idx len₁ bytes₁)
    (h₂ : Sends sinks es₂ cs₂ total idx len₂ bytes₂) :
    Sends sinks (es₁ ++ es₂) (cs₁ ++ cs₂) total idx (len₁ + len₂)
      fun mem => bytes₁ mem ++ bytes₂ mem where
  toCarries := h₁.toCarries.append h₂.toCarries
  tagged c hc := (List.mem_append.mp hc).elim (h₁.tagged c) (h₂.tagged c)

theorem tagged_chunksOf (bytes : List UInt8) :
    Tagged total idx (chunksOf ⟨bytes, total, idx⟩) := by
  intro c hc
  unfold chunksOf at hc
  split at hc
  · simp at hc
  · rw [List.mem_singleton.mp hc]
    exact ⟨rfl, rfl⟩

theorem sends_streamPayload {bytes : List UInt8}
    (h : (streamPayload stream ⟨bytes, total, idx⟩).Path es v) :
    Sends stream.sinks es (chunksOf ⟨bytes, total, idx⟩) total idx bytes.length fun _ => bytes where
  emits := emits_streamPayload h
  tagged := tagged_chunksOf bytes
  length := by rw [payloadOf_chunksOf]
  bytes _ _ := payloadOf_chunksOf _

theorem sends_emitU8 {val : UInt8} (h : (emitU8 stream val total idx).Path es v) :
    Sends stream.sinks es [⟨[val], total, idx⟩] total idx 1 fun _ => [val] := by
  simpa [chunksOf] using sends_streamPayload h

theorem sends_of_one {c : Chunk} (h : Emits sinks es [c]) :
    Sends sinks es [c] c.totalArgCnt c.currArgIndex c.bytes.length fun _ => c.bytes where
  emits := h
  tagged c' hc := by
    rw [List.mem_singleton.mp hc]
    exact ⟨rfl, rfl⟩
  length := by simp [payloadOf]
  bytes _ _ := by simp [payloadOf]

theorem sends_emitU32 {val : UInt32} (h : (emitU32 stream val total idx).Path es v) :
    Sends stream.sinks es [⟨bytesLE 4 val.toNat, total, idx⟩] total idx 4
      fun _ => bytesLE 4 val.toNat := by
  simpa using sends_of_one (emits_emitU32 h)

theorem sends_emitU64 {val : UInt64} (h : (emitU64 stream val total idx).Path es v) :
    Sends stream.sinks es [⟨bytesLE 8 val.toNat, total, idx⟩] total idx 8
      fun _ => bytesLE 8 val.toNat := by
  simpa using sends_of_one (emits_emitU64 h)

theorem sends_emitStringBytes {str : Ptr} {len : UInt32}
    (h : (emitStringBytes stream str len total idx).Path es v) :
    ∃ cs, Sends stream.sinks es cs total idx (4 + len.toNat)
      fun mem => bytesLE 4 len.toNat ++ readBytes mem str len.toNat := by
  obtain ⟨mem, hmem, hem⟩ := emits_emitStringBytes h
  refine ⟨_, ⟨hem, ?_, ?_⟩, ?_⟩
  · simp
  · intro mem₀ hm
    have hb : readBytes mem str len.toNat = readBytes mem₀ str len.toNat := by
      by_cases hz : len = 0
      · simp [hz, readBytes]
      · rw [hm mem (hmem hz)]
    rw [payloadOf_cons, payloadOf_chunksOf, hb]
  · intro c hc
    rcases List.mem_cons.mp hc with rfl | hc
    · exact ⟨rfl, rfl⟩
    · exact tagged_chunksOf _ c hc

/-- The wire form of a string argument of which `len` bytes are sent. -/
def stringBytes (mem : Mem) (str : Ptr) (len : UInt32) : List UInt8 :=
  if len = nullStringLen then bytesLE 4 nullStringLen.toNat
  else bytesLE 4 len.toNat ++ readBytes mem str len.toNat

def stringSize (len : UInt32) : ℕ := 4 + if len = nullStringLen then 0 else len.toNat

theorem sends_emitString {str : Ptr} {len : UInt32}
    (h : (emitString stream str len total idx).Path es v) :
    ∃ cs, Sends stream.sinks es cs total idx (stringSize len) fun mem => stringBytes mem str len := by
  unfold emitString at h
  unfold stringSize stringBytes
  split at h
  · rename_i hn
    simp only [if_pos hn]
    exact ⟨_, sends_emitU32 h⟩
  · rename_i hn
    simp only [if_neg hn]
    exact sends_emitStringBytes h

/-- The payload bytes an inline tag or format adds. -/
def wireStrBytes (mem : Mem) (str : Ptr) (wire : WireStr) : List UInt8 :=
  if wire.id = idInline then bytesLE 4 wire.len.toNat ++ readBytes mem str wire.len.toNat else []

theorem length_wireStrBytes (mem : Mem) (str : Ptr) (wire : WireStr) :
    (wireStrBytes mem str wire).length = wireStrSize wire := by
  unfold wireStrBytes wireStrSize
  split <;> simp

/-- `bs` is an inline tag or format as `es` copied it: the length, then as many
bytes, which are those of memory if memory does not change. -/
def InlineOf (es : List Ev) (str : Ptr) (wire : WireStr) (bs : List UInt8) : Prop :=
  (wire.id = idInline ∧ ∃ data, data.length = wire.len.toNat ∧
      bs = bytesLE 4 wire.len.toNat ++ data ∧
      ∀ mem, MemIs mem es → data = readBytes mem str wire.len.toNat) ∨
    (wire.id ≠ idInline ∧ bs = [])

theorem InlineOf.length {str : Ptr} {wire : WireStr} {bs : List UInt8}
    (h : InlineOf es str wire bs) : bs.length = wireStrSize wire := by
  unfold wireStrSize
  rcases h with ⟨hi, data, hlen, rfl, -⟩ | ⟨hi, rfl⟩
  · rw [if_pos hi, List.length_append, length_bytesLE, hlen]
  · rw [if_neg hi, List.length_nil]

theorem InlineOf.bytes {str : Ptr} {wire : WireStr} {bs : List UInt8}
    (h : InlineOf es str wire bs) {mem : Mem} (hm : MemIs mem es) :
    bs = wireStrBytes mem str wire := by
  unfold wireStrBytes
  rcases h with ⟨hi, data, -, rfl, hdata⟩ | ⟨hi, rfl⟩
  · rw [if_pos hi, hdata mem hm]
  · rw [if_neg hi]

theorem InlineOf.of_subset {str : Ptr} {wire : WireStr} {bs : List UInt8} {es' : List Ev}
    (h : InlineOf es str wire bs) (hsub : es ⊆ es') : InlineOf es' str wire bs := by
  rcases h with ⟨hi, data, hlen, hbs, hdata⟩ | h
  · exact Or.inl ⟨hi, data, hlen, hbs, fun mem hm => hdata mem fun m hmem => hm m (hsub hmem)⟩
  · exact Or.inr h

theorem sends_emitWireStr {str : Ptr} {wire : WireStr}
    (h : (emitWireStr stream str wire total).Path es v) :
    ∃ cs, Emits stream.sinks es cs ∧ Tagged total .metaData cs ∧
      InlineOf es str wire (payloadOf cs) := by
  unfold emitWireStr at h
  split at h
  · rename_i hi
    obtain ⟨mem, hmem, hem⟩ := emits_emitStringBytes h
    refine ⟨_, hem, ?_, Or.inl ⟨hi, readBytes mem str wire.len.toNat, length_readBytes _ _ _, ?_, ?_⟩⟩
    · intro c hc
      rcases List.mem_cons.mp hc with rfl | hc
      · exact ⟨rfl, rfl⟩
      · exact tagged_chunksOf _ c hc
    · rw [payloadOf_cons, payloadOf_chunksOf]
    · intro mem₀ hm
      by_cases hz : wire.len = 0
      · simp [hz, readBytes]
      · rw [hm mem (hmem hz)]
  · rename_i hi
    obtain ⟨rfl, -⟩ := (Prog.path_pure _ _ _).mp h
    exact ⟨[], .nil, fun _ hc => absurd hc List.not_mem_nil, Or.inr ⟨hi, rfl⟩⟩

theorem length_stringBytes (mem : Mem) (str : Ptr) (len : UInt32) :
    (stringBytes mem str len).length = stringSize len := by
  unfold stringBytes stringSize
  split <;> simp

/-- What follows an inline tag or format, by the ID in the header. -/
def skipInline (id : ℕ) (payload : List UInt8) : List UInt8 :=
  if id = idInline.toNat then payload.drop (4 + valLE (payload.take 4)) else payload

theorem skipInline_append {str : Ptr} {wire : WireStr} {bs : List UInt8}
    (h : InlineOf es str wire bs) (rest : List UInt8) :
    skipInline wire.id.toNat (bs ++ rest) = rest := by
  unfold skipInline
  rcases h with ⟨hi, data, hlen, rfl, -⟩ | ⟨hi, rfl⟩
  · have htake : (bytesLE 4 wire.len.toNat ++ data ++ rest).take 4 = bytesLE 4 wire.len.toNat := by
      rw [List.append_assoc]
      exact List.take_left' (length_bytesLE 4 _)
    have hdrop : 4 + wire.len.toNat = (bytesLE 4 wire.len.toNat ++ data).length := by
      rw [List.length_append, length_bytesLE, hlen]
    rw [if_pos (by rw [hi]), htake, valLE_bytesLE 4 _ wire.len.toNat_lt, hdrop, List.drop_left]
  · have hne : wire.id.toNat ≠ idInline.toNat := fun he => hi (UInt32.toNat_inj.mp he)
    rw [if_neg hne, List.nil_append]

end Sends

end On9log
