import On9log.Strings

/-!
# Argument tables and the two passes over a call's arguments (on9log.c:204-241, 754-851)

The type table is the bytes before its NUL, `none` for NULL. A `va_list` is
the list of arguments not read yet. Reading one as another type than it was
passed, or past the end, is undefined in C; here it gives zero.

The first pass fixes the length of every string argument; the second sends
exactly that many bytes. `argSize` is the size either pass gives an argument.
-/

namespace On9log
open Lib Lib.LittleEndian

abbrev ArgTypes := Option (List UInt8)

def argTypeAt : ArgTypes → ℕ → UInt8
  | none, _ => 0
  | some types, idx => types.getD idx 0

/-- The loop of `on9log_arg_count`, with the rounds left up to `UINT8_MAX`. -/
def argCountFrom (argTypes : ArgTypes) (count : ℕ) : ℕ → ℕ
  | 0 => count
  | left + 1 =>
    if argTypeAt argTypes count ≠ 0 then argCountFrom argTypes (count + 1) left else count

def argCount (argTypes : ArgTypes) : UInt8 := UInt8.ofNat (argCountFrom argTypes 0 255)

inductive VaArg where
  | u32 (v : UInt32)
  | u64 (v : UInt64)
  | voidPtr (p : Ptr)
  | charPtr (p : Ptr)
  | viewPtr (view : Option StringView)
  deriving DecidableEq

abbrev VaList := List VaArg

def vaU32 : VaList → UInt32
  | .u32 v :: _ => v
  | _ => 0

def vaU64 : VaList → UInt64
  | .u64 v :: _ => v
  | _ => 0

def vaVoidPtr : VaList → Ptr
  | .voidPtr p :: _ => p
  | _ => 0

def vaCharPtr : VaList → Ptr
  | .charPtr p :: _ => p
  | _ => 0

def vaViewPtr : VaList → Option StringView
  | .viewPtr view :: _ => view
  | _ => none

/-- `view != NULL ? view->data : NULL`. -/
def viewData : Option StringView → Ptr
  | some view => view.data
  | none => 0

/-! ### The measuring pass -/

structure Measure where
  args : VaList
  total : ℕ
  prevArgType : UInt8
  prevU32 : UInt32
  len : ℕ → UInt32

def measureArg (cfg : Config) (argTypes : ArgTypes) (mask : UInt32) (m : Measure) (idx : ℕ) :
    Core Measure :=
  let argType := argTypeAt argTypes idx
  match ArgsType.ofCode argType with
  | some .bits32 =>
    pure ⟨m.args.tail, m.total + 4, argType, vaU32 m.args, m.len⟩
  | some .bits64 =>
    pure ⟨m.args.tail, m.total + 8, argType, m.prevU32, m.len⟩
  | some .pointer =>
    pure ⟨m.args.tail, m.total + 4, argType, m.prevU32, m.len⟩
  | some .dynamicString => do
    let hasPrecision := mask &&& ((1 : UInt32) <<< UInt32.ofNat idx) ≠ 0 ∧
      m.prevArgType = ArgsType.bits32.code
    let len ← cstrLen cfg (vaCharPtr m.args) (decide hasPrecision) m.prevU32.toInt32
    pure ⟨m.args.tail, m.total + stringSize len, argType, m.prevU32, Function.update m.len idx len⟩
  | some .dynamicStringView =>
    let len := viewLen cfg (vaViewPtr m.args)
    pure ⟨m.args.tail, m.total + stringSize len, argType, m.prevU32, Function.update m.len idx len⟩
  | _ => pure ⟨m.args, m.total, argType, m.prevU32, m.len⟩

def payloadLenMax : ℕ := payloadLenStreaming - 1

/-- `none` when the caller must drop the call. -/
def measurePayload (cfg : Config) (argTypes : ArgTypes) (mask : UInt32) (args : VaList)
    (argCount prefixLen : ℕ) : Core (Option ((ℕ → UInt32) × UInt16)) :=
  if argCount > maxArgs then pure none
  else do
    let m ← (List.range argCount).foldlM (measureArg cfg argTypes mask)
      ⟨args, prefixLen + 1 + argCount, 0, 0, fun _ => 0⟩
    if m.total > payloadLenMax then pure none
    else pure (some (m.len, UInt16.ofNat m.total))

/-! ### The sending pass -/

def emitArg (stream : Stream) (argTypes : ArgTypes) (len : ℕ → UInt32) (totalArgCnt : ℕ)
    (args : VaList) (idx : ℕ) : Core VaList :=
  match ArgsType.ofCode (argTypeAt argTypes idx) with
  | some .bits32 => do
    emitU32 stream (vaU32 args) totalArgCnt (.arg idx)
    pure args.tail
  | some .bits64 => do
    emitU64 stream (vaU64 args) totalArgCnt (.arg idx)
    pure args.tail
  | some .pointer => do
    emitU32 stream (UInt32.ofNat (vaVoidPtr args)) totalArgCnt (.arg idx)
    pure args.tail
  | some .dynamicString => do
    emitString stream (vaCharPtr args) (len idx) totalArgCnt (.arg idx)
    pure args.tail
  | some .dynamicStringView => do
    emitString stream (viewData (vaViewPtr args)) (len idx) totalArgCnt (.arg idx)
    pure args.tail
  | _ => pure args

def emitPayloadArgs (stream : Stream) (argTypes : ArgTypes) (len : ℕ → UInt32) (args : VaList)
    (totalArgCnt : ℕ) : Core Unit := do
  let _ ← (List.range totalArgCnt).foldlM (emitArg stream argTypes len totalArgCnt) args
  pure ()

/-! ### Counting -/

theorem argCountFrom_bounds (argTypes : ArgTypes) (count left : ℕ) :
    count ≤ argCountFrom argTypes count left ∧ argCountFrom argTypes count left ≤ count + left := by
  induction left generalizing count with
  | zero => simp [argCountFrom]
  | succ left ih =>
    have h := ih (count + 1)
    unfold argCountFrom
    split <;> omega

theorem toNat_argCount (argTypes : ArgTypes) :
    (argCount argTypes).toNat = argCountFrom argTypes 0 255 := by
  have h := argCountFrom_bounds argTypes 0 255
  unfold argCount
  rw [UInt8.toNat_ofNat']
  omega

theorem argCountFrom_ne_zero (argTypes : ArgTypes) (count left i : ℕ) (h₁ : count ≤ i)
    (h₂ : i < argCountFrom argTypes count left) : argTypeAt argTypes i ≠ 0 := by
  induction left generalizing count with
  | zero =>
    simp only [argCountFrom] at h₂
    omega
  | succ left ih =>
    unfold argCountFrom at h₂
    split at h₂
    · rename_i hne
      by_cases hi : i = count
      · rw [hi]
        exact hne
      · exact ih (count + 1) (by omega) h₂
    · omega

theorem argTypeAt_ne_zero (argTypes : ArgTypes) (i : ℕ) (h : i < (argCount argTypes).toNat) :
    argTypeAt argTypes i ≠ 0 :=
  argCountFrom_ne_zero argTypes 0 255 i (Nat.zero_le i) (by rwa [← toNat_argCount])

theorem argCountFrom_table (types : List UInt8) (hnz : 0 ∉ types) (count left : ℕ)
    (hc : count ≤ types.length) :
    argCountFrom (some types) count left = min types.length (count + left) := by
  induction left generalizing count with
  | zero =>
    simp only [argCountFrom]
    omega
  | succ left ih =>
    unfold argCountFrom
    by_cases hlt : count < types.length
    · have hne : argTypeAt (some types) count ≠ 0 := by
        intro h0
        apply hnz
        rw [← h0]
        simp [argTypeAt, hlt]
      rw [if_pos hne, ih (count + 1) (by omega)]
      omega
    · have h0 : argTypeAt (some types) count = 0 := by
        simp [argTypeAt, hlt]
      rw [if_neg (by simp [h0])]
      omega

theorem argCount_table (types : List UInt8) (hnz : 0 ∉ types) :
    (argCount (some types)).toNat = min types.length 255 := by
  rw [toNat_argCount, argCountFrom_table types hnz 0 255 (Nat.zero_le _), Nat.zero_add]

/-! ### Sizes and bytes of one argument -/

/-- The size of an argument in the payload, by its type code and string length. -/
def argSize (argType : UInt8) (len : UInt32) : ℕ :=
  match ArgsType.ofCode argType with
  | some .bits32 => 4
  | some .bits64 => 8
  | some .pointer => 4
  | some .dynamicString => stringSize len
  | some .dynamicStringView => stringSize len
  | _ => 0

/-- The payload bytes of the argument at the head of `args`. -/
def argBytes (mem : Mem) (argType : UInt8) (len : UInt32) (args : VaList) : List UInt8 :=
  match ArgsType.ofCode argType with
  | some .bits32 => bytesLE 4 (vaU32 args).toNat
  | some .bits64 => bytesLE 8 (vaU64 args).toNat
  | some .pointer => bytesLE 4 (UInt32.ofNat (vaVoidPtr args)).toNat
  | some .dynamicString => stringBytes mem (vaCharPtr args) len
  | some .dynamicStringView => stringBytes mem (viewData (vaViewPtr args)) len
  | _ => []

theorem length_argBytes (mem : Mem) (argType : UInt8) (len : UInt32) (args : VaList) :
    (argBytes mem argType len args).length = argSize argType len := by
  unfold argBytes argSize
  split <;> simp [length_stringBytes]

/-- What reading one argument leaves of a `va_list`; unknown codes read none. -/
def vaRest (argType : UInt8) (args : VaList) : VaList :=
  match ArgsType.ofCode argType with
  | none | some .none => args
  | _ => args.tail

/-- Arguments left when a pass reaches index `idx`. -/
def vaAfter (argTypes : ArgTypes) (args : VaList) : ℕ → VaList
  | 0 => args
  | idx + 1 => vaRest (argTypeAt argTypes idx) (vaAfter argTypes args idx)

theorem vaAfter_eq_drop (argTypes : ArgTypes) (args : VaList) (n : ℕ)
    (h : ∀ i < n, 1 ≤ (argTypeAt argTypes i).toNat ∧ (argTypeAt argTypes i).toNat ≤ 5) :
    vaAfter argTypes args n = args.drop n := by
  induction n with
  | zero => rfl
  | succ n ih =>
    have hn := h n (by omega)
    have ih' := ih fun i hi => h i (by omega)
    have hcode : ∀ c : UInt8, 1 ≤ c.toNat ∧ c.toNat ≤ 5 →
        ArgsType.ofCode c ≠ none ∧ ArgsType.ofCode c ≠ some .none :=
      forall_byte (by decide +kernel)
    have hc := hcode _ hn
    rw [vaAfter, ih']
    unfold vaRest
    split
    · rename_i h0
      exact absurd h0 hc.1
    · rename_i h0
      exact absurd h0 hc.2
    · rw [List.tail_drop]

/-! ### Both passes agree -/

/-- One round of the measuring pass when memory does not change. -/
def measureArgIn (cfg : Config) (mem : Mem) (argTypes : ArgTypes) (mask : UInt32) (m : Measure)
    (idx : ℕ) : Measure :=
  let argType := argTypeAt argTypes idx
  let len := match ArgsType.ofCode argType with
    | some .dynamicString =>
      cstrLenIn cfg mem (vaCharPtr m.args)
        (decide (mask &&& ((1 : UInt32) <<< UInt32.ofNat idx) ≠ 0 ∧
          m.prevArgType = ArgsType.bits32.code)) m.prevU32.toInt32
    | some .dynamicStringView => viewLen cfg (vaViewPtr m.args)
    | _ => m.len idx
  ⟨vaRest argType m.args, m.total + argSize argType len, argType,
    if ArgsType.ofCode argType = some .bits32 then vaU32 m.args else m.prevU32,
    Function.update m.len idx len⟩

theorem reads_measureArg {cfg : Config} {argTypes : ArgTypes} {mask : UInt32} {m m' : Measure}
    {idx : ℕ} {es : List Ev} (h : (measureArg cfg argTypes mask m idx).Path es m') :
    Reads es m' fun mem => measureArgIn cfg mem argTypes mask m idx := by
  unfold measureArg at h
  unfold measureArgIn argSize vaRest
  dsimp only at h ⊢
  cases hc : ArgsType.ofCode (argTypeAt argTypes idx) with
  | none =>
    simp only [hc] at h
    obtain ⟨rfl, rfl⟩ := (Prog.path_pure _ _ _).mp h
    simpa using Reads.nil _
  | some t =>
    cases t
    case dynamicString =>
      simp only [hc] at h
      obtain ⟨len, es₁, es₂, rfl, h₁, h₂⟩ := (Prog.path_bind _ _ _ _).mp h
      obtain ⟨rfl, rfl⟩ := (Prog.path_pure _ _ _).mp h₂
      have hlen := reads_cstrLen h₁
      have h3 := hlen.bind (g := fun len _ => (⟨m.args.tail, m.total + stringSize len,
        argTypeAt argTypes idx, m.prevU32, Function.update m.len idx len⟩ : Measure)) (Reads.nil _)
      simpa using h3
    all_goals
      simp only [hc] at h
      obtain ⟨rfl, rfl⟩ := (Prog.path_pure _ _ _).mp h
      simpa using Reads.nil _

/-- What `on9log_measure_payload` returns when memory does not change. -/
def measurePayloadIn (cfg : Config) (mem : Mem) (argTypes : ArgTypes) (mask : UInt32)
    (args : VaList) (argCount prefixLen : ℕ) : Option ((ℕ → UInt32) × UInt16) :=
  if argCount > maxArgs then none
  else
    let m := (List.range argCount).foldl (measureArgIn cfg mem argTypes mask)
      ⟨args, prefixLen + 1 + argCount, 0, 0, fun _ => 0⟩
    if m.total > payloadLenMax then none else some (m.len, UInt16.ofNat m.total)

theorem reads_measurePayload {cfg : Config} {argTypes : ArgTypes} {mask : UInt32} {args : VaList}
    {n prefixLen : ℕ} {es : List Ev} {r : Option ((ℕ → UInt32) × UInt16)}
    (h : (measurePayload cfg argTypes mask args n prefixLen).Path es r) :
    Reads es r fun mem => measurePayloadIn cfg mem argTypes mask args n prefixLen := by
  unfold measurePayload at h
  unfold measurePayloadIn
  split at h
  · rename_i hn
    obtain ⟨rfl, rfl⟩ := (Prog.path_pure _ _ _).mp h
    simpa [hn] using Reads.nil none
  · rename_i hn
    obtain ⟨m, es₁, es₂, rfl, h₁, h₂⟩ := (Prog.path_bind _ _ _ _).mp h
    have hm := Reads.foldlM (g := fun mem => measureArgIn cfg mem argTypes mask)
      (fun _ _ _ _ => reads_measureArg) h₁
    have h2 : Reads es₂ r fun _ => if m.total > payloadLenMax then none
        else some (m.len, UInt16.ofNat m.total) := by
      split at h₂
      · rename_i ht
        obtain ⟨rfl, rfl⟩ := (Prog.path_pure _ _ _).mp h₂
        simpa [ht] using Reads.nil none
      · rename_i ht
        obtain ⟨rfl, rfl⟩ := (Prog.path_pure _ _ _).mp h₂
        simpa only [if_neg ht] using Reads.nil _
    simp only [if_neg hn]
    exact hm.bind (g := fun m _ => if m.total > payloadLenMax then none
      else some (m.len, UInt16.ofNat m.total)) h2

theorem measureArg_spec {cfg : Config} {argTypes : ArgTypes} {mask : UInt32} {m m' : Measure}
    {idx : ℕ} {es : List Ev} (h : (measureArg cfg argTypes mask m idx).Path es m') :
    (∀ i, i ≠ idx → m'.len i = m.len i) ∧
      m'.total = m.total + argSize (argTypeAt argTypes idx) (m'.len idx) ∧
      m'.args = vaRest (argTypeAt argTypes idx) m.args := by
  unfold measureArg at h
  unfold argSize vaRest
  dsimp only at h
  cases hc : ArgsType.ofCode (argTypeAt argTypes idx) with
  | none =>
    simp only [hc] at h
    obtain ⟨rfl, rfl⟩ := (Prog.path_pure _ _ _).mp h
    exact ⟨fun i hi => rfl, rfl, rfl⟩
  | some t =>
    cases t
    case dynamicString =>
      simp only [hc] at h
      obtain ⟨len, es₁, es₂, rfl, h₁, h₂⟩ := (Prog.path_bind _ _ _ _).mp h
      obtain ⟨rfl, rfl⟩ := (Prog.path_pure _ _ _).mp h₂
      exact ⟨fun i hi => Function.update_of_ne hi _ _, by simp, rfl⟩
    all_goals
      simp only [hc] at h
      obtain ⟨rfl, rfl⟩ := (Prog.path_pure _ _ _).mp h
    case dynamicStringView => exact ⟨fun i hi => Function.update_of_ne hi _ _, by simp, rfl⟩
    all_goals exact ⟨fun i hi => rfl, rfl, rfl⟩

/-- The measured total is the prefix, the count byte, the table and the sizes
of all arguments, whatever the looks at memory saw. -/
theorem measure_total {cfg : Config} {argTypes : ArgTypes} {mask : UInt32} {args : VaList}
    {n total : ℕ} {es : List Ev} {m : Measure}
    (h : ((List.range n).foldlM (measureArg cfg argTypes mask)
      ⟨args, total, 0, 0, fun _ => 0⟩).Path es m) :
    m.total = total + ∑ i ∈ Finset.range n, argSize (argTypeAt argTypes i) (m.len i) := by
  refine Prog.path_foldlM_range (P := fun k _ m =>
    m.total = total + ∑ i ∈ Finset.range k, argSize (argTypeAt argTypes i) (m.len i))
    (by simp) (fun k es m es' m' _ hk hstep => ?_) h
  obtain ⟨hlen, htot, -⟩ := measureArg_spec hstep
  have hsum : ∑ i ∈ Finset.range k, argSize (argTypeAt argTypes i) (m'.len i) =
      ∑ i ∈ Finset.range k, argSize (argTypeAt argTypes i) (m.len i) := by
    refine Finset.sum_congr rfl fun i hi => ?_
    rw [hlen i (by have := Finset.mem_range.mp hi; omega)]
  rw [htot, hk, Finset.sum_range_succ, hsum, Nat.add_assoc]

theorem measurePayload_spec {cfg : Config} {argTypes : ArgTypes} {mask : UInt32} {args : VaList}
    {n prefixLen : ℕ} {es : List Ev} {len : ℕ → UInt32} {payloadLen : UInt16}
    (h : (measurePayload cfg argTypes mask args n prefixLen).Path es (some (len, payloadLen))) :
    n ≤ maxArgs ∧ payloadLen.toNat < payloadLenStreaming ∧
      payloadLen.toNat =
        prefixLen + 1 + n + ∑ i ∈ Finset.range n, argSize (argTypeAt argTypes i) (len i) := by
  unfold measurePayload at h
  split at h
  · simp at h
  · rename_i hn
    obtain ⟨m, es₁, es₂, rfl, h₁, h₂⟩ := (Prog.path_bind _ _ _ _).mp h
    have htot := measure_total h₁
    split at h₂
    · simp at h₂
    · rename_i hle
      obtain ⟨rfl, he⟩ := (Prog.path_pure _ _ _).mp h₂
      simp only [Option.some.injEq, Prod.mk.injEq] at he
      obtain ⟨rfl, rfl⟩ := he
      unfold payloadLenMax payloadLenStreaming at *
      rw [UInt16.toNat_ofNat']
      refine ⟨by omega, by omega, ?_⟩
      rw [← htot]
      omega

theorem emitArg_spec {stream : Stream} {argTypes : ArgTypes} {len : ℕ → UInt32} {total idx : ℕ}
    {args args' : VaList} {es : List Ev}
    (h : (emitArg stream argTypes len total args idx).Path es args') :
    (∃ cs, Sends stream.sinks es cs total (.arg idx) (argSize (argTypeAt argTypes idx) (len idx))
      fun mem => argBytes mem (argTypeAt argTypes idx) (len idx) args) ∧
      args' = vaRest (argTypeAt argTypes idx) args := by
  unfold emitArg at h
  unfold argSize argBytes vaRest
  cases ht : ArgsType.ofCode (argTypeAt argTypes idx) with
  | none =>
    rw [ht] at h
    obtain ⟨rfl, rfl⟩ := (Prog.path_pure _ _ _).mp h
    exact ⟨⟨[], Sends.nil⟩, rfl⟩
  | some t =>
    rw [ht] at h
    cases t with
    | none =>
      obtain ⟨rfl, rfl⟩ := (Prog.path_pure _ _ _).mp h
      exact ⟨⟨[], Sends.nil⟩, rfl⟩
    | bits32 =>
      obtain ⟨h₁, rfl⟩ := Prog.path_then_pure h
      exact ⟨⟨_, sends_emitU32 h₁⟩, rfl⟩
    | bits64 =>
      obtain ⟨h₁, rfl⟩ := Prog.path_then_pure h
      exact ⟨⟨_, sends_emitU64 h₁⟩, rfl⟩
    | pointer =>
      obtain ⟨h₁, rfl⟩ := Prog.path_then_pure h
      exact ⟨⟨_, sends_emitU32 h₁⟩, rfl⟩
    | dynamicString =>
      obtain ⟨h₁, rfl⟩ := Prog.path_then_pure h
      exact ⟨sends_emitString h₁, rfl⟩
    | dynamicStringView =>
      obtain ⟨h₁, rfl⟩ := Prog.path_then_pure h
      exact ⟨sends_emitString h₁, rfl⟩

/-- The chunks of all arguments: `parts i` is argument `i` and nothing else. -/
theorem emitPayloadArgs_spec {stream : Stream} {argTypes : ArgTypes} {len : ℕ → UInt32}
    {args : VaList} {n : ℕ} {es : List Ev} {v : Unit}
    (h : (emitPayloadArgs stream argTypes len args n).Path es v) :
    ∃ parts : ℕ → List Chunk, Emits stream.sinks es ((List.range n).flatMap parts) ∧
      ∀ i < n, Tagged n (.arg i) (parts i) ∧
        (payloadOf (parts i)).length = argSize (argTypeAt argTypes i) (len i) ∧
        ∀ mem, MemIs mem es →
          payloadOf (parts i) = argBytes mem (argTypeAt argTypes i) (len i) (vaAfter argTypes args i) := by
  obtain ⟨_, es₁, es₂, rfl, h₁, h₂⟩ := (Prog.path_bind _ _ _ _).mp h
  obtain ⟨rfl, -⟩ := (Prog.path_pure _ _ _).mp h₂
  rw [List.append_nil]
  have key := Prog.path_foldlM_range (P := fun k es rest => rest = vaAfter argTypes args k ∧
    ∃ parts : ℕ → List Chunk, Emits stream.sinks es ((List.range k).flatMap parts) ∧
      ∀ i < k, Tagged n (.arg i) (parts i) ∧
        (payloadOf (parts i)).length = argSize (argTypeAt argTypes i) (len i) ∧
        ∀ mem, MemIs mem es →
          payloadOf (parts i) =
            argBytes mem (argTypeAt argTypes i) (len i) (vaAfter argTypes args i))
    ⟨rfl, fun _ => [], .nil, fun i hi => absurd hi (Nat.not_lt_zero i)⟩ (fun k es rest es' rest' _ hk hstep => ?_) h₁
  · exact key.2
  · obtain ⟨rfl, parts, hem, hparts⟩ := hk
    obtain ⟨⟨cs, hcs⟩, hrest⟩ := emitArg_spec hstep
    have hold : ∀ i < k, Function.update parts k cs i = parts i := by
      intro i hi
      exact Function.update_of_ne (by omega) _ _
    refine ⟨hrest, Function.update parts k cs, ?_, ?_⟩
    · have hflat : (List.range k).flatMap (Function.update parts k cs) =
          (List.range k).flatMap parts :=
        List.flatMap_congr fun i hi => hold i (List.mem_range.mp hi)
      rw [List.range_succ, List.flatMap_append, hflat]
      simpa using hem.append hcs.emits
    · intro i hi
      by_cases hik : i = k
      · subst hik
        rw [Function.update_self]
        exact ⟨hcs.tagged, hcs.length, fun mem hm => hcs.bytes mem (memIs_append.mp hm).2⟩
      · obtain ⟨ht, hl, hb⟩ := hparts i (by omega)
        rw [hold i (by omega)]
        exact ⟨ht, hl, fun mem hm => hb mem (memIs_append.mp hm).1⟩

end On9log
