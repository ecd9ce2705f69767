import On9log.Calls

/-!
# What the measuring pass finds

When memory does not change, the first pass over the arguments is a function of
memory: `argLenIn` is the length it records for one argument, `measure_eq` what
the whole pass returns.
-/

namespace On9log
open Lib Lib.LittleEndian

variable {cfg : Config} {mem : Mem} {argTypes : ArgTypes} {mask : UInt32} {args : VaList}

/-- The word in front of argument `idx`, where a `%.*s` has its precision. -/
def precisionBefore (argTypes : ArgTypes) (args : VaList) : ℕ → Option UInt32
  | 0 => none
  | idx + 1 =>
    if argTypeAt argTypes idx = ArgsType.bits32.code then some (vaU32 (vaAfter argTypes args idx))
    else none

/-- The precision argument `idx` is clipped to, if it is. -/
def precisionOf (argTypes : ArgTypes) (mask : UInt32) (args : VaList) (idx : ℕ) : Option UInt32 :=
  if mask &&& ((1 : UInt32) <<< UInt32.ofNat idx) ≠ 0 then precisionBefore argTypes args idx else none

/-- The length of a C string, clipped if it has a precision. -/
def clippedLen (cfg : Config) (mem : Mem) (str : Ptr) : Option UInt32 → UInt32
  | some precision => cstrLenIn cfg mem str true precision.toInt32
  | none => cstrLenIn cfg mem str false 0

/-- The length recorded for argument `idx`, 0 for arguments that are no strings. -/
def argLenIn (cfg : Config) (mem : Mem) (argTypes : ArgTypes) (mask : UInt32) (args : VaList)
    (idx : ℕ) : UInt32 :=
  match ArgsType.ofCode (argTypeAt argTypes idx) with
  | some .dynamicString =>
    clippedLen cfg mem (vaCharPtr (vaAfter argTypes args idx)) (precisionOf argTypes mask args idx)
  | some .dynamicStringView => viewLen cfg (vaViewPtr (vaAfter argTypes args idx))
  | _ => 0

/-- The measuring pass in front of argument `k`. -/
structure Measured (cfg : Config) (mem : Mem) (argTypes : ArgTypes) (mask : UInt32)
    (args : VaList) (start k : ℕ) (m : Measure) : Prop where
  rest : m.args = vaAfter argTypes args k
  total : m.total = start + ∑ i ∈ Finset.range k,
    argSize (argTypeAt argTypes i) (argLenIn cfg mem argTypes mask args i)
  prev : precisionBefore argTypes args k =
    if m.prevArgType = ArgsType.bits32.code then some m.prevU32 else none
  len : ∀ i < k, m.len i = argLenIn cfg mem argTypes mask args i
  zero : ∀ i, k ≤ i → m.len i = 0

theorem cstrLenIn_false (cfg : Config) (mem : Mem) (str : Ptr) (p q : Int32) :
    cstrLenIn cfg mem str false p = cstrLenIn cfg mem str false q := by
  simp [cstrLenIn]

theorem Measured.string {start k : ℕ} {m : Measure}
    (h : Measured cfg mem argTypes mask args start k m)
    (ht : ArgsType.ofCode (argTypeAt argTypes k) = some .dynamicString) :
    cstrLenIn cfg mem (vaCharPtr m.args)
      (decide (mask &&& ((1 : UInt32) <<< UInt32.ofNat k) ≠ 0 ∧
        m.prevArgType = ArgsType.bits32.code)) m.prevU32.toInt32 =
      argLenIn cfg mem argTypes mask args k := by
  unfold argLenIn precisionOf
  simp only [ht, h.rest, h.prev]
  by_cases hbit : mask &&& ((1 : UInt32) <<< UInt32.ofNat k) ≠ 0
  · by_cases hp : m.prevArgType = ArgsType.bits32.code
    · rw [if_pos hbit, if_pos hp, decide_eq_true ⟨hbit, hp⟩]
      rfl
    · rw [if_pos hbit, if_neg hp, decide_eq_false fun hc => hp hc.2]
      exact cstrLenIn_false ..
  · rw [if_neg hbit, decide_eq_false fun hc => hbit hc.1]
    exact cstrLenIn_false ..

theorem Measured.step {start k : ℕ} {m : Measure}
    (h : Measured cfg mem argTypes mask args start k m) :
    Measured cfg mem argTypes mask args start (k + 1) (measureArgIn cfg mem argTypes mask m k) := by
  have hlen : (measureArgIn cfg mem argTypes mask m k).len =
      Function.update m.len k (argLenIn cfg mem argTypes mask args k) := by
    show Function.update m.len k _ = _
    congr 1
    cases ht : ArgsType.ofCode (argTypeAt argTypes k) with
    | none =>
      show m.len k = _
      simp only [argLenIn, ht, h.zero k (Nat.le_refl k)]
    | some type =>
      cases type with
      | dynamicString => exact h.string ht
      | dynamicStringView => simp only [argLenIn, ht, h.rest]
      | _ =>
        show m.len k = _
        simp only [argLenIn, ht, h.zero k (Nat.le_refl k)]
  have hk : (measureArgIn cfg mem argTypes mask m k).len k =
      argLenIn cfg mem argTypes mask args k := by
    rw [hlen, Function.update_self]
  constructor
  · show vaRest _ m.args = _
    rw [h.rest]
    rfl
  · have htotal : (measureArgIn cfg mem argTypes mask m k).total = m.total +
        argSize (argTypeAt argTypes k) ((measureArgIn cfg mem argTypes mask m k).len k) := by
      show m.total + argSize _ _ = m.total + argSize _ (Function.update m.len k _ k)
      rw [Function.update_self]
    rw [htotal, hk, h.total, Finset.sum_range_succ, Nat.add_assoc]
  · show (if argTypeAt argTypes k = ArgsType.bits32.code then
        some (vaU32 (vaAfter argTypes args k)) else none) =
      if argTypeAt argTypes k = ArgsType.bits32.code then some
        (if ArgsType.ofCode (argTypeAt argTypes k) = some .bits32 then vaU32 m.args else m.prevU32)
      else none
    split
    · rename_i hc
      rw [if_pos (by rw [hc, ArgsType.ofCode_code]), h.rest]
    · rfl
  · intro i hi
    rw [hlen]
    by_cases hik : i = k
    · rw [hik, Function.update_self]
    · rw [Function.update_of_ne hik]
      exact h.len i (by omega)
  · intro i hi
    rw [hlen, Function.update_of_ne (by omega)]
    exact h.zero i (by omega)

theorem measured_foldl (cfg : Config) (mem : Mem) (argTypes : ArgTypes) (mask : UInt32)
    (args : VaList) (start n : ℕ) : Measured cfg mem argTypes mask args start n
      ((List.range n).foldl (measureArgIn cfg mem argTypes mask)
        ⟨args, start, 0, 0, fun _ => 0⟩) := by
  induction n with
  | zero =>
    refine ⟨rfl, by simp, ?_, fun i hi => by omega, fun _ _ => rfl⟩
    exact (if_neg (show ¬ (0 : UInt8) = 1 by decide)).symm
  | succ n ih =>
    rw [List.range_succ, List.foldl_append]
    exact ih.step

/-- The payload length of a LOG packet with `prefixLen` bytes of inline tag and format. -/
def logPayloadLen (cfg : Config) (mem : Mem) (argTypes : ArgTypes) (mask : UInt32)
    (args : VaList) (argCount prefixLen : ℕ) : ℕ :=
  prefixLen + 1 + argCount + ∑ i ∈ Finset.range argCount,
    argSize (argTypeAt argTypes i) (argLenIn cfg mem argTypes mask args i)

/-- The call is dropped exactly if a header cannot describe it, and otherwise
every length is the one of `argLenIn`. -/
theorem measure_eq (cfg : Config) (mem : Mem) (argTypes : ArgTypes) (mask : UInt32)
    (args : VaList) (argCount prefixLen : ℕ) :
    (measurePayloadIn cfg mem argTypes mask args argCount prefixLen = none ↔
      maxArgs < argCount ∨
        payloadLenMax < logPayloadLen cfg mem argTypes mask args argCount prefixLen) ∧
    ∀ len payloadLen,
      measurePayloadIn cfg mem argTypes mask args argCount prefixLen = some (len, payloadLen) →
        payloadLen.toNat = logPayloadLen cfg mem argTypes mask args argCount prefixLen ∧
        ∀ i < argCount, len i = argLenIn cfg mem argTypes mask args i := by
  have hm := measured_foldl cfg mem argTypes mask args (prefixLen + 1 + argCount) argCount
  have htotal := hm.total
  unfold measurePayloadIn logPayloadLen
  split
  · rename_i hn
    exact ⟨iff_of_true rfl (Or.inl hn), by simp⟩
  · rename_i hn
    dsimp only
    rw [htotal]
    split
    · rename_i ht
      exact ⟨iff_of_true rfl (Or.inr ht), by simp⟩
    · rename_i ht
      refine ⟨iff_of_false (by simp) (by omega), fun len payloadLen hs => ?_⟩
      simp only [Option.some.injEq, Prod.mk.injEq] at hs
      obtain ⟨rfl, rfl⟩ := hs
      refine ⟨?_, hm.len⟩
      unfold payloadLenMax payloadLenStreaming at ht
      rw [UInt16.toNat_ofNat']
      omega

end On9log
