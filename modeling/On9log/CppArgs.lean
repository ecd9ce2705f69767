import On9log.ArgChunks
import On9log.FormatRoute
import On9log.Lib.FloatBits

/-!
# Arguments of the C++ wrapper (on9log.hpp:236-505, 702-763)

In a binary build the wrapper takes the type table from one case analysis at compile time
and the values it passes to the core from another. Both are written out here as the source
has them, `none` where it does not compile.
-/

namespace On9log
open Lib

/-! ### Types -/

/-- What the wrapper looks at of a type, without its reference and its own qualifiers.
`isVolatile` is of what is pointed to, or of the elements. A `longDouble` is wider than a
double. -/
inductive CppType where
  | stringView
  | string
  | charPointer (isVolatile : Bool)
  | charArray (isVolatile : Bool)
  | array (isVolatile : Bool)
  | nullPointer
  | pointer (isVolatile : Bool)
  | functionPointer
  | float
  | double
  | longDouble
  | integral (signed : Bool) (bytes : ℕ)
  | enumeration (signed : Bool) (bytes : ℕ)
  | other
  deriving DecidableEq

namespace CppType

def isStringViewArg (t : CppType) : Bool := t = stringView || t = string

def isCharPointer : CppType → Bool
  | charPointer _ => true
  | _ => false

def isCharArray : CppType → Bool
  | charArray _ => true
  | _ => false

def isArray : CppType → Bool
  | charArray _ | array _ => true
  | _ => false

def isNullPointer (t : CppType) : Bool := t = nullPointer

def isPointer : CppType → Bool
  | charPointer _ | pointer _ | functionPointer => true
  | _ => false

/-- `is_supported_pointer_v`: no function pointer. -/
def isSupportedPointer : CppType → Bool
  | charPointer _ | pointer _ => true
  | _ => false

def isFloatingPoint : CppType → Bool
  | float | double | longDouble => true
  | _ => false

def isIntegral : CppType → Bool
  | integral _ _ => true
  | _ => false

def isEnum : CppType → Bool
  | enumeration _ _ => true
  | _ => false

/-- Of the types whose size is looked at. -/
def sizeof : CppType → ℕ
  | float => 4
  | double => 8
  | longDouble => 16
  | integral _ bytes | enumeration _ bytes => bytes
  | _ => 0

/-- A pointer that `static_cast` does not convert to one to `const`. -/
def isVolatile : CppType → Bool
  | charPointer v | charArray v | array v | pointer v => v
  | _ => false

end CppType

/-- `arg_type_code`. -/
def argTypeCode (t : CppType) : Option ArgsType :=
  if t.isStringViewArg then some .dynamicStringView
  else if t.isCharPointer || t.isCharArray then some .dynamicString
  else if t.isArray then some .pointer
  else if t.isNullPointer then some .pointer
  else if t.isPointer then if t.isSupportedPointer then some .pointer else none
  else if t.isFloatingPoint then if t.sizeof ≤ 8 then some .bits64 else none
  else if t.isIntegral || t.isEnum then
    if t.sizeof > 4 then if t.sizeof ≤ 8 then some .bits64 else none else some .bits32
  else none

/-- What the wrapper of a text build is told of the type; `none` where it does not compile. -/
def CppType.kind : CppType → Option ArgKind
  | stringView | string => some .stringView
  | charPointer _ => some .charPointer
  | charArray _ => some .charArray
  | array _ => some .array
  | nullPointer => some .nullPointer
  | pointer _ => some .pointer
  | float | double => some .floating
  | integral _ bytes => if bytes ≤ 8 then some (.integral bytes) else none
  | enumeration _ bytes => if bytes ≤ 8 then some (.enum bytes) else none
  | functionPointer | longDouble | other => none

/-- Both builds take the type codes from one function. -/
theorem argTypeCode_kind (t : CppType) (n : ℕ) :
    argTypeCode t = t.kind.map fun kind => (⟨kind, n⟩ : CppArg).typeCode := by
  have hsize : ∀ (bytes : ℕ) (kind : ArgKind), (∀ n, (⟨kind, n⟩ : CppArg).typeCode =
      if bytes > 4 then .bits64 else .bits32) →
      (if bytes > 4 then if bytes ≤ 8 then some ArgsType.bits64 else none else some .bits32) =
        (if bytes ≤ 8 then some kind else none).map fun kind => (⟨kind, n⟩ : CppArg).typeCode := by
    intro bytes kind hkind
    by_cases hle : bytes ≤ 8
    · rw [if_pos hle, if_pos hle, Option.map_some, hkind]
      split <;> rfl
    · rw [if_neg hle, if_neg hle, if_pos (by omega), Option.map_none]
  cases t
  case integral signed bytes => exact hsize bytes (.integral bytes) fun _ => rfl
  case enumeration signed bytes => exact hsize bytes (.enum bytes) fun _ => rfl
  all_goals rfl

/-! ### Values -/

/-- An array and a pointer by the address, a float by its bits, a long double by those of the
double it is cast to. -/
inductive CppValue where
  | chars (data : Ptr) (size : ℕ)
  | address (p : Ptr)
  | floatBits (bits : UInt32)
  | doubleBits (bits : UInt64)
  | integer (v : ℤ)
  deriving DecidableEq

def inRange (signed : Bool) (bytes : ℕ) (v : ℤ) : Bool :=
  if signed then -2 ^ (8 * bytes - 1) ≤ v ∧ v < 2 ^ (8 * bytes - 1) else 0 ≤ v ∧ v < 2 ^ (8 * bytes)

/-- A string without data has no length; a null pointer is NULL. -/
def CppValue.hasType : CppValue → CppType → Bool
  | chars data size, .stringView | chars data size, .string => data = 0 → size = 0
  | address _, .charPointer _ | address _, .charArray _ | address _, .array _
  | address _, .pointer _ | address _, .functionPointer => true
  | address p, .nullPointer => p = 0
  | floatBits _, .float | doubleBits _, .double | doubleBits _, .longDouble => true
  | integer v, .integral signed bytes | integer v, .enumeration signed bytes =>
    inRange signed bytes v
  | _, _ => false

structure LoggerArg where
  type : CppType
  value : CppValue
  typed : value.hasType type = true

/-- What a platform makes of a NaN it widens. -/
structure NanRule where
  widen : FloatFields → FloatFields
  valid : ∀ x, binary64.Valid (widen x)
  value : ∀ x, binary64.value (widen x) = .nan

/-- The payload is kept and the NaN made quiet. -/
def quietNans : NanRule where
  widen x := ⟨x.negative, 2047, 2 ^ 51 + x.frac % 2 ^ 22 * 2 ^ 29⟩
  valid x := by
    have hlt : x.frac % 2 ^ 22 < 2 ^ 22 := Nat.mod_lt _ (by decide)
    refine ⟨show 2047 < 2 ^ 11 by decide, ?_⟩
    show 2 ^ 51 + x.frac % 2 ^ 22 * 2 ^ 29 < 2 ^ 52
    omega
  value x := by
    have hne : ¬ 2 ^ 51 + x.frac % 2 ^ 22 * 2 ^ 29 = 0 := by omega
    have hmax : 2047 = binary64.expMax := by decide
    unfold FloatFormat.value
    dsimp only
    rw [if_pos hmax, if_neg hne]

/-- `static_cast<double>` of a float, in bits. -/
def doubleOfFloat (nans : NanRule) (bits : UInt32) : UInt64 :=
  UInt64.ofNat (binary64.pack
    (FloatFormat.widen binary32 binary64 nans.widen (binary32.fields bits.toNat)))

/-- The double has the value of the float. -/
theorem value_doubleOfFloat (nans : NanRule) (bits : UInt32) :
    binary64.value (binary64.fields (doubleOfFloat nans bits).toNat) =
      binary32.value (binary32.fields bits.toNat) := by
  have hvalid := FloatFormat.valid_widen FloatFormat.embeds_binary32_binary64 nans.valid
    (binary32.valid_fields bits.toNat)
  have hlt := hvalid.pack_lt
  have htoNat : (doubleOfFloat nans bits).toNat = binary64.pack
      (FloatFormat.widen binary32 binary64 nans.widen (binary32.fields bits.toNat)) := by
    unfold doubleOfFloat
    rw [UInt64.toNat_ofNat']
    exact Nat.mod_eq_of_lt hlt
  rw [htoNat, hvalid.fields_pack]
  exact FloatFormat.value_widen FloatFormat.embeds_binary32_binary64 nans.value
    (binary32.valid_fields bits.toNat)

/-- What `wire_arg` returns. -/
inductive WireArg where
  | u32 (v : UInt32)
  | u64 (v : UInt64)
  | charPtr (p : Ptr)
  | voidPtr (p : Ptr)
  | stringView (view : StringView)
  deriving DecidableEq

/-- `static_cast<std::uint32_t>` and `static_cast<std::uint64_t>`. -/
def castU32 (v : ℤ) : UInt32 := UInt32.ofNat (v % 2 ^ 32).toNat
def castU64 (v : ℤ) : UInt64 := UInt64.ofNat (v % 2 ^ 64).toNat

def integerBits (t : CppType) (v : ℤ) : WireArg :=
  if t.isEnum then if t.sizeof > 4 then .u64 (castU64 v) else .u32 (castU32 v)
  else if t.sizeof > 4 then .u64 (castU64 v)
  else .u32 (castU32 v)

/-- `wire_arg`; the values that do not fit the type do not occur. -/
def wireArg (nans : NanRule) (t : CppType) (value : CppValue) : Option WireArg :=
  if t.isStringViewArg then
    match value with
    | .chars data size => some (.stringView ⟨data, size⟩)
    | _ => none
  else if t.isCharPointer || t.isCharArray then
    match value with
    | .address p => if t.isVolatile then none else some (.charPtr p)
    | _ => none
  else if t.isArray then
    match value with
    | .address p => if t.isVolatile then none else some (.voidPtr p)
    | _ => none
  else if t.isNullPointer then some (.voidPtr 0)
  else if t.isPointer then
    match value with
    | .address p => if t.isSupportedPointer ∧ ¬ t.isVolatile then some (.voidPtr p) else none
    | _ => none
  else if t.isFloatingPoint then
    match value with
    | .floatBits bits => some (.u64 (doubleOfFloat nans bits))
    | .doubleBits bits => some (.u64 bits)
    | _ => none
  else if t.isIntegral || t.isEnum then
    match value with
    | .integer v => some (integerBits t v)
    | _ => none
  else none

/-- `vararg_value`: a view is passed by its address. -/
def varargValue : WireArg → VaArg
  | .u32 v => .u32 v
  | .u64 v => .u64 v
  | .charPtr p => .charPtr p
  | .voidPtr p => .voidPtr p
  | .stringView view => .viewPtr (some view)

/-! ### Calls -/

/-- `arg_types`; behind the last code stands NONE. -/
def loggerTypes (args : List LoggerArg) : Option (List UInt8) :=
  if args.length ≤ maxArgs then args.mapM fun a => (argTypeCode a.type).map ArgsType.code else none

/-- What `with_wire_args` passes on. -/
def withWireArgs (nans : NanRule) (args : List LoggerArg) : Option VaList :=
  args.mapM fun a => (wireArg nans a.type a.value).map varargValue

/-- `write_log` in a binary build; there is no call below the compile-time level. -/
def writeLog (cfg : Config) (nans : NanRule) (level : ℕ) (tag format : Ptr)
    (args : List LoggerArg) : Option (Option Call) :=
  if level ≠ levelNone ∧ level ≤ cfg.localLevel then do
    let types ← loggerTypes args
    let packed ← withWireArgs nans args
    pure (some (.write level tag format (some types) packed))
  else pure none

/-! ### The two analyses agree -/

variable {nans : NanRule} {t : CppType} {value : CppValue} {w : WireArg} {type : ArgsType}

theorem type_integerBits (t : CppType) (v : ℤ) :
    (varargValue (integerBits t v)).type = if t.sizeof > 4 then .bits64 else .bits32 := by
  unfold integerBits
  by_cases hbig : t.sizeof > 4
  · simp only [if_pos hbig, ite_self]
    rfl
  · simp only [if_neg hbig, ite_self]
    rfl

/-- Integers and enums, by their size. -/
theorem argTypeCode_integer (h : t.isIntegral = true ∨ t.isEnum = true) :
    argTypeCode t = if t.sizeof > 4 then if t.sizeof ≤ 8 then some .bits64 else none
      else some .bits32 := by
  cases t
  case integral => rfl
  case enumeration => rfl
  all_goals simp [CppType.isIntegral, CppType.isEnum] at h

theorem type_integer (h : t.isIntegral = true ∨ t.isEnum = true) (v : ℤ)
    (hcode : argTypeCode t = some type) : (varargValue (integerBits t v)).type = type := by
  rw [argTypeCode_integer h] at hcode
  rw [type_integerBits]
  by_cases hbig : t.sizeof > 4
  · rw [if_pos hbig] at hcode ⊢
    split at hcode
    · exact Option.some.inj hcode
    · cases hcode
  · rw [if_neg hbig] at hcode ⊢
    exact Option.some.inj hcode

/-- The code names the type of what is passed. -/
theorem type_varargValue (hcode : argTypeCode t = some type)
    (hwire : wireArg nans t value = some w) : (varargValue w).type = type := by
  cases t
  case functionPointer => cases hcode
  case longDouble => cases hcode
  case other => cases hcode
  case integral signed bytes =>
    cases value <;> cases hwire
    exact type_integer (.inl rfl) _ hcode
  case enumeration signed bytes =>
    cases value <;> cases hwire
    exact type_integer (.inr rfl) _ hcode
  -- everything else has one code and one wire type
  case charPointer | charArray | array | pointer =>
    rename_i isVolatile
    cases isVolatile <;> cases value <;> cases hwire
    cases hcode
    rfl
  case nullPointer =>
    cases hwire
    cases hcode
    rfl
  case stringView | string =>
    cases value <;> cases hwire
    cases hcode
    rfl
  case float | double =>
    cases hcode
    cases value <;> cases hwire <;> rfl

variable (nans) in
/-- What has a code is passed, but for a pointer to volatile, which is not converted. -/
theorem wireArg_isSome (htyped : value.hasType t = true) (hcode : argTypeCode t = some type)
    (hvolatile : t.isVolatile = false) : ∃ w, wireArg nans t value = some w := by
  cases t
  case functionPointer => cases hcode
  case longDouble => cases hcode
  case other => cases hcode
  case charPointer | charArray | array | pointer =>
    rename_i isVolatile
    obtain rfl : isVolatile = false := hvolatile
    cases value <;> first | exact ⟨_, rfl⟩ | cases htyped
  case nullPointer => exact ⟨_, rfl⟩
  case stringView | string | float | double | integral | enumeration =>
    cases value <;> first | exact ⟨_, rfl⟩ | cases htyped

theorem wireArg_volatile (h : t.isVolatile = true) : wireArg nans t value = none := by
  cases t
  case charPointer | charArray | array | pointer =>
    rename_i isVolatile
    obtain rfl : isVolatile = true := h
    cases value <;> rfl
  all_goals cases h

/-! ### What is logged -/

/-- The value of an argument in the log. -/
def LoggerArg.logged (cfg : Config) (nans : NanRule) (mem : Mem) (arg : LoggerArg) : Value :=
  match arg.type, arg.value with
  | .stringView, .chars data size | .string, .chars data size =>
    .string (some (readBytes mem data (min size cfg.maxDynamicStringLen)))
  | .charPointer _, .address p | .charArray _, .address p =>
    .string (if p = 0 then none else some (cString mem p cfg.maxDynamicStringLen))
  | .float, .floatBits bits => .bits64 (doubleOfFloat nans bits).toNat
  | .double, .doubleBits bits => .bits64 bits.toNat
  | .integral _ bytes, .integer v | .enumeration _ bytes, .integer v =>
    if bytes ≤ 4 then .bits32 (v % 2 ^ 32).toNat else .bits64 (v % 2 ^ 64).toNat
  | _, .address p => .pointer (p % 2 ^ 32)
  | _, _ => .pointer 0

variable {cfg : Config} {mem : Mem}

theorem toNat_castU32 (v : ℤ) : (castU32 v).toNat = (v % 2 ^ 32).toNat := by
  have hlt : v % 2 ^ 32 < 2 ^ 32 := Int.emod_lt_of_pos v (by decide)
  unfold castU32
  rw [UInt32.toNat_ofNat']
  omega

theorem toNat_castU64 (v : ℤ) : (castU64 v).toNat = (v % 2 ^ 64).toNat := by
  have hlt : v % 2 ^ 64 < 2 ^ 64 := Int.emod_lt_of_pos v (by decide)
  unfold castU64
  rw [UInt64.toNat_ofNat']
  omega

theorem value_integerBits (t : CppType) (v : ℤ) :
    (varargValue (integerBits t v)).value cfg mem none =
      if t.sizeof ≤ 4 then .bits32 (v % 2 ^ 32).toNat else .bits64 (v % 2 ^ 64).toNat := by
  unfold integerBits
  by_cases hsize : t.sizeof ≤ 4
  · have hsmall : ¬ t.sizeof > 4 := by omega
    simp only [if_pos hsize, if_neg hsmall, ite_self, ← toNat_castU32]
    rfl
  · have hbig : t.sizeof > 4 := by omega
    simp only [if_neg hsize, if_pos hbig, ite_self, ← toNat_castU64]
    rfl

/-- The value the core makes of what is passed is that of the argument. -/
theorem value_varargValue (arg : LoggerArg) (hcode : argTypeCode arg.type = some type)
    (hwire : wireArg nans arg.type arg.value = some w) :
    (varargValue w).value cfg mem none = arg.logged cfg nans mem := by
  obtain ⟨t, value, htyped⟩ := arg
  dsimp only at hcode hwire
  cases t
  case functionPointer => cases hcode
  case longDouble => cases hcode
  case other => cases hcode
  case integral | enumeration =>
    cases value <;> cases hwire
    exact value_integerBits _ _
  case charPointer | charArray =>
    rename_i isVolatile
    cases isVolatile <;> cases value <;> cases hwire
    rfl
  case array | pointer =>
    rename_i isVolatile
    cases isVolatile <;> cases value <;> cases hwire
    rfl
  case nullPointer =>
    cases hwire
    cases value
    case address p =>
      obtain rfl : p = 0 := of_decide_eq_true htyped
      rfl
    all_goals cases htyped
  case stringView | string =>
    cases value <;> cases hwire
    rename_i data size
    have hvalid : data = 0 → size = 0 := of_decide_eq_true htyped
    have hsome : ¬ (data = 0 ∧ size ≠ 0) := fun h => h.2 (hvalid h.1)
    show Value.string _ = Value.string _
    rw [if_neg hsome]
  case float | double =>
    cases value <;> cases htyped
    cases hwire
    rfl

/-! ### Lists of arguments -/

theorem forall₂_of_mapM {α β : Type} {f : α → Option β} {l : List α} {bs : List β}
    (h : l.mapM f = some bs) : List.Forall₂ (fun a b => f a = some b) l bs := by
  induction l generalizing bs with
  | nil =>
    cases h
    exact .nil
  | cons a l ih =>
    rw [List.mapM_cons] at h
    obtain ⟨b, hb, h⟩ := Option.bind_eq_some_iff.mp h
    obtain ⟨bs, hbs, h⟩ := Option.bind_eq_some_iff.mp h
    cases h
    exact .cons hb (ih hbs)

theorem mapM_isSome {α β : Type} {f : α → Option β} {l : List α}
    (h : ∀ a ∈ l, ∃ b, f a = some b) : ∃ bs, l.mapM f = some bs := by
  induction l with
  | nil => exact ⟨[], rfl⟩
  | cons a l ih =>
    obtain ⟨b, hb⟩ := h a List.mem_cons_self
    obtain ⟨bs, hbs⟩ := ih fun c hc => h c (List.mem_cons_of_mem a hc)
    refine ⟨b :: bs, ?_⟩
    rw [List.mapM_cons, hb, hbs]
    rfl

theorem mapM_eq_none {α β : Type} {f : α → Option β} {l : List α} {a : α} (ha : a ∈ l)
    (h : f a = none) : l.mapM f = none := by
  cases hl : l.mapM f with
  | none => rfl
  | some bs =>
    obtain ⟨i, hi, rfl⟩ := List.mem_iff_getElem.mp ha
    have hget := (forall₂_of_mapM hl).get hi (by rw [← (forall₂_of_mapM hl).length_eq]; exact hi)
    rw [List.get_eq_getElem, h] at hget
    cases hget

variable {args : List LoggerArg} {types : List UInt8} {packed : VaList}

theorem valuesOf_unmasked (args : VaList) :
    valuesOf cfg mem 0 args = args.map (VaArg.value cfg mem none) := by
  have hnone : ∀ i, precisionOf (some (typesOf args)) 0 args i = none := by
    intro i
    unfold precisionOf
    rw [UInt32.zero_and, if_neg (by decide)]
  unfold valuesOf
  simp only [hnone]
  apply List.ext_getElem
  · rw [List.length_mapIdx, List.length_map]
  · intro i _ _
    rw [List.getElem_mapIdx, List.getElem_map]

theorem codes_of_loggerTypes (h : loggerTypes args = some types) :
    args.length ≤ maxArgs ∧
      List.Forall₂ (fun a c => (argTypeCode a.type).map ArgsType.code = some c) args types := by
  unfold loggerTypes at h
  split at h
  case isFalse => cases h
  exact ⟨‹_›, forall₂_of_mapM h⟩

/-- The table is that of what is passed. -/
theorem typesOf_packed (htypes : loggerTypes args = some types)
    (hpacked : withWireArgs nans args = some packed) :
    args.length ≤ maxArgs ∧ packed.length = args.length ∧ types = typesOf packed := by
  obtain ⟨hlen, hcodes⟩ := codes_of_loggerTypes htypes
  have hwires := forall₂_of_mapM hpacked
  refine ⟨hlen, hwires.length_eq.symm, ?_⟩
  clear htypes hpacked hlen
  induction hwires generalizing types with
  | nil =>
    cases hcodes
    rfl
  | cons hwire _ ih =>
    cases hcodes with
    | cons hcode hrest =>
      obtain ⟨type, htype, rfl⟩ := Option.map_eq_some_iff.mp hcode
      obtain ⟨w, hw, rfl⟩ := Option.map_eq_some_iff.mp hwire
      rw [ih hrest, ← type_varargValue htype hw]
      rfl

variable (cfg mem) in
/-- The values of what is passed are those of the arguments. -/
theorem valuesOf_packed (htypes : loggerTypes args = some types)
    (hpacked : withWireArgs nans args = some packed) :
    valuesOf cfg mem 0 packed = args.map (LoggerArg.logged cfg nans mem) := by
  obtain ⟨-, hcodes⟩ := codes_of_loggerTypes htypes
  have hwires := forall₂_of_mapM hpacked
  rw [valuesOf_unmasked]
  clear htypes hpacked
  induction hwires generalizing types with
  | nil => rfl
  | @cons arg p args packed hwire _ ih =>
    cases hcodes with
    | cons hcode hrest =>
      obtain ⟨type, htype, -⟩ := Option.map_eq_some_iff.mp hcode
      obtain ⟨w, hw, rfl⟩ := Option.map_eq_some_iff.mp hwire
      rw [List.map_cons, List.map_cons, ih hrest, value_varargValue arg htype hw]

end On9log
