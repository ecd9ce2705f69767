import On9log.CppArgs

/-!
# C++ log calls (on9log.hpp:702-763)

What the wrapper passes is what its type table says, so the core reads each argument as it
was passed, and the packet of the call decodes to the values of the C++ arguments.
-/

namespace On9log
open Lib Lib.LittleEndian

variable {cfg : Config} {nans : NanRule} {mem : Mem} {level : ℕ} {tag format : Ptr}
  {args : List LoggerArg} {types : List UInt8} {packed : VaList}

/-! ### The call -/

/-- Inline tag and format, count, table and values. -/
def loggerPayloadLen (cfg : Config) (nans : NanRule) (mem : Mem) (tag format : Ptr)
    (args : List LoggerArg) : ℕ :=
  wireStrSize (tagWireIn cfg mem tag) + wireStrSize (tagWireIn cfg mem format) + 1 + args.length +
    (args.flatMap fun a => (a.logged cfg nans mem).wire).length

theorem flatMap_argWire (mask : UInt32) (args : VaList) :
    (List.range args.length).flatMap (argWire cfg mem (some (typesOf args)) mask args) =
      (valuesOf cfg mem mask args).flatMap Value.wire := by
  have hmap : (List.range args.length).map (argWire cfg mem (some (typesOf args)) mask args) =
      (valuesOf cfg mem mask args).map Value.wire := by
    apply List.ext_getElem
    · simp [valuesOf]
    · intro i h₁ h₂
      rw [List.length_map] at h₂
      rw [List.getElem_map, List.getElem_map, List.getElem_range]
      exact (argWire_valuesOf (List.getElem?_eq_getElem h₂)).2
  rw [List.flatMap_def, List.flatMap_def, hmap]

variable (cfg mem tag format) in
theorem length_loggerPayload (htypes : loggerTypes args = some types)
    (hpacked : withWireArgs nans args = some packed) :
    (logPayload cfg mem tag format 0 (some (typesOf packed)) (UInt8.ofNat packed.length)
      packed).length = loggerPayloadLen cfg nans mem tag format args := by
  obtain ⟨hmax, hlen, -⟩ := typesOf_packed htypes hpacked
  have hcount : (UInt8.ofNat packed.length).toNat = packed.length := toNat_ofNat_argCount (hlen.trans_le hmax)
  unfold logPayload loggerPayloadLen
  rw [hcount, typeTable_typesOf, flatMap_argWire, valuesOf_packed cfg mem htypes hpacked,
    List.flatMap_map]
  simp only [List.length_append, List.length_cons, length_wireStrBytes, typesOf, List.length_map,
    hlen]
  omega

/-- What stands at argument `i` of the call, and what the core finds there after it has read
the arguments before by their codes. -/
theorem packed_at (htypes : loggerTypes args = some types)
    (hpacked : withWireArgs nans args = some packed) {i : ℕ} {arg : LoggerArg}
    (harg : args[i]? = some arg) :
    ∃ w, wireArg nans arg.type arg.value = some w ∧
      argTypeCode arg.type = some (varargValue w).type ∧
      argTypeAt (some types) i = (varargValue w).type.code ∧
      vaAfter (some types) packed i = varargValue w :: packed.drop (i + 1) := by
  obtain ⟨-, hlen, rfl⟩ := typesOf_packed htypes hpacked
  obtain ⟨-, hcodes⟩ := codes_of_loggerTypes htypes
  obtain ⟨hi, rfl⟩ := List.getElem?_eq_some_iff.mp harg
  have hi' : i < packed.length := by omega
  have hcode := hcodes.get hi (by rwa [← hcodes.length_eq])
  have hwire := (forall₂_of_mapM hpacked).get hi hi'
  rw [List.get_eq_getElem] at hcode hwire
  obtain ⟨type, htype, -⟩ := Option.map_eq_some_iff.mp hcode
  obtain ⟨w, hw, hvalue⟩ := Option.map_eq_some_iff.mp hwire
  rw [List.get_eq_getElem] at hvalue
  refine ⟨w, hw, ?_, ?_, ?_⟩
  · rw [type_varargValue htype hw]
    exact htype
  · rw [argTypeAt_typesOf hi', ← hvalue]
  · rw [vaAfter_typesOf_cons hi', ← hvalue]

/-- A call with arguments the type analysis accepts compiles, if none refers to volatile. -/
theorem analyses_compile (nans : NanRule) (hlen : args.length ≤ maxArgs)
    (haccept : ∀ arg ∈ args, (argTypeCode arg.type).isSome = true)
    (hvolatile : ∀ arg ∈ args, arg.type.isVolatile = false) :
    ∃ types packed, loggerTypes args = some types ∧ withWireArgs nans args = some packed := by
  have hcodes : ∀ arg ∈ args, ∃ c, (argTypeCode arg.type).map ArgsType.code = some c := by
    intro arg harg
    obtain ⟨type, htype⟩ := Option.isSome_iff_exists.mp (haccept arg harg)
    exact ⟨type.code, by rw [htype, Option.map_some]⟩
  have hwires : ∀ arg ∈ args, ∃ a, (wireArg nans arg.type arg.value).map varargValue = some a := by
    intro arg harg
    obtain ⟨type, htype⟩ := Option.isSome_iff_exists.mp (haccept arg harg)
    obtain ⟨w, hw⟩ := wireArg_isSome nans arg.typed htype (hvolatile arg harg)
    exact ⟨varargValue w, by rw [hw, Option.map_some]⟩
  obtain ⟨types, htypes⟩ := mapM_isSome hcodes
  obtain ⟨packed, hpacked⟩ := mapM_isSome hwires
  exact ⟨types, packed, by rw [loggerTypes, if_pos hlen, htypes], hpacked⟩

section Runs

variable {Tid : Type} [DecidableEq Tid]

end Runs

/-- `int8_t{-1}`, `1.5f` and a string of three bytes. -/
def smallArgs : List LoggerArg :=
  [⟨.integral true 1, .integer (-1), by decide⟩, ⟨.float, .floatBits 0x3fc00000, rfl⟩,
    ⟨.string, .chars 2000 3, by decide⟩]

end On9log
