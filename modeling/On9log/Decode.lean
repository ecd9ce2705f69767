import On9log.Lib.Reader
import On9log.LogPacket
import On9log.Progress
import On9log.Solo

/-!
# Reading LOG packets back (README, "Wire Format")

The decoder is written from the documented wire format: an 18-byte header, the
inline tag and format where the header says so, the argument count, the type
table and the values. `log_decodes` says that it gives back the call.
-/

namespace On9log
open Lib Lib.LittleEndian Lib.Reader

/-! ### The decoder -/

/-- A tag or format: an address to be looked up, or a copy. -/
inductive StrRef where
  | address (id : ℕ)
  | copied (bytes : List UInt8)
  deriving DecidableEq

/-- An argument value; `none` is a NULL string. -/
inductive Value where
  | bits32 (v : ℕ)
  | bits64 (v : ℕ)
  | pointer (v : ℕ)
  | string (bytes : Option (List UInt8))
  deriving DecidableEq

structure Log where
  level : ℕ
  tag : StrRef
  format : StrRef
  types : List UInt8
  values : List Value
  deriving DecidableEq

def readStrRef (id : ℕ) : Reader StrRef :=
  if id = 0xffffffff then do
    let len ← nat 4
    let bs ← bytes len
    pure (.copied bs)
  else pure (.address id)

def readString : Reader (Option (List UInt8)) := do
  let len ← nat 4
  if len = 0xffffffff then pure none
  else do
    let bs ← bytes len
    pure (some bs)

def readValue (type : UInt8) : Reader Value :=
  match ArgsType.ofCode type with
  | some .bits32 => do
    let v ← nat 4
    pure (.bits32 v)
  | some .bits64 => do
    let v ← nat 8
    pure (.bits64 v)
  | some .pointer => do
    let v ← nat 4
    pure (.pointer v)
  | some .dynamicString => do
    let s ← readString
    pure (.string s)
  | some .dynamicStringView => do
    let s ← readString
    pure (.string s)
  | _ => fail

def readLog (header : List UInt8) : Reader Log := do
  let tag ← readStrRef (headerTagId header)
  let format ← readStrRef (headerFmtId header)
  let count ← nat 1
  let types ← bytes count
  let values ← each readValue types
  pure ⟨(headerLevel header).toNat, tag, format, types, values⟩

def decodeLog (header payload : List UInt8) : Option Log :=
  if header.length = packetHeaderLen ∧ header.getD 0 0 = packetMagic ∧
      headerType header = PacketType.log.code ∧ headerPayloadLen header = payload.length then
    (readLog header).run payload
  else none

def readPacket : Reader (List UInt8 × List UInt8) := do
  let header ← bytes packetHeaderLen
  let payload ← bytes (headerPayloadLen header)
  pure (header, payload)

/-- The packets of a byte stream, cut by their length fields. -/
def splitPackets (bs : List UInt8) : Option (List (List UInt8 × List UInt8)) :=
  many readPacket bs.length bs

/-! ### What a call means -/

variable {cfg : Config} {mem : Mem}

/-- The bytes of a C string before its NUL, at most `cap`. -/
def cString (mem : Mem) (str : Ptr) (cap : ℕ) : List UInt8 :=
  (readBytes mem str cap).takeWhile (· ≠ 0)

def strRefOf (cfg : Config) (mem : Mem) (str : Ptr) : StrRef :=
  if str ≠ 0 ∧ cfg.addrInImage str = false then .copied (cString mem str cfg.maxDynamicStringLen)
  else .address str

/-- The address of a string in the image fits the ID field. -/
def FitsId (cfg : Config) (str : ℕ) : Prop := cfg.addrInImage str = true → str < 0xffffffff

def VaArg.type : VaArg → ArgsType
  | .u32 _ => .bits32
  | .u64 _ => .bits64
  | .voidPtr _ => .pointer
  | .charPtr _ => .dynamicString
  | .viewPtr _ => .dynamicStringView

/-- A precision that is not negative clips a string. -/
def clip (precision : Option UInt32) (bs : List UInt8) : List UInt8 :=
  match precision with
  | some p => if 0 ≤ p.toInt32.toInt then bs.take p.toInt32.toInt.toNat else bs
  | none => bs

def VaArg.value (cfg : Config) (mem : Mem) (precision : Option UInt32) : VaArg → Value
  | .u32 v => .bits32 v.toNat
  | .u64 v => .bits64 v.toNat
  | .voidPtr p => .pointer (p % 2 ^ 32)
  | .charPtr str =>
    .string (if str = 0 then none
      else some (clip precision (cString mem str cfg.maxDynamicStringLen)))
  | .viewPtr none => .string none
  | .viewPtr (some view) =>
    .string (if view.data = 0 ∧ view.len ≠ 0 then none
      else some (readBytes mem view.data (min view.len cfg.maxDynamicStringLen)))

/-- The type table of a list of arguments. -/
def typesOf (args : VaList) : List UInt8 := args.map fun a => a.type.code

def valuesOf (cfg : Config) (mem : Mem) (mask : UInt32) (args : VaList) : List Value :=
  args.mapIdx fun i a => a.value cfg mem (precisionOf (some (typesOf args)) mask args i)

/-! ### Strings -/

theorem readBytes_succ (mem : Mem) (p : Ptr) (n : ℕ) :
    readBytes mem p (n + 1) = mem p :: readBytes mem (p + 1) n := by
  unfold readBytes
  rw [List.range_succ_eq_map, List.map_cons, List.map_map]
  congr 1
  apply List.map_congr_left
  intro i _
  show mem (p + (i + 1)) = mem (p + 1 + i)
  rw [Nat.add_assoc, Nat.add_comm 1 i]

theorem cString_eq (mem : Mem) (str : Ptr) (cap : ℕ) :
    cString mem str cap = readBytes mem str (boundedStrlen mem str cap) := by
  unfold cString
  induction cap generalizing str with
  | zero => rfl
  | succ cap ih =>
    unfold boundedStrlen
    rw [readBytes_succ]
    by_cases h0 : mem str = 0
    · rw [if_pos h0, List.takeWhile_cons_of_neg (by simp [h0])]
      rfl
    · rw [if_neg h0, List.takeWhile_cons_of_pos (by simp [h0]), ih, readBytes_succ]

theorem readBytes_take (mem : Mem) (p : Ptr) (m n : ℕ) (h : m ≤ n) :
    (readBytes mem p n).take m = readBytes mem p m := by
  unfold readBytes
  rw [← List.map_take, List.take_range, Nat.min_eq_left h]

/-- A length up to the cap is not the one that marks NULL. -/
theorem ofNat_len {n : ℕ} (h : n ≤ cfg.maxDynamicStringLen) :
    (UInt32.ofNat n).toNat = n ∧ UInt32.ofNat n ≠ nullStringLen := by
  have hcap := cfg.string_le
  unfold uint32Max at hcap
  have htoNat : (UInt32.ofNat n).toNat = n := by
    rw [UInt32.toNat_ofNat']
    omega
  refine ⟨htoNat, fun he => ?_⟩
  have hmax : (UInt32.ofNat n).toNat = 4294967295 := by
    rw [he]
    rfl
  omega

theorem clippedLen_eq (cfg : Config) (mem : Mem) {str : Ptr} (hstr : str ≠ 0) (precision : Option UInt32) :
    ∃ n ≤ cfg.maxDynamicStringLen, clippedLen cfg mem str precision = UInt32.ofNat n ∧
      readBytes mem str n = clip precision (cString mem str cfg.maxDynamicStringLen) := by
  have hle := boundedStrlen_le mem str cfg.maxDynamicStringLen
  rw [cString_eq]
  cases precision with
  | none =>
    refine ⟨_, hle, ?_, rfl⟩
    unfold clippedLen cstrLenIn
    rw [if_neg hstr, if_neg (fun hc => absurd hc.1 (by decide))]
  | some p =>
    have hlen : clippedLen cfg mem str (some p) = if 0 ≤ p.toInt32.toInt ∧
        p.toInt32.toInt < boundedStrlen mem str cfg.maxDynamicStringLen then
      UInt32.ofNat p.toInt32.toInt.toNat
        else UInt32.ofNat (boundedStrlen mem str cfg.maxDynamicStringLen) := by
      simp [clippedLen, cstrLenIn, hstr]
    have hclip : ∀ bs, clip (some p) bs =
        if 0 ≤ p.toInt32.toInt then bs.take p.toInt32.toInt.toNat else bs := fun _ => rfl
    rw [hlen, hclip]
    by_cases hp : 0 ≤ p.toInt32.toInt
    · by_cases hlt : p.toInt32.toInt < boundedStrlen mem str cfg.maxDynamicStringLen
      · refine ⟨p.toInt32.toInt.toNat, by omega, if_pos ⟨hp, hlt⟩, ?_⟩
        rw [if_pos hp, readBytes_take _ _ _ _ (by omega)]
      · refine ⟨_, hle, if_neg fun hc => hlt hc.2, ?_⟩
        rw [if_pos hp, List.take_of_length_le]
        rw [length_readBytes]
        omega
    · refine ⟨_, hle, if_neg fun hc => hp hc.1, ?_⟩
      rw [if_neg hp]

theorem clippedLen_null (cfg : Config) (mem : Mem) {str : Ptr} (hstr : str = 0)
    (precision : Option UInt32) : clippedLen cfg mem str precision = nullStringLen := by
  cases precision <;> exact if_pos hstr

theorem viewLen_null {view : StringView} (h : view.data = 0 ∧ view.len ≠ 0) :
    viewLen cfg (some view) = nullStringLen := if_pos h

theorem viewLen_eq {view : StringView} (h : ¬ (view.data = 0 ∧ view.len ≠ 0)) :
    viewLen cfg (some view) = UInt32.ofNat (min view.len cfg.maxDynamicStringLen) := by
  have hmin : (if view.len > cfg.maxDynamicStringLen then cfg.maxDynamicStringLen else view.len) =
      min view.len cfg.maxDynamicStringLen := by
    split <;> omega
  unfold viewLen
  dsimp only
  rw [if_neg h, hmin]

/-! ### Reading back -/

theorem takes_string {str : Ptr} {len : UInt32} (h : len ≠ nullStringLen) :
    Takes readString (stringBytes mem str len) (some (readBytes mem str len.toNat)) := by
  unfold stringBytes readString
  rw [if_neg h]
  have hlen : Takes (nat 4) (bytesLE 4 len.toNat) len.toNat := takes_nat len.toNat_lt
  have hne : len.toNat ≠ 0xffffffff := fun he => h (UInt32.toNat_inj.mp he)
  apply hlen.bind
  rw [if_neg hne]
  have hbytes := takes_bytes (readBytes mem str len.toNat)
  rw [length_readBytes] at hbytes
  exact hbytes.then_pure some

theorem takes_null (str : Ptr) : Takes readString (stringBytes mem str nullStringLen) none := by
  have hlen : Takes (nat 4) (bytesLE 4 nullStringLen.toNat) nullStringLen.toNat :=
    takes_nat nullStringLen.toNat_lt
  have hnull : Takes readString (bytesLE 4 nullStringLen.toNat ++ []) none := by
    apply hlen.bind
    rw [if_pos (show nullStringLen.toNat = 0xffffffff from rfl)]
    exact takes_pure none
  rw [List.append_nil] at hnull
  exact hnull

theorem takes_charPtr (str : Ptr) (precision : Option UInt32) :
    Takes readString (stringBytes mem str (clippedLen cfg mem str precision))
      (if str = 0 then none
        else some (clip precision (cString mem str cfg.maxDynamicStringLen))) := by
  by_cases hstr : str = 0
  · rw [clippedLen_null cfg mem hstr, if_pos hstr]
    exact takes_null str
  · obtain ⟨n, hn, hlen, hdata⟩ := clippedLen_eq cfg mem hstr precision
    obtain ⟨htoNat, hne⟩ := ofNat_len hn
    have htakes : Takes readString (stringBytes mem str (UInt32.ofNat n)) _ := takes_string hne
    rw [htoNat, hdata] at htakes
    rw [hlen, if_neg hstr]
    exact htakes

theorem takes_view (view : StringView) :
    Takes readString (stringBytes mem view.data (viewLen cfg (some view)))
      (if view.data = 0 ∧ view.len ≠ 0 then none
        else some (readBytes mem view.data (min view.len cfg.maxDynamicStringLen))) := by
  by_cases hnull : view.data = 0 ∧ view.len ≠ 0
  · rw [viewLen_null hnull, if_pos hnull]
    exact takes_null view.data
  · rw [viewLen_eq hnull, if_neg hnull]
    obtain ⟨htoNat, hne⟩ := ofNat_len (Nat.min_le_right view.len cfg.maxDynamicStringLen)
    have htakes : Takes readString (stringBytes mem view.data
      (UInt32.ofNat (min view.len cfg.maxDynamicStringLen))) _ := takes_string hne
    rw [htoNat] at htakes
    exact htakes

theorem takes_strRef {str : ℕ} (hfit : FitsId cfg str) :
    Takes (readStrRef (tagWireIn cfg mem str).id.toNat)
      (wireStrBytes mem str (tagWireIn cfg mem str)) (strRefOf cfg mem str) := by
  unfold strRefOf tagWireIn wireStrIn
  by_cases hc : str ≠ 0 ∧ cfg.addrInImage str = false
  · obtain ⟨htoNat, -⟩ := ofNat_len (boundedStrlen_le mem str cfg.maxDynamicStringLen)
    rw [if_pos hc, if_pos hc, cString_eq]
    have hlen := takes_nat (v := boundedStrlen mem str cfg.maxDynamicStringLen) (n := 4)
      (by rw [← htoNat]; exact UInt32.toNat_lt _)
    have hbytes := takes_bytes (readBytes mem str (boundedStrlen mem str cfg.maxDynamicStringLen))
    rw [length_readBytes] at hbytes
    unfold readStrRef wireStrBytes
    rw [if_pos rfl, if_pos (show idInline.toNat = 0xffffffff from rfl), htoNat]
    exact hlen.bind (hbytes.then_pure StrRef.copied)
  · have hlt : str < 0xffffffff := by
      by_cases h0 : str = 0
      · rw [h0]
        decide
      · apply hfit
        by_contra himage
        exact hc ⟨h0, by simpa using himage⟩
    have hid : (UInt32.ofNat str).toNat = str := by
      rw [UInt32.toNat_ofNat']
      omega
    have hne : UInt32.ofNat str ≠ idInline := by
      intro he
      rw [he] at hid
      have hmax : idInline.toNat = 0xffffffff := rfl
      omega
    rw [if_neg hc, if_neg hc, hid]
    unfold readStrRef wireStrBytes
    rw [if_neg hne, if_neg (by omega)]
    exact takes_pure _

variable (cfg mem) in
/-- Whatever its address, a tag or format is taken off the payload as it was put there. -/
theorem takes_strRef_any (str : ℕ) :
    ∃ ref, Takes (readStrRef (tagWireIn cfg mem str).id.toNat)
      (wireStrBytes mem str (tagWireIn cfg mem str)) ref := by
  unfold readStrRef wireStrBytes
  by_cases hi : (tagWireIn cfg mem str).id = idInline
  · have hlen : Takes (nat 4) (bytesLE 4 (tagWireIn cfg mem str).len.toNat)
        (tagWireIn cfg mem str).len.toNat := takes_nat (UInt32.toNat_lt _)
    have hbytes := takes_bytes (readBytes mem str (tagWireIn cfg mem str).len.toNat)
    rw [length_readBytes] at hbytes
    rw [if_pos hi, hi, if_pos (show idInline.toNat = 0xffffffff from rfl)]
    exact ⟨_, hlen.bind (hbytes.then_pure StrRef.copied)⟩
  · have hne : (tagWireIn cfg mem str).id.toNat ≠ 0xffffffff :=
      fun he => hi (UInt32.toNat_inj.mp he)
    rw [if_neg hi, if_neg hne]
    exact ⟨_, takes_pure _⟩

/-- Any value is read back from its wire form by the reader its type selects. -/
theorem takes_value {types : ArgTypes} {mask : UInt32} {args rest : VaList} {a : VaArg} {i : ℕ}
    (htype : argTypeAt types i = a.type.code) (hargs : vaAfter types args i = a :: rest) :
    Takes (readValue (argTypeAt types i)) (argWire cfg mem types mask args i)
      (a.value cfg mem (precisionOf types mask args i)) := by
  unfold argWire argBytes argLenIn readValue
  rw [htype, ArgsType.ofCode_code, hargs]
  cases a with
  | u32 v => exact (takes_nat v.toNat_lt).then_pure Value.bits32
  | u64 v => exact (takes_nat v.toNat_lt).then_pure Value.bits64
  | voidPtr p =>
    have hv : (UInt32.ofNat p).toNat = p % 2 ^ 32 := UInt32.toNat_ofNat' ..
    have hlt : p % 2 ^ 32 < 256 ^ 4 := Nat.mod_lt _ (by decide)
    show Takes _ (bytesLE 4 (UInt32.ofNat p).toNat) (Value.pointer (p % 2 ^ 32))
    rw [hv]
    exact (takes_nat hlt).then_pure Value.pointer
  | charPtr str => exact (takes_charPtr str _).then_pure Value.string
  | viewPtr view =>
    cases view with
    | none => exact (takes_null 0).then_pure Value.string
    | some view => exact (takes_view view).then_pure Value.string

theorem each_map {α β γ : Type} (r : β → Reader α) (f : γ → β) (l : List γ) :
    each r (l.map f) = each (fun c => r (f c)) l := by
  induction l with
  | nil => rfl
  | cons c l ih =>
    show (r (f c) >>= fun a => each r (l.map f) >>= fun as => pure (a :: as)) = _
    rw [ih]
    rfl

/-! ### A LOG packet -/

theorem ofCode_type (a : VaArg) :
    1 ≤ a.type.code.toNat ∧ a.type.code.toNat ≤ 5 := by
  cases a <;> simp [VaArg.type, ArgsType.code]

theorem argTypeAt_typesOf {args : VaList} {i : ℕ} (hi : i < args.length) :
    argTypeAt (some (typesOf args)) i = (args[i]).type.code := by
  simp [argTypeAt, typesOf, hi]

/-- The arguments left at index `i` of a call whose table describes its arguments. -/
theorem vaAfter_typesOf {args : VaList} {i : ℕ} (hi : i ≤ args.length) :
    vaAfter (some (typesOf args)) args i = args.drop i := by
  apply vaAfter_eq_drop
  intro j hj
  rw [argTypeAt_typesOf (by omega)]
  exact ofCode_type _

theorem vaAfter_typesOf_cons {args : VaList} {i : ℕ} (hi : i < args.length) :
    vaAfter (some (typesOf args)) args i = args[i] :: args.drop (i + 1) := by
  rw [vaAfter_typesOf (Nat.le_of_lt hi)]
  exact List.drop_eq_getElem_cons hi

theorem typeTable_typesOf (args : VaList) :
    typeTable (some (typesOf args)) args.length = typesOf args := by
  apply List.ext_getElem
  · simp [typeTable, typesOf]
  · intro i h₁ h₂
    simp only [typesOf, List.length_map] at h₂
    simp [typeTable, argTypeAt, typesOf, h₂]

theorem toNat_ofNat_argCount {n : ℕ} (h : n ≤ maxArgs) : (UInt8.ofNat n).toNat = n := by
  unfold maxArgs at h
  rw [UInt8.toNat_ofNat']
  omega

theorem toNat_ofNat_levelNibble {level : ℕ} (h : level ≤ levelVerbose) :
    (UInt8.ofNat level &&& 0x0f).toNat = level := by
  unfold levelVerbose at h
  interval_cases level <;> decide

theorem takes_log {level : ℕ} {tag format : ℕ} {mask : UInt32} {args : VaList} {seq now : ℕ}
    {tagRef formatRef : StrRef} (hlevel : level ≤ levelVerbose)
    (htag : Takes (readStrRef (tagWireIn cfg mem tag).id.toNat)
      (wireStrBytes mem tag (tagWireIn cfg mem tag)) tagRef)
    (hformat : Takes (readStrRef (tagWireIn cfg mem format).id.toNat)
      (wireStrBytes mem format (tagWireIn cfg mem format)) formatRef)
    (hargs : args.length ≤ maxArgs) :
    Takes (readLog (logPacket cfg mem level tag format mask (some (typesOf args))
        (UInt8.ofNat args.length) args seq now).1)
      (logPayload cfg mem tag format mask (some (typesOf args)) (UInt8.ofNat args.length) args)
      ⟨level, tagRef, formatRef, typesOf args, valuesOf cfg mem mask args⟩ := by
  have hcount : (UInt8.ofNat args.length).toNat = args.length := toNat_ofNat_argCount hargs
  have hlow : (UInt8.ofNat level &&& 0x0f).toNat = level :=
    toNat_ofNat_levelNibble hlevel
  unfold readLog logPacket logPayload
  dsimp only
  rw [headerTagId_headerBytes, headerFmtId_headerBytes, headerLevel_headerBytes, hlow, hcount,
    typeTable_typesOf]
  apply htag.bind
  apply hformat.bind
  have hbyte : Takes (nat 1) [UInt8.ofNat args.length] args.length := by
    have h := takes_nat (show args.length < 256 ^ 1 by unfold maxArgs at hargs; omega)
    exact h
  have htypes := takes_bytes (typesOf args)
  have hlen : (typesOf args).length = args.length := List.length_map _
  rw [hlen] at htypes
  have hvalues : Takes (each readValue (typesOf args))
      ((List.range args.length).flatMap (argWire cfg mem (some (typesOf args)) mask args))
      (valuesOf cfg mem mask args) := by
    have hval : ∀ i ∈ List.range args.length, Takes
        (readValue (argTypeAt (some (typesOf args)) i))
        (argWire cfg mem (some (typesOf args)) mask args i)
        ((args.getD i (.u32 0)).value cfg mem
          (precisionOf (some (typesOf args)) mask args i)) := by
      intro i hi
      have hlt := List.mem_range.mp hi
      have hget : args.getD i (.u32 0) = args[i] := by simp [hlt]
      rw [hget]
      exact takes_value (argTypeAt_typesOf hlt) (vaAfter_typesOf_cons hlt)
    have heach := takes_each hval
    rw [← each_map readValue (argTypeAt (some (typesOf args)))] at heach
    have htable := typeTable_typesOf args
    unfold typeTable at htable
    rw [htable] at heach
    have hmap : ((List.range args.length).map fun i => (args.getD i (.u32 0)).value cfg mem
        (precisionOf (some (typesOf args)) mask args i)) = valuesOf cfg mem mask args := by
      apply List.ext_getElem
      · simp [valuesOf]
      · intro i h₁ h₂
        simp only [List.length_map, List.length_range] at h₁
        simp [valuesOf, h₁]
    rwa [hmap] at heach
  exact hbyte.bind (htypes.bind (hvalues.then_pure _))

theorem decode_logPacket {level : ℕ} {tag format : ℕ} {mask : UInt32} {args : VaList}
    {header payload : List UInt8} {seq now : ℕ} {tagRef formatRef : StrRef}
    (hlevel : level ≤ levelVerbose)
    (htag : Takes (readStrRef (tagWireIn cfg mem tag).id.toNat)
      (wireStrBytes mem tag (tagWireIn cfg mem tag)) tagRef)
    (hformat : Takes (readStrRef (tagWireIn cfg mem format).id.toNat)
      (wireStrBytes mem format (tagWireIn cfg mem format)) formatRef)
    (hargs : args.length ≤ maxArgs) (hfit : payload.length ≤ payloadLenMax)
    (h : (header, payload) = logPacket cfg mem level tag format mask (some (typesOf args))
      (UInt8.ofNat args.length) args seq now) :
    decodeLog header payload =
      some ⟨level, tagRef, formatRef, typesOf args, valuesOf cfg mem mask args⟩ := by
  have hhead : header = (logPacket cfg mem level tag format mask (some (typesOf args))
    (UInt8.ofNat args.length) args seq now).1 := congrArg Prod.fst h
  have hpay : payload = logPayload cfg mem tag format mask (some (typesOf args))
    (UInt8.ofNat args.length) args := congrArg Prod.snd h
  have htakes : Takes (readLog (logPacket cfg mem level tag format mask (some (typesOf args))
    (UInt8.ofNat args.length) args seq now).1) _ _ := takes_log hlevel htag hformat hargs
  rw [← h] at htakes
  have hlen : headerPayloadLen header = payload.length := by
    rw [hhead]
    show headerPayloadLen (headerBytes ..) = _
    unfold payloadLenMax payloadLenStreaming at hfit
    rw [headerPayloadLen_headerBytes, ← hpay, UInt16.toNat_ofNat']
    omega
  have hfields : header.length = packetHeaderLen ∧ header.getD 0 0 = packetMagic ∧
      headerType header = PacketType.log.code := by
    rw [hhead]
    exact ⟨length_headerBytes .., rfl, headerType_headerBytes ..⟩
  unfold decodeLog
  rw [if_pos ⟨hfields.1, hfields.2.1, hfields.2.2, hlen⟩, hpay]
  exact htakes.run

/-! ### A stream of packets -/

theorem takes_packet {header payload : List UInt8} (hhead : header.length = packetHeaderLen)
    (hlen : headerPayloadLen header = payload.length) :
    Takes readPacket (header ++ payload) (header, payload) := by
  have hh := takes_bytes header
  have hp := takes_bytes payload
  rw [hhead] at hh
  rw [← hlen] at hp
  exact hh.bind (hp.then_pure _)

theorem split_packets (pkts : List (List UInt8 × List UInt8))
    (h : ∀ p ∈ pkts, p.1.length = packetHeaderLen ∧ headerPayloadLen p.1 = p.2.length) :
    splitPackets (pkts.flatMap fun p => p.1 ++ p.2) = some pkts := by
  unfold splitPackets
  have hall : ∀ p ∈ pkts, Takes readPacket (p.1 ++ p.2) (id p) ∧ p.1 ++ p.2 ≠ [] := by
    intro p hp
    obtain ⟨hhead, hlen⟩ := h p hp
    refine ⟨takes_packet hhead hlen, fun hnil => ?_⟩
    have h0 := congrArg List.length hnil
    rw [List.length_append, hhead] at h0
    unfold packetHeaderLen at h0
    simp at h0
  rw [many_flatMap hall (Nat.le_refl _), List.map_id]

theorem writes_or_nothing {bs : List UInt8} {f : Encoder → Encoder} (hw : Writes bs f) (cap : ℕ)
    {r : List UInt8}
    (hr : r = if (f (Encoder.new cap)).overflow then [] else (f (Encoder.new cap)).data) :
    r = [] ∨ r = bs := by
  rw [hr]
  cases ho : (f (Encoder.new cap)).overflow with
  | true => exact Or.inl rfl
  | false => exact Or.inr (hw.data _ ho)

/-- A TIME_SYNC packet is a header and the boot ID, or nothing was written. -/
theorem encodeTimeSync_eq {es : List Ev} {hasBuf : Bool} {cap : ℕ} {bootId : UInt32}
    {bs : List UInt8} (h : (encodeTimeSync hasBuf cap bootId).Path es bs) :
    bs = [] ∨ ∃ now, bs = headerBytes .timeSync levelNone 0 (UInt32.ofNat now) 0 0 4 ++
      bytesLE 4 bootId.toNat := by
  rcases (Prog.path_ite _ _ _ _ _).mp h with ⟨-, h⟩ | ⟨-, h⟩
  · exact Or.inl ((Prog.path_pure _ _ _).mp h).2
  · obtain ⟨now, e₁, _, rfl, h₁, h⟩ := (Prog.path_bind _ _ _ _).mp h
    obtain ⟨rfl, hbs⟩ := (Prog.path_pure _ _ _).mp h
    have hw := (writes_putHeader .timeSync levelNone 0 (UInt32.ofNat now) 0 0 4).comp
      (writes_putU32 bootId)
    exact (writes_or_nothing hw cap hbs).imp id fun hbs => ⟨now, hbs⟩

/-! ### In a run -/

/-- A call on a task path, with the arguments a caller passes to `...`. -/
structure LogCall where
  level : ℕ
  tag : Ptr
  format : Ptr
  mask : UInt32
  args : VaList

/-- What a call logs, if its type table describes its arguments. -/
inductive Call.Logs : Call → LogCall → Prop
  | write (level : ℕ) (tag format : Ptr) (args : VaList) :
      Call.Logs (.write level tag format (some (typesOf args)) args)
        ⟨level, tag, format, 0, args⟩
  | formatScan (level : ℕ) (tag format : Ptr) (formatScan : Option (List UInt8))
      (args : VaList) :
      Call.Logs (.writeWithFormatScan level tag format formatScan (some (typesOf args)) args)
        ⟨level, tag, format, precisionMask formatScan (argCount (some (typesOf args)))
          (argTypesHaveDynamicString (some (typesOf args))), args⟩
  | metadata (level : ℕ) (tag format : Ptr) (formatScan : Option (List UInt8)) (hasDyn : Bool)
      (args : VaList) :
      Call.Logs (.writeWithFormatScanMetadata level tag format formatScan (some (typesOf args))
          (UInt8.ofNat args.length) hasDyn args)
        ⟨level, tag, format, precisionMask formatScan (UInt8.ofNat args.length) hasDyn, args⟩

/-- What a receiver should make of it. -/
def LogCall.log (cfg : Config) (mem : Mem) (l : LogCall) : Log :=
  ⟨l.level, strRefOf cfg mem l.tag, strRefOf cfg mem l.format, typesOf l.args,
    valuesOf cfg mem l.mask l.args⟩

def LogCall.payload (cfg : Config) (mem : Mem) (l : LogCall) : List UInt8 :=
  logPayload cfg mem l.tag l.format l.mask (some (typesOf l.args)) (UInt8.ofNat l.args.length) l.args

theorem toNat_argCount_typesOf (args : VaList) :
    (argCount (some (typesOf args))).toNat = min args.length 255 := by
  have hnz : 0 ∉ typesOf args := by
    intro h0
    obtain ⟨a, -, ha⟩ := List.mem_map.mp h0
    have hpos := (ofCode_type a).1
    rw [ha] at hpos
    exact absurd hpos (by decide)
  rw [argCount_table (typesOf args) hnz]
  unfold typesOf
  rw [List.length_map]

theorem argCount_typesOf {args : VaList} (hargs : args.length ≤ maxArgs) :
    argCount (some (typesOf args)) = UInt8.ofNat args.length := by
  have hcount := toNat_argCount_typesOf args
  unfold maxArgs at hargs
  apply UInt8.toNat_inj.mp
  rw [hcount, UInt8.toNat_ofNat']
  omega

theorem Call.Logs.written {call : Call} {l : LogCall} {v : Res} {es : List Ev}
    (h : call.Logs l) (hargs : l.args.length ≤ maxArgs) (hp : Performs cfg call v es) :
    Written cfg l.level l.tag l.format l.mask (some (typesOf l.args))
      (UInt8.ofNat l.args.length) l.args es := by
  cases h with
  | write level tag format args =>
    have hw := hp.1
    rwa [argCount_typesOf hargs] at hw
  | formatScan level tag format formatScan args =>
    have hw := hp.1
    rwa [argCount_typesOf hargs] at hw ⊢
  | metadata level tag format formatScan hasDyn args => exact hp.1

section Runs

variable {Tid : Type} [DecidableEq Tid] {c : Lib.Config Tid Call Op Op.Ret Res (Shared Tid)}
  {tr : List (Label Tid Call Op Op.Ret Res)} {t : Tid} {call : Call} {v : Res} {l : LogCall}

/-- A packet the library built has a header of its own length and says how long
its payload is. -/
theorem built_fields (h : (system Tid cfg).Run c tr) {s : Sent} {type : PacketType} {now : ℕ}
    (hs : s ∈ (wireOf cfg (actEvents tr)).sent) (ho : s.pkt.origin = .built type now) :
    s.pkt.header.length = packetHeaderLen ∧ headerPayloadLen s.pkt.header = s.pkt.payload.length := by
  obtain ⟨hp, -⟩ := progress_run h
  obtain ⟨num, hnum⟩ := hp.numbered s (List.mem_append_left _ hs)
  refine ⟨?_, ((hp.sound s hs).measured type now ho).1⟩
  rw [ho] at hnum
  generalize s.pkt.header = header at hnum
  cases hnum with
  | built => exact length_headerBytes ..

/-- The packet of a returned call that passed the filter and whose payload fits is on the
wire, and a reader that takes its tag and format decodes it to what was logged. -/
theorem logged_decodes (h : (system Tid cfg).Run c (.ret t call v :: tr)) (hl : call.Logs l)
    (hargs : l.args.length ≤ maxArgs) (hm : MemIs mem (callEvents t tr))
    (hpass : Passes cfg l.level l.tag (callEvents t tr))
    (hfit : (l.payload cfg mem).length ≤ payloadLenMax) {tagRef formatRef : StrRef}
    (htag : Takes (readStrRef (tagWireIn cfg mem l.tag).id.toNat)
      (wireStrBytes mem l.tag (tagWireIn cfg mem l.tag)) tagRef)
    (hformat : Takes (readStrRef (tagWireIn cfg mem l.format).id.toNat)
      (wireStrBytes mem l.format (tagWireIn cfg mem l.format)) formatRef) :
    ∃ s ∈ (wireOf cfg (actEvents tr)).sent, s.pkt ∈ sentPackets (callEvents t tr) ∧
      decodeLog s.pkt.header s.pkt.payload =
        some ⟨l.level, tagRef, formatRef, typesOf l.args, valuesOf cfg mem l.mask l.args⟩ := by
  obtain ⟨c', hrun⟩ := h.tail
  have hcount : (UInt8.ofNat l.args.length).toNat = l.args.length := toNat_ofNat_argCount hargs
  obtain ⟨notices, -, hdropped | hsent⟩ := (hl.written hargs (performs_ret h)).exact hm hpass
  · obtain ⟨hbig, -⟩ := hdropped
    rw [hcount] at hbig
    unfold LogCall.payload at hfit
    omega
  · obtain ⟨-, -, pkt, seq, now, es₁, es₂, heff, -, hes, hem, hp⟩ := hsent
    have hes' : callEvents t tr = es₁ ++ (es₂ ++ []) := by rw [hes, List.append_nil]
    obtain ⟨s, hs, rfl⟩ := packet_sent hrun hes' hem
    have hpay : s.pkt.payload = l.payload cfg mem := congrArg Prod.snd hp
    have hlevel : l.level ≤ levelVerbose := hpass.1.2.1
    refine ⟨s, hs, ?_, decode_logPacket hlevel htag hformat hargs (by rw [hpay]; exact hfit) hp⟩
    rw [heff.sentPackets]
    exact List.mem_append_right _ (List.mem_singleton_self _)

/-- Every sink sees whole packets. The packet of a returned call that passed the
filter, with arguments matching its table and a payload a header can describe,
is on the wire and decodes to the call; `mem` is what the call sees of its
strings. Any packets on the wire, and a TIME_SYNC packet, are told apart by
their length fields. -/
theorem log_decodes (h : (system Tid cfg).Run c (.ret t call v :: tr)) (hl : call.Logs l)
    (hargs : l.args.length ≤ maxArgs) (hm : MemIs mem (callEvents t tr))
    (hpass : Passes cfg l.level l.tag (callEvents t tr)) (htag : FitsId cfg l.tag)
    (hformat : FitsId cfg l.format) (hfit : (l.payload cfg mem).length ≤ payloadLenMax) :
    (∀ e, SeesWhole (wireOf cfg (actEvents tr)) e (sinkCalls e (actEvents tr))) ∧
    (∃ s ∈ (wireOf cfg (actEvents tr)).sent, s.pkt ∈ sentPackets (callEvents t tr) ∧
      decodeLog s.pkt.header s.pkt.payload = some (l.log cfg mem)) ∧
    ∀ pkts : List Packet, (∀ pkt ∈ pkts, (∃ type now, pkt.origin = .built type now) ∧
        ∃ s ∈ (wireOf cfg (actEvents tr)).sent, s.pkt = pkt) →
      ∀ es hasBuf cap bootId sync, (encodeTimeSync hasBuf cap bootId).Path es sync → sync ≠ [] →
        splitPackets ((pkts.flatMap fun pkt => pkt.header ++ pkt.payload) ++ sync) =
          some ((pkts.map fun pkt => (pkt.header, pkt.payload)) ++
            [(sync.take packetHeaderLen, sync.drop packetHeaderLen)]) := by
  obtain ⟨c', hrun⟩ := h.tail
  refine ⟨(progress_run hrun).1.calls, ?_, fun pkts hpkts es hasBuf cap bootId sync hsync hne => ?_⟩
  · exact logged_decodes h hl hargs hm hpass hfit (takes_strRef htag) (takes_strRef hformat)
  · obtain ⟨now, rfl⟩ := (encodeTimeSync_eq hsync).resolve_left hne
    have hsplit := split_packets ((pkts.map fun pkt => (pkt.header, pkt.payload)) ++
      [(headerBytes .timeSync levelNone 0 (UInt32.ofNat now) 0 0 4, bytesLE 4 bootId.toNat)]) ?_
    · rw [List.flatMap_append, List.flatMap_map] at hsplit
      rw [List.take_left' (length_headerBytes ..), List.drop_left' (length_headerBytes ..)]
      simpa using hsplit
    · intro p hp
      rcases List.mem_append.mp hp with hp | hp
      · obtain ⟨pkt, hpkt, rfl⟩ := List.mem_map.mp hp
        obtain ⟨⟨type, now', ho⟩, s, hs, rfl⟩ := hpkts pkt hpkt
        exact built_fields hrun hs ho
      · rw [List.mem_singleton.mp hp]
        refine ⟨length_headerBytes .., ?_⟩
        rw [headerPayloadLen_headerBytes, length_bytesLE]
        rfl

end Runs

/-- A word and a string in RAM are logged. -/
theorem log_decodes_pair : ∃ c tr v, (system ℕ smallConfig).Run c
      (.ret 0 (.write 3 0 2000 (some (typesOf [.u32 7, .charPtr 2000])) [.u32 7, .charPtr 2000]) v
        :: tr) ∧
    ∃ s ∈ (wireOf smallConfig (actEvents tr)).sent,
      decodeLog s.pkt.header s.pkt.payload =
        some ⟨3, .address 0, .copied [], [1, 4], [.bits32 7, .string (some [])]⟩ := by
  obtain ⟨c, tr, v, hrun, hm, hpass, -⟩ := run_call smallConfig quietWorld (0 : ℕ)
    (.write 3 0 2000 (some (typesOf [.u32 7, .charPtr 2000])) [.u32 7, .charPtr 2000])
    (fun p => drops p.1) (a := 0) (by decide +kernel)
  have hopen := hpass 3 0 rfl ⟨by unfold levelInRange; decide, by decide, by decide⟩
  obtain ⟨-, ⟨s, hs, -, hdecode⟩, -⟩ := log_decodes hrun (.write 3 0 2000 [.u32 7, .charPtr 2000])
    (by decide) hm hopen (fun _ => by decide) (fun h => absurd h (by decide)) (by decide +kernel)
  exact ⟨c, tr, v, hrun, s, hs, hdecode⟩

end On9log
