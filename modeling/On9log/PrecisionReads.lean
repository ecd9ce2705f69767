import On9log.Decode

/-!
# What is read of a string with a precision (on9log.c:256-265, 663-674)

`on9log_cstr_len` looks for the NUL of a string before it applies the
precision, up to the cap for all strings. The length it returns, and with it
what is sent, stays below the precision; what it reads to find the length does
not.
-/

namespace On9log
open Lib Lib.LittleEndian

variable {cfg : Config} {mem mem' : Mem}

/-- The addresses `on9log_bounded_strlen` reads, in order. -/
def boundedStrlenReads (mem : Mem) (str : Ptr) : ℕ → List Ptr
  | 0 => []
  | maxLen + 1 => str :: if mem str = 0 then [] else boundedStrlenReads mem (str + 1) maxLen

def cstrLenReads (cfg : Config) (mem : Mem) (str : Ptr) : List Ptr :=
  if str = 0 then [] else boundedStrlenReads mem str cfg.maxDynamicStringLen

/-- The addresses of the bytes `on9log_emit_string` hands to the sinks. -/
def emitStringReads (str : Ptr) (len : UInt32) : List Ptr :=
  if len = nullStringLen then [] else (List.range len.toNat).map (str + ·)

/-- What encoding a call reads through its C string argument `idx`: the measuring
pass, which too many arguments keep from running, and the sending pass, if a
header can describe the payload. -/
def LogCall.stringReads (cfg : Config) (mem : Mem) (l : LogCall) (idx : ℕ) (str : Ptr) : List Ptr :=
  if maxArgs < l.args.length then []
  else cstrLenReads cfg mem str ++
    if payloadLenMax < (l.payload cfg mem).length then []
    else emitStringReads str (argLenIn cfg mem (some (typesOf l.args)) l.mask l.args idx)

/-! ### The reads decide the result -/

theorem boundedStrlen_of_agree {str : Ptr} {maxLen : ℕ}
    (h : ∀ a ∈ boundedStrlenReads mem str maxLen, mem' a = mem a) :
    boundedStrlen mem' str maxLen = boundedStrlen mem str maxLen := by
  induction maxLen generalizing str with
  | zero => rfl
  | succ maxLen ih =>
    have hstr : mem' str = mem str := h str (List.mem_cons_self ..)
    unfold boundedStrlen
    rw [hstr]
    by_cases h0 : mem str = 0
    · rw [if_pos h0, if_pos h0]
    · have hrest : ∀ a ∈ boundedStrlenReads mem (str + 1) maxLen, mem' a = mem a := by
        intro a ha
        apply h
        unfold boundedStrlenReads
        rw [if_neg h0]
        exact List.mem_cons_of_mem _ ha
      rw [if_neg h0, if_neg h0, ih hrest]

/-- Memories that agree where a length is measured and bytes are copied give a
C string the same wire form. -/
theorem stringBytes_of_agree {str : Ptr} {precision : Option UInt32}
    (hlen : ∀ a ∈ cstrLenReads cfg mem str, mem' a = mem a)
    (hcopy : ∀ a ∈ emitStringReads str (clippedLen cfg mem str precision), mem' a = mem a) :
    stringBytes mem' str (clippedLen cfg mem' str precision) =
      stringBytes mem str (clippedLen cfg mem str precision) := by
  have hsame : clippedLen cfg mem' str precision = clippedLen cfg mem str precision := by
    unfold clippedLen cstrLenIn
    by_cases h0 : str = 0
    · simp only [if_pos h0]
    · unfold cstrLenReads at hlen
      rw [if_neg h0] at hlen
      rw [boundedStrlen_of_agree hlen]
  rw [hsame]
  unfold emitStringReads at hcopy
  unfold stringBytes
  by_cases hn : clippedLen cfg mem str precision = nullStringLen
  · rw [if_pos hn, if_pos hn]
  · rw [if_neg hn] at hcopy
    rw [if_neg hn, if_neg hn]
    congr 1
    apply List.map_congr_left
    intro i hi
    exact hcopy (str + i) (List.mem_map.mpr ⟨i, hi, rfl⟩)

/-! ### How far they go -/

theorem mem_boundedStrlenReads {str a : Ptr} {maxLen : ℕ} :
    a ∈ boundedStrlenReads mem str maxLen ↔
      ∃ j < maxLen, a = str + j ∧ ∀ i < j, mem (str + i) ≠ 0 := by
  induction maxLen generalizing str with
  | zero => simp [boundedStrlenReads]
  | succ maxLen ih =>
    unfold boundedStrlenReads
    rw [List.mem_cons]
    constructor
    · rintro (rfl | h)
      · exact ⟨0, by omega, rfl, fun i hi => by omega⟩
      · by_cases h0 : mem str = 0
        · rw [if_pos h0] at h
          exact absurd h List.not_mem_nil
        · rw [if_neg h0] at h
          obtain ⟨j, hj, rfl, hne⟩ := ih.mp h
          refine ⟨j + 1, by omega, by rw [Nat.add_assoc, Nat.add_comm 1 j], fun i hi => ?_⟩
          cases i with
          | zero => exact h0
          | succ i =>
            have hi' := hne i (by omega)
            rwa [Nat.add_assoc, Nat.add_comm 1 i] at hi'
    · rintro ⟨j, hj, rfl, hne⟩
      cases j with
      | zero => exact Or.inl rfl
      | succ j =>
        have hfirst : mem str ≠ 0 := hne 0 (by omega)
        right
        rw [if_neg hfirst]
        refine ih.mpr ⟨j, by omega, by rw [Nat.add_assoc, Nat.add_comm 1 j], fun i hi => ?_⟩
        have hi' := hne (i + 1) (by omega)
        rwa [Nat.add_assoc, Nat.add_comm 1 i]

/-- The search stays below `p` exactly if the cap or a NUL stops it. -/
theorem strlen_below_iff (mem : Mem) (str : Ptr) (p cap : ℕ) :
    (∀ a ∈ boundedStrlenReads mem str cap, a < str + p) ↔
      cap ≤ p ∨ ∃ j < p, mem (str + j) = 0 := by
  constructor
  · intro h
    by_contra hno
    push Not at hno
    obtain ⟨hcap, hne⟩ := hno
    have hread := h (str + p) (mem_boundedStrlenReads.mpr ⟨p, hcap, rfl, hne⟩)
    exact absurd hread (Nat.lt_irrefl _)
  · intro h a ha
    obtain ⟨j, hj, rfl, hne⟩ := mem_boundedStrlenReads.mp ha
    apply Nat.add_lt_add_left
    rcases h with hcap | ⟨i, hi, h0⟩
    · omega
    · have hle : ¬ i < j := fun hij => hne i hij h0
      omega

theorem clip_cString {str : Ptr} {precision : UInt32} {cap : ℕ} (h0 : 0 ≤ precision.toInt32.toInt)
    (hcap : precision.toInt32.toInt ≤ cap) :
    clip (some precision) (cString mem str cap) =
      cString mem str precision.toInt32.toInt.toNat := by
  unfold clip cString
  dsimp only
  rw [if_pos h0, List.take_takeWhile, readBytes_take _ _ _ _ (by omega)]

/-! ### A call -/

theorem precisionOf_pair {l : LogCall} {i : ℕ} {precision : UInt32}
    (hbit : l.mask &&& ((1 : UInt32) <<< UInt32.ofNat (i + 1)) ≠ 0)
    (hp : l.args[i]? = some (.u32 precision)) :
    precisionOf (some (typesOf l.args)) l.mask l.args (i + 1) = some precision := by
  obtain ⟨hi, hget⟩ := List.getElem?_eq_some_iff.mp hp
  have htype : argTypeAt (some (typesOf l.args)) i = ArgsType.bits32.code := by
    simp [argTypeAt, typesOf, hp, VaArg.type]
  have hva : vaAfter (some (typesOf l.args)) l.args i = .u32 precision :: l.args.drop (i + 1) := by
    rw [vaAfter_typesOf (by omega), List.drop_eq_getElem_cons hi, hget]
  have hbefore : precisionBefore (some (typesOf l.args)) l.args (i + 1) = some precision := by
    show (if _ then _ else _) = _
    rw [if_pos htype, hva]
    rfl
  unfold precisionOf
  rw [if_pos hbit, hbefore]

/-- The length recorded for a string with a precision, and its wire form. -/
theorem slice_wire (mem : Mem) {l : LogCall} {i : ℕ} {precision : UInt32} {str : Ptr}
    (hbit : l.mask &&& ((1 : UInt32) <<< UInt32.ofNat (i + 1)) ≠ 0)
    (hp : l.args[i]? = some (.u32 precision)) (hs : l.args[i + 1]? = some (.charPtr str))
    (hstr : str ≠ 0) (h0 : 0 ≤ precision.toInt32.toInt)
    (hcap : precision.toInt32.toInt ≤ cfg.maxDynamicStringLen) :
    let sent := cString mem str precision.toInt32.toInt.toNat
    (argLenIn cfg mem (some (typesOf l.args)) l.mask l.args (i + 1)).toNat = sent.length ∧
      argWire cfg mem (some (typesOf l.args)) l.mask l.args (i + 1) =
        bytesLE 4 sent.length ++ sent := by
  intro sent
  obtain ⟨hi, hget⟩ := List.getElem?_eq_some_iff.mp hs
  have htype : ArgsType.ofCode (argTypeAt (some (typesOf l.args)) (i + 1)) =
      some .dynamicString := by
    have hc : argTypeAt (some (typesOf l.args)) (i + 1) = ArgsType.dynamicString.code := by
      simp [argTypeAt, typesOf, hs, VaArg.type]
    rw [hc, ArgsType.ofCode_code]
  have hva : vaCharPtr (vaAfter (some (typesOf l.args)) l.args (i + 1)) = str := by
    rw [vaAfter_typesOf (by omega), List.drop_eq_getElem_cons hi, hget]
    rfl
  obtain ⟨n, hn, hlen, hdata⟩ := clippedLen_eq cfg mem hstr (some precision)
  obtain ⟨htoNat, hne⟩ := ofNat_len hn
  have hread : readBytes mem str n = sent := by rw [hdata, clip_cString h0 hcap]
  have hsent : n = sent.length := by rw [← hread, length_readBytes]
  have harg : argLenIn cfg mem (some (typesOf l.args)) l.mask l.args (i + 1) = UInt32.ofNat n := by
    simp only [argLenIn, htype, hva, precisionOf_pair hbit hp, hlen]
  constructor
  · rw [harg, htoNat, hsent]
  · unfold argWire argBytes
    simp only [htype, hva, harg]
    unfold stringBytes
    rw [if_neg hne, htoNat, hread, hsent]

theorem stringReads_below_iff (mem : Mem) {l : LogCall} {i : ℕ} {precision : UInt32} {str : Ptr}
    (hbit : l.mask &&& ((1 : UInt32) <<< UInt32.ofNat (i + 1)) ≠ 0)
    (hp : l.args[i]? = some (.u32 precision)) (hs : l.args[i + 1]? = some (.charPtr str))
    (hstr : str ≠ 0) (h0 : 0 ≤ precision.toInt32.toInt)
    (hcap : precision.toInt32.toInt ≤ cfg.maxDynamicStringLen) :
    (∀ a ∈ l.stringReads cfg mem (i + 1) str, a < str + precision.toInt32.toInt.toNat) ↔
      maxArgs < l.args.length ∨ precision.toInt32.toInt = cfg.maxDynamicStringLen ∨
        ∃ j < precision.toInt32.toInt.toNat, mem (str + j) = 0 := by
  obtain ⟨hlen, -⟩ := slice_wire mem hbit hp hs hstr h0 hcap
  have hcopy : ∀ a ∈ emitStringReads str
      (argLenIn cfg mem (some (typesOf l.args)) l.mask l.args (i + 1)),
      a < str + precision.toInt32.toInt.toNat := by
    intro a ha
    unfold emitStringReads at ha
    split at ha
    · exact absurd ha List.not_mem_nil
    · obtain ⟨j, hj, rfl⟩ := List.mem_map.mp ha
      have hshort : (cString mem str precision.toInt32.toInt.toNat).length ≤
          precision.toInt32.toInt.toNat := by
        have h := (List.takeWhile_sublist (· ≠ 0)
          (l := readBytes mem str precision.toInt32.toInt.toNat)).length_le
        rwa [length_readBytes] at h
      rw [List.mem_range, hlen] at hj
      exact Nat.add_lt_add_left (by omega) str
  have hcapIff : cfg.maxDynamicStringLen ≤ precision.toInt32.toInt.toNat ↔
      precision.toInt32.toInt = cfg.maxDynamicStringLen := by omega
  unfold LogCall.stringReads cstrLenReads
  by_cases hmany : maxArgs < l.args.length
  · simp [hmany]
  · rw [if_neg hmany, if_neg hstr, ← hcapIff, ← strlen_below_iff]
    simp only [hmany, false_or]
    constructor
    · intro h a ha
      exact h a (List.mem_append_left _ ha)
    · intro h a ha
      rcases List.mem_append.mp ha with ha | ha
      · exact h a ha
      · split at ha
        · exact absurd ha List.not_mem_nil
        · exact hcopy a ha

/-! ### In a run -/

section Runs

variable {Tid : Type} [DecidableEq Tid] {c : Lib.Config Tid Call Op Op.Ret Res (Shared Tid)}
  {tr : List (Label Tid Call Op Op.Ret Res)} {t : Tid} {v : Res} {level : ℕ} {tag format : Ptr}
  {formatScan : Option (List UInt8)} {args : VaList}

/-- What `on9log_write_with_format_scan` logs. -/
def scannedCall (level : ℕ) (tag format : Ptr) (formatScan : Option (List UInt8)) (args : VaList) :
    LogCall :=
  ⟨level, tag, format, precisionMask formatScan (argCount (some (typesOf args)))
    (argTypesHaveDynamicString (some (typesOf args))), args⟩

/-- The LOG packet of a call has all its arguments. -/
theorem scannedCall_payload (h : (system Tid cfg).Run c
      (.ret t (.writeWithFormatScan level tag format formatScan (some (typesOf args)) args) v :: tr))
    (hm : MemIs mem (callEvents t tr)) (hpass : Passes cfg level tag (callEvents t tr))
    {pkt : Packet} (hpkt : pkt ∈ sentPackets (callEvents t tr)) {now : ℕ}
    (ho : pkt.origin = .built .log now) :
    args.length ≤ maxArgs ∧
      pkt.payload = (scannedCall level tag format formatScan args).payload cfg mem := by
  have hnotice : ∀ pkts, Notice pkts → pkt ∉ pkts := by
    intro pkts hn hmem
    obtain ⟨now', ho'⟩ := hn.2 pkt hmem
    rw [ho] at ho'
    cases ho'
  obtain ⟨hw, -⟩ : Written cfg level tag format _ _ _ args _ ∧ v = .unit := performs_ret h
  obtain ⟨notices, hn, ⟨-, heff⟩ | ⟨hle, -, pkt', seq, now', es₁, es₂, heff, -, -, -, hp⟩⟩ :=
    hw.exact hm hpass
  · rw [heff.sentPackets] at hpkt
    exact absurd hpkt (hnotice notices hn)
  · rw [heff.sentPackets] at hpkt
    have hcount : args.length ≤ maxArgs := by
      rw [toNat_argCount_typesOf] at hle
      unfold maxArgs at hle ⊢
      omega
    have hthis : pkt = pkt' := by
      rcases List.mem_append.mp hpkt with hold | hnew
      · exact absurd hold (hnotice notices hn)
      · exact List.mem_singleton.mp hnew
    refine ⟨hcount, ?_⟩
    rw [argCount_typesOf hcount] at hp
    rw [hthis]
    have hpay := congrArg Prod.snd hp
    unfold LogCall.payload scannedCall
    rw [argCount_typesOf hcount]
    exact hpay

/-- What the call reads through string argument `idx` stays below the precision,
and its LOG packet has there the bytes in front of the NUL or the precision. -/
def ReadsSlice (cfg : Config) (mem : Mem) (l : LogCall) (idx : ℕ) (str : Ptr) (precision : ℕ)
    (es : List Ev) : Prop :=
  (∀ a ∈ l.stringReads cfg mem idx str, a < str + precision) ∧
    ∀ pkt ∈ sentPackets es, (∃ now, pkt.origin = .built .log now) →
      pkt.payload = l.payload cfg mem ∧
        argWire cfg mem (some (typesOf l.args)) l.mask l.args idx =
          bytesLE 4 (cString mem str precision).length ++ cString mem str precision

/-- A call that passed the filter reads a marked string only up to its precision
exactly if that is the cap, a NUL comes before it, or the call has too many
arguments to be encoded; what it sends is clipped in any case. -/
theorem reads_slice_iff (h : (system Tid cfg).Run c
      (.ret t (.writeWithFormatScan level tag format formatScan (some (typesOf args)) args) v :: tr))
    (hm : MemIs mem (callEvents t tr)) (hpass : Passes cfg level tag (callEvents t tr))
    {i : ℕ} {precision : UInt32} {str : Ptr}
    (hbit : (scannedCall level tag format formatScan args).mask &&&
      ((1 : UInt32) <<< UInt32.ofNat (i + 1)) ≠ 0)
    (hp : args[i]? = some (.u32 precision)) (hs : args[i + 1]? = some (.charPtr str))
    (hstr : str ≠ 0) (h0 : 0 ≤ precision.toInt32.toInt)
    (hcap : precision.toInt32.toInt ≤ cfg.maxDynamicStringLen) :
    ReadsSlice cfg mem (scannedCall level tag format formatScan args) (i + 1) str
        precision.toInt32.toInt.toNat (callEvents t tr) ↔
      maxArgs < args.length ∨ precision.toInt32.toInt = cfg.maxDynamicStringLen ∨
        ∃ j < precision.toInt32.toInt.toNat, mem (str + j) = 0 := by
  have hreads := stringReads_below_iff mem hbit hp hs hstr h0 hcap
  have hwire := (slice_wire mem hbit hp hs hstr h0 hcap).2
  unfold ReadsSlice
  rw [hreads]
  constructor
  · exact fun hboth => hboth.1
  · intro hcond
    exact ⟨hcond, fun pkt hpkt ⟨now, ho⟩ => ⟨(scannedCall_payload h hm hpass hpkt ho).2, hwire⟩⟩

end Runs

/-- `"%.*s"` with a precision of 3 and the string at 5000. -/
def precisionFormat : List UInt8 := [chr '%', chr '.', chr '*', chr 's']

def precisionArgs : VaList := [.u32 3, .charPtr 5000]

def precisionCall : Call :=
  .writeWithFormatScan 3 0 500 (some precisionFormat) (some (typesOf precisionArgs)) precisionArgs

/-- An empty string is read up to its NUL. -/
theorem reads_slice_empty : ∃ c tr v,
    (system ℕ smallConfig).Run c (.ret 0 precisionCall v :: tr) ∧
      ReadsSlice smallConfig quietWorld.mem
        (scannedCall 3 0 500 (some precisionFormat) precisionArgs) 1 5000 3 (callEvents 0 tr) := by
  obtain ⟨c, tr, v, hrun, hm, hpass, -⟩ := run_call smallConfig quietWorld (0 : ℕ) precisionCall
    (fun p => drops p.1) (a := 0) (by decide +kernel)
  have hopen := hpass 3 0 rfl ⟨by unfold levelInRange; decide, by decide, by decide⟩
  have hp : precisionArgs[0]? = some (.u32 3) := rfl
  have hs : precisionArgs[0 + 1]? = some (.charPtr 5000) := rfl
  exact ⟨c, tr, v, hrun, (reads_slice_iff hrun hm hopen (by decide +kernel) hp hs (by decide)
    (by decide) (by decide)).2 (.inr (.inr ⟨0, by decide, rfl⟩))⟩

/-- Memory without a NUL. -/
def letterWorld : World := { quietWorld with mem := fun _ => chr 'a' }

/-- The fourth byte of a slice of three is read. -/
theorem slice_overread : ∃ c tr v,
    (system ℕ smallConfig).Run c (.ret 0 precisionCall v :: tr) ∧
      MemIs letterWorld.mem (callEvents 0 tr) ∧ Passes smallConfig 3 0 (callEvents 0 tr) ∧
      (scannedCall 3 0 500 (some precisionFormat) precisionArgs).mask &&&
        ((1 : UInt32) <<< UInt32.ofNat 1) ≠ 0 ∧
      precisionArgs[0]? = some (.u32 3) ∧ precisionArgs[1]? = some (.charPtr 5000) ∧
      3 ≤ smallConfig.maxDynamicStringLen ∧
      ¬ ReadsSlice smallConfig letterWorld.mem
        (scannedCall 3 0 500 (some precisionFormat) precisionArgs) 1 5000 3 (callEvents 0 tr) := by
  obtain ⟨c, tr, v, hrun, hm, hpass, -⟩ := run_call smallConfig letterWorld (0 : ℕ) precisionCall
    (fun p => drops p.1) (a := 0) (by decide +kernel)
  have hopen := hpass 3 0 rfl ⟨by unfold levelInRange; decide, by decide, by decide⟩
  refine ⟨c, tr, v, hrun, hm, hopen, by decide +kernel, rfl, rfl, by decide, fun hreads => ?_⟩
  have hread : 5003 ∈ (scannedCall 3 0 500 (some precisionFormat) precisionArgs).stringReads
      smallConfig letterWorld.mem 1 5000 := by
    have hscan : 5003 ∈ boundedStrlenReads letterWorld.mem 5000 8 := by decide
    exact List.mem_append_left _ hscan
  exact absurd (hreads.1 5003 hread) (by decide)

end On9log
