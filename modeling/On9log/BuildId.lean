import On9log.Lib.Align
import On9log.Lib.LittleEndian

/-!
# The build id of an ELF image (on9log.c:1129-1175)

`findGnuBuildId` walks the notes of a PT_NOTE segment. `size_t` is a word of the
host's own width and `uint32_t` fields lie in its byte order. A read outside the
block and a store outside the destination end the call with a fault, and so
does a walk that outlives its fuel.
-/

namespace On9log
open Lib.Align Lib.LittleEndian

inductive ByteOrder
  | little | big
  deriving DecidableEq

/-- The host the code is built for; `size_t` holds a `uint32_t`. -/
structure Host where
  order : ByteOrder
  sizeBits : ℕ
  wide : 32 ≤ sizeBits

inductive Fault
  | read | store | fuel
  deriving DecidableEq

variable (host : Host)

abbrev Host.SizeT := BitVec host.sizeBits

def Host.load32 (bytes : List UInt8) : BitVec 32 :=
  match host.order with
  | .little => BitVec.ofNat 32 (valLE bytes)
  | .big => BitVec.ofNat 32 (valLE bytes.reverse)

/-- Where the caller wants the id, and how many bytes have been stored there. -/
structure IdBuffer where
  bytes : List UInt8
  stored : ℕ := 0
  deriving DecidableEq

/-- `memcpy` to the start of the destination. -/
def IdBuffer.copy (id : IdBuffer) (src : List UInt8) : Except Fault IdBuffer :=
  if src.length ≤ id.bytes.length then
    .ok { bytes := src ++ id.bytes.drop src.length, stored := id.stored + src.length }
  else .error .store

/-- `n` bytes of the block from `p` on. -/
def readBlock (block : List UInt8) (p n : ℕ) : Except Fault (List UInt8) :=
  if p + n ≤ block.length then .ok ((block.drop p).take n) else .error .read

structure NoteHeader where
  namesz : BitVec 32
  descsz : BitVec 32
  type : BitVec 32

def noteGnuBuildId : BitVec 32 := 3

def noteHeaderLen : ℕ := 12

/-- `"GNU"` and its terminator. -/
def gnuName : List UInt8 := [0x47, 0x4e, 0x55, 0]

def readHeader (block : List UInt8) (p : ℕ) : Except Fault NoteHeader := do
  let namesz ← readBlock block p 4
  let descsz ← readBlock block (p + 4) 4
  let type ← readBlock block (p + 8) 4
  return ⟨host.load32 namesz, host.load32 descsz, host.load32 type⟩

/-- What one turn of the walk does: return, or go on at the next note. -/
inductive NoteTurn
  | done (ret : host.SizeT) (id : IdBuffer)
  | next (p : ℕ) (left : host.SizeT)

/-- The comparison reads the name only when its size is four. -/
def namesBuildId (block : List UInt8) (p : ℕ) (header : NoteHeader) : Except Fault Bool :=
  if header.type = noteGnuBuildId ∧ header.namesz = 4 then do
    let name ← readBlock block (p + noteHeaderLen) 4
    return decide (name = gnuName)
  else return false

/-- The body of the loop. -/
def noteTurn (block : List UInt8) (align : host.SizeT) (id : IdBuffer) (cap : host.SizeT)
    (p : ℕ) (left : host.SizeT) : Except Fault (NoteTurn host) := do
  let headerLen := BitVec.ofNat host.sizeBits noteHeaderLen
  let header ← readHeader host block p
  let namesz := header.namesz.setWidth host.sizeBits
  let descsz := header.descsz.setWidth host.sizeBits
  if namesz > left - headerLen then return .done 0 id
  let descOff := alignUp (headerLen + namesz) align
  if descOff > left ∨ descsz > left - descOff then return .done 0 id
  if ← namesBuildId block p header then
    if descsz = 0 ∨ descsz > cap then return .done 0 id
    let desc ← readBlock block (p + descOff.toNat) descsz.toNat
    return .done descsz (← id.copy desc)
  let nextOff := alignUp (descOff + descsz) align
  if nextOff ≥ left then return .done 0 id
  return .next (p + nextOff.toNat) (left - nextOff)

def walkNotes (block : List UInt8) (align : host.SizeT) (id : IdBuffer) (cap : host.SizeT) :
    ℕ → ℕ → host.SizeT → Except Fault (host.SizeT × IdBuffer)
  | 0, _, _ => .error .fuel
  | fuel + 1, p, left =>
    if left ≥ BitVec.ofNat host.sizeBits noteHeaderLen then do
      match ← noteTurn host block align id cap p left with
      | .done ret id => return (ret, id)
      | .next p left => walkNotes block align id cap fuel p left
    else return (0, id)

/-- GNU notes use 4 unless the segment says 8. -/
def noteAlign (align : host.SizeT) : host.SizeT :=
  if align ≠ 8 then 4 else align

/-- `on9log_find_gnu_build_id`; `none` is a NULL pointer. -/
def findGnuBuildId (fuel : ℕ) (notes : Option (List UInt8)) (len align : host.SizeT)
    (id : Option IdBuffer) (cap : host.SizeT) : Except Fault (host.SizeT × Option IdBuffer) :=
  match notes, id with
  | some block, some id => do
    let (ret, id) ← walkNotes host block (noteAlign host align) id cap fuel 0 len
    return (ret, some id)
  | _, id => return (0, id)

/-! ### One turn -/

variable {host}

def slice (block : List UInt8) (p n : ℕ) : List UInt8 := (block.drop p).take n

theorem length_slice {block : List UInt8} {p n : ℕ} (h : p + n ≤ block.length) :
    (slice block p n).length = n := by
  rw [slice, List.length_take, List.length_drop]
  omega

theorem readBlock_ok {block : List UInt8} {p n : ℕ} (h : p + n ≤ block.length) :
    readBlock block p n = .ok (slice block p n) := if_pos h

variable (host) in
def headerAt (block : List UInt8) (p : ℕ) : NoteHeader :=
  ⟨host.load32 (slice block p 4), host.load32 (slice block (p + 4) 4),
    host.load32 (slice block (p + 8) 4)⟩

theorem readHeader_ok {block : List UInt8} {p : ℕ} (h : p + noteHeaderLen ≤ block.length) :
    readHeader host block p = .ok (headerAt host block p) := by
  unfold noteHeaderLen at h
  simp only [readHeader, readBlock_ok (show p + 4 ≤ block.length by omega),
    readBlock_ok (show p + 4 + 4 ≤ block.length by omega),
    readBlock_ok (show p + 8 + 4 ≤ block.length by omega)]
  rfl

/-- Where the descriptor of a note starts, counted from the note. -/
def NoteHeader.descOff (header : NoteHeader) (a : ℕ) : ℕ :=
  roundUp a (noteHeaderLen + header.namesz.toNat)

def NoteHeader.nextOff (header : NoteHeader) (a : ℕ) : ℕ :=
  roundUp a (header.descOff a + header.descsz.toNat)

theorem NoteHeader.le_descOff (header : NoteHeader) {a : ℕ} (ha : 0 < a) :
    noteHeaderLen + header.namesz.toNat ≤ header.descOff a := le_roundUp ha

theorem NoteHeader.le_nextOff (header : NoteHeader) {a : ℕ} (ha : 0 < a) :
    header.descOff a + header.descsz.toNat ≤ header.nextOff a := le_roundUp ha

/-- The note at `p` is a build id under the name GNU. -/
def IsBuildId (block : List UInt8) (p : ℕ) (header : NoteHeader) : Prop :=
  header.type = noteGnuBuildId ∧ header.namesz = 4 ∧
    slice block (p + noteHeaderLen) 4 = gnuName

instance (block : List UInt8) (p : ℕ) (header : NoteHeader) :
    Decidable (IsBuildId block p header) := inferInstanceAs (Decidable (_ ∧ _ ∧ _))

theorem namesBuildId_ok {block : List UInt8} {p : ℕ} {header : NoteHeader}
    (h : p + noteHeaderLen + header.namesz.toNat ≤ block.length) :
    namesBuildId block p header = .ok (decide (IsBuildId block p header)) := by
  unfold namesBuildId IsBuildId
  split
  next hbuild =>
    obtain ⟨htype, hname⟩ := hbuild
    have hread : p + noteHeaderLen + 4 ≤ block.length := by
      rw [hname] at h
      exact h
    simp only [readBlock_ok hread, htype, hname, true_and]
    rfl
  next hother =>
    have : ¬(header.type = noteGnuBuildId ∧ header.namesz = 4 ∧
        slice block (p + noteHeaderLen) 4 = gnuName) := by
      rintro ⟨htype, hname, -⟩
      exact hother ⟨htype, hname⟩
    simp only [this, decide_false]
    rfl

/-- The walk stands at `p`, with `left` bytes of the block from there on. -/
structure Standing (block : List UInt8) (p : ℕ) (left : host.SizeT) : Prop where
  here : p + left.toNat = block.length
  fits : block.length < 2 ^ host.sizeBits - 9

/-- What the turn at `p` comes to, in numbers. -/
def turnAt (block : List UInt8) (a : ℕ) (id : IdBuffer) (cap : host.SizeT) (p : ℕ)
    (left : host.SizeT) : NoteTurn host :=
  let header := headerAt host block p
  if left.toNat < header.descOff a + header.descsz.toNat then .done 0 id
  else if IsBuildId block p header then
    if header.descsz = 0 ∨ cap.toNat < header.descsz.toNat then .done 0 id
    else
      .done (header.descsz.setWidth host.sizeBits)
        { bytes := slice block (p + header.descOff a) header.descsz.toNat ++
            id.bytes.drop header.descsz.toNat
          stored := id.stored + header.descsz.toNat }
  else if left.toNat ≤ header.nextOff a then .done 0 id
  else .next (p + header.nextOff a) (left - BitVec.ofNat host.sizeBits (header.nextOff a))

theorem Host.pow_le (host : Host) : 2 ^ 32 ≤ 2 ^ host.sizeBits :=
  Nat.pow_le_pow_right (by omega) host.wide

theorem toNat_size {n : ℕ} (h : n < 2 ^ 32) : (BitVec.ofNat host.sizeBits n).toNat = n := by
  have := host.pow_le
  rw [BitVec.toNat_ofNat, Nat.mod_eq_of_lt (by omega)]

theorem toNat_field (field : BitVec 32) :
    (field.setWidth host.sizeBits).toNat = field.toNat :=
  BitVec.toNat_setWidth_of_le host.wide

theorem toNat_noteAlign (align : host.SizeT) :
    (noteAlign host align).toNat = if align = 8 then 8 else 4 := by
  unfold noteAlign
  by_cases h : align = 8
  · rw [if_neg (not_not.mpr h), if_pos h, h]
    exact toNat_size (show 8 < 2 ^ 32 by omega)
  · rw [if_pos h, if_neg h]
    exact toNat_size (show 4 < 2 ^ 32 by omega)

theorem noteAlign_pow (align : host.SizeT) :
    ∃ k, (if align = 8 then 8 else 4) = 2 ^ k ∧ 2 ^ k ≤ 8 := by
  by_cases h : align = 8
  · exact ⟨3, if_pos h, by omega⟩
  · exact ⟨2, if_neg h, by omega⟩

theorem toNat_headerLen :
    (BitVec.ofNat host.sizeBits noteHeaderLen).toNat = noteHeaderLen :=
  toNat_size (show 12 < 2 ^ 32 by omega)

/-- The two checks on the descriptor, as one that cannot wrap. -/
theorem descPast_iff (descOff left : host.SizeT) (descsz : BitVec 32) :
    descOff > left ∨ descsz.setWidth host.sizeBits > left - descOff ↔
      left.toNat < descOff.toNat + descsz.toNat := by
  simp only [gt_iff_lt, BitVec.lt_def, toNat_field]
  by_cases h : left.toNat < descOff.toNat
  · simp only [h, true_or, true_iff]
    omega
  · rw [BitVec.toNat_sub_of_le (by rw [BitVec.le_def]; omega)]
    omega

section
variable {align left : host.SizeT} {k : ℕ} (hk : align.toNat = 2 ^ k) (hk8 : 2 ^ k ≤ 8)
include hk hk8

theorem toNat_descOff {header : NoteHeader} (fits : left.toNat < 2 ^ host.sizeBits - 9)
    (name : noteHeaderLen + header.namesz.toNat ≤ left.toNat) :
    (alignUp (BitVec.ofNat host.sizeBits noteHeaderLen +
      header.namesz.setWidth host.sizeBits) align).toNat = header.descOff (2 ^ k) := by
  have hsum : (BitVec.ofNat host.sizeBits noteHeaderLen +
      header.namesz.setWidth host.sizeBits).toNat = noteHeaderLen + header.namesz.toNat := by
    rw [BitVec.toNat_add, toNat_headerLen, toNat_field, Nat.mod_eq_of_lt (by omega)]
  rw [toNat_alignUp hk (by rw [hsum]; omega), hsum, NoteHeader.descOff]

theorem toNat_nextOff {header : NoteHeader} {descOff : host.SizeT}
    (hoff : descOff.toNat = header.descOff (2 ^ k)) (fits : left.toNat < 2 ^ host.sizeBits - 9)
    (desc : header.descOff (2 ^ k) + header.descsz.toNat ≤ left.toNat) :
    (alignUp (descOff + header.descsz.setWidth host.sizeBits) align).toNat =
      header.nextOff (2 ^ k) := by
  have hsum : (descOff + header.descsz.setWidth host.sizeBits).toNat =
      header.descOff (2 ^ k) + header.descsz.toNat := by
    rw [BitVec.toNat_add, toNat_field, hoff, Nat.mod_eq_of_lt (by omega)]
  rw [toNat_alignUp hk (by rw [hsum]; omega), hsum, NoteHeader.nextOff]

theorem noteTurn_ok {block : List UInt8} {p : ℕ} {cap : host.SizeT} {id : IdBuffer}
    (stand : Standing block p left) (header : noteHeaderLen ≤ left.toNat)
    (room : cap.toNat ≤ id.bytes.length) :
    noteTurn host block align id cap p left = .ok (turnAt block (2 ^ k) id cap p left) := by
  obtain ⟨here, fits⟩ := stand
  have hpos := Nat.two_pow_pos k
  have hread : readHeader host block p = .ok (headerAt host block p) :=
    readHeader_ok (by omega)
  have hrest : (left - BitVec.ofNat host.sizeBits noteHeaderLen).toNat =
      left.toNat - noteHeaderLen := by
    rw [BitVec.toNat_sub_of_le (by rw [BitVec.le_def, toNat_headerLen]; exact header),
      toNat_headerLen]
  unfold noteTurn turnAt
  rw [hread]
  simp only [Bind.bind, Except.bind, pure, Except.pure]
  generalize headerAt host block p = h
  have hdesc := h.le_descOff hpos
  have hnext := h.le_nextOff hpos
  by_cases hname : left.toNat < noteHeaderLen + h.namesz.toNat
  · rw [if_pos (by rw [gt_iff_lt, BitVec.lt_def, hrest, toNat_field]; omega),
      if_pos (by omega)]
  have hleft : left.toNat < 2 ^ host.sizeBits - 9 := by omega
  have hoff := toNat_descOff hk hk8 hleft (show noteHeaderLen + h.namesz.toNat ≤ _ by omega)
  rw [if_neg (by rw [gt_iff_lt, BitVec.lt_def, hrest, toNat_field]; omega)]
  generalize alignUp (BitVec.ofNat host.sizeBits noteHeaderLen +
    h.namesz.setWidth host.sizeBits) align = descOff at hoff ⊢
  by_cases hshort : left.toNat < h.descOff (2 ^ k) + h.descsz.toNat
  · rw [if_pos ((descPast_iff descOff left h.descsz).mpr (by omega)), if_pos hshort]
  rw [if_neg ((descPast_iff descOff left h.descsz).not.mpr (by omega)), if_neg hshort,
    namesBuildId_ok (by omega)]
  by_cases hbuild : IsBuildId block p h
  · have hzero : h.descsz.setWidth host.sizeBits = 0 ↔ h.descsz = 0 := by
      rw [← BitVec.toNat_inj, ← BitVec.toNat_inj, toNat_field]
      simp only [BitVec.ofNat_eq_ofNat, BitVec.toNat_ofNat, Nat.zero_mod]
    simp only [hbuild, decide_true, if_true, gt_iff_lt, BitVec.lt_def, toNat_field, hzero]
    by_cases hcap : h.descsz = 0 ∨ cap.toNat < h.descsz.toNat
    · simp only [if_pos hcap]
    · have hdescIn : p + h.descOff (2 ^ k) + h.descsz.toNat ≤ block.length := by omega
      have hroom : h.descsz.toNat ≤ id.bytes.length := by
        rw [not_or] at hcap
        omega
      simp only [if_neg hcap, hoff, readBlock_ok hdescIn, IdBuffer.copy, length_slice hdescIn,
        if_pos hroom]
  · have hnextOff := toNat_nextOff hk hk8 hoff hleft (by omega)
    simp only [hbuild, decide_false, Bool.false_eq_true, if_false, ge_iff_le, BitVec.le_def,
      hnextOff]
    have hword : alignUp (descOff + h.descsz.setWidth host.sizeBits) align =
        BitVec.ofNat host.sizeBits (h.nextOff (2 ^ k)) := by
      apply BitVec.eq_of_toNat_eq
      rw [hnextOff, BitVec.toNat_ofNat, Nat.mod_eq_of_lt]
      rw [← hnextOff]
      exact BitVec.isLt _
    rw [hword]
    by_cases hend : left.toNat ≤ h.nextOff (2 ^ k)
    · simp only [if_pos hend]
    · simp only [if_neg hend]

end

/-! ### The walk -/

/-- What a returned call leaves of the destination. -/
structure Filled (cap : host.SizeT) (id : IdBuffer) (ret : host.SizeT) (id' : IdBuffer) : Prop where
  within : ret.toNat ≤ cap.toNat
  stored : id'.stored = id.stored + ret.toNat
  length : id'.bytes.length = id.bytes.length
  rest : id'.bytes.drop ret.toNat = id.bytes.drop ret.toNat
  untouched : ret = 0 → id' = id

theorem Filled.nothing (cap : host.SizeT) (id : IdBuffer) : Filled cap id 0 id where
  within := by simp
  stored := by simp
  length := rfl
  rest := rfl
  untouched _ := rfl

theorem turnAt_done {block : List UInt8} {a p : ℕ} {id id' : IdBuffer} {cap left ret : host.SizeT}
    (stand : Standing block p left) (room : cap.toNat ≤ id.bytes.length)
    (h : turnAt block a id cap p left = .done ret id') : Filled cap id ret id' := by
  obtain ⟨here, -⟩ := stand
  unfold turnAt at h
  simp only at h
  generalize headerAt host block p = header at h
  split at h
  case isTrue =>
    cases h
    exact .nothing cap id
  case isFalse hin =>
    split at h
    case isTrue =>
      split at h
      case isTrue =>
        cases h
        exact .nothing cap id
      case isFalse hcap =>
        cases h
        have hlen : (slice block (p + header.descOff a) header.descsz.toNat).length =
            header.descsz.toNat := length_slice (by omega)
        rw [not_or] at hcap
        constructor
        · rw [toNat_field]
          omega
        · rw [toNat_field]
        · rw [List.length_append, hlen, List.length_drop]
          omega
        · rw [toNat_field, List.drop_left' hlen]
        · intro hzero
          have : header.descsz.toNat = 0 := by
            have hsize := @toNat_field host header.descsz
            rw [hzero] at hsize
            simpa using hsize.symm
          exact absurd (BitVec.eq_of_toNat_eq this) hcap.1
    case isFalse =>
      split at h
      case isTrue =>
        cases h
        exact .nothing cap id
      case isFalse => cases h

theorem turnAt_next {block : List UInt8} {a p q : ℕ} {id : IdBuffer} {cap left rest : host.SizeT}
    (ha : 0 < a) (stand : Standing block p left)
    (h : turnAt block a id cap p left = .next q rest) :
    Standing block q rest ∧ rest.toNat < left.toNat := by
  obtain ⟨here, fits⟩ := stand
  unfold turnAt at h
  simp only at h
  generalize headerAt host block p = header at h
  have hdesc := header.le_descOff ha
  have hnext := header.le_nextOff ha
  have hheader : 0 < noteHeaderLen := by decide
  split at h
  case isTrue => cases h
  case isFalse =>
    split at h
    case isTrue => split at h <;> cases h
    case isFalse =>
      split at h
      case isTrue => cases h
      case isFalse hend =>
        cases h
        have hword : (BitVec.ofNat host.sizeBits (header.nextOff a)).toNat = header.nextOff a := by
          have := left.isLt
          rw [BitVec.toNat_ofNat, Nat.mod_eq_of_lt (by omega)]
        have hrest : (left - BitVec.ofNat host.sizeBits (header.nextOff a)).toNat =
            left.toNat - header.nextOff a := by
          rw [BitVec.toNat_sub_of_le (by rw [BitVec.le_def, hword]; omega), hword]
        refine ⟨⟨?_, fits⟩, ?_⟩
        · rw [hrest]
          omega
        · rw [hrest]
          omega

theorem walkNotes_turn {block : List UInt8} {align cap : host.SizeT} {id : IdBuffer} {k : ℕ}
    (hk : align.toNat = 2 ^ k) (hk8 : 2 ^ k ≤ 8) (room : cap.toNat ≤ id.bytes.length)
    {fuel p : ℕ} {left : host.SizeT} (stand : Standing block p left)
    (header : noteHeaderLen ≤ left.toNat) :
    walkNotes host block align id cap (fuel + 1) p left =
      match turnAt block (2 ^ k) id cap p left with
      | .done ret id => .ok (ret, id)
      | .next p left => walkNotes host block align id cap fuel p left := by
  have hword : left ≥ BitVec.ofNat host.sizeBits noteHeaderLen := by
    rw [ge_iff_le, BitVec.le_def, toNat_headerLen]
    exact header
  rw [walkNotes, if_pos hword, noteTurn_ok hk hk8 stand header room]
  simp only [Bind.bind, Except.bind, pure, Except.pure]

theorem walkNotes_end {block : List UInt8} {align cap left : host.SizeT} {id : IdBuffer}
    {fuel p : ℕ} (header : left.toNat < noteHeaderLen) :
    walkNotes host block align id cap (fuel + 1) p left = .ok (0, id) := by
  have hword : ¬left ≥ BitVec.ofNat host.sizeBits noteHeaderLen := by
    rw [ge_iff_le, BitVec.le_def, toNat_headerLen]
    omega
  rw [walkNotes, if_neg hword]
  rfl

theorem walkNotes_ok {block : List UInt8} {align cap : host.SizeT} {id : IdBuffer} {k : ℕ}
    (hk : align.toNat = 2 ^ k) (hk8 : 2 ^ k ≤ 8) (room : cap.toNat ≤ id.bytes.length)
    {fuel p : ℕ} {left : host.SizeT} (stand : Standing block p left)
    (enough : left.toNat < fuel) :
    ∃ ret id', walkNotes host block align id cap fuel p left = .ok (ret, id') ∧
      Filled cap id ret id' := by
  induction fuel generalizing p left with
  | zero => omega
  | succ fuel ih =>
    by_cases header : noteHeaderLen ≤ left.toNat
    · rw [walkNotes_turn hk hk8 room stand header]
      cases hturn : turnAt block (2 ^ k) id cap p left with
      | done ret id' => exact ⟨ret, id', rfl, turnAt_done stand room hturn⟩
      | next q rest =>
        obtain ⟨hstand, hless⟩ := turnAt_next (Nat.two_pow_pos k) stand hturn
        exact ih hstand (by omega)
    · rw [walkNotes_end (by omega)]
      exact ⟨0, id, rfl, .nothing cap id⟩

theorem Standing.start {block : List UInt8} (fits : block.length < 2 ^ host.sizeBits - 9) :
    Standing block 0 (BitVec.ofNat host.sizeBits block.length) where
  here := by
    rw [BitVec.toNat_ofNat, Nat.mod_eq_of_lt (by omega)]
    omega
  fits := fits

theorem findGnuBuildId_walk {fuel : ℕ} {block : List UInt8} {align cap ret : host.SizeT}
    {id id' : IdBuffer}
    (h : walkNotes host block (noteAlign host align) id cap fuel 0
      (BitVec.ofNat host.sizeBits block.length) = .ok (ret, id')) :
    findGnuBuildId host fuel (some block) (BitVec.ofNat host.sizeBits block.length) align
      (some id) cap = .ok (ret, some id') := by
  simp only [findGnuBuildId, h]
  rfl

/-- On any block the call returns without a fault, whatever the notes say of their sizes. -/
theorem findGnuBuildId_safe (host : Host) (block : List UInt8) (align cap : host.SizeT)
    (id : IdBuffer) (fuel : ℕ) (fits : block.length < 2 ^ host.sizeBits - 9)
    (room : cap.toNat ≤ id.bytes.length) (enough : block.length < fuel) :
    ∃ ret id', findGnuBuildId host fuel (some block) (BitVec.ofNat host.sizeBits block.length) align
        (some id) cap = .ok (ret, some id') ∧ Filled cap id ret id' := by
  obtain ⟨k, hk, hk8⟩ := noteAlign_pow align
  have hpow : (noteAlign host align).toNat = 2 ^ k := (toNat_noteAlign align).trans hk
  have stand := Standing.start fits
  have hlen := stand.here
  have hfuel : (BitVec.ofNat host.sizeBits block.length).toNat < fuel := by omega
  obtain ⟨ret, id', hwalk, filled⟩ := walkNotes_ok hpow hk8 room stand hfuel
  exact ⟨ret, id', findGnuBuildId_walk hwalk, filled⟩

def host64 : Host := ⟨.little, 64, Nat.le_add_right 32 32⟩

/-- A name size that would wrap 32 bits with the length of the header. -/
def wildBlock : List UInt8 := [0xf8, 0xff, 0xff, 0xff, 4, 0, 0, 0, 3, 0, 0, 0, 0x47, 0x4e, 0x55]

theorem findGnuBuildId_safe_wild :
    ∃ ret id', findGnuBuildId host64 16 (some wildBlock) (BitVec.ofNat 64 wildBlock.length) 5
        (some ⟨[7, 7, 7, 7], 0⟩) 4 = .ok (ret, some id') ∧
      Filled (4 : host64.SizeT) ⟨[7, 7, 7, 7], 0⟩ ret id' :=
  findGnuBuildId_safe host64 wildBlock 5 4 ⟨[7, 7, 7, 7], 0⟩ 16 (by decide) (by decide) (by decide)

/-! ### Lists of notes -/

structure Note where
  type : BitVec 32
  name : List UInt8
  desc : List UInt8
  name_fits : name.length < 2 ^ 32
  desc_fits : desc.length < 2 ^ 32

def Host.store32 (host : Host) (field : BitVec 32) : List UInt8 :=
  match host.order with
  | .little => bytesLE 4 field.toNat
  | .big => (bytesLE 4 field.toNat).reverse

@[simp] theorem length_store32 (field : BitVec 32) : (host.store32 field).length = 4 := by
  unfold Host.store32
  cases host.order <;> simp

theorem load32_store32 (field : BitVec 32) : host.load32 (host.store32 field) = field := by
  have hfield : field.toNat < 256 ^ 4 := field.isLt
  unfold Host.load32 Host.store32
  cases host.order
  case little => simp only [valLE_bytesLE 4 _ hfield, BitVec.ofNat_toNat, BitVec.setWidth_eq]
  case big =>
    simp only [List.reverse_reverse, valLE_bytesLE 4 _ hfield, BitVec.ofNat_toNat,
      BitVec.setWidth_eq]

def Note.header (note : Note) : NoteHeader where
  namesz := BitVec.ofNat 32 note.name.length
  descsz := BitVec.ofNat 32 note.desc.length
  type := note.type

/-- A note up to the end of its descriptor, with `pad` after the name. -/
def Note.encode (host : Host) (note : Note) (pad : List UInt8) : List UInt8 :=
  host.store32 note.header.namesz ++ host.store32 note.header.descsz ++
    host.store32 note.type ++ note.name ++ pad ++ note.desc

def padLen (a n : ℕ) : ℕ := roundUp a n - n

/-- The notes of a segment, in order. Padding may hold anything; the last note may go without
the padding at its end, or have a part of it. -/
inductive Laid (host : Host) (a : ℕ) : List Note → List UInt8 → Prop
  | nil : Laid host a [] []
  | last (note : Note) (pad tail : List UInt8)
      (hpad : pad.length = padLen a (noteHeaderLen + note.name.length))
      (htail : tail.length ≤ padLen a (note.encode host pad).length) :
      Laid host a [note] (note.encode host pad ++ tail)
  | cons (note : Note) (pad tail : List UInt8)
      (hpad : pad.length = padLen a (noteHeaderLen + note.name.length))
      (htail : tail.length = padLen a (note.encode host pad).length)
      {notes : List Note} {block : List UInt8} (rest : Laid host a notes block) :
      Laid host a (note :: notes) (note.encode host pad ++ tail ++ block)

def Note.isBuildId (note : Note) : Bool :=
  decide (note.type = noteGnuBuildId ∧ note.name = gnuName)

/-- What the caller gets for the first build id of the list. -/
def idOf (cap : host.SizeT) (id : IdBuffer) : Option Note → host.SizeT × IdBuffer
  | some note =>
    if 1 ≤ note.desc.length ∧ note.desc.length ≤ cap.toNat then
      (BitVec.ofNat host.sizeBits note.desc.length,
        { bytes := note.desc ++ id.bytes.drop note.desc.length
          stored := id.stored + note.desc.length })
    else (0, id)
  | none => (0, id)

theorem length_encode (note : Note) (pad : List UInt8) :
    (note.encode host pad).length =
      noteHeaderLen + note.name.length + pad.length + note.desc.length := by
  simp only [Note.encode, List.length_append, length_store32, noteHeaderLen]

/-- A slice of what stands at `p`, past a part of known length. -/
theorem slice_part {block : List UInt8} {p n m : ℕ} (front mid back : List UInt8)
    (h : block.drop p = front ++ (mid ++ back)) (hn : front.length = n) (hm : mid.length = m) :
    slice block (p + n) m = mid := by
  rw [slice, ← List.drop_drop, h, ← hn, ← hm, List.drop_left, List.take_left]

section
variable {block rest pad : List UInt8} {p a : ℕ} {note : Note}
  (h : block.drop p = note.encode host pad ++ rest)
include h

theorem headerAt_note : headerAt host block p = note.header := by
  simp only [Note.encode, List.append_assoc] at h
  have hnamesz : slice block p 4 = host.store32 note.header.namesz :=
    slice_part [] _ _ h rfl (length_store32 _)
  have hdescsz : slice block (p + 4) 4 = host.store32 note.header.descsz :=
    slice_part (host.store32 note.header.namesz) _ _ h (length_store32 _) (length_store32 _)
  have htype : slice block (p + 8) 4 = host.store32 note.type :=
    slice_part (host.store32 note.header.namesz ++ host.store32 note.header.descsz) _ _
      (by rw [h, List.append_assoc]) (by simp) (length_store32 _)
  simp only [headerAt, hnamesz, hdescsz, htype, load32_store32]
  rfl

theorem slice_name :
    slice block (p + noteHeaderLen) note.name.length = note.name := by
  simp only [Note.encode, List.append_assoc] at h
  refine slice_part (host.store32 note.header.namesz ++ host.store32 note.header.descsz ++
    host.store32 note.type) _ (pad ++ (note.desc ++ rest)) ?_ ?_ rfl
  · simp only [h, List.append_assoc]
  · simp [noteHeaderLen]

theorem slice_desc :
    slice block (p + (noteHeaderLen + note.name.length + pad.length)) note.desc.length =
      note.desc := by
  simp only [Note.encode, List.append_assoc] at h
  refine slice_part (host.store32 note.header.namesz ++ host.store32 note.header.descsz ++
    host.store32 note.type ++ note.name ++ pad) _ rest ?_ ?_ rfl
  · simp only [h, List.append_assoc]
  · simp only [List.length_append, length_store32, noteHeaderLen]

theorem isBuildId_note : IsBuildId block p note.header ↔ note.isBuildId = true := by
  have hname := slice_name h
  have hfits := note.name_fits
  unfold IsBuildId Note.isBuildId
  rw [decide_eq_true_iff]
  constructor
  · rintro ⟨htype, hnamesz, hgnu⟩
    have hlen : note.name.length = 4 := by
      have : note.name.length % 2 ^ 32 = 4 := congrArg BitVec.toNat hnamesz
      omega
    rw [hlen] at hname
    exact ⟨htype, hname.symm.trans hgnu⟩
  · rintro ⟨htype, hgnu⟩
    rw [hgnu] at hname
    refine ⟨htype, ?_, hname⟩
    simp only [Note.header, hgnu]
    rfl

end

theorem Note.toNat_namesz (note : Note) : note.header.namesz.toNat = note.name.length := by
  simp only [Note.header, BitVec.toNat_ofNat, Nat.mod_eq_of_lt note.name_fits]

theorem Note.toNat_descsz (note : Note) : note.header.descsz.toNat = note.desc.length := by
  simp only [Note.header, BitVec.toNat_ofNat, Nat.mod_eq_of_lt note.desc_fits]

theorem add_padLen {a : ℕ} (ha : 0 < a) (n : ℕ) : n + padLen a n = roundUp a n := by
  have := le_roundUp ha (n := n)
  unfold padLen
  omega

theorem Note.descOff_eq {note : Note} {pad : List UInt8} {a : ℕ} (ha : 0 < a)
    (hpad : pad.length = padLen a (noteHeaderLen + note.name.length)) :
    note.header.descOff a = noteHeaderLen + note.name.length + pad.length := by
  rw [NoteHeader.descOff, note.toNat_namesz, hpad, add_padLen ha]

theorem Note.nextOff_eq {note : Note} {pad : List UInt8} {a : ℕ} (ha : 0 < a)
    (hpad : pad.length = padLen a (noteHeaderLen + note.name.length)) :
    note.header.nextOff a =
      (note.encode host pad).length + padLen a (note.encode host pad).length := by
  rw [add_padLen ha, NoteHeader.nextOff, note.descOff_eq ha hpad, note.toNat_descsz,
    length_encode]

theorem Note.descsz_eq_zero (note : Note) : note.header.descsz = 0 ↔ note.desc.length = 0 := by
  rw [← note.toNat_descsz, ← BitVec.toNat_inj]
  rfl

theorem Note.setWidth_descsz (note : Note) :
    note.header.descsz.setWidth host.sizeBits = BitVec.ofNat host.sizeBits note.desc.length := by
  apply BitVec.eq_of_toNat_eq
  rw [toNat_field, note.toNat_descsz, toNat_size note.desc_fits]

/-- The turn at a note of the list. -/
theorem turnAt_note (id : IdBuffer) (cap : host.SizeT) {block rest pad : List UInt8} {a p : ℕ}
    {note : Note} {left : host.SizeT} (ha : 0 < a)
    (hpad : pad.length = padLen a (noteHeaderLen + note.name.length))
    (hrest : block.drop p = note.encode host pad ++ rest)
    (hleft : left.toNat = (note.encode host pad ++ rest).length) :
    turnAt block a id cap p left =
      if note.isBuildId then .done (idOf cap id (some note)).1 (idOf cap id (some note)).2
      else if rest.length ≤ padLen a (note.encode host pad).length then .done 0 id
      else
        .next (p + ((note.encode host pad).length + padLen a (note.encode host pad).length))
          (left - BitVec.ofNat host.sizeBits
            ((note.encode host pad).length + padLen a (note.encode host pad).length)) := by
  have hencode := @length_encode host note pad
  have hnext := @Note.nextOff_eq host note pad a ha hpad
  rw [List.length_append] at hleft
  unfold turnAt
  simp only [headerAt_note hrest, isBuildId_note hrest, note.descOff_eq ha hpad,
    hnext, note.toNat_descsz]
  rw [if_neg (by omega)]
  by_cases hbuild : note.isBuildId = true
  · simp only [if_pos hbuild, idOf, note.descsz_eq_zero]
    by_cases hcap : note.desc.length = 0 ∨ cap.toNat < note.desc.length
    · rw [if_pos hcap, if_neg (by omega)]
    · rw [if_neg hcap, if_pos (by omega), slice_desc hrest, note.setWidth_descsz]
  · simp only [if_neg hbuild]
    by_cases hend : rest.length ≤ padLen a (note.encode host pad).length
    · rw [if_pos hend, if_pos (by omega)]
    · rw [if_neg hend, if_neg (by omega)]

theorem Laid.notes_eq_nil {a : ℕ} {notes : List Note} (h : Laid host a notes []) : notes = [] := by
  generalize hblock : ([] : List UInt8) = block at h
  cases h with
  | nil => rfl
  | last note pad tail =>
    have := congrArg List.length hblock
    simp only [List.length_append, length_encode, noteHeaderLen, List.length_nil] at this
    omega
  | cons note pad tail =>
    have := congrArg List.length hblock
    simp only [List.length_append, length_encode, noteHeaderLen, List.length_nil] at this
    omega

theorem Standing.length_rest {whole block : List UInt8} {p : ℕ} {left : host.SizeT}
    (stand : Standing whole p left) (here : whole.drop p = block) :
    left.toNat = block.length := by
  rw [← here, List.length_drop, ← stand.here]
  omega

theorem walkNotes_laid {whole : List UInt8} {align cap : host.SizeT} {id : IdBuffer} {k : ℕ}
    (hk : align.toNat = 2 ^ k) (hk8 : 2 ^ k ≤ 8) (room : cap.toNat ≤ id.bytes.length)
    {notes : List Note} {block : List UInt8} (laid : Laid host (2 ^ k) notes block)
    {fuel p : ℕ} {left : host.SizeT} (stand : Standing whole p left)
    (here : whole.drop p = block) (enough : left.toNat < fuel) :
    walkNotes host whole align id cap fuel p left =
      .ok (idOf cap id (notes.find? Note.isBuildId)) := by
  have hpos := Nat.two_pow_pos k
  have hleft := stand.length_rest here
  induction laid generalizing fuel p left with
  | nil =>
    rw [List.length_nil] at hleft
    cases fuel with
    | zero => omega
    | succ fuel =>
      rw [walkNotes_end (by unfold noteHeaderLen; omega)]
      rfl
  | last note pad tail hpad htail =>
    have hlong : noteHeaderLen ≤ left.toNat := by
      rw [hleft, List.length_append, length_encode]
      omega
    cases fuel with
    | zero => omega
    | succ fuel =>
      rw [walkNotes_turn hk hk8 room stand hlong, turnAt_note id cap hpos hpad here hleft]
      by_cases hbuild : note.isBuildId = true
      · simp only [hbuild, if_true, List.find?_cons_of_pos]
      · simp only [hbuild, Bool.false_eq_true, if_false, if_pos htail,
          List.find?_cons_of_neg (show ¬note.isBuildId = true from hbuild), List.find?_nil, idOf]
  | @cons note pad tail hpad htail notes block rest ih =>
    have hlong : noteHeaderLen ≤ left.toNat := by
      rw [hleft, List.length_append, List.length_append, length_encode]
      omega
    rw [List.append_assoc] at here hleft
    cases fuel with
    | zero => omega
    | succ fuel =>
      have hturn := turnAt_note id cap hpos hpad here hleft
      rw [walkNotes_turn hk hk8 room stand hlong]
      by_cases hbuild : note.isBuildId = true
      · rw [hturn]
        simp only [hbuild, if_true, List.find?_cons_of_pos]
      rw [if_neg hbuild] at hturn
      rw [List.find?_cons_of_neg (show ¬note.isBuildId = true from hbuild)]
      by_cases hend : (tail ++ block).length ≤ padLen (2 ^ k) (note.encode host pad).length
      · have hblock : block = [] := by
          rw [List.length_append] at hend
          exact List.length_eq_zero_iff.mp (by omega)
        subst hblock
        rw [hturn, rest.notes_eq_nil]
        simp only [if_pos hend, List.find?_nil, idOf]
      · rw [if_neg hend] at hturn
        obtain ⟨hstand, hless⟩ := turnAt_next hpos stand hturn
        rw [hturn]
        have hdrop : whole.drop (p + ((note.encode host pad).length +
            padLen (2 ^ k) (note.encode host pad).length)) = block := by
          rw [← htail, ← List.length_append, ← List.drop_drop, here, ← List.append_assoc,
            List.drop_left]
        exact ih hstand hdrop (by omega) (hstand.length_rest hdrop)

/-- On the notes of a segment the call returns the first build id, if it fits the destination.
An `align` that is not 8 is taken for 4 on any input. -/
theorem findGnuBuildId_notes (host : Host) (align cap : host.SizeT) (notes : List Note)
    (block : List UInt8) (laid : Laid host (if align = 8 then 8 else 4) notes block)
    (fits : block.length < 2 ^ host.sizeBits - 9) (id : IdBuffer)
    (room : cap.toNat ≤ id.bytes.length) (fuel : ℕ) (enough : block.length < fuel) :
    findGnuBuildId host fuel (some block) (BitVec.ofNat host.sizeBits block.length) align
        (some id) cap =
      .ok ((idOf cap id (notes.find? Note.isBuildId)).1,
        some (idOf cap id (notes.find? Note.isBuildId)).2) ∧
    (align ≠ 8 → ∀ n segment len dst cap,
      findGnuBuildId host n segment len align dst cap =
        findGnuBuildId host n segment len 4 dst cap) := by
  obtain ⟨k, hk, hk8⟩ := noteAlign_pow align
  have hpow : (noteAlign host align).toNat = 2 ^ k := (toNat_noteAlign align).trans hk
  have stand := Standing.start fits
  have hlen := stand.here
  rw [hk] at laid
  constructor
  · exact findGnuBuildId_walk (walkNotes_laid hpow hk8 room laid stand (List.drop_zero) (by omega))
  · intro hother n segment len dst cap
    have hfour : noteAlign host 4 = 4 := by
      unfold noteAlign
      split <;> rfl
    have hsame : noteAlign host align = noteAlign host 4 := by
      rw [hfour, noteAlign, if_pos hother]
    unfold findGnuBuildId
    rw [hsame]

def linkerNote : Note := ⟨1, gnuName, [0, 0], by decide, by decide⟩

def buildIdNote : Note := ⟨3, gnuName, [0x90, 0x05, 0x96], by decide, by decide⟩

/-- The note of a build id follows another one and has no padding at its end. -/
def segment : List UInt8 :=
  [4, 0, 0, 0, 2, 0, 0, 0, 1, 0, 0, 0, 0x47, 0x4e, 0x55, 0, 0, 0, 0, 0,
    4, 0, 0, 0, 3, 0, 0, 0, 3, 0, 0, 0, 0x47, 0x4e, 0x55, 0, 0x90, 0x05, 0x96]

theorem laid_segment : Laid host64 4 [linkerNote, buildIdNote] segment := by
  have hlast : Laid host64 4 [buildIdNote] (buildIdNote.encode host64 [] ++ []) :=
    .last buildIdNote [] [] (by decide) (by decide)
  exact .cons linkerNote [] [0, 0] (by decide) (by decide) hlast

theorem findGnuBuildId_notes_segment :
    findGnuBuildId host64 40 (some segment) (BitVec.ofNat 64 segment.length) 16
        (some ⟨[7, 7, 7, 7], 0⟩) 4 = .ok (3, some ⟨[0x90, 0x05, 0x96, 7], 3⟩) ∧
      findGnuBuildId host64 40 (some segment) (BitVec.ofNat 64 segment.length) 16
        (some ⟨[7, 7, 7, 7], 0⟩) 4 =
      findGnuBuildId host64 40 (some segment) (BitVec.ofNat 64 segment.length) 4
        (some ⟨[7, 7, 7, 7], 0⟩) 4 := by
  have h := findGnuBuildId_notes host64 16 4 [linkerNote, buildIdNote] segment laid_segment (by decide)
    ⟨[7, 7, 7, 7], 0⟩ (by decide) 40 (by decide)
  exact ⟨h.1, h.2 (by decide) 40 (some segment) _ _ 4⟩

end On9log
