import On9log.FormatScan

/-!
# What the precision scan marks (on9log.c:1838-1917)

A format is rendered from its pieces, in the grammar of C's printf, and the
arguments that a `%.*s` takes are read off the pieces. The scan keeps its
argument index in step with them; the substring test in front of it does not
know of flags, widths or length modifiers.
-/

namespace On9log

/-! ### Formats -/

def flagChars : List UInt8 := [chr '-', chr '+', chr ' ', chr '#', chr '0']

def convChars : List UInt8 :=
  [chr 'd', chr 'i', chr 'o', chr 'u', chr 'x', chr 'X', chr 'f', chr 'F', chr 'e', chr 'E',
    chr 'g', chr 'G', chr 'a', chr 'A', chr 'c', chr 's', chr 'p', chr 'n']

/-- A width or a precision: `*`, or a possibly empty run of digits. -/
inductive FieldInt where
  | star
  | digits (ds : List UInt8) (ok : ∀ d ∈ ds, chr '0' ≤ d ∧ d ≤ chr '9')

def FieldInt.isStar : FieldInt → Bool
  | .star => true
  | .digits _ _ => false

def FieldInt.render : FieldInt → List UInt8
  | .star => [chr '*']
  | .digits ds _ => ds

inductive LengthModifier where
  | none | hh | h | l | ll | j | z | t | L
  deriving DecidableEq

def LengthModifier.render : LengthModifier → List UInt8
  | .none => []
  | .hh => [chr 'h', chr 'h']
  | .h => [chr 'h']
  | .l => [chr 'l']
  | .ll => [chr 'l', chr 'l']
  | .j => [chr 'j']
  | .z => [chr 'z']
  | .t => [chr 't']
  | .L => [chr 'L']

/-- A conversion specification other than `%%`. -/
structure FormatSpec where
  flags : List UInt8
  width : FieldInt
  precision : Option FieldInt
  length : LengthModifier
  conv : UInt8
  flags_ok : ∀ c ∈ flags, c ∈ flagChars
  conv_ok : conv ∈ convChars

def renderPrecision : Option FieldInt → List UInt8
  | none => []
  | some field => chr '.' :: field.render

def FormatSpec.render (spec : FormatSpec) : List UInt8 :=
  spec.flags ++ (spec.width.render ++ (renderPrecision spec.precision ++
    (spec.length.render ++ [spec.conv])))

def FormatSpec.precisionStar (spec : FormatSpec) : Bool :=
  match spec.precision with
  | some field => field.isStar
  | none => false

/-- The arguments `*` takes before the value. -/
def FormatSpec.stars (spec : FormatSpec) : ℕ :=
  spec.width.isStar.toNat + spec.precisionStar.toNat

inductive Piece where
  | text (c : UInt8) (ok : c ≠ 0 ∧ c ≠ chr '%')
  | percent
  | conversion (spec : FormatSpec)

def Piece.render : Piece → List UInt8
  | .text c _ => [c]
  | .percent => [chr '%', chr '%']
  | .conversion spec => chr '%' :: spec.render

def renderFormat (pieces : List Piece) : List UInt8 := pieces.flatMap Piece.render

/-- The value arguments of the `s` conversions whose precision is `*`, when the
first piece takes its arguments from `argIndex` on. -/
def starStringArgs : List Piece → ℕ → List ℕ
  | [], _ => []
  | .text _ _ :: pieces, argIndex => starStringArgs pieces argIndex
  | .percent :: pieces, argIndex => starStringArgs pieces argIndex
  | .conversion spec :: pieces, argIndex =>
    if spec.conv = chr 's' ∧ spec.precisionStar then
      (argIndex + spec.stars) :: starStringArgs pieces (argIndex + spec.stars + 1)
    else starStringArgs pieces (argIndex + spec.stars + 1)

/-! ### The scan of one specification -/

/-- Where a run of flags and digits ends. -/
def EndsField (p : List UInt8) : Prop :=
  ∃ c q, p = c :: q ∧ isPrintfFlag c = false ∧ isPrintfDigit c = false ∧ c ≠ chr '*'

theorem EndsField.skipFlags {p : List UInt8} (h : EndsField p) : skipPrintfFlags p = p := by
  obtain ⟨c, q, rfl, hc, -⟩ := h
  exact List.dropWhile_cons_of_neg (by simp [hc])

theorem EndsField.skipInteger {p : List UInt8} (h : EndsField p) : skipPrintfInteger p = p := by
  obtain ⟨c, q, rfl, -, hc, -⟩ := h
  exact List.dropWhile_cons_of_neg (by simp [hc])

theorem EndsField.not_star {p : List UInt8} (h : EndsField p) : p.head? ≠ some (chr '*') := by
  obtain ⟨c, q, rfl, -, -, hc⟩ := h
  simpa using hc

theorem isPrintfFlag_of_mem {c : UInt8} (h : c ∈ flagChars) : isPrintfFlag c = true := by
  simpa [flagChars, isPrintfFlag] using h

/-- A digit that is no flag stops the flags, and no digit is `*`. -/
theorem skipFlags_digits (ds p : List UInt8) (ok : ∀ d ∈ ds, chr '0' ≤ d ∧ d ≤ chr '9')
    (hp : EndsField p) :
    ∃ ds', skipPrintfFlags (ds ++ p) = ds' ++ p ∧ ∀ d ∈ ds', chr '0' ≤ d ∧ d ≤ chr '9' := by
  induction ds with
  | nil => exact ⟨[], hp.skipFlags, by simp⟩
  | cons d ds ih =>
    by_cases hd : isPrintfFlag d = true
    · have hskip : skipPrintfFlags (d :: ds ++ p) = skipPrintfFlags (ds ++ p) :=
        List.dropWhile_cons_of_pos hd
      rw [hskip]
      exact ih fun e he => ok e (List.mem_cons_of_mem _ he)
    · exact ⟨d :: ds, List.dropWhile_cons_of_neg hd, ok⟩

theorem skipInteger_digits (ds p : List UInt8) (ok : ∀ d ∈ ds, chr '0' ≤ d ∧ d ≤ chr '9')
    (hp : EndsField p) : skipPrintfInteger (ds ++ p) = p := by
  have hds : ∀ d ∈ ds, isPrintfDigit d = true := fun d hd => by simpa [isPrintfDigit] using ok d hd
  have hskip : skipPrintfInteger (ds ++ p) = skipPrintfInteger p :=
    List.dropWhile_append_of_pos hds
  rw [hskip, hp.skipInteger]

theorem digits_not_star (ds p : List UInt8) (ok : ∀ d ∈ ds, chr '0' ≤ d ∧ d ≤ chr '9')
    (hp : EndsField p) : (ds ++ p).head? ≠ some (chr '*') := by
  cases ds with
  | nil => exact hp.not_star
  | cons d ds =>
    have hd := (ok d (List.mem_cons_self ..)).1
    intro h
    simp only [List.cons_append, List.head?_cons, Option.some.injEq] at h
    rw [h] at hd
    exact absurd hd (by decide)

theorem scanWidth_render (width : FieldInt) (p : List UInt8) (argIndex : ℕ) (hp : EndsField p) :
    scanWidth (skipPrintfFlags (width.render ++ p)) argIndex
      = (p, argIndex + width.isStar.toNat) := by
  cases width with
  | star => rfl
  | digits ds ok =>
    obtain ⟨ds', hskip, hok⟩ := skipFlags_digits ds p ok hp
    simp only [FieldInt.render, FieldInt.isStar, Bool.toNat_false, Nat.add_zero]
    rw [hskip, scanWidth, if_neg (digits_not_star ds' p hok hp), skipInteger_digits ds' p hok hp]

theorem scanPrecision_render (precision : Option FieldInt) (p : List UInt8) (argIndex : ℕ)
    (hp : EndsField p) (hdot : p.head? ≠ some (chr '.')) :
    scanPrecision (renderPrecision precision ++ p) argIndex
      = (p, argIndex + (precision.elim false FieldInt.isStar).toNat,
          precision.elim false FieldInt.isStar) := by
  cases precision with
  | none => simp [scanPrecision, renderPrecision, hdot]
  | some field =>
    cases field with
    | star => rfl
    | digits ds ok =>
      have hstar := digits_not_star ds p ok hp
      simp only [scanPrecision, renderPrecision, FieldInt.render, List.cons_append,
        List.head?_cons, List.tail_cons, if_pos, if_neg hstar, skipInteger_digits ds p ok hp,
        Option.elim_some, FieldInt.isStar, Bool.toNat_false, Nat.add_zero]

theorem conv_not_length {c : UInt8} (h : c ∈ convChars) :
    c ≠ chr 'h' ∧ c ≠ chr 'l' ∧ c ≠ chr 'j' ∧ c ≠ chr 'z' ∧ c ≠ chr 't' ∧ c ≠ chr 'L' := by
  revert c
  decide +kernel

theorem skipLength_render (length : LengthModifier) (conv : UInt8) (p : List UInt8)
    (h : conv ∈ convChars) :
    skipPrintfLength (length.render ++ conv :: p) = conv :: p := by
  obtain ⟨hh, hl, hj, hz, ht, hL⟩ := conv_not_length h
  cases length with
  | none => simp [LengthModifier.render, skipPrintfLength, hh, hl, hj, hz, ht, hL]
  | h => simp [LengthModifier.render, skipPrintfLength, hh]
  | l =>
    have hne : chr 'l' ≠ chr 'h' := by decide
    simp [LengthModifier.render, skipPrintfLength, hl, hne]
  | hh => rfl
  | ll => rfl
  | j => rfl
  | z => rfl
  | t => rfl
  | L => rfl

theorem endsField_length (length : LengthModifier) (conv : UInt8) (p : List UInt8)
    (h : conv ∈ convChars) :
    EndsField (length.render ++ conv :: p) ∧
      (length.render ++ conv :: p).head? ≠ some (chr '.') := by
  have hconv : isPrintfFlag conv = false ∧ isPrintfDigit conv = false ∧ conv ≠ chr '*' ∧
      conv ≠ chr '.' := by
    revert conv
    decide +kernel
  obtain ⟨hflag, hdigit, hstar, hdot⟩ := hconv
  cases length with
  | none => exact ⟨⟨conv, p, rfl, hflag, hdigit, hstar⟩, by simpa [LengthModifier.render]⟩
  | _ => exact ⟨⟨_, _, rfl, by decide, by decide, by decide⟩,
      by simp only [LengthModifier.render, List.cons_append, List.head?_cons]; decide⟩

theorem endsField_precision (precision : Option FieldInt) (p : List UInt8) (hp : EndsField p) :
    EndsField (renderPrecision precision ++ p) := by
  cases precision with
  | none => exact hp
  | some field => exact ⟨_, _, rfl, by decide, by decide, by decide⟩

theorem scanSpec_render (spec : FormatSpec) (p : List UInt8) (argIndex : ℕ) :
    scanSpec (spec.render ++ p) argIndex
      = (spec.conv :: p, argIndex + spec.stars, spec.precisionStar) := by
  obtain ⟨hend, hdot⟩ := endsField_length spec.length spec.conv p spec.conv_ok
  have hflags : ∀ c ∈ spec.flags, isPrintfFlag c = true :=
    fun c hc => isPrintfFlag_of_mem (spec.flags_ok c hc)
  have hprec : spec.precision.elim false FieldInt.isStar = spec.precisionStar := by
    unfold FormatSpec.precisionStar
    cases spec.precision <;> rfl
  have hskip : skipPrintfFlags (spec.render ++ p)
      = skipPrintfFlags (spec.width.render ++ (renderPrecision spec.precision ++
          (spec.length.render ++ spec.conv :: p))) := by
    simp only [FormatSpec.render, List.append_assoc, List.cons_append, List.nil_append]
    exact List.dropWhile_append_of_pos hflags
  simp only [scanSpec, hskip,
    scanWidth_render _ _ _ (endsField_precision spec.precision _ hend),
    scanPrecision_render _ _ _ hend hdot, skipLength_render _ _ _ spec.conv_ok, hprec,
    FormatSpec.stars, Nat.add_assoc]

/-! ### The mask -/

theorem testBit_mark (mask : UInt32) (k i : ℕ) (hk : k < 32) :
    (mask ||| ((1 : UInt32) <<< UInt32.ofNat k)).toNat.testBit i
      = (mask.toNat.testBit i || decide (i = k)) := by
  have hmod : k % 2 ^ 32 % 32 = k := by omega
  have hpow : 2 ^ k < 2 ^ 32 := Nat.pow_lt_pow_right (by omega) hk
  have hshift : ((1 : UInt32) <<< UInt32.ofNat k).toNat = 2 ^ k := by
    rw [UInt32.toNat_shiftLeft, UInt32.toNat_ofNat', hmod]
    simp only [UInt32.toNat_one, Nat.one_shiftLeft]
    exact Nat.mod_eq_of_lt hpow
  rw [UInt32.toNat_or, hshift, Nat.testBit_or, Nat.testBit_two_pow]
  simp only [eq_comm]

theorem percent_not_mem (spec : FormatSpec) : chr '%' ∉ spec.render := by
  have hfield : ∀ field : FieldInt, chr '%' ∉ field.render := by
    intro field
    cases field with
    | star => decide
    | digits ds ok => exact fun h => absurd (ok _ h).1 (by decide)
  have hflags : chr '%' ∉ spec.flags := fun h => absurd (spec.flags_ok _ h) (by decide)
  have hprec : chr '%' ∉ renderPrecision spec.precision := by
    cases spec.precision with
    | none => simp [renderPrecision]
    | some field =>
      have hne : chr '%' ≠ chr '.' := by decide
      simpa [renderPrecision, hne] using hfield field
  have hlength : chr '%' ∉ spec.length.render := by
    cases spec.length <;> decide
  have hconv : chr '%' ≠ spec.conv := fun h => absurd (h ▸ spec.conv_ok) (by decide)
  simp [FormatSpec.render, hflags, hfield, hprec, hlength, hconv]

theorem head_render_append (spec : FormatSpec) (p : List UInt8) :
    (spec.render ++ p).head? ≠ some (chr '%') := by
  cases hr : spec.render with
  | nil => simp [FormatSpec.render] at hr
  | cons c q =>
    have hc : c ≠ chr '%' := fun h => percent_not_mem spec (by rw [hr, h]; exact List.mem_cons_self ..)
    simpa using hc

theorem markLoop_conversion (argCount : ℕ) (spec : FormatSpec) (p : List UInt8) (argIndex : ℕ)
    (mask : UInt32) :
    markLoop argCount ((Piece.conversion spec).render ++ p) argIndex mask
      = markLoop argCount p (argIndex + spec.stars + 1)
          (if spec.conv = chr 's' ∧ spec.precisionStar ∧ argIndex + spec.stars < argCount ∧
              argIndex + spec.stars < maxArgs then
            mask ||| ((1 : UInt32) <<< UInt32.ofNat (argIndex + spec.stars))
          else mask) := by
  simp only [Piece.render, List.cons_append]
  rw [markLoop, if_neg (by simp), if_neg (head_render_append spec p)]
  have hscan := scanSpec_render spec p argIndex
  split
  · next h => simp [hscan] at h
  · next conv rest valueArgIndex star h =>
    simp only [hscan, Prod.mk.injEq, List.cons.injEq] at h
    obtain ⟨⟨rfl, rfl⟩, rfl, rfl⟩ := h
    rfl

/-- The scan of a rendered format adds the string arguments below `argCount`. -/
theorem markLoop_render (argCount : ℕ) (hcount : argCount ≤ 32) (pieces : List Piece) :
    ∀ (argIndex : ℕ) (mask : UInt32) (i : ℕ),
      (markLoop argCount (renderFormat pieces) argIndex mask).toNat.testBit i = true ↔
        mask.toNat.testBit i = true ∨ i < argCount ∧ i ∈ starStringArgs pieces argIndex := by
  induction pieces with
  | nil => intro argIndex mask i; simp [renderFormat, markLoop, starStringArgs]
  | cons piece pieces ih =>
    intro argIndex mask i
    have hrender : renderFormat (piece :: pieces) = piece.render ++ renderFormat pieces := rfl
    rw [hrender]
    cases piece with
    | text c ok =>
      simp only [Piece.render, List.cons_append, List.nil_append, starStringArgs]
      rw [markLoop, if_pos ok.2]
      exact ih argIndex mask i
    | percent =>
      simp only [Piece.render, List.cons_append, List.nil_append, starStringArgs]
      rw [markLoop]
      simp only [ne_eq, not_true_eq_false, if_false, List.head?_cons, if_true, List.tail_cons]
      exact ih argIndex mask i
    | conversion spec =>
      rw [markLoop_conversion, ih]
      simp only [starStringArgs]
      by_cases hs : spec.conv = chr 's' ∧ spec.precisionStar
      · rw [if_pos hs]
        by_cases hlt : argIndex + spec.stars < argCount
        · have hmax : argIndex + spec.stars < maxArgs := by
            unfold maxArgs
            omega
          rw [if_pos ⟨hs.1, hs.2, hlt, hmax⟩, testBit_mark _ _ _ hmax]
          simp only [Bool.or_eq_true, decide_eq_true_eq, List.mem_cons]
          grind
        · rw [if_neg fun h => hlt h.2.2.1]
          simp only [List.mem_cons]
          grind
      · rw [if_neg hs, if_neg fun h => hs ⟨h.1, h.2.1⟩]

/-! ### The substring test in front of the scan -/

/-- The mask has exactly the bits of the arguments that a precision `*` bounds. -/
def MarksExactly (pieces : List Piece) (argCount : ℕ) : Prop :=
  ∀ i, (markPrecisionStringArgs (some (renderFormat pieces)) argCount).toNat.testBit i = true ↔
    i < argCount ∧ i ∈ starStringArgs pieces 0

/-- The scan marks the right arguments exactly when `%.*s` stands in the format
literally or there is no argument to mark: `%-.*s`, `%8.*s`, `%*.*s` and
`%.*ls` alone do not reach it. -/
theorem marks_exactly_iff (pieces : List Piece) (argCount : ℕ) (hcount : argCount ≤ 32) :
    MarksExactly pieces argCount ↔
      [chr '%', chr '.', chr '*', chr 's'] <:+: renderFormat pieces ∨
        ∀ i ∈ starStringArgs pieces 0, argCount ≤ i := by
  unfold MarksExactly markPrecisionStringArgs
  by_cases hzero : argCount = 0
  · have hall : ∀ i ∈ starStringArgs pieces 0, argCount ≤ i := by omega
    simp [hzero]
  · by_cases hsub : [chr '%', chr '.', chr '*', chr 's'] <:+: renderFormat pieces
    · simp only [hzero, hsub, not_true_eq_false, or_self, if_false, true_or, iff_true]
      intro i
      simpa using markLoop_render argCount hcount pieces 0 0 i
    · simp only [hsub, not_false_eq_true, or_true, if_true, false_or, UInt32.toNat_zero,
        Nat.zero_testBit]
      constructor
      · intro h i hi
        by_contra hlt
        exact absurd ((h i).2 ⟨by omega, hi⟩) (by simp)
      · intro h i
        constructor
        · simp
        · intro hi
          have := h i hi.2
          omega

theorem marks_exactly_plain :
    MarksExactly [.conversion ⟨[], .digits [] (by simp), some .star, .none, chr 's', by simp,
      by decide⟩] 2 :=
  (marks_exactly_iff _ 2 (by omega)).2 (.inl (by decide))

/-- `%-.*s`: the string argument 1 has the precision of argument 0, and no bit is set. -/
def leftAligned : List Piece :=
  [.conversion ⟨[chr '-'], .digits [] (by simp), some .star, .none, chr 's', by simp [flagChars],
    by decide⟩]

theorem left_aligned_not_marked :
    renderFormat leftAligned = [chr '%', chr '-', chr '.', chr '*', chr 's'] ∧
      ¬ MarksExactly leftAligned 2 := by
  have hformat : renderFormat leftAligned = [chr '%', chr '-', chr '.', chr '*', chr 's'] := rfl
  have hmask : markPrecisionStringArgs (some (renderFormat leftAligned)) 2 = 0 := by
    rw [hformat]
    decide
  refine ⟨hformat, fun h => ?_⟩
  have hset := (h 1).2 ⟨by omega, by decide⟩
  rw [hmask] at hset
  simp at hset

end On9log
