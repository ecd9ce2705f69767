import On9log.Lib.Cursor
import On9log.FormatRoute

/-!
# The format scanners as pointers (on9log.c:1838-1917, on9log.hpp:574-663)

The scanners of FormatScan and FormatRoute match on what is left of a format. Here they
move a pointer and read through it: a scan fails if it reads behind the NUL, or if it still
runs when its fuel is used up. Neither happens, and the answers are the same.
-/

namespace On9log
open Lib.Cursor

variable {s : Text} {fuel p : ℕ} {rest : Text}

/-! ### on9log.c -/

def skipPrintfIntegerAt (s : Text) (fuel p : ℕ) : Option ℕ := skipWhile 0 s isPrintfDigit fuel p

/-- `on9log_skip_printf_length`, and the same steps in `has_printf_conversion`. -/
def skipPrintfLengthAt (s : Text) (p : ℕ) : Option ℕ := do
  let c ← readAt 0 s p
  if c = chr 'h' then do
    let d ← readAt 0 s (p + 1)
    if d = chr 'h' then pure (p + 2) else pure (p + 1)
  else if c = chr 'l' then do
    let d ← readAt 0 s (p + 1)
    if d = chr 'l' then pure (p + 2) else pure (p + 1)
  else if c = chr 'j' ∨ c = chr 'z' ∨ c = chr 't' ∨ c = chr 'L' then pure (p + 1)
  else pure p

/-- A `*`, whether it was there, or else digits. -/
def starOrDigitsAt (s : Text) (fuel p : ℕ) : Option (ℕ × Bool) := do
  let c ← readAt 0 s p
  if c = chr '*' then pure (p + 1, true)
  else do
    let p ← skipPrintfIntegerAt s fuel p
    pure (p, false)

/-- Behind a `.`, and whether a `*` stood there. -/
def precisionAt (s : Text) (fuel p : ℕ) : Option (ℕ × Bool) := do
  let c ← readAt 0 s p
  if c = chr '.' then starOrDigitsAt s fuel (p + 1) else pure (p, false)

/-- From behind a `%` to the conversion character, and whether width and precision are `*`. -/
def specificationAt (s : Text) (isFlag : UInt8 → Bool) (fuel p : ℕ) : Option (ℕ × Bool × Bool) := do
  let p ← skipWhile 0 s isFlag fuel p
  let (p, widthStar) ← starOrDigitsAt s fuel p
  let (p, precisionStar) ← precisionAt s fuel p
  let p ← skipPrintfLengthAt s p
  pure (p, widthStar, precisionStar)

/-- The loop of `on9log_mark_precision_string_args`. -/
def markLoopAt (s : Text) (argCount : ℕ) : ℕ → ℕ → ℕ → UInt32 → Option UInt32
  | 0, _, _, _ => none
  | fuel + 1, p, argIndex, mask => do
    let c ← readAt 0 s p
    if c = 0 then pure mask
    else if c ≠ chr '%' then markLoopAt s argCount fuel (p + 1) argIndex mask
    else do
      let d ← readAt 0 s (p + 1)
      if d = chr '%' then markLoopAt s argCount fuel (p + 2) argIndex mask
      else do
        let (p, widthStar, precisionStar) ← specificationAt s isPrintfFlag fuel (p + 1)
        let conv ← readAt 0 s p
        let valueArgIndex := argIndex + widthStar.toNat + precisionStar.toNat
        if conv = 0 then pure mask
        else
          markLoopAt s argCount fuel (p + 1) (valueArgIndex + 1)
            (if conv = chr 's' ∧ precisionStar ∧ valueArgIndex < argCount ∧
                valueArgIndex < maxArgs then
              mask ||| ((1 : UInt32) <<< UInt32.ofNat valueArgIndex)
            else mask)

/-- `on9log_mark_precision_string_args`; `strstr` is the library's. -/
def markPrecisionStringArgsAt (fuel : ℕ) (format : Option CStr) (argCount : ℕ) : Option UInt32 :=
  match format with
  | none => some 0
  | some s =>
    if argCount = 0 ∨ ¬ [chr '%', chr '.', chr '*', chr 's'] <:+: s.bytes then some 0
    else markLoopAt s.bytes argCount fuel 0 0 0

/-! ### on9log.hpp -/

/-- The loop of `has_fmt_replacement`. -/
def hasReplacementAt (s : Text) : ℕ → ℕ → Option Bool
  | 0, _ => none
  | fuel + 1, p => do
    let c ← readAt 0 s p
    if c = 0 then pure false
    else if c ≠ chr '{' then hasReplacementAt s fuel (p + 1)
    else do
      let next ← readAt 0 s (p + 1)
      if next = chr '{' then hasReplacementAt s fuel (p + 2)
      else if opensField next then pure true
      else hasReplacementAt s fuel (p + 1)

def hasFmtReplacementAt (fuel : ℕ) : Option CStr → Option Bool
  | none => some false
  | some format => hasReplacementAt format.bytes fuel 0

/-- The loop of `has_printf_conversion`. -/
def hasConversionAt (s : Text) : ℕ → ℕ → Option Bool
  | 0, _ => none
  | fuel + 1, p => do
    let c ← readAt 0 s p
    if c = 0 then pure false
    else if c ≠ chr '%' then hasConversionAt s fuel (p + 1)
    else do
      let d ← readAt 0 s (p + 1)
      if d = chr '%' then pure true
      else do
        let (p, _) ← specificationAt s isConversionFlag fuel (p + 1)
        let conv ← readAt 0 s p
        if isConversion conv then pure true
        else if conv = 0 then pure false
        else hasConversionAt s fuel (p + 1)

def hasPrintfConversionAt (fuel : ℕ) : Option CStr → Option Bool
  | none => some false
  | some format => hasConversionAt format.bytes fuel 0

/-! ### The parts of a conversion specification -/

/-- The NUL is none of the characters a scanner looks for. -/
theorem headD_eq_iff {c : UInt8} (hc : c ≠ 0) (rest : Text) :
    rest.headD 0 = c ↔ rest.head? = some c := by
  cases rest with
  | nil => simp [hc.symm]
  | cons d rest => simp

theorem skipPrintfLengthAt_reaches (h : At s p rest) :
    Reaches s (skipPrintfLengthAt s p) (skipPrintfLength rest) := by
  unfold skipPrintfLengthAt skipPrintfLength
  rw [h.read 0, Option.bind_eq_bind, Option.bind_some]
  cases rest with
  | nil => exact h.reaches
  | cons c rest =>
    have htwo : ∀ d : UInt8, d ≠ 0 → Reaches s
        ((readAt 0 s (p + 1)) >>= fun e => if e = d then pure (p + 2) else pure (p + 1))
        (if rest.head? = some d then rest.tail else rest) := by
      intro d hd
      rw [h.next.read 0, Option.bind_eq_bind, Option.bind_some]
      by_cases hhead : rest.headD 0 = d
      · rw [if_pos hhead, if_pos ((headD_eq_iff hd rest).mp hhead)]
        cases rest with
        | nil => exact absurd hhead.symm hd
        | cons e rest => exact h.next.next.reaches
      · rw [if_neg hhead, if_neg (fun he => hhead ((headD_eq_iff hd rest).mpr he))]
        exact h.next.reaches
    rw [List.headD_cons]
    dsimp only
    split
    · exact htwo _ (by decide)
    · split
      · exact htwo _ (by decide)
      · split
        · exact h.next.reaches
        · exact h.reaches

theorem starOrDigitsAt_eq (h : At s p rest) (hfuel : rest.length < fuel) :
    ∃ q, starOrDigitsAt s fuel p = some (q, decide (rest.head? = some (chr '*'))) ∧
      At s q (skipStarOrDigits rest) := by
  unfold starOrDigitsAt skipStarOrDigits
  rw [h.read 0, Option.bind_eq_bind, Option.bind_some]
  by_cases hstar : rest.headD 0 = chr '*'
  · have hhead := (headD_eq_iff (by decide) rest).mp hstar
    rw [if_pos hstar, if_pos hhead, decide_eq_true hhead]
    cases rest with
    | nil => cases hhead
    | cons c rest => exact ⟨p + 1, rfl, h.next⟩
  · have hhead : rest.head? ≠ some (chr '*') :=
      fun he => hstar ((headD_eq_iff (by decide) rest).mpr he)
    obtain ⟨q, hq, hat⟩ := h.skipWhile (f := isPrintfDigit) (z := 0) (by decide) hfuel
    rw [if_neg hstar, if_neg hhead, decide_eq_false hhead, skipPrintfIntegerAt, hq]
    exact ⟨q, rfl, hat⟩

/-- Behind a precision, if there is one. -/
def skipPrecision (p : Text) : Text :=
  if p.head? = some (chr '.') then skipStarOrDigits p.tail else p

def precisionIsStar (p : Text) : Bool :=
  p.head? = some (chr '.') ∧ p.tail.head? = some (chr '*')

theorem precisionAt_eq (h : At s p rest) (hfuel : rest.length < fuel) :
    ∃ q, precisionAt s fuel p = some (q, precisionIsStar rest) ∧ At s q (skipPrecision rest) := by
  unfold precisionAt skipPrecision precisionIsStar
  rw [h.read 0, Option.bind_eq_bind, Option.bind_some]
  by_cases hdot : rest.headD 0 = chr '.'
  · have hhead := (headD_eq_iff (by decide) rest).mp hdot
    rw [if_pos hdot, if_pos hhead]
    cases rest with
    | nil => cases hhead
    | cons c rest =>
      rw [List.length_cons] at hfuel
      obtain ⟨q, hq, hat⟩ := starOrDigitsAt_eq h.next (by omega : rest.length < fuel)
      refine ⟨q, ?_, hat⟩
      rw [hq, List.tail_cons]
      simp only [hhead, true_and]
  · have hhead : rest.head? ≠ some (chr '.') :=
      fun he => hdot ((headD_eq_iff (by decide) rest).mpr he)
    rw [if_neg hdot, if_neg hhead]
    refine ⟨p, ?_, h⟩
    simp only [hhead, false_and, decide_false]
    rfl

theorem length_skipStarOrDigits_le (p : Text) : (skipStarOrDigits p).length ≤ p.length := by
  unfold skipStarOrDigits skipPrintfInteger
  split
  · rw [List.length_tail]
    omega
  · exact (List.dropWhile_suffix _).length_le

theorem length_skipPrecision_le (p : Text) : (skipPrecision p).length ≤ p.length := by
  unfold skipPrecision
  split
  · have h := length_skipStarOrDigits_le p.tail
    rw [List.length_tail] at h
    omega
  · exact Nat.le_refl _

/-- What stands behind the `%` from the conversion character on. -/
def skipSpecification (isFlag : UInt8 → Bool) (p : Text) : Text :=
  skipPrintfLength (skipPrecision (skipStarOrDigits (p.dropWhile isFlag)))

theorem specificationAt_eq (isFlag : UInt8 → Bool) (hflag : isFlag 0 = false) (h : At s p rest)
    (hfuel : rest.length < fuel) :
    ∃ q, specificationAt s isFlag fuel p =
        some (q, decide ((rest.dropWhile isFlag).head? = some (chr '*')),
          precisionIsStar (skipStarOrDigits (rest.dropWhile isFlag))) ∧
      At s q (skipSpecification isFlag rest) := by
  have hflags : (rest.dropWhile isFlag).length ≤ rest.length :=
    (List.dropWhile_suffix _).length_le
  have hwidth := length_skipStarOrDigits_le (rest.dropWhile isFlag)
  obtain ⟨p₁, hp₁, hat₁⟩ := h.skipWhile hflag hfuel
  obtain ⟨p₂, hp₂, hat₂⟩ := starOrDigitsAt_eq hat₁ (by omega : _ < fuel)
  obtain ⟨p₃, hp₃, hat₃⟩ := precisionAt_eq hat₂ (by omega : _ < fuel)
  obtain ⟨p₄, hp₄, hat₄⟩ := skipPrintfLengthAt_reaches hat₃
  refine ⟨p₄, ?_, hat₄⟩
  simp only [specificationAt, hp₁, hp₂, hp₃, hp₄, Option.bind_eq_bind, Option.bind_some]
  rfl

/-- The scanner of on9log.c on lists has the same parts. -/
theorem scanSpec_eq (p : Text) (argIndex : ℕ) :
    scanSpec p argIndex =
      (skipSpecification isPrintfFlag p,
        argIndex + (decide ((p.dropWhile isPrintfFlag).head? = some (chr '*'))).toNat +
          (precisionIsStar (skipStarOrDigits (p.dropWhile isPrintfFlag))).toNat,
        precisionIsStar (skipStarOrDigits (p.dropWhile isPrintfFlag))) := by
  have hwidth : ∀ (q : Text) (n : ℕ), scanWidth q n =
      (skipStarOrDigits q, n + (decide (q.head? = some (chr '*'))).toNat) := by
    intro q n
    unfold scanWidth skipStarOrDigits
    split <;> simp_all
  have hprecision : ∀ (q : Text) (n : ℕ), scanPrecision q n =
      (skipPrecision q, n + (precisionIsStar q).toNat, precisionIsStar q) := by
    intro q n
    unfold scanPrecision skipPrecision precisionIsStar skipStarOrDigits
    split
    · split <;> simp_all
    · simp_all
  unfold scanSpec skipSpecification
  simp only [hwidth, hprecision]
  rfl

/-! ### The loops -/

theorem length_skipSpecification_le (isFlag : UInt8 → Bool) (p : Text) :
    (skipSpecification isFlag p).length ≤ p.length := by
  have hflags : (p.dropWhile isFlag).length ≤ p.length := (List.dropWhile_suffix _).length_le
  have hwidth := length_skipStarOrDigits_le (p.dropWhile isFlag)
  have hprecision := length_skipPrecision_le (skipStarOrDigits (p.dropWhile isFlag))
  have hlength : ∀ q : Text, (skipPrintfLength q).length ≤ q.length := by
    intro q
    unfold skipPrintfLength
    cases q with
    | nil => exact Nat.le_refl 0
    | cons c q =>
      dsimp only
      repeat' split
      all_goals simp only [List.length_cons, List.length_tail]
      all_goals omega
  have hlast := hlength (skipPrecision (skipStarOrDigits (p.dropWhile isFlag)))
  unfold skipSpecification
  omega

theorem At.ne_zero {c : UInt8} (hs : 0 ∉ s) (h : At s p (c :: rest)) : c ≠ 0 := fun he =>
  hs (he ▸ h.mem)

/-- A turn of the loop on lists at a conversion specification. -/
theorem markLoop_specification (argCount : ℕ) {rest : Text}
    (hhead : rest.head? ≠ some (chr '%')) (argIndex : ℕ) (mask : UInt32) :
    markLoop argCount (chr '%' :: rest) argIndex mask =
      match skipSpecification isPrintfFlag rest with
      | [] => mask
      | conv :: rest' =>
        markLoop argCount rest' ((scanSpec rest argIndex).2.1 + 1)
          (if conv = chr 's' ∧ (scanSpec rest argIndex).2.2 ∧
              (scanSpec rest argIndex).2.1 < argCount ∧
              (scanSpec rest argIndex).2.1 < maxArgs then
            mask ||| ((1 : UInt32) <<< UInt32.ofNat (scanSpec rest argIndex).2.1)
          else mask) := by
  have hscan : (scanSpec rest argIndex).1 = skipSpecification isPrintfFlag rest := by
    rw [scanSpec_eq]
  rw [markLoop, if_neg (by simp), if_neg hhead, ← hscan]
  split
  · rename_i heq
    rw [heq]
  · rename_i heq
    rw [heq]

theorem markLoopAt_eq (hs : 0 ∉ s) (argCount : ℕ) {argIndex : ℕ} {mask : UInt32}
    (h : At s p rest) (hfuel : rest.length < fuel) :
    markLoopAt s argCount fuel p argIndex mask = some (markLoop argCount rest argIndex mask) := by
  induction fuel generalizing p rest argIndex mask with
  | zero => exact absurd hfuel (Nat.not_lt_zero _)
  | succ fuel ih =>
    unfold markLoopAt
    rw [h.read 0, Option.bind_eq_bind, Option.bind_some]
    cases rest with
    | nil =>
      rw [List.headD_nil, if_pos rfl, markLoop]
      rfl
    | cons c rest =>
      rw [List.length_cons] at hfuel
      rw [List.headD_cons, if_neg (At.ne_zero hs h)]
      by_cases hc : c ≠ chr '%'
      · rw [if_pos hc, markLoop, if_pos hc]
        exact ih h.next (by omega)
      rw [if_neg hc, h.next.read 0, Option.bind_eq_bind, Option.bind_some]
      by_cases hd : rest.headD 0 = chr '%'
      · have hhead := (headD_eq_iff (by decide) rest).mp hd
        rw [if_pos hd, markLoop, if_neg hc, if_pos hhead]
        cases rest with
        | nil => cases hhead
        | cons d rest =>
          rw [List.length_cons] at hfuel
          rw [List.tail_cons]
          exact ih h.next.next (by omega)
      · have hhead : rest.head? ≠ some (chr '%') :=
          fun he => hd ((headD_eq_iff (by decide) rest).mpr he)
        obtain ⟨q, hq, hat⟩ := specificationAt_eq isPrintfFlag (by decide) h.next
          (by omega : rest.length < fuel)
        have hle := length_skipSpecification_le isPrintfFlag rest
        rw [if_neg hd, hq, not_not.mp hc, markLoop_specification argCount hhead, scanSpec_eq]
        simp only [Option.bind_some, hat.read 0]
        cases hrest : skipSpecification isPrintfFlag rest with
        | nil => rfl
        | cons conv rest' =>
          rw [hrest] at hat hle
          rw [List.length_cons] at hle
          dsimp only
          rw [List.headD_cons, if_neg (At.ne_zero hs hat)]
          exact ih hat.next (by omega)

theorem hasReplacementAt_eq (hs : 0 ∉ s) (h : At s p rest) (hfuel : rest.length < fuel) :
    hasReplacementAt s fuel p = some (hasReplacementFrom rest) := by
  induction fuel generalizing p rest with
  | zero => exact absurd hfuel (Nat.not_lt_zero _)
  | succ fuel ih =>
    unfold hasReplacementAt
    rw [h.read 0, Option.bind_eq_bind, Option.bind_some]
    cases rest with
    | nil =>
      rw [List.headD_nil, if_pos rfl]
      rfl
    | cons c rest =>
      rw [List.length_cons] at hfuel
      rw [List.headD_cons, if_neg (At.ne_zero hs h)]
      by_cases hc : c ≠ chr '{'
      · rw [if_pos hc, hasReplacementFrom_skip hc]
        exact ih h.next (by omega)
      rw [if_neg hc, h.next.read 0, Option.bind_some]
      cases rest with
      | nil =>
        -- an opening brace at the end: the NUL opens nothing
        have hnext := ih h.next (Nat.lt_of_succ_lt_succ hfuel)
        rw [List.headD_nil, if_neg (by decide), if_neg (by decide), hnext]
        rfl
      | cons next rest =>
        rw [List.length_cons] at hfuel
        rw [List.headD_cons, hasReplacementFrom, if_neg hc]
        by_cases hbrace : next = chr '{'
        · rw [if_pos hbrace, if_pos hbrace]
          exact ih h.next.next (by omega)
        rw [if_neg hbrace, if_neg hbrace]
        by_cases hopens : opensField next = true
        · rw [if_pos hopens, if_pos hopens]
          rfl
        · rw [if_neg hopens, if_neg hopens]
          exact ih h.next (by rw [List.length_cons]; omega)

theorem conversionAt_eq (p : Text) : conversionAt p = skipSpecification isConversionFlag p := rfl

theorem hasConversionAt_eq (hs : 0 ∉ s) {turns : ℕ} (h : At s p rest) (hfuel : rest.length < fuel)
    (hturns : rest.length ≤ turns) :
    hasConversionAt s fuel p = some (hasConversionFrom turns rest) := by
  induction fuel generalizing p rest turns with
  | zero => exact absurd hfuel (Nat.not_lt_zero _)
  | succ fuel ih =>
    unfold hasConversionAt
    rw [h.read 0, Option.bind_eq_bind, Option.bind_some]
    cases rest with
    | nil =>
      rw [List.headD_nil, if_pos rfl]
      cases turns <;> rfl
    | cons c rest =>
      rw [List.length_cons] at hfuel hturns
      obtain ⟨turns, rfl⟩ := Nat.exists_eq_succ_of_ne_zero (by omega : turns ≠ 0)
      rw [List.headD_cons, if_neg (At.ne_zero hs h), hasConversionFrom]
      by_cases hc : c ≠ chr '%'
      · rw [if_pos hc, if_pos hc]
        exact ih h.next (by omega) (by omega)
      rw [if_neg hc, if_neg hc, h.next.read 0, Option.bind_eq_bind, Option.bind_some]
      by_cases hd : rest.headD 0 = chr '%'
      · rw [if_pos hd, if_pos ((headD_eq_iff (by decide) rest).mp hd)]
        rfl
      · have hhead : rest.head? ≠ some (chr '%') :=
          fun he => hd ((headD_eq_iff (by decide) rest).mpr he)
        obtain ⟨q, hq, hat⟩ := specificationAt_eq isConversionFlag (by decide) h.next
          (by omega : rest.length < fuel)
        have hle := length_skipSpecification_le isConversionFlag rest
        rw [if_neg hd, if_neg hhead, hq, conversionAt_eq]
        simp only [Option.bind_some, hat.read 0]
        cases hrest : skipSpecification isConversionFlag rest with
        | nil => rfl
        | cons conv rest' =>
          rw [hrest] at hat hle
          rw [List.length_cons] at hle
          dsimp only
          rw [List.headD_cons]
          by_cases hconv : isConversion conv = true
          · rw [if_pos hconv, if_pos hconv]
            rfl
          · rw [if_neg hconv, if_neg hconv, if_neg (At.ne_zero hs hat)]
            exact ih hat.next (by omega) (by omega)

/-- Each scanner ends and reads nothing behind the NUL of any format, and answers what the
scanner on lists does; one turn of a loop for each byte and one for the NUL is enough. -/
theorem scanners_stay_inside (format : CStr) (argCount extra : ℕ) :
    markPrecisionStringArgsAt (format.bytes.length + 1 + extra) (some format) argCount =
        some (markPrecisionStringArgs (some format.bytes) argCount) ∧
      hasFmtReplacementAt (format.bytes.length + 1 + extra) (some format) =
        some (hasFmtReplacement (some format)) ∧
      hasPrintfConversionAt (format.bytes.length + 1 + extra) (some format) =
        some (hasPrintfConversion (some format)) := by
  have hs := format.nonzero
  have hstart := at_start format.bytes
  have hfuel : format.bytes.length < format.bytes.length + 1 + extra := by omega
  refine ⟨?_, hasReplacementAt_eq hs hstart hfuel,
    hasConversionAt_eq hs hstart hfuel (Nat.le_refl _)⟩
  unfold markPrecisionStringArgsAt markPrecisionStringArgs
  dsimp only
  split
  · rfl
  · exact markLoopAt_eq hs argCount hstart hfuel

end On9log
