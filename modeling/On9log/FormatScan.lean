import On9log.Args

/-!
# Scanning a format for `%.*s` (on9log.c:1823-1927)

A position in the format is the list of bytes from there to the NUL, so `[]`
is the position of the NUL itself and every step matches on the bytes it reads.
-/

namespace On9log

def chr (c : Char) : UInt8 := UInt8.ofNat c.toNat

/-- The loop of `on9log_arg_types_have_dynamic_string`, with the rounds left. -/
def haveDynamicStringFrom (argTypes : ArgTypes) (idx : ℕ) : ℕ → Bool
  | 0 => false
  | left + 1 =>
    let argType := argTypeAt argTypes idx
    if argType = ArgsType.none.code then false
    else if argType = ArgsType.dynamicString.code ∨ argType = ArgsType.dynamicStringView.code then
      true
    else haveDynamicStringFrom argTypes (idx + 1) left

def argTypesHaveDynamicString (argTypes : ArgTypes) : Bool := haveDynamicStringFrom argTypes 0 255

def isPrintfFlag (c : UInt8) : Bool :=
  c = chr '-' ∨ c = chr '+' ∨ c = chr ' ' ∨ c = chr '#' ∨ c = chr '0'

def isPrintfDigit (c : UInt8) : Bool := chr '0' ≤ c ∧ c ≤ chr '9'

def skipPrintfFlags (p : List UInt8) : List UInt8 := p.dropWhile isPrintfFlag

def skipPrintfInteger (p : List UInt8) : List UInt8 := p.dropWhile isPrintfDigit

def skipPrintfLength : List UInt8 → List UInt8
  | [] => []
  | c :: p =>
    if c = chr 'h' then if p.head? = some (chr 'h') then p.tail else p
    else if c = chr 'l' then if p.head? = some (chr 'l') then p.tail else p
    else if c = chr 'j' ∨ c = chr 'z' ∨ c = chr 't' ∨ c = chr 'L' then p
    else c :: p

/-- Width: `*` takes an argument, digits do not. -/
def scanWidth (p : List UInt8) (argIndex : ℕ) : List UInt8 × ℕ :=
  if p.head? = some (chr '*') then (p.tail, argIndex + 1) else (skipPrintfInteger p, argIndex)

/-- Precision, and whether it is `*`. -/
def scanPrecision (p : List UInt8) (argIndex : ℕ) : List UInt8 × ℕ × Bool :=
  if p.head? = some (chr '.') then
    if p.tail.head? = some (chr '*') then (p.tail.tail, argIndex + 1, true)
    else (skipPrintfInteger p.tail, argIndex, false)
  else (p, argIndex, false)

/-- From behind a `%` to the conversion character. -/
def scanSpec (p : List UInt8) (argIndex : ℕ) : List UInt8 × ℕ × Bool :=
  let (p, argIndex) := scanWidth (skipPrintfFlags p) argIndex
  let (p, argIndex, precisionStar) := scanPrecision p argIndex
  (skipPrintfLength p, argIndex, precisionStar)

theorem length_scanSpec_le (p : List UInt8) (argIndex : ℕ) :
    (scanSpec p argIndex).1.length ≤ p.length := by
  have hdrop : ∀ (f : UInt8 → Bool) (q : List UInt8), (q.dropWhile f).length ≤ q.length :=
    fun f q => (List.dropWhile_suffix f).length_le
  have hlen : ∀ q : List UInt8, (skipPrintfLength q).length ≤ q.length := by
    intro q
    unfold skipPrintfLength
    split
    · simp
    · repeat' split
      all_goals simp
      all_goals omega
  have hwidth : ∀ q n, (scanWidth q n).1.length ≤ q.length := by
    intro q n
    have h := hdrop isPrintfDigit q
    unfold scanWidth skipPrintfInteger
    split <;> simp_all
  have hprec : ∀ q n, (scanPrecision q n).1.length ≤ q.length := by
    intro q n
    have h := hdrop isPrintfDigit q.tail
    rw [List.length_tail] at h
    unfold scanPrecision skipPrintfInteger
    repeat' split
    all_goals simp_all
    all_goals omega
  calc (scanSpec p argIndex).1.length
      ≤ (scanPrecision (scanWidth (skipPrintfFlags p) argIndex).1
          (scanWidth (skipPrintfFlags p) argIndex).2).1.length := hlen _
    _ ≤ (scanWidth (skipPrintfFlags p) argIndex).1.length := hprec _ _
    _ ≤ (skipPrintfFlags p).length := hwidth _ _
    _ ≤ p.length := hdrop _ p

/-- The loop of `on9log_mark_precision_string_args`. -/
def markLoop (argCount : ℕ) : List UInt8 → ℕ → UInt32 → UInt32
  | [], _, mask => mask
  | c :: p, argIndex, mask =>
    if c ≠ chr '%' then markLoop argCount p argIndex mask
    else if p.head? = some (chr '%') then markLoop argCount p.tail argIndex mask
    else
      match _h : scanSpec p argIndex with
      | ([], _, _) => mask
      | (conv :: rest, valueArgIndex, precisionStar) =>
        markLoop argCount rest (valueArgIndex + 1)
          (if conv = chr 's' ∧ precisionStar ∧ valueArgIndex < argCount ∧ valueArgIndex < maxArgs then
            mask ||| ((1 : UInt32) <<< UInt32.ofNat valueArgIndex)
          else mask)
termination_by p => p.length
decreasing_by
  · simp
  · simp
  · have hl := length_scanSpec_le p argIndex
    rw [_h] at hl
    simp at hl ⊢
    omega

def markPrecisionStringArgs (format : Option (List UInt8)) (argCount : ℕ) : UInt32 :=
  match format with
  | none => 0
  | some format =>
    if argCount = 0 ∨ ¬ [chr '%', chr '.', chr '*', chr 's'] <:+: format then 0
    else markLoop argCount format 0 0

end On9log
