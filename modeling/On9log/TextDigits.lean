import Mathlib.Data.Nat.Digits.Defs
import On9log.Lib.LocalArray
import On9log.TextLine

/-!
# Decimal numbers in a line (on9log.c:424-456)

Both digit loops fill a local array of ten characters, whatever it held before,
and hand the front of it to the output. They never leave the array, and give
what `textU32` and `textPadded` say.
-/

namespace On9log
open Lib

/-! ### The loops -/

/-- `char digits[10]`. -/
def digitsSize : ℕ := 10

/-- The `do` loop of `on9log_text_output_u32`: the array and its length after it. -/
def outputDigits (digits : List UInt8) (len value : ℕ) : Option (List UInt8 × ℕ) :=
  match storeAt digits len (textDigit value) with
  | none => none
  | some digits =>
    if value / 10 ≠ 0 then outputDigits digits (len + 1) (value / 10)
    else some (digits, len + 1)
termination_by value
decreasing_by omega

/-- `on9log_text_output_u32`: what it hands to the output. -/
def outputU32 (digits : List UInt8) (value : UInt32) : Option Text := do
  let (digits, len) ← outputDigits digits 0 value.toNat
  let digits ← swapEnds digits 0 (len - 1)
  some (digits.take len)

/-- The loop of `on9log_text_output_padded`, from the last digit to the first. -/
def padDigits (digits : List UInt8) (value : ℕ) : ℕ → Option (List UInt8)
  | 0 => some digits
  | i + 1 =>
    match storeAt digits i (textDigit value) with
    | none => none
    | some digits => padDigits digits (value / 10) i

/-- `on9log_text_output_padded`. -/
def outputPadded (digits : List UInt8) (value : UInt32) (width : ℕ) : Option Text := do
  let digits ← padDigits digits value.toNat width
  some (digits.take width)

theorem outputDigits_eq {n : ℕ} {digits : List UInt8} {len value : ℕ} (hv : value < 10 ^ (n + 1))
    (hroom : len + (n + 1) ≤ digits.length) :
    ∃ digits' len', outputDigits digits len value = some (digits', len') ∧
      digits'.length = digits.length ∧ len' ≤ len + (n + 1) ∧
      digits'.take len' = digits.take len ++ digitsReversed (n + 1) value := by
  induction n generalizing digits len value with
  | zero =>
    have hlt : len < digits.length := by omega
    have hlast : value / 10 = 0 := by omega
    refine ⟨digits.set len (textDigit value), len + 1, ?_, List.length_set .., by omega, ?_⟩
    · rw [outputDigits, storeAt_eq hlt]
      simp [hlast]
    · rw [take_set_self hlt, digitsReversed, if_neg (by simp [hlast])]
  | succ n ih =>
    have hlt : len < digits.length := by omega
    have hset := take_set_self hlt (textDigit value)
    by_cases hmore : value / 10 ≠ 0
    · have hv' : value / 10 < 10 ^ (n + 1) := by
        rw [Nat.pow_succ] at hv
        exact Nat.div_lt_of_lt_mul (by omega)
      have hroom' : len + 1 + (n + 1) ≤ (digits.set len (textDigit value)).length := by
        rw [List.length_set]
        omega
      obtain ⟨digits', len', hrun, hlen, hle, htake⟩ := ih hv' hroom'
      refine ⟨digits', len', ?_, ?_, by omega, ?_⟩
      · rw [outputDigits, storeAt_eq hlt]
        simp only [if_pos hmore, hrun]
      · rw [hlen, List.length_set]
      · have hdigits : digitsReversed (n + 1 + 1) value =
            textDigit value :: digitsReversed (n + 1) (value / 10) := by
          rw [digitsReversed, if_pos hmore]
        rw [htake, hset, hdigits, List.append_assoc, List.singleton_append]
    · refine ⟨digits.set len (textDigit value), len + 1, ?_, List.length_set .., by omega, ?_⟩
      · rw [outputDigits, storeAt_eq hlt]
        simp only [if_neg hmore]
      · rw [hset, digitsReversed, if_neg hmore]

/-- Ten digits are room enough for 32 bits, and the exchanges turn them round. -/
theorem outputU32_eq {digits : List UInt8} (hsize : digits.length = digitsSize) (value : UInt32) :
    outputU32 digits value = some (textU32 value.toNat) := by
  have hv : value.toNat < 10 ^ (9 + 1) := by
    have hlt := value.toNat_lt
    omega
  have hroom : 0 + (9 + 1) ≤ digits.length := by
    rw [hsize]
    decide
  obtain ⟨digits', len', hrun, hlen, hle, htake⟩ := outputDigits_eq hv hroom
  have hle' : len' ≤ digits'.length := by omega
  rw [List.take_zero, List.nil_append] at htake
  rw [outputU32, hrun]
  simp only [Option.bind_eq_bind, Option.bind_some, swapEnds_prefix hle']
  have hlen' : (digits'.take len').reverse.length = len' := by
    rw [List.length_reverse, List.length_take_of_le hle']
  rw [List.take_left' hlen', htake]
  rfl

theorem padDigits_eq {digits : List UInt8} (value : ℕ) {width : ℕ} (h : width ≤ digits.length) :
    ∃ digits', padDigits digits value width = some digits' ∧ digits'.length = digits.length ∧
      digits'.take width = textPadded value width ∧ digits'.drop width = digits.drop width := by
  induction width generalizing digits value with
  | zero => exact ⟨digits, rfl, rfl, rfl, rfl⟩
  | succ i ih =>
    have hlt : i < digits.length := by omega
    have hle : i ≤ (digits.set i (textDigit value)).length := by
      rw [List.length_set]
      omega
    obtain ⟨digits', hrun, hlen, htake, hdrop⟩ := @ih _ (value / 10) hle
    rw [List.length_set] at hlen
    rw [drop_set_self hlt] at hdrop
    have hsplit : digits'.take (i + 1) = digits'.take i ++ (digits'.drop i).take 1 := List.take_add
    refine ⟨digits', ?_, hlen, ?_, ?_⟩
    · rw [padDigits, storeAt_eq hlt]
      exact hrun
    · rw [hsplit, htake, hdrop]
      rfl
    · rw [← List.drop_drop, hdrop]
      rfl

theorem outputPadded_eq {digits : List UInt8} (hsize : digits.length = digitsSize) (value : UInt32)
    {width : ℕ} (hw : width ≤ digitsSize) :
    outputPadded digits value width = some (textPadded value.toNat width) := by
  rw [← hsize] at hw
  obtain ⟨digits', hrun, -, htake, -⟩ := padDigits_eq value.toNat hw
  rw [outputPadded, hrun, ← htake]
  rfl

/-! ### The number a text stands for -/

def IsDigits (text : Text) : Prop := ∀ c ∈ text, chr '0' ≤ c ∧ c ≤ chr '9'

def digitValue (c : UInt8) : ℕ := c.toNat - 48

/-- Most significant digit first. -/
def decimalValue (text : Text) : ℕ := Nat.ofDigits 10 (text.reverse.map digitValue)

theorem digitValue_textDigit (value : ℕ) : digitValue (textDigit value) = value % 10 := by
  unfold digitValue textDigit
  rw [UInt8.toNat_ofNat']
  omega

theorem isDigit_textDigit (value : ℕ) : chr '0' ≤ textDigit value ∧ textDigit value ≤ chr '9' := by
  have hval : (textDigit value).toNat = 48 + value % 10 := by
    unfold textDigit
    rw [UInt8.toNat_ofNat']
    omega
  have h0 : (chr '0').toNat = 48 := rfl
  have h9 : (chr '9').toNat = 57 := rfl
  rw [UInt8.le_iff_toNat_le, UInt8.le_iff_toNat_le]
  omega

theorem textDigit_eq_zero {value : ℕ} : textDigit value = chr '0' ↔ value % 10 = 0 := by
  constructor
  · intro h
    rw [← digitValue_textDigit, h]
    rfl
  · intro h
    unfold textDigit
    rw [h]
    rfl

theorem isDigits_digitsReversed (n value : ℕ) : IsDigits (digitsReversed n value) := by
  induction n generalizing value with
  | zero =>
    intro c hc
    cases hc
  | succ n ih =>
    intro c hc
    rcases List.mem_cons.mp hc with rfl | hc
    · exact isDigit_textDigit value
    · split at hc
      · exact ih _ c hc
      · cases hc

theorem ofDigits_digitsReversed {n value : ℕ} (h : value < 10 ^ n) :
    Nat.ofDigits 10 ((digitsReversed n value).map digitValue) = value := by
  induction n generalizing value with
  | zero =>
    have h0 : value = 0 := by omega
    rw [h0]
    rfl
  | succ n ih =>
    have hdiv : value / 10 < 10 ^ n := by
      rw [Nat.pow_succ] at h
      exact Nat.div_lt_of_lt_mul (by omega)
    rw [digitsReversed, List.map_cons, Nat.ofDigits_cons, digitValue_textDigit]
    split
    · rw [ih hdiv]
      omega
    · rw [List.map_nil, Nat.ofDigits_nil]
      omega

/-- The digit written last is not a zero. -/
theorem getLast_digitsReversed {n value : ℕ} (h : value < 10 ^ n) (hv : value ≠ 0) :
    (digitsReversed n value).getLast? ≠ some (chr '0') := by
  induction n generalizing value with
  | zero => omega
  | succ n ih =>
    have hdiv : value / 10 < 10 ^ n := by
      rw [Nat.pow_succ] at h
      exact Nat.div_lt_of_lt_mul (by omega)
    rw [digitsReversed]
    by_cases hmore : value / 10 ≠ 0
    · have hlast := ih hdiv hmore
      rw [if_pos hmore]
      cases hrest : digitsReversed n (value / 10) with
      | nil =>
        have hval := ofDigits_digitsReversed hdiv
        rw [hrest] at hval
        exact absurd hval.symm hmore
      | cons c cs =>
        rw [hrest] at hlast
        rwa [List.getLast?_cons_cons]
    · rw [if_neg hmore]
      intro hlast
      have hzero := textDigit_eq_zero.mp (Option.some.inj hlast)
      omega

variable (value : UInt32)

theorem toNat_lt_digits : value.toNat < 10 ^ 10 := by
  have h := value.toNat_lt
  omega

theorem isDigits_textU32 : IsDigits (textU32 value.toNat) := fun c hc =>
  isDigits_digitsReversed 10 value.toNat c (List.mem_reverse.mp hc)

@[simp] theorem decimalValue_textU32 : decimalValue (textU32 value.toNat) = value.toNat := by
  unfold decimalValue textU32
  rw [List.reverse_reverse]
  exact ofDigits_digitsReversed (toNat_lt_digits value)

/-- No leading zero but that of zero itself. -/
theorem head_textU32 (hv : value.toNat ≠ 0) : (textU32 value.toNat).head? ≠ some (chr '0') := by
  unfold textU32
  rw [List.head?_reverse]
  exact getLast_digitsReversed (toNat_lt_digits value) hv

theorem isDigits_textPadded (value width : ℕ) : IsDigits (textPadded value width) := by
  induction width generalizing value with
  | zero =>
    intro c hc
    cases hc
  | succ width ih =>
    intro c hc
    rcases List.mem_append.mp hc with hc | hc
    · exact ih _ c hc
    · rw [List.mem_singleton.mp hc]
      exact isDigit_textDigit value

@[simp] theorem length_textPadded (value width : ℕ) : (textPadded value width).length = width := by
  induction width generalizing value with
  | zero => rfl
  | succ width ih => rw [textPadded, List.length_append, ih, List.length_singleton]

/-- The low digits. -/
@[simp] theorem decimalValue_textPadded (value width : ℕ) :
    decimalValue (textPadded value width) = value % 10 ^ width := by
  unfold decimalValue
  induction width generalizing value with
  | zero =>
    rw [Nat.pow_zero, Nat.mod_one]
    rfl
  | succ width ih =>
    rw [textPadded, List.reverse_append, List.reverse_singleton, List.singleton_append,
      List.map_cons, Nat.ofDigits_cons, ih, digitValue_textDigit, Nat.pow_succ', Nat.mod_mul]

end On9log
