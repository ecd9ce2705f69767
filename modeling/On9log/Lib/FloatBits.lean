import Mathlib.Algebra.Order.Field.Rat
import Mathlib.Data.Nat.Bits
import Mathlib.Tactic.Ring

/-!
# Binary floating-point formats by their bits

A format has an exponent field and a fraction field. A finite datum is a multiple of the
smallest positive one, so its magnitude is a natural number over `2 ^ F.unit`. `widen` turns
a datum of one format into the same value in a format with room for it.
-/

namespace On9log.Lib

structure FloatFormat where
  expBits : ℕ
  fracBits : ℕ

def binary32 : FloatFormat := ⟨8, 23⟩
def binary64 : FloatFormat := ⟨11, 52⟩

structure FloatFields where
  negative : Bool
  exp : ℕ
  frac : ℕ
  deriving DecidableEq

inductive FloatValue where
  | finite (negative : Bool) (magnitude : ℚ)
  | infinity (negative : Bool)
  | nan

namespace FloatFormat

variable (F : FloatFormat) {G : FloatFormat} {x : FloatFields}

def expMax : ℕ := 2 ^ F.expBits - 1

/-- The smallest positive magnitude is `1 / 2 ^ F.unit`. -/
def unit : ℕ := 2 ^ (F.expBits - 1) - 2 + F.fracBits

structure Valid (x : FloatFields) : Prop where
  exp : x.exp < 2 ^ F.expBits
  frac : x.frac < 2 ^ F.fracBits

def fields (bits : ℕ) : FloatFields :=
  ⟨decide (bits / 2 ^ (F.fracBits + F.expBits) % 2 = 1), bits / 2 ^ F.fracBits % 2 ^ F.expBits,
    bits % 2 ^ F.fracBits⟩

def pack (x : FloatFields) : ℕ :=
  (x.negative.toNat * 2 ^ F.expBits + x.exp) * 2 ^ F.fracBits + x.frac

/-- A finite magnitude as a multiple of the smallest. -/
def scaled (x : FloatFields) : ℕ :=
  if x.exp = 0 then x.frac else (2 ^ F.fracBits + x.frac) * 2 ^ (x.exp - 1)

def value (x : FloatFields) : FloatValue :=
  if x.exp = F.expMax then if x.frac = 0 then .infinity x.negative else .nan
  else .finite x.negative (F.scaled x / 2 ^ F.unit)

theorem valid_fields (bits : ℕ) : F.Valid (F.fields bits) :=
  ⟨Nat.mod_lt _ (Nat.two_pow_pos _), Nat.mod_lt _ (Nat.two_pow_pos _)⟩

variable {F}

theorem Valid.fields_pack (h : F.Valid x) : F.fields (F.pack x) = x := by
  have hfrac : F.pack x % 2 ^ F.fracBits = x.frac := by
    unfold pack
    rw [Nat.add_comm, Nat.add_mul_mod_self_right, Nat.mod_eq_of_lt h.frac]
  have hhigh : F.pack x / 2 ^ F.fracBits = x.negative.toNat * 2 ^ F.expBits + x.exp := by
    unfold pack
    rw [Nat.add_comm, Nat.add_mul_div_right _ _ (Nat.two_pow_pos _), Nat.div_eq_of_lt h.frac,
      Nat.zero_add]
  have hexp : (x.negative.toNat * 2 ^ F.expBits + x.exp) % 2 ^ F.expBits = x.exp := by
    rw [Nat.add_comm, Nat.add_mul_mod_self_right, Nat.mod_eq_of_lt h.exp]
  have hsign : F.pack x / 2 ^ (F.fracBits + F.expBits) = x.negative.toNat := by
    rw [Nat.pow_add, ← Nat.div_div_eq_div_mul, hhigh, Nat.add_comm,
      Nat.add_mul_div_right _ _ (Nat.two_pow_pos _), Nat.div_eq_of_lt h.exp, Nat.zero_add]
  unfold fields
  rw [hsign, hhigh, hexp, hfrac]
  cases x with
  | mk negative exp frac => cases negative <;> rfl

theorem Valid.pack_lt (h : F.Valid x) : F.pack x < 2 ^ (1 + F.expBits + F.fracBits) := by
  have hsign : x.negative.toNat ≤ 1 := Bool.toNat_le _
  have hmul : x.negative.toNat * 2 ^ F.expBits ≤ 2 ^ F.expBits := by
    calc x.negative.toNat * 2 ^ F.expBits ≤ 1 * 2 ^ F.expBits := Nat.mul_le_mul_right _ hsign
      _ = 2 ^ F.expBits := Nat.one_mul _
  have hhigh : x.negative.toNat * 2 ^ F.expBits + x.exp + 1 ≤ 2 ^ (1 + F.expBits) := by
    have hexp := h.exp
    rw [Nat.pow_add, Nat.pow_one]
    omega
  have hfrac := h.frac
  calc F.pack x < (x.negative.toNat * 2 ^ F.expBits + x.exp) * 2 ^ F.fracBits + 2 ^ F.fracBits :=
        Nat.add_lt_add_left hfrac _
    _ = (x.negative.toNat * 2 ^ F.expBits + x.exp + 1) * 2 ^ F.fracBits := by ring
    _ ≤ 2 ^ (1 + F.expBits) * 2 ^ F.fracBits := Nat.mul_le_mul_right _ hhigh
    _ = 2 ^ (1 + F.expBits + F.fracBits) := (Nat.pow_add ..).symm

/-! ### Widening -/

/-- What a format needs to hold every datum of another, the subnormal ones as normal ones. -/
structure Embeds (F G : FloatFormat) : Prop where
  frac_le : F.fracBits ≤ G.fracBits
  unit_le : F.unit + G.fracBits ≤ G.unit
  exp_lt : F.expMax + (G.unit - F.unit) ≤ G.expMax + (G.fracBits - F.fracBits)
  subnormal_lt : F.fracBits + (G.unit - F.unit) < G.expMax + G.fracBits

/-- The same value in a wider format; what becomes of a NaN is up to `nan`. -/
def widen (F G : FloatFormat) (nan : FloatFields → FloatFields) (x : FloatFields) : FloatFields :=
  if x.exp = F.expMax then if x.frac = 0 then ⟨x.negative, G.expMax, 0⟩ else nan x
  else if x.exp = 0 then
    if x.frac = 0 then ⟨x.negative, 0, 0⟩
    else ⟨x.negative, x.frac.log2 + 1 + (G.unit - F.unit) - G.fracBits,
      (x.frac - 2 ^ x.frac.log2) * 2 ^ (G.fracBits - x.frac.log2)⟩
  else ⟨x.negative, x.exp + (G.unit - F.unit) - (G.fracBits - F.fracBits),
    x.frac * 2 ^ (G.fracBits - F.fracBits)⟩

theorem lt_of_lt_expMax {e : ℕ} (h : e < F.expMax) : e < 2 ^ F.expBits := by
  unfold expMax at h
  omega

theorem expMax_lt (F : FloatFormat) : F.expMax < 2 ^ F.expBits := by
  have hpos := Nat.two_pow_pos F.expBits
  unfold expMax
  omega

/-- Two finite data with one sign whose magnitudes differ as their units do. -/
theorem value_eq_of_scaled {y : FloatFields} (hunit : F.unit ≤ G.unit) (hx : x.exp ≠ F.expMax)
    (hy : y.exp ≠ G.expMax) (hsign : y.negative = x.negative)
    (hscaled : G.scaled y = F.scaled x * 2 ^ (G.unit - F.unit)) : G.value y = F.value x := by
  have hpow : (2 : ℚ) ^ G.unit = 2 ^ F.unit * 2 ^ (G.unit - F.unit) := by
    rw [← pow_add, Nat.add_sub_cancel' hunit]
  have hne : (2 : ℚ) ^ (G.unit - F.unit) ≠ 0 := pow_ne_zero _ two_ne_zero
  unfold value
  rw [if_neg hx, if_neg hy, hsign, hscaled, hpow, Nat.cast_mul, Nat.cast_pow, Nat.cast_ofNat,
    mul_div_mul_right _ _ hne]

/-- A subnormal datum, its leading one moved to the front. -/
theorem widen_subnormal (h : Embeds F G) (hfrac : x.frac < 2 ^ F.fracBits) (h0 : x.frac ≠ 0) :
    (x.frac - 2 ^ x.frac.log2) * 2 ^ (G.fracBits - x.frac.log2) < 2 ^ G.fracBits ∧
      x.frac.log2 + 1 + (G.unit - F.unit) - G.fracBits < G.expMax ∧
      (2 ^ G.fracBits + (x.frac - 2 ^ x.frac.log2) * 2 ^ (G.fracBits - x.frac.log2)) *
        2 ^ (x.frac.log2 + 1 + (G.unit - F.unit) - G.fracBits - 1) =
          x.frac * 2 ^ (G.unit - F.unit) := by
  obtain ⟨hfr, hunit, -, hsub⟩ := h
  have hlow : 2 ^ x.frac.log2 ≤ x.frac := Nat.log2_self_le h0
  have hhigh : x.frac < 2 ^ (x.frac.log2 + 1) := Nat.lt_log2_self
  have hk : x.frac.log2 < F.fracBits :=
    (Nat.pow_lt_pow_iff_right (by decide)).mp (Nat.lt_of_le_of_lt hlow hfrac)
  have hsplit : 2 ^ G.fracBits = 2 ^ x.frac.log2 * 2 ^ (G.fracBits - x.frac.log2) := by
    rw [← Nat.pow_add]
    congr 1
    omega
  refine ⟨?_, by omega, ?_⟩
  · rw [hsplit]
    apply Nat.mul_lt_mul_of_pos_right _ (Nat.two_pow_pos _)
    rw [Nat.pow_succ] at hhigh
    omega
  · have hexp : x.frac.log2 + 1 + (G.unit - F.unit) - G.fracBits - 1 =
        x.frac.log2 + (G.unit - F.unit) - G.fracBits := by omega
    have hsum : G.fracBits - x.frac.log2 + (x.frac.log2 + (G.unit - F.unit) - G.fracBits) =
        G.unit - F.unit := by omega
    rw [hsplit, ← Nat.add_mul, Nat.add_sub_cancel' hlow, hexp, Nat.mul_assoc, ← Nat.pow_add, hsum]

theorem widen_normal (h : Embeds F G) (hexp : x.exp < F.expMax) (h0 : x.exp ≠ 0)
    (hfrac : x.frac < 2 ^ F.fracBits) :
    x.frac * 2 ^ (G.fracBits - F.fracBits) < 2 ^ G.fracBits ∧
      x.exp + (G.unit - F.unit) - (G.fracBits - F.fracBits) < G.expMax ∧
      (2 ^ G.fracBits + x.frac * 2 ^ (G.fracBits - F.fracBits)) *
        2 ^ (x.exp + (G.unit - F.unit) - (G.fracBits - F.fracBits) - 1) =
          (2 ^ F.fracBits + x.frac) * 2 ^ (x.exp - 1) * 2 ^ (G.unit - F.unit) := by
  obtain ⟨hfr, hunit, hlt, -⟩ := h
  have hsplit : 2 ^ G.fracBits = 2 ^ F.fracBits * 2 ^ (G.fracBits - F.fracBits) := by
    rw [← Nat.pow_add, Nat.add_sub_cancel' hfr]
  refine ⟨?_, by omega, ?_⟩
  · rw [hsplit]
    exact Nat.mul_lt_mul_of_pos_right hfrac (Nat.two_pow_pos _)
  · have hsum : G.fracBits - F.fracBits +
        (x.exp + (G.unit - F.unit) - (G.fracBits - F.fracBits) - 1) =
          x.exp - 1 + (G.unit - F.unit) := by omega
    rw [hsplit, ← Nat.add_mul, Nat.mul_assoc, ← Nat.pow_add, hsum, Nat.pow_add, Nat.mul_assoc]

section Widen

variable {nan : FloatFields → FloatFields}

theorem valid_widen (h : Embeds F G) (hnan : ∀ x, G.Valid (nan x)) (hx : F.Valid x) :
    G.Valid (widen F G nan x) := by
  have hexpMax : x.exp ≠ F.expMax → x.exp < F.expMax := by
    have hlt := hx.exp
    unfold expMax
    omega
  unfold widen
  split
  · split
    · exact ⟨expMax_lt G, Nat.two_pow_pos _⟩
    · exact hnan x
  · rename_i hne
    split
    · split
      · exact ⟨Nat.two_pow_pos _, Nat.two_pow_pos _⟩
      · obtain ⟨hfrac, hexp, -⟩ := widen_subnormal h hx.frac ‹_›
        exact ⟨lt_of_lt_expMax hexp, hfrac⟩
    · obtain ⟨hfrac, hexp, -⟩ := widen_normal h (hexpMax hne) ‹_› hx.frac
      exact ⟨lt_of_lt_expMax hexp, hfrac⟩

/-- Widening keeps the value: the sign, the magnitude, infinities and what is no number. -/
theorem value_widen (h : Embeds F G) (hnan : ∀ x, G.value (nan x) = .nan) (hx : F.Valid x) :
    G.value (widen F G nan x) = F.value x := by
  have hunit : F.unit ≤ G.unit := by
    have hdeep := h.unit_le
    omega
  by_cases hmax : x.exp = F.expMax
  · unfold widen
    rw [if_pos hmax]
    by_cases h0 : x.frac = 0
    · unfold value
      rw [if_pos h0, if_pos hmax, if_pos h0, if_pos rfl, if_pos rfl]
    · rw [if_neg h0, hnan, value, if_pos hmax, if_neg h0]
  have hlt : x.exp < F.expMax := by
    have hexp := hx.exp
    unfold expMax at hmax ⊢
    omega
  unfold widen
  rw [if_neg hmax]
  by_cases hexp : x.exp = 0
  · rw [if_pos hexp]
    by_cases h0 : x.frac = 0
    · rw [if_pos h0]
      have hpos : (0 : ℕ) ≠ G.expMax := by
        have hsub := h.subnormal_lt
        have hdeep := h.unit_le
        omega
      refine value_eq_of_scaled hunit hmax hpos rfl ?_
      unfold scaled
      rw [if_pos rfl, if_pos hexp, h0, Nat.zero_mul]
    · obtain ⟨-, hfits, hscaled⟩ := widen_subnormal h hx.frac h0
      have hdeep := h.unit_le
      rw [if_neg h0]
      refine value_eq_of_scaled hunit hmax (Nat.ne_of_lt hfits) rfl ?_
      unfold scaled
      rw [if_pos hexp, if_neg (by dsimp only; omega)]
      exact hscaled
  · obtain ⟨-, hfits, hscaled⟩ := widen_normal h hlt hexp hx.frac
    have hdeep := h.unit_le
    rw [if_neg hexp]
    refine value_eq_of_scaled hunit hmax (Nat.ne_of_lt hfits) rfl ?_
    unfold scaled
    rw [if_neg hexp, if_neg (by dsimp only; omega)]
    exact hscaled

end Widen

theorem embeds_binary32_binary64 : Embeds binary32 binary64 := by
  constructor <;> decide

end FloatFormat

end On9log.Lib
