import Mathlib.Tactic

/-!
# Rounding up to an alignment

`roundUp a n` is the least multiple of `a` from `n` on. `alignUp` is the mask
form on machine words; the two agree for a power of two while nothing wraps.
-/

namespace On9log.Lib.Align

def roundUp (a n : ℕ) : ℕ := (n + a - 1) / a * a

variable {a n : ℕ}

theorem le_roundUp (ha : 0 < a) : n ≤ roundUp a n := by
  have hsplit := Nat.div_add_mod' (n + a - 1) a
  have hmod := Nat.mod_lt (n + a - 1) ha
  unfold roundUp
  omega

variable {w : ℕ}

def alignUp (x align : BitVec w) : BitVec w := (x + align - 1) &&& ~~~(align - 1)

theorem toNat_and_not_mask (y : BitVec w) {k : ℕ} (hk : k ≤ w) :
    (y &&& ~~~(BitVec.ofNat w (2 ^ k - 1))).toNat = y.toNat / 2 ^ k * 2 ^ k := by
  apply Nat.eq_of_testBit_eq
  intro i
  have hlt : 2 ^ k - 1 < 2 ^ w := by
    have := Nat.pow_le_pow_right (show 0 < 2 by omega) hk
    have := Nat.two_pow_pos k
    omega
  rw [BitVec.testBit_toNat, BitVec.getLsbD_and, BitVec.getLsbD_not, BitVec.getLsbD_ofNat,
    Nat.testBit_two_pow_sub_one, Nat.testBit_mul_two_pow, Nat.testBit_div_two_pow,
    ← BitVec.testBit_toNat]
  by_cases hi : k ≤ i
  · by_cases hw : i < w
    · simp [hi, hw]
    · have hzero : y.toNat.testBit i = false := by
        rw [BitVec.testBit_toNat]
        exact BitVec.getLsbD_of_ge y i (by omega)
      simp [hi, hzero]
  · have hik : i < k := by omega
    simp [hi, hik]

theorem toNat_sub_one {x : BitVec w} (h : 0 < x.toNat) : (x - 1).toNat = x.toNat - 1 := by
  have hx := x.isLt
  have hone : (1 : BitVec w).toNat = 1 := Nat.mod_eq_of_lt (show 1 < 2 ^ w by omega)
  rw [BitVec.toNat_sub_of_le (by rw [BitVec.le_def, hone]; omega), hone]

theorem toNat_alignUp {x align : BitVec w} {k : ℕ} (hk : align.toNat = 2 ^ k)
    (h : x.toNat + 2 ^ k < 2 ^ w) : (alignUp x align).toNat = roundUp (2 ^ k) x.toNat := by
  have hpos := Nat.two_pow_pos k
  have hkw : k ≤ w := (Nat.pow_le_pow_iff_right (show 1 < 2 by omega)).mp (by omega)
  have hmask : align - 1 = BitVec.ofNat w (2 ^ k - 1) := by
    apply BitVec.eq_of_toNat_eq
    rw [toNat_sub_one (by omega), hk, BitVec.toNat_ofNat, Nat.mod_eq_of_lt (by omega)]
  have hadd : (x + align).toNat = x.toNat + 2 ^ k := by
    rw [BitVec.toNat_add, hk, Nat.mod_eq_of_lt h]
  have hsum : (x + align - 1).toNat = x.toNat + 2 ^ k - 1 := by
    rw [toNat_sub_one (by omega), hadd]
  rw [alignUp, hmask, toNat_and_not_mask _ hkw, hsum, roundUp]

end On9log.Lib.Align
