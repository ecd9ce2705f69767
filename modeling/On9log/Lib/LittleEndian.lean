import Mathlib.Tactic

/-!
# Little-endian numerals

Fixed-width little-endian byte strings over `UInt8` and their values: the length
and the round trip. Nothing here names a wire format.
-/

namespace On9log.Lib.LittleEndian

/-- The `n` low base-256 digits of `v`, least significant first. -/
def bytesLE : ℕ → ℕ → List UInt8
  | 0, _ => []
  | n + 1, v => UInt8.ofNat v :: bytesLE n (v / 256)

def valLE : List UInt8 → ℕ
  | [] => 0
  | b :: bs => b.toNat + 256 * valLE bs

/-- A statement about all bytes is one about 256 numbers, which `decide` checks. -/
theorem forall_byte {p : UInt8 → Prop} (h : ∀ n : Fin 256, p (UInt8.ofNat n.val)) (b : UInt8) :
    p b := by
  have hb := h ⟨b.toNat, b.toNat_lt⟩
  rwa [UInt8.ofNat_toNat] at hb

theorem and_byte (n : ℕ) : n &&& 255 = n % 256 := Nat.and_two_pow_sub_one_eq_mod n 8

theorem and_word (n : ℕ) : n &&& 4294967295 = n % 4294967296 :=
  Nat.and_two_pow_sub_one_eq_mod n 32

@[simp] theorem length_bytesLE (n v : ℕ) : (bytesLE n v).length = n := by
  induction n generalizing v with
  | zero => rfl
  | succ n ih => simp [bytesLE, ih]

theorem valLE_bytesLE (n v : ℕ) (h : v < 256 ^ n) : valLE (bytesLE n v) = v := by
  induction n generalizing v with
  | zero =>
    have hv : v = 0 := by simpa using h
    rw [hv]
    rfl
  | succ n ih =>
    have hd : v / 256 < 256 ^ n := by
      rw [pow_succ] at h
      exact Nat.div_lt_of_lt_mul (by omega)
    simp only [bytesLE, valLE, UInt8.toNat_ofNat', ih (v / 256) hd]
    omega

end On9log.Lib.LittleEndian
