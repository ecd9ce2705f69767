import Mathlib.Logic.Function.Iterate

/-!
# Cyclic redundancy checks, most significant bit first

One shift of the remainder is linear in exclusive or, so eight of them split
into those of the top byte, which a table can hold, and a plain shift of the
rest. With an odd polynomial a shift loses nothing, so a difference of two
adjacent bytes is never lost.
-/

namespace On9log.Lib

variable {w : ℕ} (poly : BitVec w)

/-- One shift of the remainder. -/
def crcShift (crc : BitVec w) : BitVec w :=
  if crc.msb then crc <<< 1 ^^^ poly else crc <<< 1

/-- One byte, bit by bit. -/
def crcByte (crc : BitVec w) (byte : BitVec 8) : BitVec w :=
  (crcShift poly)^[8] (crc ^^^ byte.setWidth w <<< (w - 8))

/-- The table's entry for a byte. -/
def crcEntry (byte : BitVec 8) : BitVec w := (crcShift poly)^[8] (byte.setWidth w <<< (w - 8))

variable {poly}

theorem xor_xor_cancel (a b p : BitVec w) : a ^^^ p ^^^ (b ^^^ p) = a ^^^ b := by
  rw [BitVec.xor_assoc, BitVec.xor_comm b p, ← BitVec.xor_assoc p p b, BitVec.xor_self,
    BitVec.zero_xor]

theorem crcShift_xor (a b : BitVec w) :
    crcShift poly (a ^^^ b) = crcShift poly a ^^^ crcShift poly b := by
  unfold crcShift
  rw [BitVec.msb_xor, BitVec.shiftLeft_xor_distrib]
  cases a.msb <;> cases b.msb
  · rfl
  · exact BitVec.xor_assoc ..
  · show a <<< 1 ^^^ b <<< 1 ^^^ poly = a <<< 1 ^^^ poly ^^^ b <<< 1
    rw [BitVec.xor_assoc, BitVec.xor_comm (b <<< 1), ← BitVec.xor_assoc]
  · exact (xor_xor_cancel _ _ _).symm

theorem crcShift_iterate_xor (n : ℕ) (a b : BitVec w) :
    (crcShift poly)^[n] (a ^^^ b) = (crcShift poly)^[n] a ^^^ (crcShift poly)^[n] b := by
  induction n generalizing a b with
  | zero => rfl
  | succ n ih => rw [Function.iterate_succ_apply, crcShift_xor, ih]; rfl

/-- While the top bits are clear the remainder only moves up. -/
theorem crcShift_iterate_low {n : ℕ} {x : BitVec w} (hx : ∀ i, w - n ≤ i → x.getLsbD i = false) :
    (crcShift poly)^[n] x = x <<< n := by
  induction n with
  | zero => exact (BitVec.shiftLeft_zero x).symm
  | succ n ih =>
    have hx' : ∀ i, w - n ≤ i → x.getLsbD i = false := fun i hi => hx i (by omega)
    rw [Function.iterate_succ_apply', ih hx']
    have hmsb : (x <<< n).msb = false := by
      rw [BitVec.msb_eq_getLsbD_last, BitVec.getLsbD_shiftLeft]
      by_cases hn : w - 1 < n
      · simp [hn]
      · simp [hx (w - 1 - n) (by omega)]
    rw [crcShift, hmsb, if_neg nofun, BitVec.shiftLeft_add]

/-- The top byte and the rest. -/
theorem byte_split (h : 8 ≤ w) (x : BitVec w) :
    x = ((x >>> (w - 8)).setWidth 8).setWidth w <<< (w - 8) ^^^
      (x.setWidth (w - 8)).setWidth w := by
  apply BitVec.eq_of_getLsbD_eq
  intro i hi
  simp only [BitVec.getLsbD_xor, BitVec.getLsbD_shiftLeft, BitVec.getLsbD_setWidth,
    BitVec.getLsbD_ushiftRight]
  by_cases hlow : i < w - 8
  · simp [hlow, hi]
  · have hsub : w - 8 + (i - (w - 8)) = i := by omega
    have hlt : i - (w - 8) < w := by omega
    have hlt' : i - (w - 8) < 8 := by omega
    simp [hlow, hi, hsub, hlt, hlt']

theorem rest_shift (x : BitVec w) : (x.setWidth (w - 8)).setWidth w <<< 8 = x <<< 8 := by
  apply BitVec.eq_of_getLsbD_eq
  intro i hi
  simp only [BitVec.getLsbD_shiftLeft, BitVec.getLsbD_setWidth]
  by_cases hlow : i < 8
  · simp [hlow]
  · have hlt : i - 8 < w := by omega
    have hlt' : i - 8 < w - 8 := by omega
    simp [hi, hlt, hlt']

/-- A byte at a time from the table. -/
theorem crcByte_eq_entry (h : 8 ≤ w) (crc : BitVec w) (byte : BitVec 8) :
    crcByte poly crc byte =
      crc <<< 8 ^^^ crcEntry poly ((crc >>> (w - 8)).setWidth 8 ^^^ byte) := by
  have hrest : ∀ i, w - 8 ≤ i → ((crc.setWidth (w - 8)).setWidth w).getLsbD i = false := by
    intro i hi
    simp only [BitVec.getLsbD_setWidth]
    have hnot : ¬ i < w - 8 := by omega
    simp [hnot]
  have hjoin : crc ^^^ byte.setWidth w <<< (w - 8) =
      ((crc >>> (w - 8)).setWidth 8 ^^^ byte).setWidth w <<< (w - 8) ^^^
        (crc.setWidth (w - 8)).setWidth w := by
    conv => lhs; rw [byte_split h crc]
    rw [BitVec.setWidth_xor, BitVec.shiftLeft_xor_distrib, BitVec.xor_assoc, BitVec.xor_assoc,
      BitVec.xor_comm (byte.setWidth w <<< (w - 8))]
  rw [crcByte, hjoin, crcShift_iterate_xor, crcShift_iterate_low hrest, rest_shift,
    BitVec.xor_comm]
  rfl

/-! ### Differences that are not lost -/

/-- With an odd polynomial the lowest bit tells whether it was taken away. -/
theorem getLsbD_crcShift (hpoly : poly.getLsbD 0 = true) (x : BitVec w) :
    (crcShift poly x).getLsbD 0 = x.msb := by
  unfold crcShift
  cases x.msb
  · rw [if_neg nofun, BitVec.getLsbD_shiftLeft]
    simp
  · rw [if_pos rfl, BitVec.getLsbD_xor, BitVec.getLsbD_shiftLeft, hpoly]
    simp

/-- Where the low bits are clear after as many shifts, the polynomial was never taken away. -/
theorem crcShift_iterate_clear (hpoly : poly.getLsbD 0 = true) {n : ℕ} (hn : n ≤ w) {x : BitVec w}
    (h : ∀ i < n, ((crcShift poly)^[n] x).getLsbD i = false) : ∀ i, w - n ≤ i → x.getLsbD i = false := by
  induction n with
  | zero =>
    intro i hi
    exact BitVec.getLsbD_of_ge x i (by omega)
  | succ n ih =>
    rw [Function.iterate_succ_apply'] at h
    have hmsb : ((crcShift poly)^[n] x).msb = false := by
      rw [← getLsbD_crcShift hpoly]
      exact h 0 (Nat.succ_pos n)
    have hup : crcShift poly ((crcShift poly)^[n] x) = (crcShift poly)^[n] x <<< 1 := by
      rw [crcShift, hmsb, if_neg nofun]
    have htop := ih (by omega) fun i hi => by
      have hbit := h (i + 1) (by omega)
      rw [hup, BitVec.getLsbD_shiftLeft] at hbit
      simpa [show i + 1 < w by omega] using hbit
    rw [crcShift_iterate_low htop, BitVec.msb_eq_getLsbD_last, BitVec.getLsbD_shiftLeft] at hmsb
    intro i hi
    by_cases hlast : i = w - (n + 1)
    · have hsub : w - 1 - n = i := by omega
      rw [hsub] at hmsb
      simpa [show w - 1 < w by omega, show ¬ w - 1 < n by omega] using hmsb
    · exact htop i (by omega)

theorem crcShift_iterate_eq_zero (hpoly : poly.getLsbD 0 = true) {n : ℕ} (hn : n ≤ w) {x : BitVec w}
    (h : (crcShift poly)^[n] x = 0#w) : x = 0#w := by
  have hclear := crcShift_iterate_clear hpoly hn fun i _ => by rw [h]; exact BitVec.getLsbD_zero
  rw [crcShift_iterate_low hclear] at h
  apply BitVec.eq_of_getLsbD_eq
  intro i hi
  rw [BitVec.getLsbD_zero]
  by_cases htop : w - n ≤ i
  · exact hclear i htop
  · have hbit : (x <<< n).getLsbD (i + n) = false := by
      rw [h]
      exact BitVec.getLsbD_zero
    rw [BitVec.getLsbD_shiftLeft] at hbit
    simpa [show i + n < w by omega] using hbit

variable (poly) in
theorem crcByte_xor (a b : BitVec w) (x y : BitVec 8) :
    crcByte poly a x ^^^ crcByte poly b y = crcByte poly (a ^^^ b) (x ^^^ y) := by
  unfold crcByte
  rw [← crcShift_iterate_xor, BitVec.setWidth_xor, BitVec.shiftLeft_xor_distrib]
  congr 1
  rw [BitVec.xor_assoc, BitVec.xor_assoc, ← BitVec.xor_assoc _ b, BitVec.xor_comm _ b,
    BitVec.xor_assoc b]

/-- A byte as the remainder takes it. -/
theorem byte_eq_zero (hw : 8 ≤ w) {byte : BitVec 8} (h : byte.setWidth w <<< (w - 8) = 0#w) :
    byte = 0#8 := by
  apply BitVec.eq_of_getLsbD_eq
  intro i hi
  have hbit : (byte.setWidth w <<< (w - 8)).getLsbD (i + (w - 8)) = false := by
    rw [h]
    exact BitVec.getLsbD_zero
  rw [BitVec.getLsbD_shiftLeft, BitVec.getLsbD_setWidth] at hbit
  rw [BitVec.getLsbD_zero]
  simpa [show i + (w - 8) < w by omega, show i < w by omega] using hbit

/-- A step loses no difference of the remainders, and none of the bytes. -/
theorem crcByte_inj (hw : 8 ≤ w) (hpoly : poly.getLsbD 0 = true) {a b : BitVec w} {x y : BitVec 8}
    (h : crcByte poly a x = crcByte poly b y) : (a = b ↔ x = y) := by
  have hdiff : (a ^^^ b) ^^^ (x ^^^ y).setWidth w <<< (w - 8) = 0#w := by
    apply crcShift_iterate_eq_zero hpoly hw
    have hxor := crcByte_xor poly a b x y
    rw [h, BitVec.xor_self] at hxor
    exact hxor.symm
  constructor
  · intro hab
    rw [hab, BitVec.xor_self, BitVec.zero_xor] at hdiff
    exact BitVec.xor_eq_zero_iff.mp (byte_eq_zero hw hdiff)
  · intro hxy
    rw [hxy, BitVec.xor_self, BitVec.setWidth_zero, BitVec.zero_shiftLeft, BitVec.xor_zero] at hdiff
    exact BitVec.xor_eq_zero_iff.mp hdiff

/-- Two adjacent bytes: what the first leaves below the top cannot be taken back by the second. -/
theorem crcByte_pair_inj (hw : 16 ≤ w) (hpoly : poly.getLsbD 0 = true) {a : BitVec w}
    {x₁ x₂ y₁ y₂ : BitVec 8}
    (h : crcByte poly (crcByte poly a x₁) x₂ = crcByte poly (crcByte poly a y₁) y₂) :
    x₁ = y₁ ∧ x₂ = y₂ := by
  have hfirst : x₁ = y₁ := by
    have hxor := crcByte_xor poly (crcByte poly a x₁) (crcByte poly a y₁) x₂ y₂
    rw [h, BitVec.xor_self, crcByte_xor, BitVec.xor_self] at hxor
    have hdiff : crcByte poly 0#w (x₁ ^^^ y₁) ^^^ (x₂ ^^^ y₂).setWidth w <<< (w - 8) = 0#w :=
      crcShift_iterate_eq_zero hpoly (by omega : 8 ≤ w) hxor.symm
    have hlow : ∀ i < 8, (crcByte poly 0#w (x₁ ^^^ y₁)).getLsbD i = false := by
      intro i hi
      rw [BitVec.xor_eq_zero_iff.mp hdiff, BitVec.getLsbD_shiftLeft]
      simp [show i < w - 8 by omega]
    rw [crcByte, BitVec.zero_xor] at hlow
    have hclear := crcShift_iterate_clear hpoly (by omega : 8 ≤ w) hlow
    have hzero : (x₁ ^^^ y₁).setWidth w <<< (w - 8) = 0#w := by
      apply BitVec.eq_of_getLsbD_eq
      intro i _
      rw [BitVec.getLsbD_zero]
      by_cases htop : w - 8 ≤ i
      · exact hclear i htop
      · rw [BitVec.getLsbD_shiftLeft]
        simp [show i < w - 8 by omega]
    exact BitVec.xor_eq_zero_iff.mp (byte_eq_zero (by omega) hzero)
  exact ⟨hfirst, (crcByte_inj (by omega) hpoly h).mp (by rw [hfirst])⟩

/-- Equal bytes behind a difference keep it. -/
theorem foldl_crcByte_inj (hw : 8 ≤ w) (hpoly : poly.getLsbD 0 = true) {a b : BitVec w}
    {bytes : List (BitVec 8)} (h : bytes.foldl (crcByte poly) a = bytes.foldl (crcByte poly) b) :
    a = b := by
  induction bytes generalizing a b with
  | nil => exact h
  | cons byte bytes ih => exact (crcByte_inj hw hpoly (ih h)).mpr rfl

/-- Bytes that differ at two adjacent places at most have different remainders. -/
theorem foldl_crcByte_window (hw : 16 ≤ w) (hpoly : poly.getLsbD 0 = true) {i : ℕ} {a : BitVec w}
    {xs ys : List (BitVec 8)} (hlen : xs.length = ys.length)
    (hsame : ∀ j, j ≠ i → j ≠ i + 1 → xs[j]? = ys[j]?)
    (h : xs.foldl (crcByte poly) a = ys.foldl (crcByte poly) a) : xs = ys := by
  induction i generalizing a xs ys with
  | zero =>
    match xs, ys, hlen with
    | [], [], _ => rfl
    | [x], [y], _ =>
      have hbyte : crcByte poly a x = crcByte poly a y := h
      rw [(crcByte_inj (by omega) hpoly hbyte).mp rfl]
    | x₁ :: x₂ :: xs, y₁ :: y₂ :: ys, _ =>
      have hrest : xs = ys := by
        apply List.ext_getElem?
        intro j
        exact hsame (j + 2) (by omega) (by omega)
      rw [hrest] at h ⊢
      have htail : ys.foldl (crcByte poly) (crcByte poly (crcByte poly a x₁) x₂) =
          ys.foldl (crcByte poly) (crcByte poly (crcByte poly a y₁) y₂) := h
      obtain ⟨h₁, h₂⟩ := crcByte_pair_inj hw hpoly (foldl_crcByte_inj (by omega) hpoly htail)
      rw [h₁, h₂]
  | succ i ih =>
    match xs, ys, hlen with
    | [], [], _ => rfl
    | x :: xs, y :: ys, hlen =>
      have hfirst : x = y := Option.some.inj (hsame 0 (by omega) (by omega))
      rw [hfirst] at h ⊢
      have htail : xs.foldl (crcByte poly) (crcByte poly a y) =
          ys.foldl (crcByte poly) (crcByte poly a y) := h
      rw [ih (Nat.succ.inj hlen) (fun j hj hj' => hsame (j + 1) (by omega) (by omega)) htail]

end On9log.Lib
