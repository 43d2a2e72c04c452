import Mathlib.Algebra.Order.Ring.Abs
import Mathlib.Data.Nat.Bitwise
import Mathlib.Data.Nat.Prime.Basic
import Mathlib.Tactic.Linarith
import Mathlib.Tactic.Ring

/-! Machine integers: their range, checked operations, and the binary greatest common divisor. -/

namespace Nixie.Math

open Nat

/-- The range of a signed machine integer. -/
def Fits (width : Nat) (n : Int) : Prop := -2 ^ (width - 1) ≤ n ∧ n < 2 ^ (width - 1)

instance (width : Nat) (n : Int) : Decidable (Fits width n) := by
  unfold Fits
  infer_instance

/-- The result of a checked operation: nothing on overflow. -/
def checked (width : Nat) (n : Int) : Option Int := if Fits width n then some n else none

/-- A quotient of machine integers, truncated; nothing on overflow and for a zero divisor. -/
def divI64 (n d : Int) : Option Int := if d = 0 then none else checked 64 (n.tdiv d)

def signed (width : Nat) (n : Nat) : Int := (n : Int).bmod (2 ^ width)

section

variable {width : Nat} {n m : Int}

theorem fits_64 : Fits 64 n ↔ -9223372036854775808 ≤ n ∧ n ≤ 9223372036854775807 := by
  unfold Fits
  omega

theorem fits_128 : Fits 128 n ↔ -170141183460469231731687303715884105728 ≤ n ∧
    n ≤ 170141183460469231731687303715884105727 := by
  unfold Fits
  omega

@[simp] theorem checked_of_fits (fits : Fits width n) : checked width n = some n := if_pos fits

theorem checked_eq_none (overflow : ¬Fits width n) : checked width n = none := if_neg overflow

theorem checked_eq_some_iff : checked width n = some m ↔ Fits width n ∧ n = m := by
  unfold checked
  split
  · rename_i fits
    exact ⟨fun eq => ⟨fits, Option.some.inj eq⟩, fun both => congrArg some both.2⟩
  · rename_i overflow
    exact iff_of_false nofun fun both => overflow both.1

theorem signed_of_fits {magnitude : Nat} (fits : Fits 64 magnitude) :
    signed 64 magnitude = magnitude := by
  rw [fits_64] at fits
  unfold signed
  exact Int.bmod_eq_of_le (by omega) (by omega)

theorem natAbs_lt (fits : Fits 64 n) : n.natAbs < 2 ^ 64 := by
  rw [fits_64] at fits
  omega

theorem abs_le_of_fits (fits : Fits 64 n) : |n| ≤ 2 ^ 63 := by
  rw [fits_64] at fits
  exact abs_le.mpr ⟨by omega, by omega⟩

theorem fits_mul (left : Fits 64 n) (right : Fits 64 m) : -2 ^ 126 ≤ n * m ∧ n * m ≤ 2 ^ 126 := by
  have product : |n * m| ≤ 2 ^ 63 * 2 ^ 63 := by
    rw [abs_mul]
    exact mul_le_mul (abs_le_of_fits left) (abs_le_of_fits right) (abs_nonneg m) (by decide)
  exact abs_le.mp (product.trans (by decide))

theorem fits_mul_of_pos (left : Fits 64 n) (right : Fits 64 m) (pos : 0 < m) :
    -2 ^ 126 < n * m ∧ n * m < 2 ^ 126 := by
  have small : |m| ≤ 2 ^ 63 - 1 := by
    rw [fits_64] at right
    rw [abs_of_pos pos]
    omega
  have product : |n * m| ≤ 2 ^ 63 * (2 ^ 63 - 1) := by
    rw [abs_mul]
    exact mul_le_mul (abs_le_of_fits left) small (abs_nonneg m) (by decide)
  exact abs_lt.mp (product.trans_lt (by decide))

theorem fits_of_mul {g k : Int} (pos : 0 < g) (fits : Fits 64 (g * k)) : Fits 64 k := by
  rw [fits_64] at fits ⊢
  rcases le_total 0 k with above | below
  · have bound : k ≤ g * k := le_mul_of_one_le_left above pos
    omega
  · have bound : g * k ≤ k := by nlinarith
    omega

theorem divI64_eq {k : Int} {g : Nat} (pos : 0 < g) (eq : n = g * k) (fits : Fits 64 n) :
    divI64 n g = some k := by
  have nonzero : (g : Int) ≠ 0 := (Int.natCast_pos.mpr pos).ne'
  have quotient : n.tdiv g = k := by
    rw [eq]
    exact Int.mul_tdiv_cancel_left k nonzero
  rw [divI64, if_neg nonzero, quotient]
  exact checked_of_fits (fits_of_mul (Int.natCast_pos.mpr pos) (eq ▸ fits))

end

section

variable {n d : Int}

theorem lowestTerms (pos : 0 < d) : 0 < d.tdiv (n.gcd d) ∧
    (n.tdiv (n.gcd d)).natAbs.Coprime (d.tdiv (n.gcd d)).natAbs ∧
    n = n.gcd d * n.tdiv (n.gcd d) ∧ d = n.gcd d * d.tdiv (n.gcd d) ∧ 0 < n.gcd d := by
  have positiveGcd : 0 < n.gcd d := Int.gcd_pos_of_ne_zero_right n pos.ne'
  have numer : n = n.gcd d * n.tdiv (n.gcd d) := (Int.mul_tdiv_cancel' (Int.gcd_dvd_left n d)).symm
  have denom : d = n.gcd d * d.tdiv (n.gcd d) := (Int.mul_tdiv_cancel' (Int.gcd_dvd_right n d)).symm
  refine ⟨?_, ?_, numer, denom, positiveGcd⟩
  · exact (mul_pos_iff_of_pos_left (Int.natCast_pos.mpr positiveGcd)).mp (denom ▸ pos)
  · have quotients := coprime_div_gcd_div_gcd (m := n.natAbs) (n := d.natAbs) positiveGcd
    rw [Int.natAbs_tdiv, Int.natAbs_tdiv, Int.natAbs_natCast]
    exact quotients

theorem num_den_div (pos : 0 < d) :
    (n / d : ℚ).num = n.tdiv (n.gcd d) ∧ ((n / d : ℚ).den : Int) = d.tdiv (n.gcd d) := by
  obtain ⟨pos', coprime, numer, denom, positiveGcd⟩ := @lowestTerms n d pos
  have value : (n / d : ℚ) = (n.tdiv (n.gcd d) : ℚ) / (d.tdiv (n.gcd d) : ℚ) := by
    have nonzero : ((n.gcd d : Int) : ℚ) ≠ 0 :=
      Int.cast_ne_zero.mpr (Int.natCast_pos.mpr positiveGcd).ne'
    have numer' := congrArg (Int.cast (R := ℚ)) numer
    have denom' := congrArg (Int.cast (R := ℚ)) denom
    rw [Int.cast_mul] at numer' denom'
    rw [numer', denom', mul_div_mul_left _ _ nonzero]
  rw [value]
  exact ⟨Rat.num_div_eq_of_coprime pos' coprime, Rat.den_div_eq_of_coprime pos' coprime⟩

theorem fits_div (fitsN : Fits 64 n) (fitsD : Fits 64 d) (pos : 0 < d) :
    Fits 64 (n / d : ℚ).num ∧ Fits 64 (n / d : ℚ).den := by
  obtain ⟨-, -, numer, denom, positiveGcd⟩ := @lowestTerms n d pos
  obtain ⟨num, den⟩ := @num_den_div n d pos
  rw [num, den]
  rw [numer] at fitsN
  rw [denom] at fitsD
  exact ⟨fits_of_mul (Int.natCast_pos.mpr positiveGcd) fitsN,
    fits_of_mul (Int.natCast_pos.mpr positiveGcd) fitsD⟩

end

/-- The number of zeros at the end of an unsigned word. -/
def trailingZeros : Nat → Nat → Nat
  | 0, _ => 0
  | width + 1, x => if x % 2 = 1 then 0 else trailingZeros width (x / 2) + 1

section

variable {width x y : Nat}

theorem shiftRight_trailingZeros (pos : 0 < x) (fits : x < 2 ^ width) :
    (x >>> trailingZeros width x) % 2 = 1 ∧
      x = 2 ^ trailingZeros width x * (x >>> trailingZeros width x) := by
  induction width generalizing x with
  | zero => omega
  | succ width ih =>
    rw [trailingZeros]
    by_cases odd : x % 2 = 1
    · rw [if_pos odd]
      exact ⟨odd, (one_mul x).symm⟩
    · rw [if_neg odd]
      obtain ⟨rest, value⟩ := @ih (x / 2) (by omega) (by rw [pow_succ] at fits; omega)
      rw [add_comm, shiftRight_add, shiftRight_one, add_comm]
      refine ⟨rest, ?_⟩
      rw [pow_succ, mul_right_comm, ← value]
      omega

theorem trailingZeros_or : trailingZeros width (x ||| y) =
    min (trailingZeros width x) (trailingZeros width y) := by
  induction width generalizing x y with
  | zero => rfl
  | succ width ih =>
    have odd : (x ||| y) % 2 = 1 ↔ x % 2 = 1 ∨ y % 2 = 1 := or_mod_two_eq_one
    simp only [trailingZeros, odd]
    by_cases first : x % 2 = 1
    · rw [if_pos (.inl first), if_pos first, zero_min]
    by_cases second : y % 2 = 1
    · rw [if_pos (.inr second), if_pos second, min_zero]
    · rw [if_neg (by omega), if_neg first, if_neg second, or_div_two, ih]
      omega

theorem gcd_shiftRight (odd : x % 2 = 1) (pos : 0 < y) (fits : y < 2 ^ width) :
    x.gcd (y >>> trailingZeros width y) = x.gcd y := by
  obtain ⟨-, value⟩ := shiftRight_trailingZeros pos fits
  have coprime : x.Coprime (2 ^ trailingZeros width y) :=
    (coprime_two_right.mpr (odd_iff.mpr odd)).pow_right _
  conv_rhs => rw [value]
  exact (Nat.Coprime.gcd_mul_left_cancel_right _ coprime.symm).symm

theorem shiftRight_le : x >>> y ≤ x := by
  rw [shiftRight_eq_div_pow]
  exact div_le_self _ _

end

/-- Subtracts the smaller number, and shifts the zeros of the difference out. -/
def oddGcd : Nat → Nat → Nat → Nat
  | 0, x, _ => x
  | fuel + 1, x, y =>
    let (x, y) := if y < x then (y, x) else (x, y)
    let y := y - x
    if y = 0 then x else oddGcd fuel x (y >>> trailingZeros 64 y)

section

variable {fuel x y : Nat}

theorem oddGcd_eq (oddX : x % 2 = 1) (oddY : y % 2 = 1) (fitsX : x < 2 ^ 64) (fitsY : y < 2 ^ 64)
    (enough : x + y ≤ fuel) : oddGcd fuel x y = x.gcd y := by
  -- Every turn subtracts an odd number from one of the two.
  induction fuel generalizing x y with
  | zero => omega
  | succ fuel ih =>
    have ordered : ∀ a b : Nat, a ≤ b → a % 2 = 1 → b % 2 = 1 → b < 2 ^ 64 → a + b ≤ fuel + 1 →
        (if b - a = 0 then a else oddGcd fuel a ((b - a) >>> trailingZeros 64 (b - a))) =
          a.gcd b := by
      intro a b below oddA oddB fits bound
      split
      · rename_i same
        rw [show b = a by omega, gcd_self]
      · rename_i differ
        have pos : 0 < b - a := pos_of_ne_zero differ
        have small : b - a < 2 ^ 64 := (sub_le b a).trans_lt fits
        have shifted : (b - a) >>> trailingZeros 64 (b - a) ≤ b - a := shiftRight_le
        obtain ⟨odd, -⟩ := shiftRight_trailingZeros pos small
        rw [ih oddA odd (below.trans_lt fits) (shifted.trans_lt small) (by omega),
          gcd_shiftRight oddA pos small, gcd_sub_self_right below]
    rw [oddGcd]
    by_cases larger : y < x
    · rw [if_pos larger]
      exact (ordered y x larger.le oddY oddX fitsX (by omega)).trans (Nat.gcd_comm y x)
    · rw [if_neg larger]
      exact ordered x y (not_lt.mp larger) oddX oddY fitsY enough

theorem gcd_eq_shiftLeft (positiveX : 0 < x) (positiveY : 0 < y) (fitsX : x < 2 ^ 64)
    (fitsY : y < 2 ^ 64) :
    x.gcd y = (x >>> trailingZeros 64 x).gcd (y >>> trailingZeros 64 y) <<<
      min (trailingZeros 64 x) (trailingZeros 64 y) := by
  obtain ⟨oddX, valueX⟩ := shiftRight_trailingZeros positiveX fitsX
  obtain ⟨oddY, valueY⟩ := shiftRight_trailingZeros positiveY fitsY
  generalize x >>> trailingZeros 64 x = a at oddX valueX ⊢
  generalize y >>> trailingZeros 64 y = b at oddY valueY ⊢
  generalize trailingZeros 64 x = i at valueX ⊢
  generalize trailingZeros 64 y = j at valueY ⊢
  subst valueX valueY
  rw [shiftLeft_eq]
  have twos (n k : Nat) (odd : n % 2 = 1) : n.Coprime (2 ^ k) :=
    (coprime_two_right.mpr (odd_iff.mpr odd)).pow_right _
  have split {k l : Nat} (below : k ≤ l) (n : Nat) : 2 ^ l * n = 2 ^ k * (2 ^ (l - k) * n) := by
    rw [← Nat.mul_assoc, ← Nat.pow_add, Nat.add_sub_cancel' below]
  rcases le_total i j with below | below
  · -- The zeros of the first number are common.
    rw [min_eq_left below, split below b, gcd_mul_left,
      Nat.Coprime.gcd_mul_left_cancel_right _ (twos a _ oddX).symm, mul_comm]
  · rw [min_eq_right below, split below a, gcd_mul_left,
      (twos b _ oddY).symm.gcd_mul_left_cancel, mul_comm]

theorem signed_gcd {n d : Int} (fitsN : Fits 64 n) (fitsD : Fits 64 d) (pos : 0 < d)
    (enough : n.natAbs >>> trailingZeros 64 n.natAbs +
      d.natAbs >>> trailingZeros 64 d.natAbs ≤ fuel) :
    (if n.natAbs = 0 then signed 64 d.natAbs else if d.natAbs = 0 then signed 64 n.natAbs
      else signed 64 (oddGcd fuel (n.natAbs >>> trailingZeros 64 n.natAbs)
        (d.natAbs >>> trailingZeros 64 d.natAbs) <<<
          min (trailingZeros 64 n.natAbs) (trailingZeros 64 d.natAbs))) = n.gcd d := by
  have fits : Fits 64 (n.gcd d) := by
    have below : n.gcd d ≤ d.natAbs := gcd_le_right _ (Int.natAbs_pos.mpr pos.ne')
    rw [fits_64] at fitsD ⊢
    omega
  by_cases zero : n.natAbs = 0
  · rw [if_pos zero, Int.gcd, zero, gcd_zero_left]
    rw [Int.gcd, zero, gcd_zero_left] at fits
    exact signed_of_fits fits
  · have positiveN := pos_of_ne_zero zero
    have positiveD : 0 < d.natAbs := Int.natAbs_pos.mpr pos.ne'
    have smallN := natAbs_lt fitsN
    have smallD := natAbs_lt fitsD
    rw [if_neg zero, if_neg positiveD.ne', oddGcd_eq
      (shiftRight_trailingZeros positiveN smallN).1 (shiftRight_trailingZeros positiveD smallD).1
      (shiftRight_le.trans_lt smallN) (shiftRight_le.trans_lt smallD) enough,
      ← gcd_eq_shiftLeft positiveN positiveD smallN smallD]
    exact signed_of_fits fits

end

end Nixie.Math
