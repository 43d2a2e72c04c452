import Mathlib.Data.Rat.Floor
import Nixie.Math.MachineInt

/-! Rationals that are pairs of machine integers while they fit, and of any size otherwise. -/

namespace Nixie.Math

inductive FastRational where
  | small (num den : Int)
  | big (value : ℚ)
  deriving DecidableEq

namespace FastRational

/-- Shifts the zeros of the second number out, and subtracts the smaller number. -/
def gcdLoop : Nat → Nat → Nat → Nat
  | 0, a, _ => a
  | fuel + 1, a, b =>
    let b := b >>> trailingZeros 64 b
    let (a, b) := if b < a then (b, a) else (a, b)
    let b := b - a
    if b = 0 then a else gcdLoop fuel a b

def gcdI64 (a b : Int) : Int :=
  let a := a.natAbs
  let b := b.natAbs
  if a = 0 then signed 64 b
  else if b = 0 then signed 64 a
  else
    let shift := trailingZeros 64 (a ||| b)
    let a := a >>> trailingZeros 64 a
    signed 64 (gcdLoop (a + b) a b <<< shift)

/-- A pair with its sign on the numerator, in lowest terms. -/
def newSmall (num den : Int) : Option FastRational :=
  if num = 0 then some (small 0 1)
  else
    let signed := if den < 0 then
      match checked 64 (-num), checked 64 (-den) with
      | some nn, some dd => some (nn, dd)
      -- A negation overflows.
      | _, _ => none
      else some (num, den)
    match signed with
    | none => some (big (num / den))
    | some (n, d) =>
      let g := gcdI64 n d
      if g = 0 then some (small 0 1)
      else do
        let num ← divI64 n g
        let den ← divI64 d g
        return small num den

def fromBig (br : ℚ) : Option FastRational :=
  match checked 64 br.num, checked 64 br.den with
  | some n, some d => if d ≠ 0 then newSmall n d else some (big br)
  | _, _ => some (big br)

def toBigRational : FastRational → ℚ
  | small num den => num / den
  | big b => b

def fromBigint (bi : Int) : FastRational :=
  match checked 64 bi with
  | some n => small n 1
  | none => big bi

def isZero : FastRational → Bool
  | small num _ => num == 0
  | big b => b == 0

def recip : FastRational → Option (Option FastRational)
  | small num den => if num = 0 then some none else (newSmall den num).map some
  | big b => if b = 0 then some none else (fromBig b⁻¹).map some

/-- The greatest integer that is at most a rational of any size. -/
def bigFloor (r : ℚ) : Int :=
  if r.den = 1 then r.num
  else if 0 < r then r.num.tdiv r.den
  else r.num.tdiv r.den - 1

/-- The smallest integer that is at least a rational of any size. -/
def bigCeil (r : ℚ) : Int :=
  if r.den = 1 then r.num
  else if 0 < r then r.num.tdiv r.den + 1
  else r.num.tdiv r.den

def floor : FastRational → Option Int
  | small num den => if den = 1 then some num else checked 64 (num.fdiv den)
  | big b => some (bigFloor b)

def ceil : FastRational → Option Int
  | small num den => if den = 1 then some num else checked 64 (-(-num).fdiv den)
  | big b => some (bigCeil b)

def abs : FastRational → Option FastRational
  | small num den => match checked 64 |num| with
    | some n => some (small n den)
    | none => fromBig (|(num : ℚ)| / den)
  | big b => fromBig |b|

def neg : FastRational → Option FastRational
  | small num den => match checked 64 (-num) with
    | some n => some (small n den)
    | none => some (big (-num / den))
  | big b => fromBig (-b)

def addSmall (aNum aDen bNum bDen : Int) : Option FastRational :=
  let numer := do
    let ad ← checked 64 (aNum * bDen)
    let cb ← checked 64 (bNum * aDen)
    let bd ← checked 64 (aDen * bDen)
    let num ← checked 64 (ad + cb)
    return (num, bd)
  match numer with
  | some (num, bd) => newSmall num bd
  | none => fromBig (aNum / aDen + bNum / bDen)

def subSmall (aNum aDen bNum bDen : Int) : Option FastRational :=
  let numer := do
    let ad ← checked 64 (aNum * bDen)
    let cb ← checked 64 (bNum * aDen)
    let bd ← checked 64 (aDen * bDen)
    let num ← checked 64 (ad - cb)
    return (num, bd)
  match numer with
  | some (num, bd) => newSmall num bd
  | none => fromBig (aNum / aDen - bNum / bDen)

/-- A number without a factor, unless the factor is zero. -/
def cancel (n g : Int) : Option Int := if g ≠ 0 then divI64 n g else some n

def mulSmall (aNum aDen bNum bDen : Int) : Option FastRational := do
  let g1 := gcdI64 aNum bDen
  let g2 := gcdI64 bNum aDen
  let an ← cancel aNum g1
  let bd ← cancel bDen g1
  let bn ← cancel bNum g2
  let ad ← cancel aDen g2
  match checked 64 (an * bn), checked 64 (ad * bd) with
  | some num, some den => newSmall num den
  | _, _ => fromBig (aNum / aDen * (bNum / bDen))

/-- The quotient of machine integers over machine integers; a zero divisor panics. -/
def divSmall (aNum aDen bNum bDen : Int) : Option FastRational :=
  if bNum = 0 then none
  else
    match checked 64 (aNum * bDen), checked 64 (aDen * bNum) with
    | some num, some den => newSmall num den
    | _, _ => fromBig (aNum / aDen / (bNum / bDen))

def add : FastRational → FastRational → Option FastRational
  | small an ad, small bn bd => addSmall an ad bn bd
  | a, b => fromBig (a.toBigRational + b.toBigRational)

def sub : FastRational → FastRational → Option FastRational
  | small an ad, small bn bd => subSmall an ad bn bd
  | a, b => fromBig (a.toBigRational - b.toBigRational)

def mul : FastRational → FastRational → Option FastRational
  | small an ad, small bn bd => mulSmall an ad bn bd
  | a, b => fromBig (a.toBigRational * b.toBigRational)

def div : FastRational → FastRational → Option FastRational
  | small an ad, small bn bd => divSmall an ad bn bd
  | a, b => if b.isZero then none else fromBig (a.toBigRational / b.toBigRational)

/-- The remainder of a division that is rounded down; that by zero is zero. -/
def rem (a b : FastRational) : Option FastRational :=
  if b.isZero then some (small 0 1)
  else do
    let quotient ← a.div b
    let floorQ := fromBigint (← quotient.floor)
    let product ← b.mul floorQ
    a.sub product

def eq : FastRational → FastRational → Bool
  | small an ad, small bn bd => an == bn && ad == bd
  | a, b => a.toBigRational == b.toBigRational

def cmp : FastRational → FastRational → Ordering
  | small an ad, small bn bd => match checked 64 (an * bd), checked 64 (bn * ad) with
    | some lhs, some rhs => compare lhs rhs
    | _, _ => compare (an / ad : ℚ) (bn / bd)
  | a, b => compare a.toBigRational b.toBigRational

inductive HashInput where
  | words (num den : Int)
  | integers (num den : Int)
  deriving DecidableEq

/-- What the hash of a value is computed from; nothing on overflow. -/
def hash : FastRational → Option HashInput
  | small num den => some (.words num den)
  | big b => match checked 64 b.num, checked 64 b.den with
    | some n, some d =>
      if 0 < d then some (.words n d)
      else if d < 0 then do
        let n ← checked 64 (-n)
        let d ← checked 64 (-d)
        return .words n d
      else some (.integers b.num b.den)
    | _, _ => some (.integers b.num b.den)

/-- Small values are in lowest terms, with a positive denominator. -/
def Valid : FastRational → Prop
  | small num den => Fits 64 num ∧ Fits 64 den ∧ 0 < den ∧ num.natAbs.Coprime den.natAbs
  | big _ => True

/-- Whether a value is a pair of machine integers. -/
def isSmall : FastRational → Bool
  | small _ _ => true
  | big _ => false

/-- Both lowest terms are machine integers. -/
def Representable (q : ℚ) : Prop := Fits 64 q.num ∧ Fits 64 q.den

instance (q : ℚ) : Decidable (Representable q) := by
  unfold Representable
  infer_instance

/-- A result is found, exact and canonical, and small where that is possible. -/
def Meets (result : Option FastRational) (q : ℚ) : Prop :=
  ∃ r, result = some r ∧ r.Valid ∧ r.toBigRational = q ∧ (Representable q → r.isSmall = true)

/-- A result is found, exact and canonical. -/
def Exact (result : Option FastRational) (q : ℚ) : Prop :=
  ∃ r, result = some r ∧ r.Valid ∧ r.toBigRational = q

section

variable {n d : Int} {q : ℚ}

theorem gcdLoop_eq (fuel a b : Nat) :
    gcdLoop fuel a b = oddGcd fuel a (b >>> trailingZeros 64 b) := by
  induction fuel generalizing a b with
  | zero => rfl
  | succ fuel ih =>
    rw [gcdLoop, oddGcd]
    dsimp only
    split <;> simp only [ih]

theorem gcdI64_eq (fitsN : Fits 64 n) (fitsD : Fits 64 d) (pos : 0 < d) : gcdI64 n d = n.gcd d := by
  unfold gcdI64
  dsimp only
  rw [gcdLoop_eq, trailingZeros_or]
  exact signed_gcd fitsN fitsD pos (Nat.add_le_add_left shiftRight_le _)

theorem meets_lowest (fits : Representable q) : Meets (some (small q.num q.den)) q := by
  refine ⟨_, rfl, ⟨fits.1, fits.2, Int.natCast_pos.mpr q.den_pos, ?_⟩, Rat.num_div_den q,
    fun _ => rfl⟩
  rw [Int.natAbs_natCast]
  exact q.reduced

theorem newSmall_of_pos (fitsN : Fits 64 n) (fitsD : Fits 64 d) (pos : 0 < d) :
    newSmall n d = some (small (n / d : ℚ).num (n / d : ℚ).den) := by
  obtain ⟨num, den⟩ := @num_den_div n d pos
  obtain ⟨-, -, numer, denom, positiveGcd⟩ := @lowestTerms n d pos
  unfold newSmall
  by_cases zero : n = 0
  · rw [if_pos zero, zero, Int.cast_zero, zero_div]
    rfl
  · rw [if_neg zero, if_neg pos.not_gt]
    dsimp only
    rw [gcdI64_eq fitsN fitsD pos, if_neg (Int.natCast_pos.mpr positiveGcd).ne',
      divI64_eq positiveGcd numer fitsN, divI64_eq positiveGcd denom fitsD, num, den]
    rfl

theorem meets_newSmall_of_pos (fitsN : Fits 64 n) (fitsD : Fits 64 d) (pos : 0 < d) :
    Meets (newSmall n d) (n / d) := by
  rw [newSmall_of_pos fitsN fitsD pos]
  exact meets_lowest (fits_div fitsN fitsD pos)

theorem meets_fromBig (q : ℚ) : Meets (fromBig q) q := by
  unfold fromBig
  split
  · rename_i n d num den
    obtain ⟨fitsN, rfl⟩ := checked_eq_some_iff.mp num
    obtain ⟨fitsD, rfl⟩ := checked_eq_some_iff.mp den
    have pos : (0 : Int) < q.den := Int.natCast_pos.mpr q.den_pos
    have value := meets_newSmall_of_pos fitsN fitsD pos
    rw [Int.cast_natCast, Rat.num_div_den] at value
    rw [if_pos pos.ne']
    exact value
  · rename_i overflow
    refine ⟨_, rfl, trivial, rfl, fun fits => ?_⟩
    exact absurd (checked_of_fits fits.2) (overflow _ _ (checked_of_fits fits.1))

/-- Pairs that are not reduced, since a negation overflows. -/
def Promotes (num den : Int) : Prop :=
  num ≠ 0 ∧ den < 0 ∧ (num = -2 ^ 63 ∨ den = -2 ^ 63) ∧ 2 ∣ num ∧ 2 ∣ den

theorem representable_iff (pos : 0 < d) (boundN : |n| ≤ 2 ^ 63) (boundD : d ≤ 2 ^ 63)
    (extreme : n = 2 ^ 63 ∨ d = 2 ^ 63) : Representable (n / d : ℚ) ↔ 2 ∣ n ∧ 2 ∣ d := by
  obtain ⟨num, den⟩ := @num_den_div n d pos
  obtain ⟨pos', -, numer, denom, positiveGcd⟩ := @lowestTerms n d pos
  have two : 2 ∣ n ∧ 2 ∣ d ↔ 2 ∣ n.gcd d := (Int.natCast_dvd_natCast.symm.trans Int.dvd_coe_gcd_iff).symm
  unfold Representable
  rw [two, num, den]
  generalize n.tdiv (n.gcd d) = k at *
  generalize d.tdiv (n.gcd d) = l at *
  have divides : n.gcd d ∣ 2 ^ 63 := by
    rcases extreme with power | power
    · exact Int.natCast_dvd_natCast.mp (power ▸ Int.gcd_dvd_left n d)
    · exact Int.natCast_dvd_natCast.mp (power ▸ Int.gcd_dvd_right n d)
  generalize n.gcd d = g at *
  constructor
  · rintro ⟨fitsK, fitsL⟩
    -- The divisor is a power of two, and not one.
    obtain ⟨i, -, rfl⟩ := (Nat.dvd_prime_pow Nat.prime_two).mp divides
    cases i with
    | zero =>
      rw [fits_64] at fitsK fitsL
      rcases extreme with power | power <;> omega
    | succ i => exact Dvd.intro_left _ (Nat.pow_succ ..).symm
  · rintro ⟨h, rfl⟩
    have positiveH : 0 < (h : Int) := by omega
    have boundK : |k| ≤ 2 ^ 62 := by
      rw [numer, abs_mul] at boundN
      have large : |k| ≤ h * |k| := le_mul_of_one_le_left (abs_nonneg k) positiveH
      have magnitude : |((2 * h : Nat) : Int)| = 2 * h := abs_of_nonneg (Int.natCast_nonneg _)
      rw [magnitude, mul_assoc] at boundN
      omega
    have boundL : l ≤ 2 ^ 62 := by
      have large : l ≤ h * l := le_mul_of_one_le_left pos'.le positiveH
      rw [denom, Nat.cast_mul, mul_assoc] at boundD
      push_cast at boundD
      omega
    have bothK := abs_le.mp boundK
    rw [fits_64, fits_64]
    omega

theorem newSmall_spec (fitsN : Fits 64 n) (fitsD : Fits 64 d) (nonzero : d ≠ 0) :
    Exact (newSmall n d) (n / d) ∧ (Meets (newSmall n d) (n / d) ↔ ¬Promotes n d) := by
  have exact_ {result : Option FastRational} {q : ℚ} (meets : Meets result q) : Exact result q :=
    meets.imp fun _ all => ⟨all.1, all.2.1, all.2.2.1⟩
  have good (meets : Meets (newSmall n d) (n / d)) (calm : ¬Promotes n d) :
      Exact (newSmall n d) (n / d) ∧ (Meets (newSmall n d) (n / d) ↔ ¬Promotes n d) :=
    ⟨exact_ meets, iff_of_true meets calm⟩
  rcases lt_or_gt_of_ne nonzero with negative | pos
  · by_cases zero : n = 0
    · refine good ?_ fun promotes => promotes.1 zero
      have nothing : newSmall n d = some (small 0 1) := if_pos zero
      rw [nothing, zero, Int.cast_zero, zero_div]
      exact meets_lowest (by decide : Representable 0)
    by_cases negatable : Fits 64 (-n) ∧ Fits 64 (-d)
    · -- The sign is moved to the numerator.
      have flipped : newSmall n d = newSmall (-n) (-d) := by
        unfold newSmall
        rw [if_neg zero, if_neg (neg_ne_zero.mpr zero), if_pos negative,
          if_neg (by omega : ¬-d < 0), checked_of_fits negatable.1, checked_of_fits negatable.2]
      have meets := meets_newSmall_of_pos negatable.1 negatable.2 (neg_pos.mpr negative)
      rw [Int.cast_neg, Int.cast_neg, neg_div_neg_eq, ← flipped] at meets
      refine good meets fun promotes => ?_
      obtain ⟨-, -, extreme, -⟩ := promotes
      rw [fits_64, fits_64] at negatable
      omega
    · have promoted : newSmall n d = some (big (n / d)) := by
        unfold newSmall
        rw [if_neg zero, if_pos negative]
        have none_ : (match checked 64 (-n), checked 64 (-d) with
            | some nn, some dd => some (nn, dd)
            | _, _ => none) = none := by
          split
          · rename_i nn dd num den
            exact absurd ⟨(checked_eq_some_iff.mp num).1, (checked_eq_some_iff.mp den).1⟩ negatable
          · rfl
        rw [none_]
      have extreme : n = -2 ^ 63 ∨ d = -2 ^ 63 := by
        rw [fits_64] at fitsN fitsD
        rw [fits_64, fits_64] at negatable
        omega
      have lowest := @representable_iff (-n) (-d) (neg_pos.mpr negative)
        (abs_neg n ▸ abs_le_of_fits fitsN) (by rw [fits_64] at fitsD; omega) (by omega)
      rw [Int.cast_neg, Int.cast_neg, neg_div_neg_eq, dvd_neg, dvd_neg] at lowest
      rw [promoted]
      refine ⟨⟨_, rfl, trivial, rfl⟩, ?_⟩
      have promotes : Promotes n d ↔ Representable (n / d : ℚ) := by
        rw [lowest]
        exact ⟨fun all => all.2.2.2, fun both => ⟨zero, negative, extreme, both⟩⟩
      rw [promotes]
      constructor
      · rintro ⟨r, same, -, -, isSmall⟩ fits
        obtain rfl := Option.some.inj same
        exact Bool.false_ne_true (isSmall fits)
      · exact fun large => ⟨_, rfl, trivial, rfl, fun fits => absurd fits large⟩
  · exact good (meets_newSmall_of_pos fitsN fitsD pos) fun promotes =>
      absurd promotes.2.1 pos.not_gt

end

end FastRational

end Nixie.Math
