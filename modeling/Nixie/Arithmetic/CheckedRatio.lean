import Mathlib.Tactic.FieldSimp
import Nixie.Math.MachineInt

/-! Checked arithmetic on rationals with machine integers as numerators and denominators. -/

namespace Nixie.Arithmetic

open Nixie.Math

/-- A numerator and a denominator, which are not reduced by themselves. -/
structure Rational64 where
  numer : Int
  denom : Int
  deriving DecidableEq, Repr

namespace Rational64

def val (r : Rational64) : ℚ := r.numer / r.denom

/-- Reduced pairs of machine integers with a positive denominator. -/
structure Canonical (r : Rational64) : Prop where
  numer : Fits 64 r.numer
  denom : Fits 64 r.denom
  positive : 0 < r.denom
  coprime : r.numer.natAbs.Coprime r.denom.natAbs

end Rational64

/-- The greatest common divisor, by shifts and subtractions on the magnitudes. -/
def gcdI64 (a b : Int) : Int :=
  let x := a.natAbs
  let y := b.natAbs
  if x = 0 then signed 64 y
  else if y = 0 then signed 64 x
  else
    let zx := trailingZeros 64 x
    let zy := trailingZeros 64 y
    let x := x >>> zx
    let y := y >>> zy
    signed 64 (oddGcd (x + y) x y <<< min zx zy)

def gcdI128 (a b : Int) : Int := b.natAbs.gcd a.natAbs

/-- A numerator and a denominator without their common divisor. -/
def cancelled (n d : Int) : Rational64 :=
  let g := gcdI64 n d
  if 1 < g then ⟨n.tdiv g, d.tdiv g⟩ else ⟨n, d⟩

/-- The reduced quotient of two wide integers, if it fits. -/
def checkedRatioI128 (numer denom : Int) : Option Rational64 :=
  if denom = 0 then none
  else
    let (numer, denom) := if denom < 0 then (-numer, -denom) else (numer, denom)
    if Fits 64 numer ∧ denom ≤ 2 ^ 63 - 1 then some (cancelled numer denom)
    else
      let g := gcdI128 numer denom
      let g := if g = 0 then 1 else g
      let n := numer.tdiv g
      let d := denom.tdiv g
      if ¬Fits 64 n ∨ 2 ^ 63 - 1 < d then none else some ⟨n, d⟩

def checkedMul (a b : Rational64) : Option Rational64 :=
  -- Common divisors of one numerator and the other denominator are cancelled before.
  let first := cancelled a.numer b.denom
  let second := cancelled b.numer a.denom
  match checked 64 (first.numer * second.numer), checked 64 (second.denom * first.denom) with
  | some n, some d => some ⟨n, d⟩
  | _, _ => do
    let numer ← checked 128 (a.numer * b.numer)
    let denom ← checked 128 (a.denom * b.denom)
    checkedRatioI128 numer denom

def checkedDiv (a b : Rational64) : Option Rational64 :=
  if b.numer = 0 then none
  else do
    let numer ← checked 128 (a.numer * b.denom)
    let denom ← checked 128 (a.denom * b.numer)
    checkedRatioI128 numer denom

def checkedAdd (a b : Rational64) : Option Rational64 :=
  if a.denom = 1 ∧ b.denom = 1 then
    (checked 64 (a.numer + b.numer)).map fun numer => ⟨numer, 1⟩
  else if a.denom = b.denom then do
    let numer ← checked 64 (a.numer + b.numer)
    if a.denom = 1 then some ⟨numer, 1⟩ else checkedRatioI128 numer a.denom
  else
    -- The numerators are scaled to the least common multiple.
    let g := gcdI64 a.denom b.denom
    let l2 := b.denom.tdiv g
    let l1 := a.denom.tdiv g
    let scaled := do
      let s1 ← checked 64 (a.numer * l2)
      let s2 ← checked 64 (b.numer * l1)
      let denom ← checked 64 (a.denom * l2)
      let numer ← checked 64 (s1 + s2)
      return cancelled numer denom
    match scaled with
    | some r => some r
    | none => do
      let ad ← checked 128 (a.numer * b.denom)
      let cb ← checked 128 (b.numer * a.denom)
      let numer ← checked 128 (ad + cb)
      let denom ← checked 128 (a.denom * b.denom)
      checkedRatioI128 numer denom

def checkedNeg (a : Rational64) : Option Rational64 := do
  let n ← checked 128 (-a.numer)
  if Fits 64 n then some ⟨n, a.denom⟩ else none

def checkedSub (a b : Rational64) : Option Rational64 := do
  let nb ← checkedNeg b
  checkedAdd a nb

def checkedRecip (a : Rational64) : Option Rational64 :=
  if a.numer = 0 then none else checkedRatioI128 a.denom a.numer

def checkedMulAdd (x f y : Rational64) : Option Rational64 :=
  if x.denom = 1 ∧ f.denom = 1 ∧ y.denom = 1 then do
    let fy ← checked 64 (f.numer * y.numer)
    let numer ← checked 64 (x.numer + fy)
    some ⟨numer, 1⟩
  else do
    let prod ← checkedMul f y
    checkedAdd x prod

/-- The canonical form of a rational, if it has one. -/
def exact (q : ℚ) : Option Rational64 :=
  if Fits 64 q.num ∧ Fits 64 q.den then some ⟨q.num, q.den⟩ else none

namespace Rational64

variable {r : Rational64} {q : ℚ}

theorem Canonical.num_val (canonical : r.Canonical) : r.val.num = r.numer :=
  Rat.num_div_eq_of_coprime canonical.positive canonical.coprime

theorem Canonical.den_val (canonical : r.Canonical) : (r.val.den : Int) = r.denom :=
  Rat.den_div_eq_of_coprime canonical.positive canonical.coprime

theorem Canonical.denom_ne_zero (canonical : r.Canonical) : (r.denom : ℚ) ≠ 0 :=
  Int.cast_ne_zero.mpr canonical.positive.ne'

theorem Canonical.val_eq_zero_iff (canonical : r.Canonical) : r.val = 0 ↔ r.numer = 0 := by
  rw [← Rat.num_eq_zero, canonical.num_val]

theorem exact_eq_some_iff : exact q = some r ↔ r.Canonical ∧ r.val = q := by
  unfold exact
  constructor
  · intro eq
    split at eq
    · rename_i fits
      obtain rfl := Option.some.inj eq
      refine ⟨⟨fits.1, fits.2, Int.natCast_pos.mpr q.den_pos, ?_⟩, Rat.num_div_den q⟩
      rw [Int.natAbs_natCast]
      exact q.reduced
    · cases eq
  · rintro ⟨canonical, rfl⟩
    rw [canonical.num_val, canonical.den_val, if_pos ⟨canonical.numer, canonical.denom⟩]

end Rational64

section

variable {n d : Int}

theorem exact_div (pos : 0 < d) (coprime : n.natAbs.Coprime d.natAbs) :
    exact (n / d : ℚ) = if Fits 64 n ∧ Fits 64 d then some ⟨n, d⟩ else none := by
  unfold exact
  rw [Rat.num_div_eq_of_coprime pos coprime, Rat.den_div_eq_of_coprime pos coprime]

theorem gcdI64_eq (fitsN : Fits 64 n) (fitsD : Fits 64 d) (pos : 0 < d) : gcdI64 n d = n.gcd d := by
  unfold gcdI64
  dsimp only
  exact signed_gcd fitsN fitsD pos le_rfl

/-- What is left after common divisors are cancelled. -/
structure Cancels (n d : Int) (r : Rational64) : Prop where
  positive : 0 < r.denom
  coprime : r.numer.natAbs.Coprime r.denom.natAbs
  divisor : ∃ g : Int, 0 < g ∧ n = g * r.numer ∧ d = g * r.denom

theorem cancels_tdiv (pos : 0 < d) : Cancels n d ⟨n.tdiv (n.gcd d), d.tdiv (n.gcd d)⟩ := by
  obtain ⟨pos', coprime, numer, denom, positiveGcd⟩ := @lowestTerms n d pos
  exact ⟨pos', coprime, n.gcd d, Int.natCast_pos.mpr positiveGcd, numer, denom⟩

theorem cancels_cancelled (fitsN : Fits 64 n) (fitsD : Fits 64 d) (pos : 0 < d) :
    Cancels n d (cancelled n d) := by
  have positiveGcd : 0 < n.gcd d := Int.gcd_pos_of_ne_zero_right n pos.ne'
  unfold cancelled
  rw [gcdI64_eq fitsN fitsD pos]
  dsimp only
  split
  · exact cancels_tdiv pos
  · -- There is no common divisor but one.
    have one : n.gcd d = 1 := by omega
    exact ⟨pos, one, 1, one_pos, (one_mul n).symm, (one_mul d).symm⟩

variable {r : Rational64}

namespace Cancels

theorem numer_fits (cancels : Cancels n d r) (fits : Fits 64 n) : Fits 64 r.numer := by
  obtain ⟨g, pos, rfl, -⟩ := cancels.divisor
  exact fits_of_mul pos fits

theorem denom_fits (cancels : Cancels n d r) (fits : Fits 64 d) : Fits 64 r.denom := by
  obtain ⟨g, pos, -, rfl⟩ := cancels.divisor
  exact fits_of_mul pos fits

theorem val_eq (cancels : Cancels n d r) : r.val = n / d := by
  obtain ⟨g, pos, rfl, rfl⟩ := cancels.divisor
  have nonzero : (g : ℚ) ≠ 0 := Int.cast_ne_zero.mpr pos.ne'
  rw [Int.cast_mul, Int.cast_mul, mul_div_mul_left _ _ nonzero]
  rfl

theorem exact_eq (cancels : Cancels n d r) :
    exact (n / d : ℚ) = if Fits 64 r.numer ∧ Fits 64 r.denom then some r else none := by
  rw [← cancels.val_eq]
  exact exact_div cancels.positive cancels.coprime

end Cancels

theorem exact_eq_cancelled (fitsN : Fits 64 n) (fitsD : Fits 64 d) (pos : 0 < d) :
    exact (n / d : ℚ) = some (cancelled n d) := by
  have cancels := cancels_cancelled fitsN fitsD pos
  rw [cancels.exact_eq, if_pos ⟨cancels.numer_fits fitsN, cancels.denom_fits fitsD⟩]

theorem checkedRatioI128_eq (nonzero : d ≠ 0) : checkedRatioI128 n d = exact (n / d : ℚ) := by
  -- Once the denominator is positive, the quotient is reduced on a short or on a long way.
  have ordered : ∀ n d : Int, 0 < d → (if Fits 64 n ∧ d ≤ 2 ^ 63 - 1 then some (cancelled n d)
      else
        if ¬Fits 64 (n.tdiv (if gcdI128 n d = 0 then 1 else gcdI128 n d)) ∨
          2 ^ 63 - 1 < d.tdiv (if gcdI128 n d = 0 then 1 else gcdI128 n d) then none
        else some ⟨n.tdiv (if gcdI128 n d = 0 then 1 else gcdI128 n d),
          d.tdiv (if gcdI128 n d = 0 then 1 else gcdI128 n d)⟩) = exact (n / d : ℚ) := by
    intro n d pos
    split
    · rename_i fits
      have fitsD : Fits 64 d := by
        rw [fits_64]
        omega
      exact (exact_eq_cancelled fits.1 fitsD pos).symm
    · have positiveGcd : 0 < n.gcd d := Int.gcd_pos_of_ne_zero_right n pos.ne'
      have gcd : gcdI128 n d = n.gcd d := congrArg Nat.cast (Nat.gcd_comm _ _)
      have cancels := cancels_tdiv (n := n) pos
      rw [gcd, if_neg (Int.natCast_pos.mpr positiveGcd).ne', cancels.exact_eq]
      have denom := cancels.positive
      dsimp only at denom
      have fits : Fits 64 (d.tdiv (n.gcd d)) ↔ ¬2 ^ 63 - 1 < d.tdiv (n.gcd d) := by
        rw [fits_64]
        omega
      by_cases both : Fits 64 (n.tdiv (n.gcd d)) ∧ Fits 64 (d.tdiv (n.gcd d))
      · rw [if_pos both, if_neg]
        exact not_or.mpr ⟨not_not.mpr both.1, fits.mp both.2⟩
      · rw [if_neg both, if_pos]
        rw [fits] at both
        tauto
  unfold checkedRatioI128
  rw [if_neg nonzero]
  by_cases negative : d < 0
  · rw [if_pos negative]
    have flipped := ordered (-n) (-d) (neg_pos.mpr negative)
    rw [Int.cast_neg, Int.cast_neg, neg_div_neg_eq] at flipped
    exact flipped
  · rw [if_neg negative]
    exact ordered n d (lt_of_le_of_ne (not_lt.mp negative) nonzero.symm)

end

end Nixie.Arithmetic

/-! Checked operations give the exact result exactly when it is representable. -/

namespace Nixie.Arithmetic

open Nixie.Math Option

namespace Rational64.Canonical

variable {a b f x y r : Rational64}

theorem checked_mul_128 {n m : Int} (left : Fits 64 n) (right : Fits 64 m) :
    checked 128 (n * m) = some (n * m) := by
  have bound := fits_mul left right
  refine checked_of_fits (fits_128.mpr ?_)
  omega

theorem checkedMul_eq (left : a.Canonical) (right : b.Canonical) :
    checkedMul a b = exact (a.val * b.val) := by
  have first := cancels_cancelled left.numer right.denom right.positive
  have second := cancels_cancelled right.numer left.denom left.positive
  have value : a.val * b.val =
      ((a.numer * b.numer : Int) : ℚ) / ((a.denom * b.denom : Int) : ℚ) := by
    rw [val, val, div_mul_div_comm, Int.cast_mul, Int.cast_mul]
  -- What is left on one side has no divisor in common with what is left on the other.
  have reduced : exact (a.val * b.val) =
      if Fits 64 ((cancelled a.numer b.denom).numer * (cancelled b.numer a.denom).numer) ∧
        Fits 64 ((cancelled b.numer a.denom).denom * (cancelled a.numer b.denom).denom)
      then some ⟨(cancelled a.numer b.denom).numer * (cancelled b.numer a.denom).numer,
        (cancelled b.numer a.denom).denom * (cancelled a.numer b.denom).denom⟩
      else none := by
    obtain ⟨g, positiveG, numerA, denomB⟩ := first.divisor
    obtain ⟨h, positiveH, numerB, denomA⟩ := second.divisor
    generalize cancelled a.numer b.denom = p at *
    generalize cancelled b.numer a.denom = q at *
    have coprimeA : p.numer.natAbs.Coprime q.denom.natAbs := by
      have coprime := left.coprime
      rw [numerA, denomA, Int.natAbs_mul, Int.natAbs_mul] at coprime
      exact coprime.coprime_mul_left.coprime_mul_left_right
    have coprimeB : q.numer.natAbs.Coprime p.denom.natAbs := by
      have coprime := right.coprime
      rw [numerB, denomB, Int.natAbs_mul, Int.natAbs_mul] at coprime
      exact coprime.coprime_mul_left.coprime_mul_left_right
    have coprime : (p.numer * q.numer).natAbs.Coprime (q.denom * p.denom).natAbs := by
      rw [Int.natAbs_mul, Int.natAbs_mul]
      exact (coprimeA.mul_left second.coprime).mul_right (first.coprime.mul_left coprimeB)
    rw [value, numerA, denomB, numerB, denomA, ← exact_div (mul_pos second.positive first.positive)
      coprime]
    congr 1
    have nonzeroG : (g : ℚ) ≠ 0 := Int.cast_ne_zero.mpr positiveG.ne'
    have nonzeroH : (h : ℚ) ≠ 0 := Int.cast_ne_zero.mpr positiveH.ne'
    have nonzeroP : (p.denom : ℚ) ≠ 0 := Int.cast_ne_zero.mpr first.positive.ne'
    have nonzeroQ : (q.denom : ℚ) ≠ 0 := Int.cast_ne_zero.mpr second.positive.ne'
    push_cast
    field_simp
  have nonzero : a.denom * b.denom ≠ 0 := (mul_pos left.positive right.positive).ne'
  unfold checkedMul
  dsimp only
  split
  · rename_i n d numer denom
    obtain ⟨fitsN, rfl⟩ := checked_eq_some_iff.mp numer
    obtain ⟨fitsD, rfl⟩ := checked_eq_some_iff.mp denom
    rw [reduced, if_pos ⟨fitsN, fitsD⟩]
  · rw [checked_mul_128 left.numer right.numer, checked_mul_128 left.denom right.denom]
    exact (checkedRatioI128_eq nonzero).trans (congrArg exact value.symm)

theorem checkedDiv_eq (left : a.Canonical) (right : b.Canonical) (nonzero : b.val ≠ 0) :
    checkedDiv a b = exact (a.val / b.val) := by
  have numer : b.numer ≠ 0 := fun zero => nonzero (right.val_eq_zero_iff.mpr zero)
  unfold checkedDiv
  rw [if_neg numer, checked_mul_128 left.numer right.denom, checked_mul_128 left.denom right.numer]
  refine (checkedRatioI128_eq (mul_ne_zero left.positive.ne' numer)).trans (congrArg exact ?_)
  rw [val, val, div_div_div_eq, Int.cast_mul, Int.cast_mul]

theorem checkedRecip_eq (canonical : a.Canonical) (nonzero : a.val ≠ 0) :
    checkedRecip a = exact a.val⁻¹ := by
  have numer : a.numer ≠ 0 := fun zero => nonzero (canonical.val_eq_zero_iff.mpr zero)
  unfold checkedRecip
  rw [if_neg numer, checkedRatioI128_eq numer, val, inv_div]

theorem checkedAdd_eq (left : a.Canonical) (right : b.Canonical)
    (sum : a.denom = b.denom → a.denom ≠ 1 → Fits 64 (a.numer + b.numer)) :
    checkedAdd a b = exact (a.val + b.val) := by
  unfold checkedAdd
  by_cases integral : a.denom = 1 ∧ b.denom = 1
  · rw [if_pos integral]
    have value : a.val + b.val = ((a.numer + b.numer : Int) : ℚ) / ((1 : Int) : ℚ) := by
      rw [val, val, integral.1, integral.2, ← add_div, Int.cast_add]
    have one : Fits 64 1 := by decide
    rw [value, exact_div one_pos (Nat.coprime_one_right _)]
    unfold checked
    simp only [one, and_true]
    split <;> rfl
  rw [if_neg integral]
  by_cases same : a.denom = b.denom
  · have notOne : a.denom ≠ 1 := fun one => integral ⟨one, same ▸ one⟩
    rw [if_pos same, checked_of_fits (sum same notOne)]
    simp only [bind_eq_bind, bind_some, if_neg notOne]
    refine (checkedRatioI128_eq left.positive.ne').trans (congrArg exact ?_)
    rw [val, val, ← same, ← add_div, Int.cast_add]
  · rw [if_neg same]
    have gcd := gcdI64_eq left.denom right.denom right.positive
    have wide : (do
        let ad ← checked 128 (a.numer * b.denom)
        let cb ← checked 128 (b.numer * a.denom)
        let numer ← checked 128 (ad + cb)
        let denom ← checked 128 (a.denom * b.denom)
        checkedRatioI128 numer denom) = exact (a.val + b.val) := by
      have boundL := fits_mul_of_pos left.numer right.denom right.positive
      have boundR := fits_mul_of_pos right.numer left.denom left.positive
      have fits : Fits 128 (a.numer * b.denom + b.numer * a.denom) := by
        rw [fits_128]
        omega
      rw [checked_mul_128 left.numer right.denom, checked_mul_128 right.numer left.denom,
        checked_mul_128 left.denom right.denom]
      simp only [bind_eq_bind, bind_some, checked_of_fits fits]
      refine (checkedRatioI128_eq (mul_pos left.positive right.positive).ne').trans
        (congrArg exact ?_)
      rw [val, val, div_add_div _ _ left.denom_ne_zero right.denom_ne_zero]
      push_cast
      ring
    dsimp only
    split
    · rename_i r scaled
      simp only [bind_eq_bind, bind_eq_some_iff, checked_eq_some_iff, pure_def,
        some.injEq] at scaled
      obtain ⟨_, ⟨-, rfl⟩, _, ⟨-, rfl⟩, _, ⟨fitsD, rfl⟩, _, ⟨fitsN, rfl⟩, rfl⟩ := scaled
      -- The scaled numerators are those over the least common multiple.
      have divisor : 0 < a.denom.gcd b.denom := Int.gcd_pos_of_ne_zero_right _ right.positive.ne'
      obtain ⟨l1, eq1⟩ := Int.gcd_dvd_left a.denom b.denom
      obtain ⟨l2, eq2⟩ := Int.gcd_dvd_right a.denom b.denom
      rw [gcd] at fitsN fitsD ⊢
      generalize a.denom.gcd b.denom = g at *
      have positiveG : (0 : Int) < g := Int.natCast_pos.mpr divisor
      have quotient1 : a.denom.tdiv g = l1 := by
        rw [eq1]
        exact Int.mul_tdiv_cancel_left l1 positiveG.ne'
      have quotient2 : b.denom.tdiv g = l2 := by
        rw [eq2]
        exact Int.mul_tdiv_cancel_left l2 positiveG.ne'
      rw [quotient1, quotient2] at fitsN ⊢
      rw [quotient2] at fitsD
      have positive2 : 0 < l2 := (mul_pos_iff_of_pos_left positiveG).mp (eq2 ▸ right.positive)
      rw [← exact_eq_cancelled fitsN fitsD (mul_pos left.positive positive2)]
      congr 1
      have nonzeroA := left.denom_ne_zero
      have nonzeroB := right.denom_ne_zero
      have nonzero2 : (l2 : ℚ) ≠ 0 := Int.cast_ne_zero.mpr positive2.ne'
      have nonzeroG : (g : ℚ) ≠ 0 := Nat.cast_ne_zero.mpr divisor.ne'
      have cast1 : (a.denom : ℚ) = g * l1 := by exact_mod_cast congrArg (Int.cast (R := ℚ)) eq1
      have cast2 : (b.denom : ℚ) = g * l2 := by exact_mod_cast congrArg (Int.cast (R := ℚ)) eq2
      have nonzero1 : (l1 : ℚ) ≠ 0 := by
        rw [cast1] at nonzeroA
        exact right_ne_zero_of_mul nonzeroA
      unfold val
      push_cast
      rw [cast1, cast2]
      field_simp
    · exact wide

theorem checkedNeg_eq (canonical : a.Canonical) :
    checkedNeg a = if a.numer = -2 ^ 63 then none else some ⟨-a.numer, a.denom⟩ := by
  have fits := canonical.numer
  have wide : Fits 128 (-a.numer) := by
    rw [fits_64] at fits
    rw [fits_128]
    omega
  have narrow : Fits 64 (-a.numer) ↔ a.numer ≠ -2 ^ 63 := by
    rw [fits_64] at fits ⊢
    omega
  unfold checkedNeg
  simp only [checked_of_fits wide, bind_eq_bind, bind_some, narrow, ite_not]

theorem neg (canonical : a.Canonical) (small : a.numer ≠ -2 ^ 63) :
    Canonical ⟨-a.numer, a.denom⟩ where
  numer := by
    have fits := canonical.numer
    rw [fits_64] at fits ⊢
    dsimp only
    omega
  denom := canonical.denom
  positive := canonical.positive
  coprime := by
    rw [Int.natAbs_neg]
    exact canonical.coprime

theorem checkedSub_eq (left : a.Canonical) (right : b.Canonical) (small : b.numer ≠ -2 ^ 63)
    (difference : a.denom = b.denom → a.denom ≠ 1 → Fits 64 (a.numer - b.numer)) :
    checkedSub a b = exact (a.val - b.val) := by
  unfold checkedSub
  rw [right.checkedNeg_eq, if_neg small]
  refine (left.checkedAdd_eq (right.neg small) difference).trans (congrArg exact ?_)
  rw [sub_eq_add_neg, val, val, val, Int.cast_neg, neg_div]

theorem checkedMulAdd_eq (first : f.Canonical) (second : y.Canonical) :
    checkedMulAdd x f y = (exact (f.val * y.val)).bind (checkedAdd x) := by
  rw [← first.checkedMul_eq second]
  unfold checkedMulAdd
  split
  · rename_i integral
    obtain ⟨oneX, oneF, oneY⟩ := integral
    have product : f.val * y.val = ((f.numer * y.numer : Int) : ℚ) / ((1 : Int) : ℚ) := by
      rw [val, val, oneF, oneY, Int.cast_one, div_one, div_one, div_one, Int.cast_mul]
    rw [first.checkedMul_eq second, product, exact_div one_pos (Nat.coprime_one_right _)]
    have one : Fits 64 1 := by decide
    by_cases fits : Fits 64 (f.numer * y.numer)
    · rw [if_pos ⟨fits, one⟩, checked_of_fits fits]
      unfold checkedAdd
      simp only [bind_eq_bind, bind_some, oneX, and_self, if_true]
      cases checked 64 (x.numer + f.numer * y.numer) <;> rfl
    · rw [if_neg fun both => fits both.1, checked_eq_none fits]
      rfl
  · rfl

end Rational64.Canonical

/-- A checked result is the canonical form of a number, if it has one, and nothing otherwise. -/
def Meets (result : Option Rational64) (q : ℚ) : Prop :=
  ∀ r, result = some r ↔ r.Canonical ∧ r.val = q

/-- Numerators over the same denominator, other than one, whose sum overflows. -/
def SumOverflows (n m : Int) (d : Int) : Prop := d ≠ 1 ∧ ¬Fits 64 (n + m)

instance (n m d : Int) : Decidable (SumOverflows n m d) := by
  unfold SumOverflows
  infer_instance

variable {a b x f y : Rational64}

theorem meets_of_eq {result : Option Rational64} {q : ℚ} (eq : result = exact q) :
    Meets result q := by
  intro r
  rw [eq]
  exact Rational64.exact_eq_some_iff

/--
Products, quotients and reciprocals are exact where they are representable.

So are sums and differences whose numerators do not overflow over a common denominator. The
opposite of the smallest integer is not representable, and neither is what is added to a product
that is not.
-/
theorem checked_meets (first : a.Canonical) (second : b.Canonical) (third : x.Canonical) :
    Meets (checkedMul a b) (a.val * b.val) ∧
    (b.val ≠ 0 → Meets (checkedDiv a b) (a.val / b.val)) ∧ (b.val = 0 → checkedDiv a b = none) ∧
    (a.val ≠ 0 → Meets (checkedRecip a) a.val⁻¹) ∧ (a.val = 0 → checkedRecip a = none) ∧
    (¬(a.denom = b.denom ∧ SumOverflows a.numer b.numer a.denom) →
      Meets (checkedAdd a b) (a.val + b.val)) ∧
    (b.numer = -2 ^ 63 → checkedSub a b = none) ∧
    (b.numer ≠ -2 ^ 63 → ¬(a.denom = b.denom ∧ SumOverflows a.numer (-b.numer) a.denom) →
      Meets (checkedSub a b) (a.val - b.val)) ∧
    (exact (a.val * b.val) = none → checkedMulAdd x a b = none) ∧
    ∀ p, exact (a.val * b.val) = some p →
      ¬(x.denom = p.denom ∧ SumOverflows x.numer p.numer x.denom) →
        Meets (checkedMulAdd x a b) (x.val + a.val * b.val) := by
  have fits {n m : Int} {d d' : Int} (fine : ¬(d = d' ∧ SumOverflows n m d)) :
      d = d' → d ≠ 1 → Fits 64 (n + m) := by
    intro same notOne
    by_contra overflow
    exact fine ⟨same, notOne, overflow⟩
  refine ⟨meets_of_eq (first.checkedMul_eq second),
    fun nonzero => meets_of_eq (first.checkedDiv_eq second nonzero), fun zero => ?_,
    fun nonzero => meets_of_eq (first.checkedRecip_eq nonzero), fun zero => ?_,
    fun fine => meets_of_eq (first.checkedAdd_eq second (fits fine)), fun smallest => ?_,
    fun small fine => meets_of_eq (first.checkedSub_eq second small (fits fine)),
    fun overflow => ?_, fun p product fine => ?_⟩
  · exact if_pos (second.val_eq_zero_iff.mp zero)
  · exact if_pos (first.val_eq_zero_iff.mp zero)
  · rw [checkedSub, second.checkedNeg_eq, if_pos smallest]
    rfl
  · rw [Rational64.Canonical.checkedMulAdd_eq first second, overflow]
    rfl
  · obtain ⟨canonical, value⟩ := Rational64.exact_eq_some_iff.mp product
    rw [Rational64.Canonical.checkedMulAdd_eq first second, product, ← value]
    exact meets_of_eq (third.checkedAdd_eq canonical (fits fine))

/-- Halves and thirds are added, subtracted and multiplied exactly. -/
theorem half_and_third : Meets (checkedMul ⟨1, 2⟩ ⟨1, 3⟩) ((1 / 2) * (1 / 3)) ∧
    Meets (checkedDiv ⟨1, 2⟩ ⟨1, 3⟩) ((1 / 2) / (1 / 3)) ∧
    Meets (checkedAdd ⟨1, 2⟩ ⟨1, 3⟩) (1 / 2 + 1 / 3) ∧
    Meets (checkedSub ⟨1, 2⟩ ⟨1, 3⟩) (1 / 2 - 1 / 3) ∧
    Meets (checkedMulAdd ⟨5, 1⟩ ⟨1, 2⟩ ⟨1, 3⟩) (5 + (1 / 2) * (1 / 3)) := by
  have half : Rational64.Canonical ⟨1, 2⟩ := ⟨by decide, by decide, by decide, by decide⟩
  have third : Rational64.Canonical ⟨1, 3⟩ := ⟨by decide, by decide, by decide, by decide⟩
  have five : Rational64.Canonical ⟨5, 1⟩ := ⟨by decide, by decide, by decide, by decide⟩
  obtain ⟨mul, div, -, -, -, add, -, sub, -, mulAdd⟩ := checked_meets half third five
  have product : exact (Rational64.val ⟨1, 2⟩ * Rational64.val ⟨1, 3⟩) = some ⟨1, 6⟩ :=
    Rational64.exact_eq_some_iff.mpr ⟨⟨by decide, by decide, by decide, by decide⟩,
      by norm_num [Rational64.val]⟩
  have numerators := mulAdd ⟨1, 6⟩ product (by decide)
  have quotient := div (by norm_num [Rational64.val])
  have sum := add (by decide)
  have difference := sub (by decide) (by decide)
  simp only [Rational64.val, Int.cast_one, Int.cast_ofNat, div_one] at *
  exact ⟨mul, quotient, sum, difference, numerators⟩

/-- A representable result is not found behind a product that is not representable. -/
theorem checkedMulAdd_misses : ¬∀ x f y : Rational64, x.Canonical → f.Canonical → y.Canonical →
    Meets (checkedMulAdd x f y) (x.val + f.val * y.val) := by
  intro meets
  have one : Fits 64 1 := by decide
  have canonical (n : Int) (fits : Fits 64 n) : Rational64.Canonical ⟨n, 1⟩ :=
    ⟨fits, one, one_pos, Nat.coprime_one_right _⟩
  -- The product is one more than the largest integer.
  have result := (meets ⟨-1, 1⟩ ⟨2 ^ 62, 1⟩ ⟨2, 1⟩ (canonical _ (by decide))
    (canonical _ (by decide)) (canonical _ (by decide)) ⟨2 ^ 63 - 1, 1⟩).mpr
    ⟨canonical _ (by decide), by norm_num [Rational64.val]⟩
  have nothing : checkedMulAdd ⟨-1, 1⟩ ⟨2 ^ 62, 1⟩ ⟨2, 1⟩ = none := by decide
  rw [nothing] at result
  cases result

end Nixie.Arithmetic
