import Nixie.Math.FastRational

/-! Every operation on rationals is exact, and its results are canonical. -/

namespace Nixie.Math.FastRational

open Option

section

variable {a b : FastRational} {n d k l : Int} {q : ℚ} {result : Option FastRational}

theorem Meets.exact (meets : Meets result q) : Exact result q :=
  meets.imp fun _ all => ⟨all.1, all.2.1, all.2.2.1⟩

theorem Valid.terms (valid : (small n d).Valid) :
    (n / d : ℚ).num = n ∧ ((n / d : ℚ).den : Int) = d :=
  ⟨Rat.num_div_eq_of_coprime valid.2.2.1 valid.2.2.2,
    Rat.den_div_eq_of_coprime valid.2.2.1 valid.2.2.2⟩

theorem Valid.den_ne_zero (valid : (small n d).Valid) : (d : ℚ) ≠ 0 :=
  Int.cast_ne_zero.mpr valid.2.2.1.ne'

theorem isZero_iff (valid : a.Valid) : a.isZero = true ↔ a.toBigRational = 0 := by
  cases a with
  | big value => exact beq_iff_eq
  | small num den =>
    unfold isZero toBigRational
    rw [beq_iff_eq, div_eq_zero_iff, Int.cast_eq_zero, Int.cast_eq_zero]
    exact ⟨Or.inl, fun zero => zero.resolve_right valid.2.2.1.ne'⟩

theorem cross_meets {f : Int → Int → Int} {q : ℚ} (left : (small n d).Valid)
    (right : (small k l).Valid) (value : q = (f (n * l) (k * d) : ℚ) / ((d * l : Int) : ℚ)) :
    Meets (match (do
        let ad ← checked 64 (n * l)
        let cb ← checked 64 (k * d)
        let bd ← checked 64 (d * l)
        let num ← checked 64 (f ad cb)
        return (num, bd) : Option (Int × Int)) with
      | some (num, bd) => newSmall num bd
      | none => fromBig q) q := by
  by_cases fits : Fits 64 (n * l) ∧ Fits 64 (k * d) ∧ Fits 64 (d * l) ∧ Fits 64 (f (n * l) (k * d))
  · -- Nothing overflows, and the pair is reduced.
    obtain ⟨first, second, denom, combined⟩ := fits
    rw [checked_of_fits first, checked_of_fits second, checked_of_fits denom]
    simp only [bind_eq_bind, bind_some, checked_of_fits combined]
    rw [value]
    exact meets_newSmall_of_pos combined denom (mul_pos left.2.2.1 right.2.2.1)
  · -- The combination is computed at any size.
    have nothing : (do
        let ad ← checked 64 (n * l)
        let cb ← checked 64 (k * d)
        let bd ← checked 64 (d * l)
        let num ← checked 64 (f ad cb)
        return (num, bd) : Option (Int × Int)) = none := by
      simp only [checked]
      grind
    rw [nothing]
    exact meets_fromBig _

theorem addSmall_meets (left : (small n d).Valid) (right : (small k l).Valid) :
    Meets (addSmall n d k l) (n / d + k / l) := by
  refine cross_meets (f := (· + ·)) left right ?_
  rw [div_add_div _ _ left.den_ne_zero right.den_ne_zero]
  push_cast
  ring

theorem subSmall_meets (left : (small n d).Valid) (right : (small k l).Valid) :
    Meets (subSmall n d k l) (n / d - k / l) := by
  refine cross_meets (f := (· - ·)) left right ?_
  rw [div_sub_div _ _ left.den_ne_zero right.den_ne_zero]
  push_cast
  ring

theorem cancels (fitsN : Fits 64 n) (fitsD : Fits 64 d) (pos : 0 < d) :
    ∃ n' d' : Int, cancel n (gcdI64 n d) = some n' ∧
      cancel d (gcdI64 n d) = some d' ∧ 0 < d' ∧ (n / d : ℚ) = n' / d' := by
  obtain ⟨pos', -, numer, denom, positiveGcd⟩ := @lowestTerms n d pos
  have nonzero : (n.gcd d : Int) ≠ 0 := (Int.natCast_pos.mpr positiveGcd).ne'
  refine ⟨n.tdiv (n.gcd d), _, ?_, ?_, pos', ?_⟩
  · rw [gcdI64_eq fitsN fitsD pos, cancel, if_pos nonzero]
    exact divI64_eq positiveGcd numer fitsN
  · rw [gcdI64_eq fitsN fitsD pos, cancel, if_pos nonzero]
    exact divI64_eq positiveGcd denom fitsD
  · have numer' := congrArg (Int.cast (R := ℚ)) numer
    have denom' := congrArg (Int.cast (R := ℚ)) denom
    rw [Int.cast_mul] at numer' denom'
    rw [numer', denom']
    exact mul_div_mul_left _ _ (Int.cast_ne_zero.mpr nonzero)

theorem mulSmall_meets (left : (small n d).Valid) (right : (small k l).Valid) :
    Meets (mulSmall n d k l) (n / d * (k / l)) := by
  -- Each numerator is reduced against the denominator of the other factor.
  obtain ⟨n', l', numer, denom, pos, cross⟩ := @cancels n l left.1 right.2.1 right.2.2.1
  obtain ⟨k', d', numer', denom', pos', cross'⟩ := @cancels k d right.1 left.2.1 left.2.2.1
  have value : (n / d * (k / l) : ℚ) = ((n' * k' : Int) : ℚ) / ((d' * l' : Int) : ℚ) := by
    rw [div_mul_div_comm, mul_comm (d : ℚ), ← div_mul_div_comm, cross, cross', div_mul_div_comm,
      mul_comm (l' : ℚ), Int.cast_mul, Int.cast_mul]
  unfold mulSmall
  simp only [numer, denom, numer', denom', bind_eq_bind, bind_some]
  split
  · rename_i num den product product'
    obtain ⟨fits, rfl⟩ := checked_eq_some_iff.mp product
    obtain ⟨fits', rfl⟩ := checked_eq_some_iff.mp product'
    rw [value]
    exact meets_newSmall_of_pos fits fits' (mul_pos pos' pos)
  · exact meets_fromBig _

def PromotesDiv : FastRational → FastRational → Prop
  | small an ad, small bn bd =>
    Fits 64 (an * bd) ∧ Fits 64 (ad * bn) ∧ Promotes (an * bd) (ad * bn)
  | _, _ => False

theorem divSmall_spec (left : (small n d).Valid) (nonzero : k ≠ 0) :
    Exact (divSmall n d k l) (n / d / (k / l)) ∧
      (Meets (divSmall n d k l) (n / d / (k / l)) ↔ ¬PromotesDiv (small n d) (small k l)) := by
  have value : (n / d / (k / l) : ℚ) = ((n * l : Int) : ℚ) / ((d * k : Int) : ℚ) := by
    rw [div_div_div_eq, Int.cast_mul, Int.cast_mul]
  by_cases fits : Fits 64 (n * l) ∧ Fits 64 (d * k)
  · rw [divSmall, if_neg nonzero, checked_of_fits fits.1, checked_of_fits fits.2, value]
    have all := newSmall_spec fits.1 fits.2 (mul_ne_zero left.2.2.1.ne' nonzero)
    refine ⟨all.1, all.2.trans (not_congr ?_)⟩
    exact ⟨fun promotes => ⟨fits.1, fits.2, promotes⟩, fun promotes => promotes.2.2⟩
  · have large : divSmall n d k l = fromBig (n / d / (k / l)) := by
      rw [divSmall, if_neg nonzero]
      split
      · rename_i num den product product'
        exact absurd ⟨(checked_eq_some_iff.mp product).1, (checked_eq_some_iff.mp product').1⟩ fits
      · rfl
    rw [large]
    exact ⟨(meets_fromBig _).exact,
      iff_of_true (meets_fromBig _) fun promotes => fits ⟨promotes.1, promotes.2.1⟩⟩

theorem add_meets (left : a.Valid) (right : b.Valid) :
    Meets (a.add b) (a.toBigRational + b.toBigRational) := by
  match a, b with
  | small _ _, small _ _ => exact addSmall_meets left right
  | small _ _, big _ => exact meets_fromBig _
  | big _, _ => exact meets_fromBig _

theorem sub_meets (left : a.Valid) (right : b.Valid) :
    Meets (a.sub b) (a.toBigRational - b.toBigRational) := by
  match a, b with
  | small _ _, small _ _ => exact subSmall_meets left right
  | small _ _, big _ => exact meets_fromBig _
  | big _, _ => exact meets_fromBig _

theorem mul_meets (left : a.Valid) (right : b.Valid) :
    Meets (a.mul b) (a.toBigRational * b.toBigRational) := by
  match a, b with
  | small _ _, small _ _ => exact mulSmall_meets left right
  | small _ _, big _ => exact meets_fromBig _
  | big _, _ => exact meets_fromBig _

theorem div_spec (left : a.Valid) (right : b.Valid) (nonzero : b.toBigRational ≠ 0) :
    Exact (a.div b) (a.toBigRational / b.toBigRational) ∧
      (Meets (a.div b) (a.toBigRational / b.toBigRational) ↔ ¬PromotesDiv a b) := by
  have pos : ¬b.isZero = true := (isZero_iff right).not.mpr nonzero
  have large : Exact (fromBig (a.toBigRational / b.toBigRational))
      (a.toBigRational / b.toBigRational) ∧
      (Meets (fromBig (a.toBigRational / b.toBigRational)) (a.toBigRational / b.toBigRational) ↔
        ¬False) := ⟨(meets_fromBig _).exact, iff_of_true (meets_fromBig _) not_false⟩
  match a, b with
  | small _ _, small k l =>
    refine divSmall_spec left fun zero => pos ?_
    rw [isZero, zero]
    rfl
  | small _ _, big _ =>
    rw [div, if_neg pos]
    · exact large
    · exact nofun
  | big _, _ =>
    rw [div, if_neg pos]
    · exact large
    · exact nofun

theorem neg_meets (valid : a.Valid) : Meets a.neg (-a.toBigRational) := by
  cases a with
  | big value => exact meets_fromBig _
  | small num den =>
    obtain ⟨fitsN, fitsD, pos, coprime⟩ := valid
    rw [neg, toBigRational, ← neg_div]
    by_cases fits : Fits 64 (-num)
    · rw [checked_of_fits fits]
      have valid' : (small (-num) den).Valid := ⟨fits, fitsD, pos, by rwa [Int.natAbs_neg]⟩
      refine ⟨_, rfl, valid', ?_, fun _ => rfl⟩
      rw [toBigRational, Int.cast_neg]
    · -- The opposite of the least machine integer is in lowest terms already.
      rw [checked_eq_none fits]
      refine ⟨_, rfl, trivial, rfl, fun representable => absurd representable.1 ?_⟩
      have terms := @Rat.num_div_eq_of_coprime (-num) den pos (by rwa [Int.natAbs_neg])
      rw [Int.cast_neg] at terms
      rwa [terms]

theorem abs_meets (valid : a.Valid) : Meets a.abs |a.toBigRational| := by
  cases a with
  | big value => exact meets_fromBig _
  | small num den =>
    obtain ⟨fitsN, fitsD, pos, coprime⟩ := valid
    have magnitude : |(num / den : ℚ)| = |(num : ℚ)| / den := by
      rw [abs_div, abs_of_pos (Int.cast_pos.mpr pos)]
    rw [abs, toBigRational, magnitude]
    by_cases fits : Fits 64 |num|
    · rw [checked_of_fits fits]
      have valid' : (small |num| den).Valid := ⟨fits, fitsD, pos, by rwa [Int.natAbs_abs]⟩
      refine ⟨_, rfl, valid', ?_, fun _ => rfl⟩
      rw [toBigRational, Int.cast_abs]
    · rw [checked_eq_none fits]
      exact meets_fromBig _

theorem recip_meets (valid : a.Valid) (nonzero : a.toBigRational ≠ 0) :
    ∃ result, a.recip = some (some result) ∧ Meets (some result) a.toBigRational⁻¹ := by
  have pos : ¬a.isZero = true := (isZero_iff valid).not.mpr nonzero
  cases a with
  | big value =>
    have zero : ¬value = 0 := nonzero
    obtain ⟨r, same, all⟩ := meets_fromBig value⁻¹
    refine ⟨r, ?_, r, rfl, all⟩
    rw [recip, if_neg zero, same]
    rfl
  | small num den =>
    have zero : num ≠ 0 := fun zero => pos (by rw [isZero, zero]; rfl)
    obtain ⟨fitsN, fitsD, -, coprime⟩ := valid
    -- Terms without a common divisor are not both even.
    have calm : ¬Promotes den num := by
      intro promotes
      have even := Nat.dvd_gcd (Int.natAbs_dvd_natAbs.mpr promotes.2.2.2.2)
        (Int.natAbs_dvd_natAbs.mpr promotes.2.2.2.1)
      rw [coprime] at even
      exact absurd even (by decide)
    obtain ⟨r, same, all⟩ := (newSmall_spec fitsD fitsN zero).2.mpr calm
    rw [← inv_div] at all
    refine ⟨r, ?_, r, rfl, all⟩
    rw [recip, if_neg zero, same]
    rfl

theorem recip_zero (valid : a.Valid) (zero : a.toBigRational = 0) : a.recip = some none := by
  have isZero_ := (isZero_iff valid).mpr zero
  cases a with
  | big value => exact if_pos zero
  | small num den => exact if_pos (beq_iff_eq.mp isZero_)

theorem tdiv_den (q : ℚ) (fraction : q.den ≠ 1) :
    q.num.tdiv q.den = q.num / q.den + if 0 < q then 0 else 1 := by
  have indivisible : ¬(q.den : Int) ∣ q.num := fun divides => by
    have one := Nat.Coprime.eq_one_of_dvd q.reduced.symm (Int.natCast_dvd.mp divides)
    exact fraction one
  rw [Int.tdiv_eq_ediv]
  by_cases pos : 0 < q
  · rw [if_pos pos, if_pos (Or.inl (Rat.num_pos.mpr pos).le)]
  · have negative : ¬0 ≤ q.num := fun above => by
      have zero := (Rat.num_nonneg.mp above).antisymm (not_lt.mp pos)
      exact fraction (by rw [← zero]; rfl)
    rw [if_neg pos, if_neg (not_or.mpr ⟨negative, indivisible⟩),
      Int.sign_eq_one_of_pos (Int.natCast_pos.mpr q.den_pos)]

theorem bigFloor_eq (q : ℚ) : bigFloor q = ⌊q⌋ := by
  rw [Rat.floor_def', bigFloor]
  by_cases integer : q.den = 1
  · rw [if_pos integer, integer, Nat.cast_one, Int.ediv_one]
  · rw [if_neg integer, tdiv_den q integer]
    split <;> omega

theorem bigCeil_eq (q : ℚ) : bigCeil q = ⌈q⌉ := by
  have opposite : ⌈q⌉ = -(-q.num / q.den) := by
    rw [← neg_neg q, Int.ceil_neg, Rat.floor_def', Rat.num_neg_eq_neg_num, Rat.den_neg_eq_den,
      neg_neg]
  rw [opposite, bigCeil]
  by_cases integer : q.den = 1
  · rw [if_pos integer, integer, Nat.cast_one, Int.ediv_one, neg_neg]
  · have indivisible : ¬(q.den : Int) ∣ q.num := fun divides => by
      exact integer (Nat.Coprime.eq_one_of_dvd q.reduced.symm (Int.natCast_dvd.mp divides))
    have pos : (0 : Int) < q.den := Int.natCast_pos.mpr q.den_pos
    have flipped : -q.num / (q.den : Int) = -(q.num / q.den) - 1 := by
      rw [Int.neg_ediv, if_neg indivisible, Int.sign_eq_one_of_pos pos]
    rw [if_neg integer, tdiv_den q integer, flipped]
    split <;> omega

theorem fits_ediv (fits : Fits 64 n) (pos : 0 < d) : Fits 64 (n / d) := by
  rw [fits_64] at fits ⊢
  constructor
  · exact (Int.le_ediv_iff_mul_le pos).mpr (by nlinarith)
  · exact Int.lt_add_one_iff.mp ((Int.ediv_lt_iff_lt_mul pos).mpr (by nlinarith))

theorem floor_eq (valid : a.Valid) : a.floor = some ⌊a.toBigRational⌋ := by
  cases a with
  | big value => exact congrArg some (bigFloor_eq value)
  | small num den =>
    obtain ⟨terms, terms'⟩ := valid.terms
    obtain ⟨fitsN, fitsD, pos, -⟩ := valid
    rw [toBigRational, Rat.floor_def', terms, terms', floor]
    by_cases one : den = 1
    · rw [if_pos one, one, Int.ediv_one]
    · rw [if_neg one, Int.fdiv_eq_ediv_of_nonneg num pos.le]
      exact checked_of_fits (fits_ediv fitsN pos)

theorem ceil_eq (valid : a.Valid) : a.ceil = some ⌈a.toBigRational⌉ := by
  cases a with
  | big value => exact congrArg some (bigCeil_eq value)
  | small num den =>
    obtain ⟨terms, terms'⟩ := valid.terms
    obtain ⟨fitsN, fitsD, pos, -⟩ := valid
    have opposite : ⌈(num / den : ℚ)⌉ = -(-num / den) := by
      rw [← neg_neg (num / den : ℚ), Int.ceil_neg, Rat.floor_def', Rat.num_neg_eq_neg_num,
        Rat.den_neg_eq_den, terms, terms']
    rw [toBigRational, opposite, ceil]
    by_cases one : den = 1
    · rw [if_pos one, one, Int.ediv_one, neg_neg]
    · rw [if_neg one, Int.fdiv_eq_ediv_of_nonneg (-num) pos.le]
      refine checked_of_fits ?_
      -- Half of the largest opposite fits.
      have half : 2 ≤ den := by omega
      have low : -2 ^ 62 ≤ -num / den := by
        rw [fits_64] at fitsN
        exact (Int.le_ediv_iff_mul_le pos).mpr (by nlinarith)
      have high : -num / den ≤ 2 ^ 62 := by
        rw [fits_64] at fitsN
        exact Int.lt_add_one_iff.mp ((Int.ediv_lt_iff_lt_mul pos).mpr (by nlinarith))
      rw [fits_64]
      omega

theorem fromBigint_meets (n : Int) : Meets (some (fromBigint n)) n := by
  unfold fromBigint
  by_cases fits : Fits 64 n
  · rw [checked_of_fits fits]
    refine ⟨_, rfl, ⟨fits, by decide, by decide, Nat.coprime_one_right _⟩, ?_, fun _ => rfl⟩
    rw [toBigRational, Int.cast_one, div_one]
  · rw [checked_eq_none fits]
    exact ⟨_, rfl, trivial, rfl, fun representable => absurd representable.1 fits⟩

/-- What is left of a value by a division that is rounded down. -/
def remainder (p q : ℚ) : ℚ := if q = 0 then 0 else p - q * ⌊p / q⌋

theorem rem_meets (left : a.Valid) (right : b.Valid) :
    Meets (a.rem b) (remainder a.toBigRational b.toBigRational) := by
  unfold rem remainder
  by_cases zero : b.toBigRational = 0
  · rw [if_pos ((isZero_iff right).mpr zero), if_pos zero]
    exact meets_lowest (by decide : Representable 0)
  · rw [if_neg ((isZero_iff right).not.mpr zero), if_neg zero]
    -- The quotient need not be small for its integer part to be right.
    obtain ⟨quotient, same, valid, value⟩ := (div_spec left right zero).1
    obtain ⟨whole, sameInteger, validInteger, integer, -⟩ := fromBigint_meets ⌊quotient.toBigRational⌋
    obtain rfl := some.inj sameInteger
    obtain ⟨product, sameProduct, validProduct, exactProduct, -⟩ := mul_meets right validInteger
    have difference := sub_meets left validProduct
    rw [same, bind_eq_bind, bind_some, floor_eq valid, bind_eq_bind, bind_some]
    dsimp only
    rw [sameProduct, bind_some]
    rwa [exactProduct, integer, value] at difference

theorem small_inj (left : (small n d).Valid) (right : (small k l).Valid) :
    (n / d : ℚ) = k / l ↔ n = k ∧ d = l := by
  constructor
  · intro same
    obtain ⟨num, den⟩ := left.terms
    obtain ⟨num', den'⟩ := right.terms
    rw [same] at num den
    exact ⟨num.symm.trans num', den.symm.trans den'⟩
  · intro both
    rw [both.1, both.2]

theorem eq_iff (left : a.Valid) (right : b.Valid) :
    a.eq b = true ↔ a.toBigRational = b.toBigRational := by
  match a, b with
  | small _ _, small _ _ =>
    rw [eq, Bool.and_eq_true, beq_iff_eq, beq_iff_eq]
    exact (small_inj left right).symm
  | small _ _, big _ => exact beq_iff_eq
  | big _, _ => exact beq_iff_eq

theorem cmp_eq (left : a.Valid) (right : b.Valid) :
    a.cmp b = compare a.toBigRational b.toBigRational := by
  match a, b with
  | small n d, small k l =>
    rw [cmp]
    split
    · rename_i lhs rhs product product'
      obtain ⟨-, rfl⟩ := checked_eq_some_iff.mp product
      obtain ⟨-, rfl⟩ := checked_eq_some_iff.mp product'
      -- Denominators are positive, so that the products compare as the quotients do.
      have pos : (0 : ℚ) < d := Int.cast_pos.mpr left.2.2.1
      have pos' : (0 : ℚ) < l := Int.cast_pos.mpr right.2.2.1
      have lower : n * l < k * d ↔ (n / d : ℚ) < k / l := by
        rw [div_lt_div_iff₀ pos pos']
        exact_mod_cast Iff.rfl
      have same : n * l = k * d ↔ (n / d : ℚ) = k / l := by
        rw [div_eq_div_iff pos.ne' pos'.ne']
        exact_mod_cast Iff.rfl
      rw [LinearOrder.compare_eq_compareOfLessAndEq, LinearOrder.compare_eq_compareOfLessAndEq,
        toBigRational, toBigRational]
      simp only [compareOfLessAndEq, lower, same]
    · rfl
  | small _ _, big _ => rfl
  | big _, _ => rfl

/-- What the hash of a rational number is computed from. -/
def hashInput (q : ℚ) : HashInput :=
  if Representable q then .words q.num q.den else .integers q.num q.den

theorem hash_eq (valid : a.Valid) : a.hash = some (hashInput a.toBigRational) := by
  cases a with
  | small num den =>
    obtain ⟨terms, terms'⟩ := valid.terms
    have fits : Representable (num / den : ℚ) := by
      rw [Representable, terms, terms']
      exact ⟨valid.1, valid.2.1⟩
    rw [toBigRational, hashInput, if_pos fits, terms, terms']
    rfl
  | big value =>
    rw [hash, toBigRational, hashInput]
    split
    · rename_i n d num den
      obtain ⟨fitsN, rfl⟩ := checked_eq_some_iff.mp num
      obtain ⟨fitsD, rfl⟩ := checked_eq_some_iff.mp den
      rw [if_pos (Int.natCast_pos.mpr value.den_pos), if_pos ⟨fitsN, fitsD⟩]
    · rename_i overflow
      have large : ¬Representable value := fun fits =>
        overflow _ _ (checked_of_fits fits.1) (checked_of_fits fits.2)
      rw [if_neg large]

theorem hashInput_inj {p q : ℚ} : hashInput p = hashInput q ↔ p = q := by
  constructor
  · intro same
    unfold hashInput at same
    have terms : p.num = q.num ∧ (p.den : Int) = q.den := by
      split at same <;> split at same
      · exact HashInput.words.inj same
      · cases same
      · cases same
      · exact HashInput.integers.inj same
    exact Rat.ext terms.1 (Int.natCast_inj.mp terms.2)
  · exact congrArg hashInput

end

inductive Operation where
  | newSmall (num den : Int)
  | fromBig (br : ℚ)
  | fromBigint (bi : Int)
  | add (a b : FastRational)
  | sub (a b : FastRational)
  | mul (a b : FastRational)
  | div (a b : FastRational)
  | rem (a b : FastRational)
  | neg (a : FastRational)
  | abs (a : FastRational)
  | recip (a : FastRational)

namespace Operation

def operands : Operation → List FastRational
  | newSmall .. | fromBig _ | fromBigint _ => []
  | add a b | sub a b | mul a b | div a b | rem a b => [a, b]
  | neg a | abs a | recip a => [a]

/-- Machine integers are in range, and denominators and divisors are not zero. -/
def Legal : Operation → Prop
  | newSmall num den => Fits 64 num ∧ Fits 64 den ∧ den ≠ 0
  | div _ b => b.toBigRational ≠ 0
  | recip a => a.toBigRational ≠ 0
  | _ => True

/-- What the code computes; nothing on overflow and when it panics. -/
def result : Operation → Option FastRational
  | newSmall num den => FastRational.newSmall num den
  | fromBig br => FastRational.fromBig br
  | fromBigint bi => some (FastRational.fromBigint bi)
  | add a b => a.add b
  | sub a b => a.sub b
  | mul a b => a.mul b
  | div a b => a.div b
  | rem a b => a.rem b
  | neg a => a.neg
  | abs a => a.abs
  | recip a => a.recip.bind id

def exact_ : Operation → ℚ
  | newSmall num den => num / den
  | fromBig br => br
  | fromBigint bi => bi
  | add a b => a.toBigRational + b.toBigRational
  | sub a b => a.toBigRational - b.toBigRational
  | mul a b => a.toBigRational * b.toBigRational
  | div a b => a.toBigRational / b.toBigRational
  | rem a b => remainder a.toBigRational b.toBigRational
  | neg a => -a.toBigRational
  | abs a => |a.toBigRational|
  | recip a => a.toBigRational⁻¹

/-- The sign of a reducible pair cannot be moved, since a negation overflows. -/
def Promotes : Operation → Prop
  | newSmall num den => FastRational.Promotes num den
  | div a b => PromotesDiv a b
  | _ => False

end Operation

inductive Reachable : FastRational → Prop
  | result {op : Operation} {r : FastRational} (legal : op.Legal)
      (operands : ∀ a ∈ op.operands, Reachable a) (same : op.result = some r) : Reachable r

theorem Operation.meets (op : Operation) (legal : op.Legal) (valid : ∀ a ∈ op.operands, a.Valid) :
    Exact op.result op.exact_ ∧ (Meets op.result op.exact_ ↔ ¬op.Promotes) := by
  have good {result : Option FastRational} {q : ℚ} (meets : Meets result q) :
      Exact result q ∧ (Meets result q ↔ ¬False) := ⟨meets.exact, iff_of_true meets not_false⟩
  cases op with
  | newSmall num den => exact newSmall_spec legal.1 legal.2.1 legal.2.2
  | fromBig br => exact good (meets_fromBig br)
  | fromBigint bi => exact good (fromBigint_meets bi)
  | add a b => exact good (add_meets (valid a (.head _)) (valid b (.tail _ (.head _))))
  | sub a b => exact good (sub_meets (valid a (.head _)) (valid b (.tail _ (.head _))))
  | mul a b => exact good (mul_meets (valid a (.head _)) (valid b (.tail _ (.head _))))
  | div a b => exact div_spec (valid a (.head _)) (valid b (.tail _ (.head _))) legal
  | rem a b => exact good (rem_meets (valid a (.head _)) (valid b (.tail _ (.head _))))
  | neg a => exact good (neg_meets (valid a (.head _)))
  | abs a => exact good (abs_meets (valid a (.head _)))
  | recip a =>
    obtain ⟨r, same, meets⟩ := recip_meets (valid a (.head _)) legal
    have result : (recip a).result = some r := congrArg (bind · id) same
    rw [result]
    exact good meets

theorem Reachable.valid {a : FastRational} (reachable : Reachable a) : a.Valid := by
  induction reachable with
  | result legal _ same valid =>
    obtain ⟨r, same', validResult, -⟩ := (Operation.meets _ legal valid).1
    rw [same] at same'
    rwa [some.inj same']

/-- Arithmetic is exact, and its results are small unless a negation overflows. -/
theorem operations_meet_iff (op : Operation) (a b : FastRational) :
    (op.Legal → (∀ operand ∈ op.operands, Reachable operand) →
      Exact op.result op.exact_ ∧ (Meets op.result op.exact_ ↔ ¬op.Promotes)) ∧
    (Reachable a → a.Valid ∧ a.floor = some ⌊a.toBigRational⌋ ∧
      a.ceil = some ⌈a.toBigRational⌉ ∧ (a.toBigRational = 0 → a.recip = some none)) ∧
    (Reachable a → Reachable b → (a.eq b = true ↔ a.toBigRational = b.toBigRational) ∧
      a.cmp b = compare a.toBigRational b.toBigRational ∧
      ∃ h k, a.hash = some h ∧ b.hash = some k ∧
        (h = k ↔ a.toBigRational = b.toBigRational)) := by
  refine ⟨fun legal reachable => ?_, fun reachable => ?_, fun left right => ?_⟩
  · exact op.meets legal fun operand member => (reachable operand member).valid
  · have valid := reachable.valid
    exact ⟨valid, floor_eq valid, ceil_eq valid, recip_zero valid⟩
  · exact ⟨eq_iff left.valid right.valid, cmp_eq left.valid right.valid, _, _, hash_eq left.valid,
      hash_eq right.valid, hashInput_inj⟩

/-- A pair whose value fits, and that is not small. -/
theorem newSmall_promotes :
    ¬∀ op : Operation, op.Legal → (∀ a ∈ op.operands, Reachable a) → Meets op.result op.exact_ := by
  intro meets
  have legal : (Operation.newSmall (-2 ^ 63) (-2)).Legal := ⟨by decide, by decide, by decide⟩
  obtain ⟨r, same, -, -, isSmall⟩ := meets _ legal fun _ member => nomatch member
  have result : (Operation.newSmall (-2 ^ 63) (-2)).result = some (big (2 ^ 62)) := by
    decide +kernel
  have fits : Representable (Operation.newSmall (-2 ^ 63) (-2)).exact_ := by decide +kernel
  have promoted := isSmall fits
  rw [← some.inj (result.symm.trans same)] at promoted
  exact Bool.false_ne_true promoted

end Nixie.Math.FastRational
