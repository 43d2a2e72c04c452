import Nixie.Math.IntervalOperations

/-! Which interval operations enclose all results, and the intervals for which zero is lost. -/

namespace Nixie.Math.Interval

open Nixie.Math.Bound Option

variable {a b c : Interval} {x y : ℚ}

theorem contains_zero_of_isEnd (some_ : a.isEmpty = false) (end_ : a.IsEnd 0 false) :
    a.contains 0 = true := by
  have le := le_of_isEmpty_eq_false some_
  have nonempty := isEmpty_eq_false_iff.mp some_
  rcases end_ with ⟨eq, closed_⟩ | ⟨eq, closed_⟩
  · refine contains_iff.mpr ⟨⟨eq.ge, fun isOpen => ?_⟩, eq.trans_le le, fun isOpen same => ?_⟩
    · rw [← closed_] at isOpen
      cases isOpen
    · rcases nonempty with less | ⟨-, -, closed'⟩
      · exact less.ne (eq.symm.trans same)
      · rw [closed'] at isOpen
        cases isOpen
  · refine contains_iff.mpr ⟨⟨le.trans_eq eq.symm, fun isOpen same => ?_⟩, eq.le, fun isOpen => ?_⟩
    · rcases nonempty with less | ⟨-, closed', -⟩
      · exact less.ne (same.trans eq)
      · rw [closed'] at isOpen
        cases isOpen
    · rw [← closed_] at isOpen
      cases isOpen

theorem exists_contains_ne_zero (some_ : a.isEmpty = false) (loOpen : a.loOpen = true) :
    ∃ y, a.contains y = true ∧ y ≠ 0 := by
  have less : a.lo < a.hi := by
    rcases isEmpty_eq_false_iff.mp some_ with less | ⟨-, closed_, -⟩
    · exact less
    · rw [loOpen] at closed_
      cases closed_
  have between {r : ℚ} {e : Bound} (le : e ≤ a.hi) (after : a.lo < finite r) (before : finite r < e) :
      a.contains r = true :=
    contains_iff.mpr ⟨⟨after.le, fun _ => after.ne⟩, (before.trans_le le).le,
      fun _ => (before.trans_le le).ne⟩
  obtain ⟨r, after, before⟩ := exists_finite_between less
  by_cases zero : r = 0
  · obtain ⟨s, after', before'⟩ := exists_finite_between after
    refine ⟨s, between before.le after' before', ?_⟩
    exact (zero ▸ finite_lt_finite.mp before').ne
  · exact ⟨r, between le_rfl after before, zero⟩

theorem mul_encloses_iff (wellFormed : a.WellFormed) (wellFormed' : b.WellFormed) :
    (∀ {x y}, a.contains x = true → b.contains y = true → (a.mul b).contains (x * y) = true) ↔
      (a.isEmpty = false → b.isEmpty = false → ¬LosesZero a b ∧ ¬LosesZero b a) := by
  constructor
  · intro encloses someLeft someRight
    have keeps {x y} (left : a.contains x = true) (right : b.contains y = true) (zero : x * y = 0) :
        ¬LosesZero a b ∧ ¬LosesZero b a :=
      (contains_mul_zero_iff left right zero).mp (zero ▸ encloses left right)
    constructor
    · intro loses
      obtain ⟨y, right⟩ := wellFormed'.exists_contains someRight
      exact (keeps (contains_zero_of_isEnd someLeft loses.ends) right (Rat.zero_mul y)).1 loses
    · intro loses
      obtain ⟨x, left⟩ := wellFormed.exists_contains someLeft
      exact (keeps left (contains_zero_of_isEnd someRight loses.ends) (Rat.mul_zero x)).2 loses
  · intro keeps x y left right
    by_cases zero : x * y = 0
    · rw [zero]
      exact (contains_mul_zero_iff left right zero).mpr
        (keeps (isEmpty_eq_false left) (isEmpty_eq_false right))
    · exact contains_mul_of_ne_zero left right zero

/-- A quotient is the product with the reciprocals, which are on one side of zero. -/
structure Divides (a b c : Interval) (lo hi : Bound) : Prop where
  side : 0 < b.lo ∨ b.hi < 0
  recipLo : recip b.hi = some lo
  recipHi : recip b.lo = some hi
  eq : c = a.mul ⟨lo, hi, b.hiOpen, b.loOpen⟩

theorem recip_ne_zero {e f : Bound} (eq : recip e = some f) : e ≠ 0 := by
  rintro rfl
  cases eq

theorem exists_recip {e : Bound} (other : e ≠ 0) : ∃ f, recip e = some f := by
  cases e with
  | negInf | posInf => exact ⟨_, rfl⟩
  | finite r => exact ⟨_, if_neg fun zero => other (congrArg finite zero)⟩

theorem exists_divides (someLeft : a.isEmpty = false) (someRight : b.isEmpty = false)
    (divides : a.div b = some c) : b.contains 0 = false ∧ ∃ lo hi, Divides a b c lo hi := by
  have some_ : ¬(a.isEmpty || b.isEmpty) = true := by simp [someLeft, someRight]
  rw [div, if_neg some_] at divides
  cases outside : b.contains 0 with
  | true =>
    rw [if_pos outside] at divides
    cases divides
  | false =>
    have outside' : ¬b.contains 0 = true := Bool.not_eq_true _ ▸ outside
    rw [if_neg outside', bind_eq_bind, bind_eq_some_iff] at divides
    obtain ⟨lo, recipLo, divides⟩ := divides
    obtain ⟨hi, recipHi, divides⟩ := bind_eq_some_iff.mp divides
    exact ⟨rfl, lo, hi, side_of_not_contains someRight outside (recip_ne_zero recipHi)
      (recip_ne_zero recipLo), recipLo, recipHi, (some.inj divides).symm⟩

theorem recip_nonneg {e f : Bound} (eq : recip e = some f) (pos : 0 < e) : 0 ≤ f := by
  cases e with
  | negInf | posInf => exact (some.inj eq).le
  | finite r =>
    have posR : 0 < r := finite_lt_finite.mp pos
    rw [recip, if_neg posR.ne'] at eq
    obtain rfl := some.inj eq
    exact finite_le_finite.mpr (one_div_pos.mpr posR).le

theorem recip_nonpos {e f : Bound} (eq : recip e = some f) (neg : e < 0) : f ≤ 0 := by
  cases e with
  | negInf | posInf => exact (some.inj eq).ge
  | finite r =>
    have negR : r < 0 := finite_lt_finite.mp neg
    rw [recip, if_neg negR.ne] at eq
    obtain rfl := some.inj eq
    exact finite_le_finite.mpr (one_div_neg.mpr negR).le

theorem recip_ne_zero_of_finite {r : ℚ} : recip (finite r) ≠ some 0 := by
  intro eq
  by_cases zero : r = 0
  · rw [recip, if_pos zero] at eq
    cases eq
  · rw [recip, if_neg zero] at eq
    exact one_div_ne_zero zero (finite.inj (some.inj eq))

theorem exists_div (someLeft : a.isEmpty = false) (someRight : b.isEmpty = false)
    (outside : b.contains 0 = false) (lo : b.lo ≠ 0) (hi : b.hi ≠ 0) : ∃ c, a.div b = some c := by
  have some_ : ¬(a.isEmpty || b.isEmpty) = true := by simp [someLeft, someRight]
  have outside' : ¬b.contains 0 = true := Bool.not_eq_true _ ▸ outside
  obtain ⟨recipLo, eq⟩ := exists_recip hi
  obtain ⟨recipHi, eq'⟩ := exists_recip lo
  rw [div, if_neg some_, if_neg outside', eq, eq']
  exact ⟨_, rfl⟩

namespace Divides

variable {lo hi : Bound} (divides : Divides a b c lo hi)
include divides

theorem contains_of_ne_zero (left : a.contains x = true) (right : b.contains y = true)
    (other : x ≠ 0) (other' : y ≠ 0) : c.contains (x / y) = true := by
  have mem := contains_recip divides.side divides.recipLo divides.recipHi right
  rw [divides.eq, ← mul_one_div]
  exact contains_mul_of_ne_zero left mem (mul_ne_zero other (one_div_ne_zero other'))

theorem not_contains_zero (le : b.lo ≤ b.hi) (loOpen : b.loOpen = true)
    (hiOpen : b.hiOpen = true) :
    (Interval.mk lo hi b.hiOpen b.loOpen).contains 0 = false := by
  rw [← Bool.not_eq_true, contains_iff]
  intro ⟨⟨lower, strict⟩, upper, strict'⟩
  rcases divides.side with pos | neg
  · exact strict hiOpen (le_antisymm lower (recip_nonneg divides.recipLo (pos.trans_le le)))
  · exact strict' loOpen (le_antisymm upper (recip_nonpos divides.recipHi (le.trans_lt neg)))

theorem contains_zero_iff (left : a.contains 0 = true) (right : b.contains y = true) :
    c.contains 0 = true ↔ ¬(a.IsEnd 0 false ∧ b.loOpen = true ∧ b.hiOpen = true) := by
  have mem := contains_recip divides.side divides.recipLo divides.recipHi right
  have le := le_of_isEmpty_eq_false (isEmpty_eq_false right)
  rw [divides.eq, contains_mul_zero_iff left mem (Rat.zero_mul _)]
  have keeps : ¬LosesZero ⟨lo, hi, b.hiOpen, b.loOpen⟩ a := by
    intro loses
    rcases loses.oneSided with none_ | ⟨zeroLo, zeroHi⟩
    · rw [left] at none_
      cases none_
    · -- Both ends of the divisor would be infinite.
      have finite_ : ∀ r, b.lo ≠ finite r ∧ b.hi ≠ finite r := fun r =>
        ⟨fun eq => recip_ne_zero_of_finite (eq ▸ divides.recipHi.trans (congrArg some zeroHi)),
          fun eq => recip_ne_zero_of_finite (eq ▸ divides.recipLo.trans (congrArg some zeroLo))⟩
      obtain ⟨⟨lower, -⟩, upper, -⟩ := contains_iff.mp right
      rcases divides.side with pos | neg
      · cases eq : b.lo with
        | negInf => exact absurd (eq ▸ pos) (negInf_le _).not_gt
        | finite r => exact (finite_ r).1 eq
        | posInf => exact absurd (eq ▸ lower) (not_posInf_le_finite y)
      · cases eq : b.hi with
        | negInf => exact absurd (eq ▸ upper) (not_finite_le_negInf y)
        | finite r => exact (finite_ r).2 eq
        | posInf => exact absurd (eq ▸ neg) (le_posInf _).not_gt
  rw [and_iff_left keeps]
  refine not_congr ⟨fun loses => ⟨loses.ends, loses.hiOpen, loses.loOpen⟩, ?_⟩
  exact fun ⟨ends, loOpen, hiOpen⟩ =>
    ⟨ends, hiOpen, loOpen, .inl (divides.not_contains_zero le loOpen hiOpen)⟩

end Divides

theorem div_encloses_iff (wellFormed' : b.WellFormed) :
    (∀ {c}, a.div b = some c → ∀ {x y}, a.contains x = true → b.contains y = true →
      c.contains (x / y) = true) ↔
      (a.isEmpty = false → b.isEmpty = false → b.contains 0 = false → b.lo ≠ 0 → b.hi ≠ 0 →
        ¬(a.IsEnd 0 false ∧ b.loOpen = true ∧ b.hiOpen = true)) := by
  constructor
  · intro encloses someLeft someRight outside lo hi
    obtain ⟨c, eq⟩ := exists_div someLeft someRight outside lo hi
    obtain ⟨-, recipLo, recipHi, divides⟩ := exists_divides someLeft someRight eq
    obtain ⟨y, right⟩ := wellFormed'.exists_contains someRight
    intro loses
    have left := contains_zero_of_isEnd someLeft loses.1
    have mem := encloses eq left right
    rw [zero_div] at mem
    exact (divides.contains_zero_iff left right).mp mem loses
  · intro keeps c eq x y left right
    have someLeft := isEmpty_eq_false left
    have someRight := isEmpty_eq_false right
    obtain ⟨outside, recipLo, recipHi, divides⟩ := exists_divides someLeft someRight eq
    have other' : y ≠ 0 := by
      rintro rfl
      rw [right] at outside
      cases outside
    by_cases zero : x = 0
    · subst zero
      rw [zero_div]
      exact (divides.contains_zero_iff left right).mpr (keeps someLeft someRight outside
        (recip_ne_zero divides.recipHi) (recip_ne_zero divides.recipLo))
    · exact divides.contains_of_ne_zero left right zero other'

inductive Operation where
  | add
  | sub
  | mul
  | div
  | pow (n : Nat)
  | intersect
  | propagateAdd
  | propagateSubLeft
  | propagateSubRight
  | propagateMul
  | propagateDivLeft
  | propagateDivRight

/-- All results for numbers of two intervals are in the interval that an operation returns. -/
def Operation.Encloses (a b : Interval) : Operation → Prop
  | add => ∃ c, a.add b = some c ∧
    ∀ {x y}, a.contains x = true → b.contains y = true → c.contains (x + y) = true
  | sub => ∃ c, a.sub b = some c ∧
    ∀ {x y}, a.contains x = true → b.contains y = true → c.contains (x - y) = true
  | mul => ∀ {x y}, a.contains x = true → b.contains y = true → (a.mul b).contains (x * y) = true
  | div => ∀ {c}, a.div b = some c →
    ∀ {x y}, a.contains x = true → b.contains y = true → c.contains (x / y) = true
  | pow n => ∃ c, a.pow n = some c ∧ ∀ {x}, a.contains x = true → c.contains (x ^ n) = true
  | intersect => ∀ x, (a.intersect b).contains x = true ↔ a.contains x = true ∧ b.contains x = true
  -- The first interval is that of the other operand, and the second one that of the result.
  | propagateAdd => ∃ c, a.propagateAdd b = some c ∧
    ∀ {x y}, a.contains x = true → b.contains (x + y) = true → c.contains y = true
  | propagateSubLeft => ∃ c, a.propagateSubLeft b = some c ∧
    ∀ {x y}, a.contains x = true → b.contains (x - y) = true → c.contains y = true
  | propagateSubRight => ∃ c, a.propagateSubRight b = some c ∧
    ∀ {x y}, a.contains y = true → b.contains (x - y) = true → c.contains x = true
  | propagateMul => ∀ {c}, a.propagateMul b = some c →
    ∀ {x y}, a.contains x = true → b.contains (x * y) = true → c.contains y = true
  | propagateDivLeft => ∀ {c}, a.propagateDivLeft b = some c →
    ∀ {x y}, y ≠ 0 → a.contains x = true → b.contains (x / y) = true → c.contains y = true
  | propagateDivRight => ∀ {x y}, y ≠ 0 → a.contains y = true → b.contains (x / y) = true →
    (a.propagateDivRight b).contains x = true

/-- A quotient does not lose zero. -/
def DividesExactly (a b : Interval) : Prop :=
  a.isEmpty = false → b.isEmpty = false → b.contains 0 = false → b.lo ≠ 0 → b.hi ≠ 0 →
    ¬(a.IsEnd 0 false ∧ b.loOpen = true ∧ b.hiOpen = true)

def Operation.Exact (a b : Interval) : Operation → Prop
  | mul => a.isEmpty = false → b.isEmpty = false → ¬LosesZero a b ∧ ¬LosesZero b a
  | div => a.DividesExactly b
  | propagateMul => b.DividesExactly a
  | propagateDivRight => a.isEmpty = false → b.isEmpty = false → ¬LosesZero b a
  | add | sub | pow _ | intersect | propagateAdd | propagateSubLeft | propagateSubRight
  | propagateDivLeft => True

theorem sub_encloses (wellFormed : a.WellFormed) (wellFormed' : b.WellFormed) :
    ∃ c, a.sub b = some c ∧ ∀ {x y}, a.contains x = true → b.contains y = true →
      c.contains (x - y) = true := by
  obtain ⟨c, eq, encloses⟩ := add_encloses wellFormed wellFormed'.negate
  refine ⟨c, eq, fun {x y} left right => ?_⟩
  have opposite : b.negate.contains (-y) = true := by
    rwa [contains_negate, neg_neg]
  exact sub_eq_add_neg x y ▸ encloses left opposite

theorem propagateMul_encloses_iff :
    Operation.propagateMul.Encloses a b ↔ Operation.div.Encloses b a := by
  constructor
  · intro encloses c eq x y left right
    obtain ⟨outside, -⟩ := exists_divides (isEmpty_eq_false left) (isEmpty_eq_false right) eq
    have other : y ≠ 0 := by
      rintro rfl
      rw [right] at outside
      cases outside
    refine encloses eq right ?_
    rwa [mul_div_cancel₀ x other]
  · intro encloses c eq x y left right
    obtain ⟨outside, -⟩ := exists_divides (isEmpty_eq_false right) (isEmpty_eq_false left) eq
    have other : x ≠ 0 := by
      rintro rfl
      rw [left] at outside
      cases outside
    have mem := encloses eq right left
    rwa [mul_div_cancel_left₀ y other] at mem

theorem propagateDivLeft_encloses : Operation.propagateDivLeft.Encloses a b := by
  intro c eq x y other left right
  obtain ⟨outside, lo, hi, divides⟩ :=
    exists_divides (isEmpty_eq_false left) (isEmpty_eq_false right) eq
  -- The result is not zero, and neither is the dividend.
  have result : x / y ≠ 0 := by
    intro zero
    rw [zero, outside] at right
    cases right
  have dividend : x ≠ 0 := by
    rintro rfl
    exact result (zero_div y)
  have mem := divides.contains_of_ne_zero left right dividend result
  rwa [div_div_cancel₀ dividend] at mem

theorem propagateDivRight_encloses_iff :
    Operation.propagateDivRight.Encloses a b ↔ Operation.propagateDivRight.Exact a b := by
  constructor
  · intro encloses someLeft someRight loses
    have zero := contains_zero_of_isEnd someRight loses.ends
    obtain ⟨y, mem, other⟩ := exists_contains_ne_zero someLeft loses.loOpen
    have product := @encloses 0 y other mem (by rwa [zero_div])
    exact ((contains_mul_zero_iff zero mem (Rat.zero_mul y)).mp product).1 loses
  · intro keeps x y other left right
    by_cases zero : x = 0
    · subst zero
      rw [zero_div] at right
      refine (contains_mul_zero_iff right left (Rat.zero_mul y)).mpr
        ⟨keeps (isEmpty_eq_false left) (isEmpty_eq_false right), fun loses => ?_⟩
      -- The other factor is not only zero.
      rcases loses.oneSided with none_ | ⟨lo, hi⟩
      · rw [right] at none_
        cases none_
      · obtain ⟨⟨lower, -⟩, upper, -⟩ := contains_iff.mp left
        exact other (le_antisymm (finite_le_finite.mp (upper.trans_eq hi))
          (finite_le_finite.mp (lo.symm.trans_le lower)))
    · have product : x / y * y ≠ 0 := by
        rwa [div_mul_cancel₀ x other]
      have mem := contains_mul_of_ne_zero right left product
      rwa [div_mul_cancel₀ x other] at mem

/-- An operation on two intervals encloses all results exactly if it does not lose zero. -/
theorem Operation.encloses_iff (op : Operation) (wellFormed : a.WellFormed)
    (wellFormed' : b.WellFormed) : op.Encloses a b ↔ op.Exact a b := by
  cases op with
  | add => exact iff_of_true (add_encloses wellFormed wellFormed') trivial
  | sub => exact iff_of_true (sub_encloses wellFormed wellFormed') trivial
  | mul => exact mul_encloses_iff wellFormed wellFormed'
  | div => exact div_encloses_iff wellFormed'
  | pow n => exact iff_of_true (pow_encloses a n) trivial
  | intersect =>
    refine iff_of_true (fun x => ?_) trivial
    rw [contains_intersect, Bool.and_eq_true]
  | propagateAdd =>
    obtain ⟨c, eq, encloses⟩ := sub_encloses wellFormed' wellFormed
    refine iff_of_true ⟨c, eq, fun {x y} left right => ?_⟩ trivial
    exact add_sub_cancel_left x y ▸ encloses right left
  | propagateSubLeft =>
    obtain ⟨c, eq, encloses⟩ := sub_encloses wellFormed wellFormed'
    refine iff_of_true ⟨c, eq, fun {x y} left right => ?_⟩ trivial
    exact sub_sub_cancel x y ▸ encloses left right
  | propagateSubRight =>
    obtain ⟨c, eq, encloses⟩ := add_encloses wellFormed' wellFormed
    refine iff_of_true ⟨c, eq, fun {x y} left right => ?_⟩ trivial
    exact sub_add_cancel x y ▸ encloses right left
  | propagateMul => exact propagateMul_encloses_iff.trans (div_encloses_iff wellFormed)
  | propagateDivLeft => exact iff_of_true propagateDivLeft_encloses trivial
  | propagateDivRight => exact propagateDivRight_encloses_iff

theorem wellFormed_closed (r s : ℚ) : (closed r s).WellFormed := fun _ =>
  ⟨fun eq => (nomatch eq), fun eq => (nomatch eq)⟩

theorem wellFormed_open (r s : ℚ) : (open_ r s).WellFormed := fun _ =>
  ⟨fun eq => (nomatch eq), fun eq => (nomatch eq)⟩

/-- Two closed intervals keep the product zero. -/
theorem closed_mul_encloses : Operation.mul.Encloses (closed 0 1) (closed 1 2) := by
  refine (Operation.encloses_iff .mul (wellFormed_closed 0 1) (wellFormed_closed 1 2)).mpr ?_
  exact fun _ _ => ⟨fun loses => (nomatch loses.loOpen), fun loses => (nomatch loses.loOpen)⟩

/-- An open interval loses the product zero. -/
theorem open_mul_loses : (closed 0 1).WellFormed ∧ (open_ 1 2).WellFormed ∧
    (closed 0 1).contains 0 = true ∧ (open_ 1 2).contains (3 / 2) = true ∧
    ¬((closed 0 1).mul (open_ 1 2)).contains (0 * (3 / 2)) = true := by
  have left : (closed 0 1).contains 0 = true := by decide +kernel
  have right : (open_ 1 2).contains (3 / 2) = true := by decide +kernel
  have loses : LosesZero (closed 0 1) (open_ 1 2) :=
    ⟨.inl ⟨rfl, rfl⟩, rfl, rfl, .inl (by decide +kernel)⟩
  refine ⟨wellFormed_closed 0 1, wellFormed_open 1 2, left, right, ?_⟩
  rw [Rat.zero_mul, contains_mul_zero_iff left right (Rat.zero_mul _)]
  exact fun keeps => keeps.1 loses

end Nixie.Math.Interval
