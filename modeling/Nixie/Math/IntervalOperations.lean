import Nixie.Math.IntervalCorrect

/-! Quotients, powers, intersections and propagation, and exactly when these are enclosed. -/

namespace Nixie.Math.Interval

open Nixie.Math.Bound

variable {a b : Interval} {x y : ℚ}

theorem contains_of_isEmpty (none_ : a.isEmpty = true) : a.contains x = false := by
  cases mem : a.contains x with
  | false => rfl
  | true =>
    rw [isEmpty_eq_false mem] at none_
    cases none_

theorem starts_laterLo : (a.laterLo b).1.Starts (a.laterLo b).2 x ↔
    a.lo.Starts a.loOpen x ∧ b.lo.Starts b.loOpen x := by
  rw [laterLo, cmpBound_eq_compare]
  rcases lt_trichotomy a.lo b.lo with less | same | more
  · rw [compare_lt_iff_lt.mpr less]
    refine ⟨fun starts => ⟨?_, starts⟩, And.right⟩
    have before := less.trans_le starts.1
    exact ⟨before.le, fun _ => before.ne⟩
  · rw [compare_eq_iff_eq.mpr same, Starts, Starts, Starts, ← same, Bool.or_eq_true, or_imp]
    exact and_and_left
  · rw [compare_gt_iff_gt.mpr more]
    refine ⟨fun starts => ⟨starts, ?_⟩, And.left⟩
    have before := more.trans_le starts.1
    exact ⟨before.le, fun _ => before.ne⟩

theorem ends_earlierHi : (a.earlierHi b).1.Ends (a.earlierHi b).2 x ↔
    a.hi.Ends a.hiOpen x ∧ b.hi.Ends b.hiOpen x := by
  rw [earlierHi, cmpBound_eq_compare]
  rcases lt_trichotomy a.hi b.hi with less | same | more
  · rw [compare_lt_iff_lt.mpr less]
    refine ⟨fun ends => ⟨ends, ?_⟩, And.left⟩
    have after := ends.1.trans_lt less
    exact ⟨after.le, fun _ => after.ne⟩
  · rw [compare_eq_iff_eq.mpr same, Ends, Ends, Ends, ← same, Bool.or_eq_true, or_imp]
    exact and_and_left
  · rw [compare_gt_iff_gt.mpr more]
    refine ⟨fun ends => ⟨?_, ends⟩, And.right⟩
    have after := ends.1.trans_lt more
    exact ⟨after.le, fun _ => after.ne⟩

theorem contains_intersect : (a.intersect b).contains x = (a.contains x && b.contains x) := by
  rw [intersect]
  split
  · rename_i none_
    have outside : empty.contains x = false := contains_of_isEmpty (by decide)
    rcases Bool.or_eq_true _ _ ▸ none_ with left | right
    · rw [outside, contains_of_isEmpty left, Bool.false_and]
    · rw [outside, contains_of_isEmpty right, Bool.and_false]
  · rw [Bool.eq_iff_iff, Bool.and_eq_true, contains_iff, contains_iff, contains_iff]
    dsimp only
    rw [starts_laterLo, ends_earlierHi]
    exact and_and_and_comm

theorem powLoop_eq (result base : ℚ) (exp : Nat) : powLoop result base exp = result * base ^ exp := by
  induction exp using Nat.strong_induction_on generalizing result base with
  | _ exp ih =>
    rw [powLoop]
    split
    · rename_i zero
      rw [zero, pow_zero, mul_one]
    · rename_i pos
      rw [ih (exp / 2) (Nat.div_lt_self (Nat.pos_of_ne_zero pos) Nat.one_lt_two),
        ← pow_two, ← pow_mul]
      split
      · rename_i odd
        have eq : exp = 2 * (exp / 2) + 1 := by omega
        conv_rhs => rw [eq, pow_succ']
        rw [mul_assoc]
      · have eq : exp = 2 * (exp / 2) := by omega
        conv_rhs => rw [eq]

theorem powRational_eq (r : ℚ) (n : Nat) : powRational r n = r ^ n := by
  rw [powRational, powLoop_eq, one_mul]
  split
  · rename_i zero
    rw [zero, pow_zero]
  · rfl

/-! #### Even powers -/

theorem even_pow_le_max {n : Nat} (even : Even n) (pos : n ≠ 0) {r s : ℚ} {o o' : Bool}
    (starts : (finite r).Starts o x) (ends : (finite s).Ends o' x) (nonpos : r ≤ 0)
    (nonneg : 0 ≤ s) : (finite (max |r| |s| ^ n)).Ends (o && o') (x ^ n) := by
  have lower := finite_le_finite.mp starts.1
  have upper := finite_le_finite.mp ends.1
  rw [abs_of_nonpos nonpos, abs_of_nonneg nonneg, ← even.pow_abs x]
  constructor
  · refine finite_le_finite.mpr (pow_le_pow_left₀ (abs_nonneg x) (abs_le.mpr ⟨?_, ?_⟩) n)
    · linarith [le_max_left (-r) s]
    · linarith [le_max_right (-r) s]
  · intro both
    obtain ⟨isOpen, isOpen'⟩ := Bool.and_eq_true _ _ ▸ both
    have less : r < x := lt_of_le_of_ne lower fun eq => starts.2 isOpen (congrArg finite eq)
    have less' : x < s := lt_of_le_of_ne upper fun eq => ends.2 isOpen' (congrArg finite eq)
    refine (finite_lt_finite.mpr (pow_lt_pow_left₀ (abs_lt.mpr ⟨?_, ?_⟩) (abs_nonneg x) pos)).ne
    · linarith [le_max_left (-r) s]
    · linarith [le_max_right (-r) s]

theorem contains_atLeast {r : ℚ} (le : r ≤ x) : (atLeast r).contains x = true :=
  contains_iff.mpr ⟨⟨finite_le_finite.mpr le, fun isOpen => nomatch isOpen⟩, le_posInf _, fun _ => nofun⟩

theorem contains_point : (point x).contains x = true :=
  contains_iff.mpr ⟨⟨le_rfl, fun isOpen => nomatch isOpen⟩, le_rfl, fun isOpen => nomatch isOpen⟩

theorem powFrom_encloses {n : Nat} (even : Even n) (pos : n ≠ 0) {near far : Bound}
    {nearOpen farOpen : Bool}
    (nearer : ∀ {r}, near = finite r → |r| ≤ |x| ∧ (nearOpen = true → |r| ≠ |x|))
    (further : ∀ {s}, far = finite s → |x| ≤ |s| ∧ (farOpen = true → |x| ≠ |s|)) :
    (powFrom n near far nearOpen farOpen).contains (x ^ n) = true := by
  have le {r s : ℚ} (le : |r| ≤ |s|) : r ^ n ≤ s ^ n := by
    rw [← even.pow_abs r, ← even.pow_abs s]
    exact pow_le_pow_left₀ (abs_nonneg r) le n
  have ne {r s : ℚ} (ne : |r| ≠ |s|) : finite (r ^ n) ≠ finite (s ^ n) := by
    intro eq
    have same := finite.inj eq
    rw [← even.pow_abs r, ← even.pow_abs s] at same
    exact ne ((pow_left_inj₀ (abs_nonneg r) (abs_nonneg s) pos).mp same)
  cases near with
  | negInf | posInf => exact contains_atLeast (even.pow_nonneg _)
  | finite r =>
    obtain ⟨below, strict⟩ := nearer rfl
    cases far with
    | negInf | posInf =>
      have from_ : (atLeast (powRational r n)).contains (x ^ n) = true := by
        rw [powRational_eq]
        exact contains_atLeast (le below)
      exact from_
    | finite s =>
      obtain ⟨above, strict'⟩ := further rfl
      rw [powFrom, powRational_eq, powRational_eq]
      exact contains_iff.mpr ⟨⟨finite_le_finite.mpr (le below), fun isOpen => ne (strict isOpen)⟩,
        finite_le_finite.mpr (le above), fun isOpen => ne (strict' isOpen)⟩

theorem starts_powBound {n : Nat} (odd : Odd n) {e : Bound} {isOpen : Bool}
    (starts : e.Starts isOpen x) : (powBound n e).Starts isOpen (x ^ n) := by
  obtain ⟨le, strict⟩ := starts
  cases e with
  | negInf => exact ⟨negInf_le _, fun _ => nofun⟩
  | posInf => exact absurd le (not_posInf_le_finite x)
  | finite r =>
    rw [powBound, powRational_eq]
    refine ⟨finite_le_finite.mpr (odd.strictMono_pow.monotone (finite_le_finite.mp le)),
      fun isOpen eq => strict isOpen ?_⟩
    exact congrArg finite (odd.strictMono_pow.injective (finite.inj eq))

theorem ends_powBound {n : Nat} (odd : Odd n) {e : Bound} {isOpen : Bool}
    (ends : e.Ends isOpen x) : (powBound n e).Ends isOpen (x ^ n) := by
  obtain ⟨le, strict⟩ := ends
  cases e with
  | posInf => exact ⟨le_posInf _, fun _ => nofun⟩
  | negInf => exact absurd le (not_finite_le_negInf x)
  | finite r =>
    rw [powBound, powRational_eq]
    refine ⟨finite_le_finite.mpr (odd.strictMono_pow.monotone (finite_le_finite.mp le)),
      fun isOpen eq => strict isOpen ?_⟩
    exact congrArg finite (odd.strictMono_pow.injective (finite.inj eq))

theorem exists_lo_of_isPositive (some_ : a.isEmpty = false) (positive : a.isPositive = true) :
    ∃ r, a.lo = finite r ∧ 0 ≤ r := by
  rw [isPositive] at positive
  split at positive
  · cases positive
  · rw [some_] at positive
    cases positive
  · rename_i r eq
    refine ⟨r, eq, ?_⟩
    split at positive
    · rename_i pos
      exact pos.le
    split at positive
    · rename_i zero
      exact zero.ge
    · cases positive

theorem neg_of_not_positive (mem : a.contains x = true) (none_ : a.contains 0 = false)
    (positive : a.isPositive = false) : x < 0 ∧ a.hi ≤ 0 := by
  obtain ⟨⟨lower, strict⟩, upper, strict'⟩ := contains_iff.mp mem
  have outside : ¬a.contains 0 = true := Bool.not_eq_true _ ▸ none_
  have neg : x < 0 := by
    by_contra nonneg
    have nonneg := not_lt.mp nonneg
    have other : x ≠ 0 := fun eq => outside (eq ▸ mem)
    have pos : finite 0 < finite x := finite_lt_finite.mpr (lt_of_le_of_ne nonneg other.symm)
    have after := pos.trans_le upper
    refine outside (contains_iff.mpr ⟨?_, after.le, fun _ => after.ne⟩)
    -- The lower end is no positive number, nor zero if it is open.
    rw [isPositive] at positive
    cases eq : a.lo with
    | negInf => exact ⟨negInf_le _, fun _ => nofun⟩
    | posInf => exact absurd lower (eq ▸ not_posInf_le_finite x)
    | finite r =>
      rw [eq] at positive
      dsimp only at positive
      split at positive
      · cases positive
      rename_i notPos
      refine ⟨finite_le_finite.mpr (not_lt.mp notPos), fun isOpen zero => ?_⟩
      rw [if_pos (finite.inj zero), isOpen] at positive
      cases positive
  refine ⟨neg, ?_⟩
  by_contra pos
  have before : a.lo < finite 0 := lower.trans_lt (finite_lt_finite.mpr neg)
  have after : finite 0 < a.hi := not_le.mp pos
  exact outside (contains_iff.mpr ⟨⟨before.le, fun _ => before.ne⟩, after.le, fun _ => after.ne⟩)

theorem pow_encloses (a : Interval) (n : Nat) :
    ∃ c, a.pow n = some c ∧ ∀ {x}, a.contains x = true → c.contains (x ^ n) = true := by
  rw [pow]
  split
  · rename_i none_
    refine ⟨empty, rfl, fun {x} mem => ?_⟩
    rw [contains_of_isEmpty none_] at mem
    cases mem
  rename_i some_
  split
  · rename_i zero
    refine ⟨point 1, rfl, fun {x} _ => ?_⟩
    rw [zero, pow_zero]
    exact contains_point
  rename_i pos
  split
  · rename_i one
    refine ⟨a, rfl, fun {x} mem => ?_⟩
    rwa [one, pow_one]
  split
  · rename_i modulo
    have even : Even n := Nat.even_iff.mpr modulo
    split
    · rename_i lies
      obtain ⟨starts, ends⟩ := contains_iff.mp lies
      cases lo : a.lo with
      | negInf => exact ⟨atLeast 0, rfl, fun _ => contains_atLeast (even.pow_nonneg _)⟩
      | posInf => exact absurd starts.1 (lo ▸ not_posInf_le_finite 0)
      | finite r =>
        cases hi : a.hi with
        | posInf => exact ⟨atLeast 0, rfl, fun _ => contains_atLeast (even.pow_nonneg _)⟩
        | negInf => exact absurd ends.1 (hi ▸ not_finite_le_negInf 0)
        | finite s =>
          refine ⟨_, rfl, fun {x} mem => contains_iff.mpr ⟨?_, ?_⟩⟩
          · exact ⟨finite_le_finite.mpr (even.pow_nonneg x), fun isOpen => nomatch isOpen⟩
          · obtain ⟨starts', ends'⟩ := contains_iff.mp mem
            rw [powRational_eq]
            exact even_pow_le_max even pos (lo ▸ starts') (hi ▸ ends')
              (finite_le_finite.mp (lo ▸ starts.1)) (finite_le_finite.mp (hi ▸ ends.1))
    split
    · rename_i above
      obtain ⟨r, lo, nonneg⟩ := exists_lo_of_isPositive (Bool.not_eq_true _ ▸ some_) above
      refine ⟨_, rfl, fun {x} mem => ?_⟩
      obtain ⟨starts, ends⟩ := contains_iff.mp mem
      have le := finite_le_finite.mp (lo ▸ starts.1)
      rw [lo] at starts ⊢
      refine powFrom_encloses even pos (fun {r'} eq => ?_) fun {s} eq => ?_
      · obtain rfl := finite.inj eq
        rw [abs_of_nonneg nonneg, abs_of_nonneg (nonneg.trans le)]
        exact ⟨le, fun isOpen eq => starts.2 isOpen (congrArg finite eq)⟩
      · rw [eq] at ends
        have le' := finite_le_finite.mp ends.1
        rw [abs_of_nonneg (nonneg.trans le), abs_of_nonneg ((nonneg.trans le).trans le')]
        exact ⟨le', fun isOpen eq => ends.2 isOpen (congrArg finite eq)⟩
    · rename_i outside below
      refine ⟨_, rfl, fun {x} mem => ?_⟩
      obtain ⟨neg, nonpos⟩ := neg_of_not_positive mem (Bool.not_eq_true _ ▸ outside)
        (Bool.not_eq_true _ ▸ below)
      obtain ⟨starts, ends⟩ := contains_iff.mp mem
      refine powFrom_encloses even pos (fun {s} eq => ?_) fun {r} eq => ?_
      · rw [eq] at ends nonpos
        have le := finite_le_finite.mp ends.1
        rw [abs_of_neg neg, abs_of_nonpos (finite_le_finite.mp nonpos)]
        exact ⟨neg_le_neg le, fun isOpen eq => ends.2 isOpen (congrArg finite (neg_injective eq).symm)⟩
      · rw [eq] at starts
        have le := finite_le_finite.mp starts.1
        rw [abs_of_neg neg, abs_of_nonpos (le.trans neg.le)]
        exact ⟨neg_le_neg le,
          fun isOpen eq => starts.2 isOpen (congrArg finite (neg_injective eq).symm)⟩
  · rename_i modulo
    have odd : Odd n := Nat.odd_iff.mpr (by omega)
    refine ⟨_, rfl, fun {x} mem => ?_⟩
    obtain ⟨starts, ends⟩ := contains_iff.mp mem
    exact contains_iff.mpr ⟨starts_powBound odd starts, ends_powBound odd ends⟩

theorem recip_negate (e : Bound) : recip e.negate = (recip e).map Bound.negate := by
  cases e with
  | negInf | posInf => simp [recip, Bound.negate]
  | finite r => by_cases zero : r = 0 <;> simp [recip, Bound.negate, zero]

theorem one_div_injective {r s : ℚ} (same : 1 / r = 1 / s) : r = s := by
  rwa [one_div, one_div, inv_inj] at same

theorem contains_recip_of_pos {lo hi : Bound} (pos : 0 < b.lo) (recipLo : recip b.hi = some lo)
    (recipHi : recip b.lo = some hi) (mem : b.contains y = true) :
    (Interval.mk lo hi b.hiOpen b.loOpen).contains (1 / y) = true := by
  obtain ⟨⟨lower, strict⟩, upper, strict'⟩ := contains_iff.mp mem
  have posY : 0 < y := finite_lt_finite.mp (pos.trans_le lower)
  refine contains_iff.mpr ⟨?_, ?_⟩
  · cases eq : b.hi with
    | negInf => exact absurd (eq ▸ upper) (not_finite_le_negInf y)
    | posInf =>
      rw [eq, recip] at recipLo
      obtain rfl := Option.some.inj recipLo
      have before : finite 0 < finite (1 / y) := finite_lt_finite.mpr (one_div_pos.mpr posY)
      exact ⟨before.le, fun _ => before.ne⟩
    | finite s =>
      rw [eq] at upper strict' recipLo
      have le := finite_le_finite.mp upper
      rw [recip, if_neg (posY.trans_le le).ne'] at recipLo
      obtain rfl := Option.some.inj recipLo
      refine ⟨finite_le_finite.mpr (one_div_le_one_div_of_le posY le), fun isOpen eq' => ?_⟩
      exact strict' isOpen (congrArg finite (one_div_injective (finite.inj eq')).symm)
  · cases eq : b.lo with
    | negInf => exact absurd pos (eq ▸ (negInf_le _).not_gt)
    | posInf => exact absurd (eq ▸ lower) (not_posInf_le_finite y)
    | finite r =>
      rw [eq] at lower strict recipHi pos
      have le := finite_le_finite.mp lower
      have posR : 0 < r := finite_lt_finite.mp pos
      rw [recip, if_neg posR.ne'] at recipHi
      obtain rfl := Option.some.inj recipHi
      refine ⟨finite_le_finite.mpr (one_div_le_one_div_of_le posR le), fun isOpen eq' => ?_⟩
      exact strict isOpen (congrArg finite (one_div_injective (finite.inj eq')).symm)

theorem contains_recip {lo hi : Bound} (side : 0 < b.lo ∨ b.hi < 0)
    (recipLo : recip b.hi = some lo) (recipHi : recip b.lo = some hi)
    (mem : b.contains y = true) :
    (Interval.mk lo hi b.hiOpen b.loOpen).contains (1 / y) = true := by
  rcases side with pos | neg
  · exact contains_recip_of_pos pos recipLo recipHi mem
  · -- The same for the opposite numbers.
    have pos : 0 < b.negate.lo := by
      have lt : Bound.negate 0 < b.hi.negate := lt_iff_lt_of_le_iff_le negate_le_negate |>.mpr neg
      exact lt
    have recipLo' : recip b.negate.hi = some hi.negate := by
      rw [negate, recip_negate, recipHi]
      rfl
    have recipHi' : recip b.negate.lo = some lo.negate := by
      rw [negate, recip_negate, recipLo]
      rfl
    have mem' : b.negate.contains (-y) = true := by
      rwa [contains_negate, neg_neg]
    have contains := contains_recip_of_pos pos recipLo' recipHi' mem'
    have opposite : (mk lo hi b.hiOpen b.loOpen).negate.contains (1 / -y) = true := contains
    rwa [contains_negate, div_neg, neg_neg] at opposite

theorem side_of_not_contains (some_ : b.isEmpty = false) (none_ : b.contains 0 = false)
    (lo : b.lo ≠ 0) (hi : b.hi ≠ 0) : 0 < b.lo ∨ b.hi < 0 := by
  rcases one_sided_of_not_contains some_ none_ with nonneg | nonpos
  · exact .inl (lt_of_le_of_ne (nonneg (isEnd_lo b)) lo.symm)
  · exact .inr (lt_of_le_of_ne (nonpos (isEnd_hi b)) hi)

end Nixie.Math.Interval
