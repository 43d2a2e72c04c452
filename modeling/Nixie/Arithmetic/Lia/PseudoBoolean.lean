import Nixie.Math.IntegerForm
import Nixie.Math.MachineInt

/-! Integer constraints divided by the common divisor of their coefficients. -/

namespace Nixie.Arithmetic.Lia

open Nixie.Math Nixie.Math.IntegerForm List Option Nat

def gcdLoop : Nat → Int → Int → Int
  | 0, a, _ => a
  | fuel + 1, a, b => if b = 0 then a else gcdLoop fuel b (a.tmod b)

def gcd (a b : Int) : Option Int := do
  let a ← checked 64 |a|
  let b ← checked 64 |b|
  return gcdLoop (b.natAbs + 1) a b

def gcdStep (acc c : Int) : Option Int := do gcd acc (← checked 64 |c|)

def gcdAll (coeffs : List Int) : Option Int := coeffs.foldlM gcdStep 0

/-- Rounds the bound to a multiple of the common divisor; nothing on overflow. -/
def tightenBound (coeffs : List Int) (bound : Int) : Option Int :=
  if coeffs.isEmpty then some bound
  else do
    let g ← gcdAll coeffs
    if g = 0 ∨ g = 1 then some bound
    else do checked 64 ((← divI64 bound g) * g)

/-- A constraint on variables that are zero or one: the sum is at most the bound. -/
structure PseudoBooleanSolver where
  coeffs : List Int
  bound : Int
  deriving DecidableEq

namespace PseudoBooleanSolver

/-- Whether the constraint holds where all variables with positive coefficients are one; nothing
on overflow. -/
def check (pb : PseudoBooleanSolver) : Option Bool := do
  let sumPositive ← (pb.coeffs.filter (0 < ·)).foldlM (fun acc c => checked 64 (acc + c)) 0
  return decide (sumPositive ≤ pb.bound)

/-- Divides the constraint by the common divisor; nothing on overflow. -/
def normalize (pb : PseudoBooleanSolver) : Option PseudoBooleanSolver :=
  if pb.coeffs.isEmpty then some pb
  else do
    let g ← gcdAll pb.coeffs
    if 1 < g then do
      let coeffs ← pb.coeffs.mapM (divI64 · g)
      let bound ← divI64 pb.bound g
      return ⟨coeffs, bound⟩
    else some pb

def Holds (pb : PseudoBooleanSolver) (x : Nat → Int) : Prop := value pb.coeffs x ≤ pb.bound

end PseudoBooleanSolver

section

variable {a b g : Int} {coeffs : List Int}

theorem gcdLoop_eq (fuel : Nat) (below : b.natAbs < fuel) (pos : 0 ≤ a) (pos' : 0 ≤ b) :
    gcdLoop fuel a b = a.gcd b := by
  induction fuel generalizing a b with
  | zero => exact absurd below (not_lt_zero _)
  | succ fuel ih =>
    rw [gcdLoop]
    by_cases zero : b = 0
    · rw [if_pos zero, zero, Int.gcd_zero_right, Int.natAbs_of_nonneg pos]
    · -- The remainder is smaller than the divisor.
      have remainder : a.tmod b = a % b := Int.tmod_eq_emod_of_nonneg pos
      have lower := Int.emod_nonneg a zero
      have upper := Int.emod_lt_of_pos a (by omega : 0 < b)
      have euclid : b.gcd (a % b) = a.gcd b := by rw [Int.gcd_comm b, Int.gcd_emod, Int.gcd_comm]
      rw [if_neg zero, remainder, ih (by omega) pos' lower, euclid]

theorem gcd_eq (fitsA : Fits 64 |a|) (fitsB : Fits 64 |b|) : gcd a b = some (a.gcd b : Int) := by
  unfold gcd
  rw [checked_of_fits fitsA, checked_of_fits fitsB]
  have loop := gcdLoop_eq (|b|.natAbs + 1) (lt_succ_self _) (abs_nonneg a) (abs_nonneg b)
  have magnitudes : |a|.gcd |b| = a.gcd b := by rw [Int.gcd, Int.gcd, Int.natAbs_abs, Int.natAbs_abs]
  rw [magnitudes] at loop
  exact congrArg some loop

theorem gcdStep_eq {acc : Nat} (fits : Fits 64 acc) (c : Int) :
    gcdStep acc c = if Fits 64 |c| then some ((acc : Int).gcd c : Int) else none := by
  unfold gcdStep
  by_cases first : Fits 64 |c|
  · have magnitude : |(|c|)| = |c| := abs_abs c
    have accumulator : |(acc : Int)| = acc := abs_of_nonneg (Int.natCast_nonneg acc)
    rw [checked_of_fits first, if_pos first, bind_eq_bind, bind_some,
      gcd_eq (accumulator.symm ▸ fits) (magnitude.symm ▸ first), Int.gcd, Int.natAbs_abs]
    rfl
  · rw [checked_eq_none first, if_neg first]
    rfl

theorem fits_gcd {acc : Nat} {c : Int} (fits : Fits 64 acc) (first : Fits 64 |c|) :
    Fits 64 ((acc : Int).gcd c : Int) := by
  rw [fits_64] at fits first ⊢
  rcases Nat.eq_zero_or_pos acc with zero | pos
  · rw [zero, cast_zero, Int.gcd_zero_left, Int.natCast_natAbs]
    omega
  · have below := Int.gcd_le_natAbs_left c (Int.natCast_pos.mpr pos).ne'
    omega

theorem foldlM_gcdStep (coeffs : List Int) {acc : Nat} (fits : Fits 64 acc) :
    coeffs.foldlM gcdStep (acc : Int) =
      if ∀ c ∈ coeffs, Fits 64 |c| then some ((acc : Int).gcd (content coeffs) : Int)
      else none := by
  induction coeffs generalizing acc with
  | nil =>
    rw [if_pos (forall_mem_nil _), content, cast_zero, Int.gcd_zero_right, Int.natAbs_natCast]
    rfl
  | cons c cs ih =>
    rw [foldlM_cons, bind_eq_bind, gcdStep_eq fits]
    by_cases first : Fits 64 |c|
    · have split : (∀ d ∈ c :: cs, Fits 64 |d|) ↔ ∀ d ∈ cs, Fits 64 |d| :=
        forall_mem_cons.trans (and_iff_right first)
      have combined : (((acc : Int).gcd c : Nat) : Int).gcd (content cs) =
          (acc : Int).gcd (content (c :: cs)) := Int.gcd_assoc acc c (content cs)
      rw [if_pos first, bind_some, ih (fits_gcd fits first), combined]
      exact if_congr split.symm rfl rfl
    · rw [if_neg first, bind_none, if_neg fun all => first (all c mem_cons_self)]

theorem gcdAll_eq (coeffs : List Int) :
    gcdAll coeffs = if ∀ c ∈ coeffs, Fits 64 |c| then some (content coeffs : Int) else none := by
  have fold := @foldlM_gcdStep coeffs 0 (by decide)
  rw [cast_zero, Int.gcd_zero_left, Int.natAbs_natCast] at fold
  exact fold

end

section

variable {b v g : Int} {coeffs : List Int} {bound : Int}

/-- The bound is divided by more than one, is negative, and is not a multiple. -/
def Truncates (coeffs : List Int) (bound : Int) : Prop :=
  1 < content coeffs ∧ bound < 0 ∧ ¬(content coeffs : Int) ∣ bound

theorem tdiv_eq (pos : 0 < g) : b.tdiv g = b / g + if b < 0 ∧ ¬g ∣ b then 1 else 0 := by
  rw [Int.tdiv_eq_ediv, Int.sign_eq_one_of_pos pos]
  by_cases exact_ : 0 ≤ b ∨ g ∣ b
  · rw [if_pos exact_, if_neg fun both => exact_.elim both.1.not_ge both.2]
  · obtain ⟨negative, indivisible⟩ := not_or.mp exact_
    rw [if_neg exact_, if_pos ⟨not_le.mp negative, indivisible⟩]

theorem mul_le_iff (pos : 0 < g) : g * v ≤ b ↔ v ≤ b / g := by
  rw [Int.le_ediv_iff_mul_le pos, mul_comm]

theorem fits_tdiv (fits : Fits 64 b) (large : 1 < g) : Fits 64 (b.tdiv g) := by
  have quotient : (b.tdiv g).natAbs ≤ 2 ^ 62 := by
    rw [Int.natAbs_tdiv]
    rw [fits_64] at fits
    refine Nat.div_le_of_le_mul ?_
    have two : 2 ≤ g.natAbs := by omega
    exact le_trans (by omega) (mul_le_mul_right (2 ^ 62) two)
  rw [fits_64]
  omega

theorem fits_tdiv_mul (fits : Fits 64 b) (pos : 0 < g) : Fits 64 (b.tdiv g * g) := by
  have lower := Int.mul_ediv_self_le (x := b) pos.ne'
  have upper := Int.lt_mul_ediv_self_add (x := b) pos
  rw [fits_64] at fits ⊢
  rw [tdiv_eq pos, add_mul, mul_comm (b / g)]
  split
  · -- The next multiple above a negative number is not positive.
    rename_i rounded
    have negative : b / g + 1 ≤ 0 := Int.ediv_neg_of_neg_of_pos rounded.1 pos
    have product : g * (b / g + 1) ≤ 0 := mul_nonpos_of_nonneg_of_nonpos pos.le negative
    rw [mul_add, mul_one] at product
    omega
  · rename_i exact_
    rw [zero_mul, add_zero]
    by_cases negative : b < 0
    · -- Multiples are not rounded at all.
      obtain ⟨k, rfl⟩ := not_not.mp fun indivisible => exact_ ⟨negative, indivisible⟩
      rw [Int.mul_ediv_cancel_left k pos.ne']
      exact fits
    · have product : 0 ≤ g * (b / g) :=
        mul_nonneg pos.le (Int.ediv_nonneg (not_lt.mp negative) pos.le)
      omega

/-- The same points satisfy the tightened constraint. -/
def KeepsBound (coeffs : List Int) (bound : Int) (result : Option Int) : Prop :=
  ∃ tightened, result = some tightened ∧ ∀ x, value coeffs x ≤ tightened ↔ value coeffs x ≤ bound

theorem tightenBound_eq (fits : ∀ c ∈ coeffs, Fits 64 |c|) (fitsBound : Fits 64 bound) :
    tightenBound coeffs bound = some (if 1 < content coeffs
      then bound.tdiv (content coeffs) * content coeffs else bound) := by
  unfold tightenBound
  cases coeffs with
  | nil => exact congrArg some (if_neg (not_lt_zero 1)).symm
  | cons c cs =>
    rw [if_neg (by simp), gcdAll_eq, if_pos fits, bind_eq_bind, bind_some]
    by_cases large : 1 < content (c :: cs)
    · have pos : (0 : Int) < content (c :: cs) := by omega
      rw [if_neg (by omega), if_pos large, divI64, if_neg pos.ne',
        checked_of_fits (fits_tdiv fitsBound (by omega)), bind_some, checked_of_fits (fits_tdiv_mul fitsBound pos)]
    · rw [if_pos (by omega), if_neg large]

theorem keepsBound_iff (fits : ∀ c ∈ coeffs, Fits 64 |c|) (fitsBound : Fits 64 bound) :
    KeepsBound coeffs bound (tightenBound coeffs bound) ↔ ¬Truncates coeffs bound := by
  rw [tightenBound_eq fits fitsBound]
  by_cases large : 1 < content coeffs
  · have pos : (0 : Int) < content coeffs := by omega
    rw [if_pos large]
    constructor
    · -- Some point attains the bound that is rounded up.
      intro ⟨tightened, same, keeps⟩ truncates
      obtain rfl := some.inj same
      obtain ⟨x, attained⟩ := exists_value_eq coeffs (bound.tdiv (content coeffs))
      have above := Int.lt_mul_ediv_self_add (x := bound) pos
      have below := (keeps x).mp (by rw [attained, mul_comm])
      rw [attained, tdiv_eq pos, if_pos truncates.2, mul_add, mul_one] at below
      omega
    · intro calm
      refine ⟨_, rfl, fun x => ?_⟩
      obtain ⟨k, multiple⟩ := content_dvd_value coeffs x
      rw [tdiv_eq pos, if_neg fun rounded => calm ⟨large, rounded⟩, add_zero, multiple,
        mul_comm (bound / _), mul_le_mul_iff_of_pos_left pos, mul_le_iff pos]
  · rw [if_neg large]
    exact iff_of_true ⟨_, rfl, fun _ => Iff.rfl⟩ fun truncates => large truncates.1

/-- The same points with zeros and ones satisfy the normalized constraint. -/
def KeepsSolutions (pb : PseudoBooleanSolver) (result : Option PseudoBooleanSolver) : Prop :=
  ∃ normalized, result = some normalized ∧ ∀ x, ZeroOne x → (normalized.Holds x ↔ pb.Holds x)

theorem mapM_divI64 {g : Nat} (pos : 0 < g) (divides : ∀ c ∈ coeffs, (g : Int) ∣ c)
    (fits : ∀ c ∈ coeffs, Fits 64 c) :
    ∃ quotients, coeffs.mapM (divI64 · g) = some quotients ∧
      coeffs = quotients.map ((g : Int) * ·) := by
  induction coeffs with
  | nil => exact ⟨[], rfl, rfl⟩
  | cons c cs ih =>
    obtain ⟨quotients, same, others⟩ := ih (fun d mem => divides d (.tail c mem))
      fun d mem => fits d (.tail c mem)
    obtain ⟨k, multiple⟩ := divides c (.head cs)
    refine ⟨k :: quotients, ?_, ?_⟩
    · rw [mapM_cons, divI64_eq pos multiple (fits c (.head cs)), same]
      rfl
    · rw [map_cons, ← multiple, ← others]

theorem normalize_of_lt (magnitudes : ∀ c ∈ coeffs, Fits 64 |c|)
    (fits : ∀ c ∈ coeffs, Fits 64 c) (fitsBound : Fits 64 bound) (large : 1 < content coeffs) :
    ∃ quotients, coeffs = quotients.map ((content coeffs : Int) * ·) ∧
      PseudoBooleanSolver.normalize ⟨coeffs, bound⟩ =
        some ⟨quotients, bound.tdiv (content coeffs)⟩ := by
  have pos : (0 : Int) < content coeffs := by omega
  have nonempty : ¬coeffs.isEmpty = true := fun empty => by
    rw [isEmpty_iff.mp empty] at large
    exact absurd large (not_lt_zero 1)
  obtain ⟨quotients, same, multiples⟩ :=
    mapM_divI64 (by omega : 0 < content coeffs) (fun c mem => content_dvd mem) fits
  have quotient : divI64 bound (content coeffs) = some (bound.tdiv (content coeffs)) := by
    rw [divI64, if_neg pos.ne', checked_of_fits (fits_tdiv fitsBound (by omega))]
  refine ⟨quotients, multiples, ?_⟩
  rw [PseudoBooleanSolver.normalize, if_neg nonempty, gcdAll_eq, if_pos magnitudes]
  dsimp only [bind_eq_bind, bind_some]
  rw [if_pos (one_lt_cast.mpr large), same, quotient]
  rfl

theorem normalize_of_not_lt (magnitudes : ∀ c ∈ coeffs, Fits 64 |c|)
    (small : ¬1 < content coeffs) :
    PseudoBooleanSolver.normalize ⟨coeffs, bound⟩ = some ⟨coeffs, bound⟩ := by
  unfold PseudoBooleanSolver.normalize
  split
  · rfl
  · rw [gcdAll_eq, if_pos magnitudes]
    exact if_neg (one_lt_cast.not.mpr small)

theorem keepsSolutions_iff (magnitudes : ∀ c ∈ coeffs, Fits 64 |c|)
    (fits : ∀ c ∈ coeffs, Fits 64 c) (fitsBound : Fits 64 bound) :
    KeepsSolutions ⟨coeffs, bound⟩ (PseudoBooleanSolver.normalize ⟨coeffs, bound⟩) ↔
      ¬(Truncates coeffs bound ∧ ∃ x, ZeroOne x ∧
        value coeffs x = bound.tdiv (content coeffs) * content coeffs) := by
  by_cases large : 1 < content coeffs
  · have pos : (0 : Int) < content coeffs := by omega
    obtain ⟨quotients, multiples, same⟩ := normalize_of_lt magnitudes fits fitsBound large
    have scaled (x : Nat → Int) : value coeffs x = content coeffs * value quotients x := by
      rw [← value_map_mul, ← multiples]
    have above := Int.lt_mul_ediv_self_add (x := bound) pos
    -- A truncated bound admits the multiple above the bound as well.
    have meaning (x : Nat → Int) : value quotients x ≤ bound.tdiv (content coeffs) ↔
        value coeffs x ≤ bound ∨ Truncates coeffs bound ∧
          value coeffs x = bound.tdiv (content coeffs) * content coeffs := by
      rw [scaled, mul_le_iff pos, tdiv_eq pos, mul_comm (content coeffs : Int),
        mul_left_inj' pos.ne', Truncates, and_iff_right large]
      split
      · rename_i rounded
        rw [and_iff_right rounded]
        omega
      · rename_i exact_
        rw [or_iff_left fun both => exact_ both.1, add_zero]
    rw [same]
    constructor
    · intro ⟨normalized, found, keeps⟩ ⟨truncates, x, zeroOne, attained⟩
      obtain rfl := some.inj found
      have below : value coeffs x ≤ bound :=
        (keeps x zeroOne).mp ((meaning x).mpr (Or.inr ⟨truncates, attained⟩))
      rw [attained, tdiv_eq pos, if_pos truncates.2, add_mul, one_mul, mul_comm] at below
      omega
    · intro calm
      refine ⟨_, rfl, fun x zeroOne => (meaning x).trans ?_⟩
      exact or_iff_left fun both => calm ⟨both.1, x, zeroOne, both.2⟩
  · rw [normalize_of_not_lt magnitudes large]
    exact iff_of_true ⟨_, rfl, fun _ _ => Iff.rfl⟩ fun truncates => large truncates.1.1

/-- The verdict is whether some point with zeros and ones satisfies the constraint. -/
def Decides (pb : PseudoBooleanSolver) (result : Option Bool) : Prop :=
  ∃ verdict, result = some verdict ∧ (verdict = true ↔ ∃ x, ZeroOne x ∧ pb.Holds x)

theorem sum_nonneg (positives : ∀ c ∈ coeffs, 0 < c) : 0 ≤ coeffs.sum := by
  induction coeffs with
  | nil => exact le_refl 0
  | cons c cs ih =>
    rw [sum_cons]
    exact add_nonneg (positives c (.head cs)).le (ih fun d mem => positives d (.tail c mem))

theorem foldlM_add (positives : ∀ c ∈ coeffs, 0 < c) {acc : Int} (above : 0 ≤ acc)
    (fits : Fits 64 acc) :
    coeffs.foldlM (fun acc c => checked 64 (acc + c)) acc =
      if Fits 64 (acc + coeffs.sum) then some (acc + coeffs.sum) else none := by
  induction coeffs generalizing acc with
  | nil =>
    rw [sum_nil, add_zero, if_pos fits]
    rfl
  | cons c cs ih =>
    have first := positives c (.head cs)
    have others : ∀ d ∈ cs, 0 < d := fun d mem => positives d (.tail c mem)
    have rest : 0 ≤ cs.sum := sum_nonneg others
    rw [foldlM_cons, bind_eq_bind, sum_cons, ← add_assoc]
    by_cases step : Fits 64 (acc + c)
    · rw [checked_of_fits step, bind_some, ih others (by omega) step]
    · -- Later numbers only make the sum larger.
      have overflow : ¬Fits 64 (acc + c + cs.sum) := by
        rw [fits_64] at step ⊢
        omega
      rw [checked_eq_none step, bind_none, if_neg overflow]

theorem decides_iff : Decides ⟨coeffs, bound⟩ (PseudoBooleanSolver.check ⟨coeffs, bound⟩) ↔
    Fits 64 (positiveSum coeffs) ∧ (positiveSum coeffs ≤ bound ∨ bound < negativeSum coeffs) := by
  have positives : ∀ c ∈ coeffs.filter (0 < ·), 0 < c := fun c mem =>
    of_decide_eq_true (mem_filter.mp mem).2
  have sum := foldlM_add positives (le_refl 0) (by decide)
  rw [zero_add] at sum
  have satisfiable : (∃ x, ZeroOne x ∧ PseudoBooleanSolver.Holds ⟨coeffs, bound⟩ x) ↔
      negativeSum coeffs ≤ bound := exists_value_le_iff
  have ordered : negativeSum coeffs ≤ positiveSum coeffs := by
    have bounds := @value_bounds coeffs (fun _ => 0) fun _ => Or.inl rfl
    exact bounds.1.trans bounds.2
  unfold Decides PseudoBooleanSolver.check
  rw [sum, satisfiable]
  change (∃ verdict, ((if Fits 64 (positiveSum coeffs) then some (positiveSum coeffs) else none).bind
    fun sum => some (decide (sum ≤ bound))) = some verdict ∧ _) ↔ _
  by_cases fits : Fits 64 (positiveSum coeffs)
  · rw [if_pos fits, bind_some, and_iff_right fits]
    constructor
    · intro ⟨verdict, same, right⟩
      rw [← some.inj same, decide_eq_true_iff] at right
      omega
    · intro extreme
      refine ⟨_, rfl, ?_⟩
      rw [decide_eq_true_iff]
      omega
  · rw [if_neg fits, bind_none]
    exact iff_of_false nofun fun both => fits both.1

theorem fits_abs {c : Int} (fits : Fits 64 c) : Fits 64 |c| ↔ c ≠ -2 ^ 63 := by
  rw [fits_64] at fits ⊢
  have sign := abs_choice c
  have above := neg_le_abs c
  omega

theorem tightenBound_overflow (overflow : ¬∀ c ∈ coeffs, Fits 64 |c|) :
    tightenBound coeffs bound = none ∧ PseudoBooleanSolver.normalize ⟨coeffs, bound⟩ = none := by
  have nonempty : ¬coeffs.isEmpty = true := fun empty => by
    rw [isEmpty_iff.mp empty] at overflow
    exact overflow (forall_mem_nil _)
  constructor
  · rw [tightenBound, if_neg nonempty, gcdAll_eq, if_neg overflow]
    rfl
  · rw [PseudoBooleanSolver.normalize, if_neg nonempty, gcdAll_eq, if_neg overflow]
    rfl

/-- When constraints keep their solutions, and when the verdict is right. -/
theorem constraints_sound_iff (fits : ∀ c ∈ coeffs, Fits 64 c) (fitsBound : Fits 64 bound) :
    (KeepsBound coeffs bound (tightenBound coeffs bound) ↔
      (∀ c ∈ coeffs, c ≠ -2 ^ 63) ∧ ¬Truncates coeffs bound) ∧
    (KeepsSolutions ⟨coeffs, bound⟩ (PseudoBooleanSolver.normalize ⟨coeffs, bound⟩) ↔
      (∀ c ∈ coeffs, c ≠ -2 ^ 63) ∧ ¬(Truncates coeffs bound ∧ ∃ x, ZeroOne x ∧
        value coeffs x = bound.tdiv (content coeffs) * content coeffs)) ∧
    (Decides ⟨coeffs, bound⟩ (PseudoBooleanSolver.check ⟨coeffs, bound⟩) ↔
      Fits 64 (positiveSum coeffs) ∧
        (positiveSum coeffs ≤ bound ∨ bound < negativeSum coeffs)) := by
  have magnitudes : (∀ c ∈ coeffs, Fits 64 |c|) ↔ ∀ c ∈ coeffs, c ≠ -2 ^ 63 :=
    forall₂_congr fun c member => fits_abs (fits c member)
  refine ⟨?_, ?_, decides_iff⟩
  · by_cases all : ∀ c ∈ coeffs, Fits 64 |c|
    · rw [keepsBound_iff all fitsBound, and_iff_right (magnitudes.mp all)]
    · rw [(tightenBound_overflow all).1]
      exact iff_of_false nofun fun both => all (magnitudes.mpr both.1)
  · by_cases all : ∀ c ∈ coeffs, Fits 64 |c|
    · rw [keepsSolutions_iff all fits fitsBound, and_iff_right (magnitudes.mp all)]
    · rw [(@tightenBound_overflow coeffs bound all).2]
      exact iff_of_false nofun fun both => all (magnitudes.mpr both.1)

/-- Bounds that are not negative are tightened correctly. -/
theorem positive_bound_tightened : KeepsBound [2, -4] 7 (tightenBound [2, -4] 7) :=
  (@constraints_sound_iff [2, -4] 7 (by decide) (by decide)).1.mpr
    ⟨by decide, fun truncates => absurd truncates.2.1 (by decide)⟩

/-- A negative bound is relaxed, and a satisfiable constraint is rejected. -/
theorem negative_bound_relaxed :
    (tightenBound [2, 4] (-3) = some (-2) ∧ ¬KeepsBound [2, 4] (-3) (tightenBound [2, 4] (-3))) ∧
    (PseudoBooleanSolver.normalize ⟨[-2, -4], -3⟩ = some ⟨[-1, -2], -1⟩ ∧
      ¬KeepsSolutions ⟨[-2, -4], -3⟩ (PseudoBooleanSolver.normalize ⟨[-2, -4], -3⟩)) ∧
    (PseudoBooleanSolver.check ⟨[1, 1], 1⟩ = some false ∧
      ¬Decides ⟨[1, 1], 1⟩ (PseudoBooleanSolver.check ⟨[1, 1], 1⟩)) := by
  have tightened : tightenBound [2, 4] (-3) = some (-2) := by decide +kernel
  have normalized : PseudoBooleanSolver.normalize ⟨[-2, -4], -3⟩ = some ⟨[-1, -2], -1⟩ := by
    decide +kernel
  have rejected : PseudoBooleanSolver.check ⟨[1, 1], 1⟩ = some false := by decide +kernel
  refine ⟨⟨tightened, ?_⟩, ⟨normalized, ?_⟩, rejected, ?_⟩
  · intro ⟨bound, same, keeps⟩
    obtain rfl := some.inj (tightened.symm.trans same)
    exact absurd ((keeps fun i => if i = 0 then -1 else 0).mp (by decide)) (by decide)
  · intro ⟨pb, same, keeps⟩
    obtain rfl := some.inj (normalized.symm.trans same)
    have point : ZeroOne fun i => if i = 0 then 1 else 0 := fun i => by
      dsimp only
      split
      · exact Or.inr rfl
      · exact Or.inl rfl
    have below : (-2 : Int) ≤ -3 := (keeps _ point).mp (by unfold PseudoBooleanSolver.Holds; decide)
    exact absurd below (by decide)
  · intro ⟨verdict, same, right⟩
    obtain rfl := some.inj (rejected.symm.trans same)
    exact Bool.false_ne_true (right.mpr ⟨fun _ => 0, fun _ => Or.inl rfl, by
      unfold PseudoBooleanSolver.Holds
      decide⟩)

end

end Nixie.Arithmetic.Lia
