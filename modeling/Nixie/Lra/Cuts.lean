import Mathlib.Data.Real.Basic
import Mathlib.Data.Rat.Floor
import Nixie.Arithmetic.LinExpr
import Nixie.Math.IntegerRounding

/-! The simplex tableau: rows, bounds, and the current assignment. -/

namespace Nixie.Lra

open Arithmetic

/-- A number with a multiple of a positive infinitesimal. -/
structure DeltaRational where
  real : ℚ
  delta : ℚ
  deriving DecidableEq

/-- The state of the simplex. -/
structure Simplex where
  size : Nat
  assignment : VarId → DeltaRational
  lower : VarId → Option DeltaRational
  upper : VarId → Option DeltaRational
  /-- The rows: what basic variables are equal to. -/
  tableau : VarId → Option LinExpr
  /-- The basic variables whose rows mention a variable. -/
  columns : VarId → Option (List VarId)
  basic : VarId → Bool
  /-- Whether the assignment follows from the rows and the bounds. -/
  assignmentCurrent : Bool
  resourceLimit : Bool

namespace Simplex

/-- The value of a variable without its infinitesimal part. -/
def value (s : Simplex) (var : VarId) : ℚ := (s.assignment var).real

end Simplex

/-- A number is at least a lower bound, and above it if the bound has a positive infinitesimal. -/
def DeltaRational.AtMost (bound : DeltaRational) (x : ℝ) : Prop :=
  bound.real ≤ x ∧ (0 < bound.delta → bound.real < x)

/-- A number is at most an upper bound, and below it if the bound has a negative infinitesimal. -/
def DeltaRational.AtLeast (bound : DeltaRational) (x : ℝ) : Prop :=
  x ≤ bound.real ∧ (bound.delta < 0 → x < bound.real)

/-- The rows and the bounds hold. -/
structure Simplex.Feasible (s : Simplex) (x : VarId → ℝ) : Prop where
  rows (v : VarId) (row : LinExpr) : s.tableau v = some row → x v = row.value x
  lower (v : VarId) (bound : DeltaRational) : s.lower v = some bound → bound.AtMost (x v)
  upper (v : VarId) (bound : DeltaRational) : s.upper v = some bound → bound.AtLeast (x v)

end Nixie.Lra

/-! Cutting planes that are derived from one row of the tableau. -/

namespace Nixie.Lra

open Arithmetic Math.IntegerRounding Option

/-- The solver for linear arithmetic over integers. -/
structure LiaSolver where
  simplex : Simplex
  intVars : VarId → Bool

namespace LiaSolver

/-- The rows and the bounds hold, and integer variables are integers. -/
structure Feasible (solver : LiaSolver) (x : VarId → ℝ) : Prop extends
    solver.simplex.Feasible x where
  integral (v : VarId) : solver.intVars v = true → ∃ n : Int, x v = n

section

variable {solver : LiaSolver} {pureInteger isInt : Bool} {f0 barA coef : ℚ} {x : VarId → ℝ}
  {terms : List LinTerm} {acc cut : LinExpr} {t : LinTerm} {var : VarId}

/-- What terms of the row add to a cut: the movement of the row is a sum and an integer, and the
cut is lower by a gain. -/
structure Gains (pureInteger : Bool) (f0 : ℚ) (x : VarId → ℝ) (drift : ℝ)
    (acc cut : LinExpr) (sum gain : ℝ) : Prop where
  lower : cut.value x = acc.value x - gain
  moves : ∃ k : Int, drift = -(sum + k)
  pure_ : pureInteger = true → gain = sum ∧ 0 ≤ sum
  mixed : pureInteger = false → sum / f0 ≤ gain ∧ -sum / (1 - f0) ≤ gain

theorem Gains.nil : Gains pureInteger f0 x 0 acc acc 0 0 where
  lower := (sub_zero _).symm
  moves := ⟨0, by rw [Int.cast_zero, add_zero, neg_zero]⟩
  pure_ _ := ⟨rfl, le_refl 0⟩
  mixed _ := by rw [neg_zero, zero_div, zero_div, and_self]

theorem Gains.trans {drift drift' sum sum' gain gain' : ℝ} {mid : LinExpr}
    (first : Gains pureInteger f0 x drift acc mid sum gain)
    (second : Gains pureInteger f0 x drift' mid cut sum' gain') :
    Gains pureInteger f0 x (drift + drift') acc cut (sum + sum') (gain + gain') where
  lower := by
    rw [second.lower, first.lower]
    ring
  moves := by
    obtain ⟨k, same⟩ := first.moves
    obtain ⟨k', same'⟩ := second.moves
    refine ⟨k + k', ?_⟩
    rw [same, same', Int.cast_add]
    ring
  pure_ pure := by
    obtain ⟨same, nonneg⟩ := first.pure_ pure
    obtain ⟨same', nonneg'⟩ := second.pure_ pure
    exact ⟨by rw [same, same'], add_nonneg nonneg nonneg'⟩
  mixed mixed := by
    obtain ⟨up, down⟩ := first.mixed mixed
    obtain ⟨up', down'⟩ := second.mixed mixed
    rw [add_div, neg_add, add_div]
    exact ⟨add_le_add up up', add_le_add down down'⟩

end

end LiaSolver

end Nixie.Lra
