import Nixie.Arithmetic.CheckedRatio

/-! Replacing the infinitesimal of an assignment by a number. -/

namespace Nixie.Arithmetic

open Nixie.Math List Option

/-- A number with a multiple of a positive infinitesimal. -/
structure DeltaRational where
  real : Rational64
  delta : Rational64
  deriving DecidableEq, Repr

/-- Both parts are canonical. -/
structure DeltaRational.Canonical (d : DeltaRational) : Prop where
  real : d.real.Canonical
  delta : d.delta.Canonical

/-- The value for a number in place of the infinitesimal. -/
def DeltaRational.at (d : DeltaRational) (δ : ℚ) : ℚ := d.real.val + d.delta.val * δ

/-- The order of numbers with an infinitesimal: the numbers decide first. -/
def DeltaRational.AtMost (low high : DeltaRational) : Prop :=
  low.real.val < high.real.val ∨ low.real.val = high.real.val ∧ low.delta.val ≤ high.delta.val

/-- The assignment of the variables, and their bounds. -/
structure Assigned where
  assignment : List DeltaRational
  lower : List (Option DeltaRational)
  upper : List (Option DeltaRational)

def tiny : Rational64 := ⟨1, 2 ^ 63 - 1⟩

/-- A bound of a variable, with the value of the variable. -/
structure Side where
  assigned : DeltaRational
  bound : DeltaRational
  isLower : Bool

namespace Side

def high (side : Side) : DeltaRational := if side.isLower then side.assigned else side.bound

def low (side : Side) : DeltaRational := if side.isLower then side.bound else side.assigned

def gap (side : Side) : ℚ := side.high.real.val - side.low.real.val

/-- How the value moves away from the bound with the infinitesimal. -/
def drift (side : Side) : ℚ :=
  if side.isLower then side.assigned.delta.val else -side.assigned.delta.val

def strictness (side : Side) : ℚ :=
  if side.isLower then side.bound.delta.val else -side.bound.delta.val

def Satisfied (side : Side) : Prop := side.low.AtMost side.high

/-- A bound with an infinitesimal is strict, never weaker than its number. -/
structure Proper (side : Side) : Prop where
  assigned : side.assigned.Canonical
  bound : side.bound.Canonical
  strict : 0 ≤ side.strictness

/-- The number in place of the infinitesimal satisfies the bound, a strict one strictly. -/
def Holds (side : Side) (δ : ℚ) : Prop :=
  let distance := if side.isLower then side.assigned.at δ - side.bound.real.val
    else side.bound.real.val - side.assigned.at δ
  0 ≤ distance ∧ (side.strictness ≠ 0 → 0 < distance)

/-- The quotient that limits the infinitesimal, if the differences and the quotient fit. -/
def limit (side : Side) : Option (Option Rational64) :=
  match checkedSub side.high.real side.low.real, checkedSub side.high.delta side.low.delta with
  | some dr, some dd =>
    if ¬dd.val < 0 ∨ ¬0 < dr.val then none
    else some ((checkedNeg dd).bind (checkedDiv dr))
  | _, _ => none

/-- What the infinitesimal is lowered to for a bound. -/
def candidate (side : Side) : Option Rational64 := side.limit.map (·.getD tiny)

/-- A number that keeps the value beyond the bound although it drifts towards it. -/
def Below (side : Side) (δ : ℚ) : Prop :=
  if side.strictness = 0 then δ ≤ side.gap / -side.drift else δ < side.gap / -side.drift

end Side

def Assigned.sides (state : Assigned) : List Side :=
  state.assignment.zipIdx.flatMap fun (assigned, idx) =>
    ((state.lower[idx]?).join.map (⟨assigned, ·, true⟩)).toList ++
      ((state.upper[idx]?).join.map (⟨assigned, ·, false⟩)).toList

section

variable {side : Side} {delta : Rational64} {δ : ℚ}

theorem Side.Proper.ends (proper : side.Proper) : side.high.Canonical ∧ side.low.Canonical := by
  unfold high low
  split
  · exact ⟨proper.assigned, proper.bound⟩
  · exact ⟨proper.bound, proper.assigned⟩

end

section

variable {sides : List Side} {state : Assigned}

end

end Nixie.Arithmetic
