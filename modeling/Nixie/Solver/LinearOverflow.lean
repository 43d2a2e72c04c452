import Nixie.Solver.LinearExact

/-! Parsing is exact exactly where no operation on machine words overflows. -/

namespace Nixie.Linear

open Function Option

def word (n : Int) : Option Int := if inI64 n then some n else none

/-- A comparison: its sides, and how they are compared. -/
structure Comparison where
  lhs : ArithTerm
  rhs : ArithTerm
  constraintType : ArithConstraintType

/-- Caches that parsing can lead to, where every reason is one comparison. -/
inductive Reached (compute : Step → Option ℚ) (graph : Nat → Comparison) : ParseCache → Prop
  | empty : Reached compute graph fun _ => none
  | parse {cache cache' : ParseCache} {answer : Option ParsedArithConstraint} (reason : Nat)
      (reached : Reached compute graph cache)
      (parsed : parseArithComparison compute cache (graph reason).lhs (graph reason).rhs
        (graph reason).constraintType reason = some (answer, cache')) :
      Reached compute graph cache'

/-- No operation overflows, and a constraint holds exactly where the comparison does. -/
def Meets (compute : Step → Option ℚ) (cache : ParseCache) (c : Comparison) (reason : Nat) : Prop :=
  ∃ answer cache', parseArithComparison compute cache c.lhs c.rhs c.constraintType reason =
      some (answer, cache') ∧
    ∀ parsed ∈ answer, ∀ ν, parsed.Holds ν ↔ c.constraintType.Compares (c.lhs.value ν) (c.rhs.value ν)

section

variable {compute : Step → Option ℚ} {graph : Nat → Comparison} {cache : ParseCache}

def exactComparison (graph : Nat → Comparison) (reason : Nat) : Traced Step ParsedArithConstraint :=
  comparison (graph reason).lhs (graph reason).rhs (graph reason).constraintType reason

theorem parse_uncached (sound : Sound compute) {reason : Nat} (uncached : cache reason = none) :
    parseArithComparison compute cache (graph reason).lhs (graph reason).rhs
      (graph reason).constraintType reason =
    if (exactComparison graph reason).steps.all (fits compute) then
      some ((exactComparison graph reason).result,
        update cache reason (some (exactComparison graph reason).result))
    else none := by
  rw [parseArithComparison, uncached]
  dsimp only
  rw [compareSides_eq sound, perform, ← exactComparison]
  by_cases all : (exactComparison graph reason).steps.all (fits compute) = true
  · rw [if_pos all, if_pos all]
    cases (exactComparison graph reason).result <;> rfl
  · rw [if_neg all, if_neg all]

theorem Reached.exact (reached : Reached compute graph cache) (sound : Sound compute)
    {reason : Nat} {answer : Option ParsedArithConstraint} (cached : cache reason = some answer) :
    answer = (exactComparison graph reason).result ∧
      (exactComparison graph reason).steps.all (fits compute) = true := by
  induction reached generalizing reason answer with
  | empty => cases cached
  | @parse cache cache' answer' other reached parsed ih =>
    cases old : cache other with
    | some entry =>
      -- The cache is as it was.
      rw [parseArithComparison, old] at parsed
      obtain ⟨-, rfl⟩ := Prod.mk.inj (some.inj parsed)
      exact ih cached
    | none =>
      rw [parse_uncached sound old] at parsed
      split at parsed
      · next all =>
        obtain ⟨-, rfl⟩ := Prod.mk.inj (some.inj parsed)
        by_cases same : reason = other
        · subst same
          rw [update_self] at cached
          exact ⟨(some.inj cached).symm, all⟩
        · rw [update_of_ne same] at cached
          exact ih cached
      · cases parsed

end

end Nixie.Linear
