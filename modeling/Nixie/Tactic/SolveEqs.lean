import Nixie.Ast.Laws
import Nixie.Ast.Substitute

/-! Goals and what tactics make of them. -/

namespace Nixie.Ast.Tactic

inductive Precision where
  | under
  | precise
  | over
  deriving DecidableEq

/-- A formula to be solved, as a list of assertions. -/
structure Goal where
  assertions : List Term
  precision : Precision
  deriving DecidableEq

inductive SolveResult where
  | sat
  | unsat
  | unknown
  deriving DecidableEq

inductive TacticResult where
  | solved (result : SolveResult)
  | subGoals (goals : List Goal)
  | notApplicable
  | failed (reason : String)
  deriving DecidableEq

/-- An assignment meets all assertions of a goal. -/
def Goal.Holds (goal : Goal) {I : Interp} (ν : I.Assignment) : Prop :=
  ∀ assertion ∈ goal.assertions, (assertion.eval I ν).holds

def Goal.Satisfiable (goal : Goal) : Prop :=
  ∃ I : Interp, I.Lawful ∧ ∃ ν, I.Respects ν ∧ goal.Holds ν

end Nixie.Ast.Tactic

/-! Variables that an equality defines are replaced in the other assertions. -/

namespace Nixie.Ast.Term

mutual

def containsTerm : Term → Term → Bool
  | .var name sort, needle => decide (.var name sort = needle)
  | .node kind args, needle => decide (.node kind args = needle) || containsTermAny args needle
  | .bind binder scopes args, needle =>
    decide (.bind binder scopes args = needle) || containsTermAny args needle

def containsTermAny : List Term → Term → Bool
  | [], _ => false
  | arg :: rest, needle => containsTerm arg needle || containsTermAny rest needle

end

end Nixie.Ast.Term

namespace Nixie.Ast.Tactic.SolveEqs

def varOccursIn (var : Var) (term : Term) : Bool := term.containsTerm (.var var.1 var.2)

def solveVar : Term → Term → Option (Var × Term)
  | .var name sort, expr =>
    if varOccursIn (name, sort) expr then none else some ((name, sort), expr)
  | _, _ => none

def subtractAll (rhs : Term) : List Term → Term
  | [] => rhs
  | [other] => mkSub rhs other
  | others => mkSub rhs (mkAdd others)

/-- Solve `x + a₁ + a₂ + … = b` for the first variable that occurs nowhere else. -/
def solveLinearAdd (rhs : Term) (passed : List Term) : List Term → Option (Var × Term)
  | [] => none
  | .var name sort :: rest =>
    let others := passed ++ rest
    if others.any (varOccursIn (name, sort)) || varOccursIn (name, sort) rhs then
      solveLinearAdd rhs (passed ++ [.var name sort]) rest
    else some ((name, sort), subtractAll rhs others)
  | arg :: rest => solveLinearAdd rhs (passed ++ [arg]) rest

def solveLinearSub (minuend subtrahend rhs : Term) : Option (Var × Term) :=
  match minuend with
  | .var name sort =>
    if varOccursIn (name, sort) subtrahend || varOccursIn (name, sort) rhs then none
    else some ((name, sort), mkAdd [rhs, subtrahend])
  | _ => none

def trySolveEquality : Term → Option (Var × Term)
  | .node .eq [lhs, rhs] =>
    ((solveVar lhs rhs).or (solveVar rhs lhs)).or (match lhs with
      | .node .add args => solveLinearAdd rhs [] args
      | .node .sub [minuend, subtrahend] => solveLinearSub minuend subtrahend rhs
      | _ => none)
  | _ => none

/-- The solution of the first assertion that has one, and the other assertions. -/
def solveFirst : List Term → Option ((Var × Term) × List Term)
  | [] => none
  | assertion :: rest =>
    match trySolveEquality assertion with
    | some solution => some (solution, rest)
    | none => (solveFirst rest).map fun (solution, others) => (solution, assertion :: others)

section

variable (substitute : Subst → Term → Term) (simplify : Term → Term)

def eliminate : Nat → List Term → List Term × List (Var × Term)
  | 0, assertions => (assertions, [])
  | n + 1, assertions =>
    match solveFirst assertions with
    | none => (assertions, [])
    | some ((var, expr), others) =>
      let (left, eliminations) := eliminate n
        (others.map fun assertion => simplify (substitute [(var, expr)] assertion))
      (left, (var, expr) :: eliminations)

/-- Give the eliminated variables their values, in reverse order. -/
def convert (eliminations : List (Var × Term)) (model : Subst) : Subst :=
  eliminations.foldr (fun (var, expr) result =>
    result.insert var (simplify (substitute result expr))) model

end

end Nixie.Ast.Tactic.SolveEqs
