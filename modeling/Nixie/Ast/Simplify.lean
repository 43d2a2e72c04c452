import Mathlib.Algebra.BigOperators.Ring.Finset
import Nixie.Ast.BuilderLaws

/-! Rebuilding terms from arguments that were replaced or simplified. -/

namespace Nixie.Ast

open List

/-- Build a term of a kind; kinds without a constructor that simplifies are interned. -/
def rebuildSubstituted (before : InternOrder) : Kind → List Term → Term
  | .not, [arg] => mkNot arg
  | .and, args => mkAnd args
  | .or, args => mkOr args
  | .xor, [lhs, rhs] => mkXor lhs rhs
  | .implies, [lhs, rhs] => mkImplies lhs rhs
  | .ite, [cond, thenBr, elseBr] => mkIte cond thenBr elseBr
  | .eq, [lhs, rhs] => mkEq before lhs rhs
  | .distinct, args => mkDistinct args
  | .neg, [arg] => mkNeg arg
  | .add, args => mkAdd args
  | .sub, [lhs, rhs] => mkSub lhs rhs
  | .mul, args => mkMul args
  | .lt, [lhs, rhs] => mkLt lhs rhs
  | .le, [lhs, rhs] => mkLe lhs rhs
  | .gt, [lhs, rhs] => mkGt lhs rhs
  | .ge, [lhs, rhs] => mkGe lhs rhs
  | kind, args => .node kind args

def intConst? : Term → Option Int
  | .node (.intConst value) [] => some value
  | _ => none

def simplifyNeg (arg : Term) : Term :=
  match intConst? arg with
  | some value => mkInt (-value)
  | none => match arg with
    | .node .neg [inner] => inner
    | arg => .node .neg [arg]

/-- Simplify a sum: the constants are added up, and go to the end. -/
def simplifyAdd (args : List Term) : Term :=
  let constantSum := (args.filterMap intConst?).sum
  let others := args.filter fun arg => (intConst? arg).isNone
  if others.isEmpty then mkInt constantSum
  else if constantSum ≠ 0 then mkAdd (others ++ [mkInt constantSum])
  else mkAdd others

/-- Simplify a product: the constants are multiplied, and go to the front. -/
def simplifyMul (args : List Term) : Term :=
  let constants := args.filterMap intConst?
  let others := args.filter fun arg => (intConst? arg).isNone
  if 0 ∈ constants then mkInt 0
  else if others.isEmpty then mkInt constants.prod
  else if constants.prod ≠ 1 then mkMul (mkInt constants.prod :: others)
  else mkMul others

def simplifySub (lhs rhs : Term) : Term :=
  match intConst? lhs, intConst? rhs with
  | some a, some b => mkInt (a - b)
  | _, some 0 => lhs
  | some 0, _ => simplifyNeg rhs
  | _, _ => mkSub lhs rhs

def simplifyComparison (kind : Kind) (reflexive : Bool) (compare : Int → Int → Bool)
    (lhs rhs : Term) : Term :=
  if lhs = rhs then mkBool reflexive
  else match intConst? lhs, intConst? rhs with
    | some a, some b => mkBool (compare a b)
    | _, _ => .node kind [lhs, rhs]

def simplifyLt : Term → Term → Term := simplifyComparison .lt false fun a b => decide (a < b)

def simplifyLe : Term → Term → Term := simplifyComparison .le true fun a b => decide (a ≤ b)

def simplifyGt : Term → Term → Term := simplifyComparison .gt false fun a b => decide (a > b)

def simplifyGe : Term → Term → Term := simplifyComparison .ge true fun a b => decide (a ≥ b)

/-- The kinds whose arguments are simplified; all other terms stay as they are. -/
def Kind.isSimplified : Kind → Bool
  | .not | .and | .or | .implies | .eq | .ite | .add | .sub | .mul | .neg | .lt | .le | .gt | .ge =>
    true
  | _ => false

def combineSimplified (before : InternOrder) : Kind → List Term → Term
  | .not, [arg] => mkNot arg
  | .and, args => mkAnd args
  | .or, args => mkOr args
  | .implies, [lhs, rhs] => mkImplies lhs rhs
  | .eq, [lhs, rhs] => mkEq before lhs rhs
  | .ite, [cond, thenBr, elseBr] => mkIte cond thenBr elseBr
  | .add, args => simplifyAdd args
  | .sub, [lhs, rhs] => simplifySub lhs rhs
  | .mul, args => simplifyMul args
  | .neg, [arg] => simplifyNeg arg
  | .lt, [lhs, rhs] => simplifyLt lhs rhs
  | .le, [lhs, rhs] => simplifyLe lhs rhs
  | .gt, [lhs, rhs] => simplifyGt lhs rhs
  | .ge, [lhs, rhs] => simplifyGe lhs rhs
  | kind, args => .node kind args

mutual

def simplify (before : InternOrder) : Term → Term
  | .var name sort => .var name sort
  | .node kind args =>
    if kind.isSimplified then combineSimplified before kind (simplifyAll before args)
    else .node kind args
  | .bind binder scopes args => .bind binder scopes args

def simplifyAll (before : InternOrder) : List Term → List Term
  | [] => []
  | arg :: rest => simplify before arg :: simplifyAll before rest

end

section

variable {I : Interp} {ν : I.Assignment}

end

end Nixie.Ast
