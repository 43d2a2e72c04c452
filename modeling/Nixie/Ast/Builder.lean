import Nixie.Ast.Term

/-! The constructors of the term manager, which simplify what they build. -/

namespace Nixie.Ast

/-- Which of two terms was interned first; it decides the order of commutative arguments. -/
abbrev InternOrder := Term → Term → Bool

def mkBool (value : Bool) : Term := .node (if value then .tru else .fls) []

def mkTrue : Term := .node .tru []

def mkFalse : Term := .node .fls []

def mkInt (value : Int) : Term := .node (.intConst value) []

def mkReal (value : ℚ) : Term := .node (.realConst value) []

def mkNot : Term → Term
  | .node .not [inner] => inner
  | .node .tru [] => mkFalse
  | .node .fls [] => mkTrue
  | arg => .node .not [arg]

/-- The arguments of a conjunction, without the true ones and with those of inner conjunctions. -/
def flattenAnd : List Term → Option (List Term)
  | [] => some []
  | .node .fls [] :: _ => none
  | .node .tru [] :: rest => flattenAnd rest
  | .node .and inner :: rest => (flattenAnd rest).map (inner ++ ·)
  | arg :: rest => (flattenAnd rest).map (arg :: ·)

def mkAnd (args : List Term) : Term :=
  match flattenAnd args with
  | none => mkFalse
  | some [] => mkTrue
  | some [arg] => arg
  | some flat => .node .and flat

/-- The arguments of a disjunction, without the false ones and with those of inner disjunctions. -/
def flattenOr : List Term → Option (List Term)
  | [] => some []
  | .node .tru [] :: _ => none
  | .node .fls [] :: rest => flattenOr rest
  | .node .or inner :: rest => (flattenOr rest).map (inner ++ ·)
  | arg :: rest => (flattenOr rest).map (arg :: ·)

def mkOr (args : List Term) : Term :=
  match flattenOr args with
  | none => mkTrue
  | some [] => mkFalse
  | some [arg] => arg
  | some flat => .node .or flat

def mkImplies (lhs rhs : Term) : Term :=
  if lhs = mkFalse then mkTrue
  else if lhs = mkTrue then rhs
  else if rhs = mkTrue then mkTrue
  else .node .implies [lhs, rhs]

def mkXor (lhs rhs : Term) : Term :=
  if lhs = rhs then mkFalse
  else if lhs = mkFalse then rhs
  else if lhs = mkTrue then mkNot rhs
  else if rhs = mkFalse then lhs
  else if rhs = mkTrue then mkNot lhs
  else .node .xor [lhs, rhs]

def mkIte (cond thenBr elseBr : Term) : Term :=
  if cond = mkTrue then thenBr
  else if cond = mkFalse then elseBr
  else if thenBr = elseBr then thenBr
  else if thenBr = mkTrue ∧ elseBr = mkFalse then cond
  else .node .ite [cond, thenBr, elseBr]

def eqConst : Term → Term → Option Bool
  | .node (.intConst a) [], .node (.intConst b) [] => some (a == b)
  | .node .tru [], .node .tru [] => some true
  | .node .fls [], .node .fls [] => some true
  | .node .tru [], .node .fls [] => some false
  | .node .fls [], .node .tru [] => some false
  | .node (.bitVecConst a w) [], .node (.bitVecConst b w') [] => some (a == b && w == w')
  | _, _ => none

/-- An equality, with the arguments in the order in which they were interned. -/
def mkEq (before : InternOrder) (lhs rhs : Term) : Term :=
  if lhs = rhs then mkTrue
  else match eqConst lhs rhs with
    | some value => mkBool value
    | none => if before lhs rhs then .node .eq [lhs, rhs] else .node .eq [rhs, lhs]

def mkDistinct (args : List Term) : Term :=
  if args.length ≤ 1 then mkTrue else .node .distinct args

def mkAdd : List Term → Term
  | [] => mkInt 0
  | [arg] => arg
  | args => .node .add args

def mkMul : List Term → Term
  | [] => mkInt 1
  | [arg] => arg
  | args => .node .mul args

def mkSub (lhs rhs : Term) : Term := .node .sub [lhs, rhs]

def mkNeg (arg : Term) : Term := .node .neg [arg]

def mkLt (lhs rhs : Term) : Term := .node .lt [lhs, rhs]

def mkLe (lhs rhs : Term) : Term := .node .le [lhs, rhs]

def mkGt (lhs rhs : Term) : Term := .node .gt [lhs, rhs]

def mkGe (lhs rhs : Term) : Term := .node .ge [lhs, rhs]

end Nixie.Ast
