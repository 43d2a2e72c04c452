import Nixie.Ast.Term

/-! Capture-avoiding substitution of terms for variables, by a worklist over substitution scopes. -/

namespace Nixie.Ast

namespace Term

mutual

/-- The sort of the first variable of a name that occurs in a term. -/
def findVarSort (target : Name) : Term → Option SortKind
  | .var name sort => if name = target then some sort else none
  | .node _ args => findVarSortAll target args
  | .bind _ _ args => findVarSortAll target args

/-- The sort of the first variable of a name that occurs in arguments. -/
def findVarSortAll (target : Name) : List Term → Option SortKind
  | [] => none
  | arg :: rest => (findVarSort target arg).or (findVarSortAll target rest)

end

end Term

/-- A case of a match stores the names of its variables only; their sorts are looked for. -/
def Binder.storesNames : Binder → Bool
  | .matchOn _ _ => true
  | _ => false

namespace Term

mutual

/-- The free variables that are reported; triggers, which say nothing, are left out. -/
def collectFreeVars : Term → List Var
  | .var name sort => [(name, sort)]
  | .node _ args => collectFreeVarsAll args
  | .bind binder scopes args => collectFreeVarsIn binder.storesNames scopes args

def collectFreeVarsAll : List Term → List Var
  | [] => []
  | arg :: rest => collectFreeVars arg ++ collectFreeVarsAll rest

/-- The free variables that are reported for arguments that each bind variables. -/
def collectFreeVarsIn (storesNames : Bool) : List (List Var) → List Term → List Var
  | _, [] => []
  | [], arg :: rest => collectFreeVars arg ++ collectFreeVarsIn storesNames [] rest
  | vars :: scopes, arg :: rest =>
    (collectFreeVars arg).filter (· ∉ if storesNames then
        vars.filterMap fun x => (findVarSort x.1 arg).map fun sort => (x.1, sort)
      else vars) ++ collectFreeVarsIn storesNames scopes rest

end

end Term

/-- The first of the names `base!0`, `base!1`, … from a counter on that is not to be avoided. -/
def freshFrom (base : Name) (avoid : List Name) : Nat → Nat → Name
  | 0, counter => base ++ "!" ++ toString counter
  | fuel + 1, counter =>
    let candidate := base ++ "!" ++ toString counter
    if candidate ∈ avoid then freshFrom base avoid fuel (counter + 1) else candidate

/-- A name that is not to be avoided; fewer names are tried than there are to avoid. -/
def freshVar (base : Name) (avoid : List Name) : Name := freshFrom base avoid avoid.length 0

abbrev Subst := List (Var × Term)

namespace Subst

/-- Map one more variable, or map it to another term. -/
def insert (subst : Subst) (x : Var) (term : Term) : Subst := (x, term) :: subst.filter (·.1 ≠ x)

/-- What a term is mapped to, if it is a variable. -/
def find (subst : Subst) : Term → Option Term
  | .var name sort => subst.lookup (name, sort)
  | _ => none

end Subst

/-- Rename the bound variables whose names occur free in replacements. -/
def renameBound (rangeFree : List Name) : List Var → List Name → Subst → Subst × List Var
  | [], _, effective => (effective, [])
  | (name, sort) :: rest, avoid, effective =>
    if name ∈ rangeFree then
      let fresh := freshVar name avoid
      let (effective, bound) := renameBound rangeFree rest (fresh :: avoid)
        (effective.insert (name, sort) (.var fresh sort))
      (effective, (fresh, sort) :: bound)
    else
      let (effective, bound) := renameBound rangeFree rest avoid effective
      (effective, (name, sort) :: bound)

/-- The substitution inside a scope and its bound variables, unless nothing is left to replace. -/
def prepareBinderSubst (bound : List Var) (body : Term) (subst : Subst) :
    Option (Subst × List Var) :=
  let effective := subst.filter (·.1 ∉ bound)
  if effective.isEmpty then none
  else
    let rangeFree := effective.flatMap fun (_, term) => term.collectFreeVars.map Prod.fst
    some (renameBound rangeFree bound
      (rangeFree ++ bound.map Prod.fst ++ body.collectFreeVars.map Prod.fst) effective)

/-- The variables that a scope is taken to bind. -/
def boundVars (storesNames : Bool) (vars : List Var) (body : Term) : List Var :=
  if storesNames then vars.map fun x => (x.1, (body.findVarSort x.1).getD .bool)
  else vars

/-- Bound variables under new names keep the sorts that they have. -/
def renamed (vars : List Var) (bound : List Var) : List Var :=
  List.zipWith (fun x y => (y.1, x.2)) vars bound

/-- Which arguments of a binding term are outside of its scopes. -/
def Binder.outside : Binder → Nat → List Bool
  | .forallQ, n | .existsQ, n => List.replicate n false
  | .letIn, n => List.replicate (n - 1) true ++ [false]
  | .matchOn _ _, n => true :: List.replicate (n - 1) false

def Kind.isLeaf : Kind → Bool
  | .tru | .fls | .intConst _ | .realConst _ | .bitVecConst _ _ => true
  | _ => false

section

variable (rebuild : Kind → List Term → Term)

mutual

def substitute (subst : Subst) : Term → Term
  | .var name sort => (subst.lookup (name, sort)).getD (.var name sort)
  | .node kind args =>
    if kind.isLeaf then .node kind args else rebuild kind (substituteAll subst args)
  | .bind binder scopes args =>
    let parts := substituteIn subst binder.storesNames (binder.outside args.length) scopes args
    .bind binder (parts.map Prod.fst) (parts.map Prod.snd)

def substituteAll (subst : Subst) : List Term → List Term
  | [] => []
  | arg :: rest => substitute subst arg :: substituteAll subst rest

/-- Replace the free variables of arguments that each bind variables. -/
def substituteIn (subst : Subst) (storesNames : Bool) :
    List Bool → List (List Var) → List Term → List (List Var × Term)
  | outside :: positions, vars :: scopes, arg :: rest =>
    (if outside then (vars, substitute subst arg)
      else match prepareBinderSubst (boundVars storesNames vars arg) arg subst with
        | none => (vars, arg)
        | some (inner, bound) => (renamed vars bound, substitute inner arg)) ::
      substituteIn subst storesNames positions scopes rest
  | _, _, _ => []

end

end

end Nixie.Ast
