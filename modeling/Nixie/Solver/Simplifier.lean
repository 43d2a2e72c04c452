import Nixie.Ast.Builder

/-! Simplification of assertions before they are solved. -/

namespace Nixie.Ast.Simplifier

open Function

section

variable (before : InternOrder) (look : Term → Term)

/-- Append the simplified terms that are not in the list yet. -/
def pushNew : List Term → List Term → List Term
  | [], seen => seen
  | term :: rest, seen =>
    pushNew rest (if look term ∈ seen then seen else seen ++ [look term])

/-- The term is the negation of one that was seen, or its negation was seen. -/
def opposes (term : Term) (seen : List Term) : Bool :=
  (match term with
    | .node .not [inner] => decide (inner ∈ seen)
    | _ => false) || decide (mkNot term ∈ seen)

def nestedArgs (conjunction : Bool) : Term → Option (List Term)
  | .node .and nested => if conjunction then some nested else none
  | .node .or nested => if conjunction then none else some nested
  | _ => none

/-- The simplified arguments of a conjunction or of a disjunction, or none if one decides it. -/
def junctionArgs (conjunction : Bool) : List Term → List Term → Option (List Term)
  | [], seen => some seen
  | arg :: rest, seen =>
    if look arg = mkBool (!conjunction) then none
    else if look arg = mkBool conjunction then junctionArgs conjunction rest seen
    else match nestedArgs conjunction (look arg) with
      | some nested => junctionArgs conjunction rest (pushNew look nested seen)
      | none =>
        if opposes (look arg) seen then none
        else junctionArgs conjunction rest
          (if look arg ∈ seen then seen else seen ++ [look arg])

def eqConstructors : Term → Term → Option Term
  | .node (.dtConstructor con) args, .node (.dtConstructor con') args' =>
    if con ≠ con' then some mkFalse
    else if args.isEmpty ∧ args'.isEmpty then some mkTrue
    else if args.length = args'.length then some (mkAnd (List.zipWith (mkEq before) args args'))
    else none
  | _, _ => none

/-- An equality between formulas of which one is constant. -/
def eqBooleans (lhs rhs : Term) : Option Term :=
  if lhs.sort ≠ .bool then none
  else match lhs, rhs with
    | .node .tru [], .node .fls [] | .node .fls [], .node .tru [] => some mkFalse
    | .node .tru [], .node .tru [] | .node .fls [], .node .fls [] => some mkTrue
    | lhs, .node .tru [] => some lhs
    | lhs, .node .fls [] => some (mkNot lhs)
    | .node .tru [], rhs => some rhs
    | .node .fls [], rhs => some (mkNot rhs)
    | _, _ => none

def simplifyImpl : Term → Term
  | .node .not [arg] =>
    match look arg with
    | .node .tru [] => mkFalse
    | .node .fls [] => mkTrue
    | .node .not [inner] => inner
    | simplified => if simplified = arg then .node .not [arg] else mkNot simplified
  | .node .and args =>
    match junctionArgs look true args [] with
    | none => mkFalse
    | some [] => mkTrue
    | some [arg] => arg
    | some simplified => mkAnd simplified
  | .node .or args =>
    match junctionArgs look false args [] with
    | none => mkTrue
    | some [] => mkFalse
    | some [arg] => arg
    | some simplified => mkOr simplified
  | .node .implies [lhs, rhs] =>
    if look lhs = mkFalse then mkTrue
    else if look lhs = mkTrue then look rhs
    else if look rhs = mkTrue then mkTrue
    else if look rhs = mkFalse then mkNot (look lhs)
    else if look lhs = lhs ∧ look rhs = rhs then .node .implies [lhs, rhs]
    else mkImplies (look lhs) (look rhs)
  | .node .ite [cond, thenBr, elseBr] =>
    if look cond = mkTrue then look thenBr
    else if look cond = mkFalse then look elseBr
    else if look thenBr = look elseBr then look thenBr
    else if look cond = cond ∧ look thenBr = thenBr ∧ look elseBr = elseBr then
      .node .ite [cond, thenBr, elseBr]
    else mkIte (look cond) (look thenBr) (look elseBr)
  | .node .eq [lhs, rhs] =>
    if look lhs = look rhs then mkTrue
    else match eqConstructors before (look lhs) (look rhs) with
      | some simplified => simplified
      | none => match eqBooleans (look lhs) (look rhs) with
        | some simplified => simplified
        | none =>
          if look lhs = lhs ∧ look rhs = rhs then .node .eq [lhs, rhs]
          else mkEq before (look lhs) (look rhs)
  | term => term

end

/-- Simplified terms, which stay in the cache from one call to the next. -/
abbrev Cache := Term → Option Term

/-- What the cache has for a term; the rules only ask for terms that it has. -/
def Cache.look (cache : Cache) (term : Term) : Term := (cache term).getD term

def children : Term → List Term
  | .node .not [arg] => [arg]
  | .node .implies [lhs, rhs] | .node .eq [lhs, rhs] => [lhs, rhs]
  | .node .ite [cond, thenBr, elseBr] => [cond, thenBr, elseBr]
  | .node .and args | .node .or args => args
  | _ => []

/-- The arguments of what the arguments of a conjunction or of a disjunction became. -/
def nestedChildren (cache : Cache) : Term → List Term
  | .node .and args => args.flatMap fun arg => ((cache arg).bind (nestedArgs true)).getD []
  | .node .or args => args.flatMap fun arg => ((cache arg).bind (nestedArgs false)).getD []
  | _ => []

/-- The terms that have to be simplified before another one. -/
def missingDependencies (cache : Cache) (term : Term) : List Term :=
  match (children term).filter fun child => (cache child).isNone with
  | [] => (nestedChildren cache term).filter fun child => (cache child).isNone
  | missing => missing

/-- Simplify the terms on a stack and whatever they depend on. -/
def simplifyLoop (before : InternOrder) : Nat → List Term → Cache → Option Cache
  | _, [], cache => some cache
  | 0, _ :: _, _ => none
  | fuel + 1, top :: stack, cache =>
    if (cache top).isSome then simplifyLoop before fuel stack cache
    else match missingDependencies cache top with
      | [] =>
        let result := simplifyImpl before cache.look top
        simplifyLoop before fuel stack (update cache top (some result))
      | missing => simplifyLoop before fuel (missing ++ top :: stack) cache

/-- Simplify a term; the fuel bounds the steps of the worklist. -/
def simplify (before : InternOrder) (fuel : Nat) (term : Term) (cache : Cache) :
    Option (Term × Cache) :=
  match cache term with
  | some simplified => some (simplified, cache)
  | none => (simplifyLoop before fuel [term] cache).map fun cache => (cache.look term, cache)

/-- A variable and a constructor, if these are the sides of an equality. -/
def extractVarConstructor : Term → Term → Option (Term × Constructor)
  | .var name sort, .node (.dtConstructor con) _ => some (.var name sort, con)
  | .node (.dtConstructor con) _, .var name sort => some (.var name sort, con)
  | _, _ => none

/-- What is known after some assertions. -/
structure Progress where
  simplified : List Term
  foundFalse : Bool
  varConstructors : Term → Option Constructor

def Progress.take (progress : Progress) (term : Term) : Progress :=
  if term = mkTrue then progress
  else
    let progress := { progress with
      simplified := progress.simplified ++ [term]
      foundFalse := progress.foundFalse || decide (term = mkFalse) }
    match term with
    | .node .eq [lhs, rhs] =>
      match extractVarConstructor lhs rhs with
      | some (var, con) =>
        match progress.varConstructors var with
        | some existing =>
          { progress with foundFalse := progress.foundFalse || decide (existing ≠ con) }
        | none =>
          { progress with
            varConstructors := update progress.varConstructors var (some con) }
      | none => progress
    | _ => progress

def simplifyEach (before : InternOrder) (fuel : Nat) :
    List Term → Progress → Cache → Option (Progress × Cache)
  | [], progress, cache => some (progress, cache)
  | assertion :: rest, progress, cache =>
    match simplify before fuel assertion cache with
    | some (term, cache) => simplifyEach before fuel rest (progress.take term) cache
    | none => none

def simplifyAssertions (before : InternOrder) (fuel : Nat) (assertions : List Term)
    (cache : Cache) : Option ((List Term × Bool) × Cache) :=
  (simplifyEach before fuel assertions ⟨[], false, fun _ => none⟩ cache).map
    fun (progress, cache) => ((progress.simplified, progress.foundFalse), cache)

abbrev Units := Term → Option Bool

def noteUnit (units : Units) : Term → Units
  | .node .not [inner] => update units inner (some false)
  | .var name sort => update units (.var name sort) (some true)
  | _ => units

def isUnit : Term → Bool
  | .node .not [_] | .var _ _ => true
  | _ => false

def collectUnits (assertions : List Term) : Units := assertions.foldl noteUnit fun _ => none

section

variable (units : Units)

mutual

/-- Replace the terms that have truth values, under negations, conjunctions and disjunctions. -/
def substituteUnits (term : Term) : Term :=
  match units term with
  | some value => mkBool value
  | none =>
    match term with
    | .node .not [arg] =>
      let arg' := substituteUnits arg
      if arg' = arg then .node .not [arg] else mkNot arg'
    | .node .and args =>
      let args' := substituteAll args
      if args' = args then .node .and args else mkAnd args'
    | .node .or args =>
      let args' := substituteAll args
      if args' = args then .node .or args else mkOr args'
    | term => term

def substituteAll : List Term → List Term
  | [] => []
  | arg :: rest => substituteUnits arg :: substituteAll rest

end

end

def unitPropagation (assertions : List Term) : List Term :=
  if assertions.any isUnit then
    assertions.map (substituteUnits (collectUnits assertions))
  else assertions

end Nixie.Ast.Simplifier
