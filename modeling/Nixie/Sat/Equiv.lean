import Nixie.Graph.Tarjan
import Nixie.Sat.Congruence

/-! One round of equivalent-literal substitution over the implication graph. -/

namespace Nixie.Sat

def implicationEdges (s : Solver) : List (Lit × Lit) :=
  binaryEdges s.formula ++
    if s.config.enableGateCongruence then congruenceEdges s.numVars s.formula else []

def successors (edges : List (Lit × Lit)) (code : Nat) : List Nat :=
  (edges.filter fun edge => edge.1.code = code).map fun edge => edge.2.code

/-- Whether a component is folded: it has two literals and no frozen variable. -/
def foldable (frozen : List Nat) (component : List Nat) : Bool :=
  component.length > 1 ∧ component.all fun code => (Lit.fromCode code).var ∉ frozen

def representative (component : List Nat) : Lit := Lit.fromCode (component.min?.getD 0)

/-- Send every literal of a folded component to its representative. -/
def foldComponent (frozen : List Nat) (sub : Nat → Lit) (component : List Nat) : Nat → Lit :=
  if foldable frozen component then
    fun code => if code ∈ component then representative component else sub code
  else sub

def substitution (s : Solver) : Nat → Lit :=
  (Tarjan.components (successors (implicationEdges s)) (2 * s.numVars)).foldl
    (foldComponent s.frozenVars) Lit.fromCode

def adjacentComplement (lits : List Lit) : Bool :=
  (lits.zip lits.tail).any fun pair => pair.1.var = pair.2.var

def sortedLits (lits : List Lit) : List Lit :=
  (lits.insertionSort fun left right => left.code ≤ right.code).dedup

inductive Rewritten where
  | kept
  | retired
  | unit (lit : Lit)
  | shrunk (lits : Clause)
  | falsified
  deriving DecidableEq, Repr

/-- Rewrite a clause through the representatives and the facts of the trail. -/
def rewriteClause (trail : List Lit) (sub : Nat → Lit) (clause : Clause) : Rewritten :=
  let mapped := clause.map fun lit => sub lit.code
  if mapped = [] then .kept
  else if mapped.any fun lit => litValue trail lit = some true then .retired
  else
    let lits := sortedLits (mapped.filter fun lit => litValue trail lit = none)
    if adjacentComplement lits then .retired
    else match lits with
      | [] => .falsified
      | [lit] => .unit lit
      | lits => .shrunk lits

/-- Outcome of rewriting the database. -/
structure Rewriting where
  clauses : List DbClause
  units : List Lit
  alive : Bool

def rewriteClauses (trail : List Lit) (sub : Nat → Lit) : List DbClause → Rewriting
  | [] => { clauses := [], units := [], alive := true }
  | clause :: rest =>
      let later := rewriteClauses trail sub rest
      match rewriteClause trail sub clause.lits with
      | .kept => { later with clauses := clause :: later.clauses }
      | .retired => later
      | .unit lit => { later with units := lit :: later.units }
      | .shrunk lits => { later with clauses := { clause with lits := lits } :: later.clauses }
      | .falsified => { clauses := clause :: rest, units := [], alive := false }

def resize (table : List Lit) (length : Nat) (fill : Lit) : List Lit :=
  table.take length ++ List.replicate (length - table.length) fill

def composeTable (s : Solver) (sub : Nat → Lit) : List Lit :=
  let table :=
    if s.equivSubstInited then resize s.equivSubstitution s.numVars (Lit.pos 0)
    else (List.range s.numVars).map Lit.pos
  table.map fun lit => sub lit.code

/-- Assign new facts in order, up to the first that is already false. -/
def assignUnits : List Lit → List Lit → List Lit × Bool
  | trail, [] => (trail, true)
  | trail, lit :: rest =>
      match litValue trail lit with
      | some true => assignUnits trail rest
      | some false => (trail, false)
      | none => assignUnits (trail ++ [lit]) rest

inductive SubstOutcome where
  | ok
  | unsat
  deriving DecidableEq, Repr

def contradictory (s : Solver) (sub : Nat → Lit) : Bool :=
  (List.range s.numVars).any fun var => sub (Lit.pos var).code = sub (Lit.neg var).code

def moved (s : Solver) (sub : Nat → Lit) : Bool :=
  (List.range (2 * s.numVars)).any fun code => (sub code).code ≠ code

/-- Assign the new facts of a round and propagate. -/
def finishRound (s : Solver) (units : List Lit) : Solver × SubstOutcome :=
  match assignUnits s.trail units with
  | (trail, false) => ({ s with trail := trail, triviallyUnsat := true }, .unsat)
  | (trail, true) =>
      match propagate { s with trail := trail } with
      | none => ({ s with trail := trail, triviallyUnsat := true }, .unsat)
      | some t => (t, .ok)

def storeRewriting (s : Solver) (sub : Nat → Lit) (rewriting : Rewriting) : Solver :=
  { s with
    clauses := rewriting.clauses
    equivSubstitution := composeTable s sub
    equivSubstInited := true }

/-- One round: collapse the classes, rewrite the clauses and extend the table. -/
def substituteEquivalentLiteralsRound (s : Solver) : Solver × SubstOutcome :=
  if s.decisionLevel ≠ 0 ∨ s.assertionLevels > 1 ∨ s.hasProof then (s, .ok)
  else
    let sub := substitution s
    if contradictory s sub then ({ s with triviallyUnsat := true }, .unsat)
    else if ¬ moved s sub then (s, .ok)
    else
      let rewriting := rewriteClauses s.trail sub s.clauses
      if rewriting.alive then
        finishRound (storeRewriting s sub rewriting) rewriting.units
      else ({ s with clauses := rewriting.clauses, triviallyUnsat := true }, .unsat)

end Nixie.Sat
