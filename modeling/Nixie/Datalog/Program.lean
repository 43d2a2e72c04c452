import Mathlib.Data.List.Dedup
import Mathlib.Order.Lattice

/-! The Datalog engine: rules, stratification and bottom-up evaluation. -/

namespace Nixie.Datalog

open Function

inductive ComparisonOp where
  | eq
  | ne
  | lt
  | le
  | gt
  | ge
  deriving DecidableEq

inductive Term (Var V : Type*) where
  | var (name : Var)
  | const (value : V)
  | wildcard
  deriving DecidableEq

def Term.asConst {Var V : Type*} : Term Var V → Option V
  | .const value => some value
  | _ => none

/--
An atom of a rule.

Arithmetic and aggregation are left out.
-/
inductive Atom (Rel Var V : Type*) where
  | positive (relation : Rel) (terms : List (Term Var V))
  | negated (relation : Rel) (terms : List (Term Var V))
  | comparison (left : Term Var V) (op : ComparisonOp) (right : Term Var V)
  deriving DecidableEq

/-- The head of a rule. -/
structure Head (Rel Var V : Type*) where
  relation : Rel
  terms : List (Term Var V)
  deriving DecidableEq

/-- A rule: the head is derived where the body holds. -/
structure Rule (Rel Var V : Type*) where
  head : Head Rel Var V
  body : List (Atom Rel Var V)
  deriving DecidableEq

variable {Rel Var V : Type*}

def Atom.positiveRelation : Atom Rel Var V → Option Rel
  | .positive relation _ => some relation
  | _ => none

def Atom.negatedRelation : Atom Rel Var V → Option Rel
  | .negated relation _ => some relation
  | _ => none

def Rule.isRecursive [DecidableEq Rel] (rule : Rule Rel Var V) : Bool :=
  rule.body.any fun atom => atom.positiveRelation == some rule.head.relation

/-- The rules, and for every relation that was created the tuples that its schema accepts. -/
structure Program (Rel Var V : Type*) where
  rules : List (Rule Rel Var V)
  schema : Rel → Option (List V → Bool)

/-- The order in which the hash maps and sets of one engine are visited. -/
structure HashOrder [DecidableEq Rel] (program : Program Rel Var V) where
  relations : List Rel
  positive : Rel → List Rel
  /-- The relations on whose absence a relation depends. -/
  negative : Rel → List Rel
  rules : List (Rule Rel Var V)
  /-- The order that a set of derived tuples is drained in, without duplicates if so configured. -/
  drain : List (List V) → List (List V)
  relations_perm : relations.Perm (program.rules.map (·.head.relation)).dedup
  positive_perm : ∀ r, (positive r).Perm
    ((program.rules.filter (·.head.relation = r)).flatMap
      (·.body.filterMap (·.positiveRelation))).dedup
  negative_perm : ∀ r, (negative r).Perm
    ((program.rules.filter (·.head.relation = r)).flatMap
      (·.body.filterMap (·.negatedRelation))).dedup
  rules_perm : rules.Perm program.rules
  mem_drain : ∀ tuples tuple, tuple ∈ drain tuples ↔ tuple ∈ tuples

section

variable [DecidableEq Rel] {program : Program Rel Var V} (order : HashOrder program)

/-- The stratum of every relation; only the relations that rules derive are in the map. -/
abbrev StratumMap (Rel : Type*) := Rel → Nat

def StratumMap.insert (map : StratumMap Rel) (rel : Rel) (stratum : Nat) : StratumMap Rel :=
  update map rel stratum

/-- One positive dependency, compared with the stratum that was read before all of them. -/
def raisePositive (rel : Rel) (current : Nat) (state : StratumMap Rel × Bool) (dep : Rel) :
    StratumMap Rel × Bool :=
  if dep ∈ order.relations ∧ state.1 dep > current then
    (state.1.insert rel (state.1 dep), true)
  else state

def raiseNegative (rel : Rel) (state : StratumMap Rel × Bool) (dep : Rel) : StratumMap Rel × Bool :=
  if dep ∈ order.relations ∧ state.1 dep ≥ state.1 rel then
    (state.1.insert rel (state.1 dep + 1), true)
  else state

def raise (state : StratumMap Rel × Bool) (rel : Rel) : StratumMap Rel × Bool :=
  let current := state.1 rel
  let state := (order.positive rel).foldl (raisePositive order rel current) state
  (order.negative rel).foldl (raiseNegative order rel) state

/-- One pass over the relations, and whether it changed a stratum. -/
def pass (map : StratumMap Rel) : StratumMap Rel × Bool :=
  order.relations.foldl (raise order) (map, false)

/-- Passes until nothing changes, and what is left of the permitted number of them. -/
def settle : Nat → StratumMap Rel → StratumMap Rel × Nat
  | 0, map => (map, 0)
  | maxIterations + 1, map =>
    let (map, changed) := pass order map
    if changed then settle maxIterations map else (map, maxIterations)

/-- A stratum: its rules, and the relations that a rule of it derives from themselves. -/
structure Stratum (Rel Var V : Type*) where
  rules : List (Rule Rel Var V)
  recursiveDeps : List Rel

def buildStrata (map : StratumMap Rel) : List (Stratum Rel Var V) :=
  let maxStratum := (order.relations.map map).foldr max 0
  (List.range (maxStratum + 1)).map fun s =>
    let rules := order.rules.filter fun rule => map rule.head.relation = s
    { rules, recursiveDeps := (rules.filter (·.isRecursive)).map (·.head.relation) }

inductive EvaluationError (Rel : Type*) where
  | cycleWithNegation
  | unresolvedRelation (relation : Rel)
  | maxIterationsExceeded
  deriving DecidableEq

/-- Compute the strata; after the last permitted pass a cycle through negation is assumed. -/
def stratify : Except (EvaluationError Rel) (List (Stratum Rel Var V)) :=
  let (map, maxIterations) := settle order 100 fun _ => 0
  if maxIterations = 0 then .error .cycleWithNegation else .ok (buildStrata order map)

end

abbrev Binding (Var V : Type*) := Var → Option V

def Binding.bind [DecidableEq Var] (binding : Binding Var V) (var : Var) (value : V) :
    Binding Var V :=
  update binding var (some value)

def Binding.apply (binding : Binding Var V) : Term Var V → Option V
  | .var name => binding name
  | .const value => some value
  | .wildcard => none

/-- Terms against the values of a tuple, from left to right. -/
def matchValues [DecidableEq Var] [DecidableEq V] :
    List (Term Var V) → List V → Binding Var V → Option (Binding Var V)
  | term :: terms, value :: values, binding =>
    match term with
    | .var name =>
      match binding name with
      | some boundVal => if boundVal = value then matchValues terms values binding else none
      | none => matchValues terms values (binding.bind name value)
    | .const constVal => if constVal = value then matchValues terms values binding else none
    | .wildcard => matchValues terms values binding
  | _, _, binding => some binding

def matchTuple [DecidableEq Var] [DecidableEq V] (terms : List (Term Var V)) (tuple : List V)
    (binding : Binding Var V) : Option (Binding Var V) :=
  if terms.length = tuple.length then matchValues terms tuple binding else none

def ComparisonOp.satisfied [LinearOrder V] : ComparisonOp → V → V → Bool
  | .eq, l, r => l = r
  | .ne, l, r => l ≠ r
  | .lt, l, r => l < r
  | .le, l, r => l ≤ r
  | .gt, l, r => l > r
  | .ge, l, r => l ≥ r

/-- The created relations with their tuples. -/
structure Relations (Rel V : Type*) where
  schema : Rel → Option (List V → Bool)
  tuples : Rel → List (List V)

namespace Relations

variable [DecidableEq Rel] [LinearOrder V]

/-- Insert a tuple, unless the schema rejects it or it is there; whether it was inserted. -/
def insert (relations : Relations Rel V) (rel : Rel) (tuple : List V) : Bool × Relations Rel V :=
  match relations.schema rel with
  | none => (false, relations)
  | some accepts =>
    if accepts tuple ∧ tuple ∉ relations.tuples rel then
      (true, { relations with
        tuples := update relations.tuples rel (relations.tuples rel ++ [tuple]) })
    else (false, relations)

def insertAll (relations : Relations Rel V) (rel : Rel) : List (List V) → Nat × Relations Rel V
  | [] => (0, relations)
  | tuple :: rest =>
    let (inserted, relations) := relations.insert rel tuple
    let (count, relations) := relations.insertAll rel rest
    (if inserted then count + 1 else count, relations)

variable [DecidableEq Var]

/-- The bindings that a positive or negated atom leaves of a binding. -/
def matchRelationAtom (relations : Relations Rel V) (negate : Bool) (rel : Rel)
    (terms : List (Term Var V)) (bindings : List (Binding Var V)) :
    Except (EvaluationError Rel) (List (Binding Var V)) :=
  match relations.schema rel with
  | none => .error (.unresolvedRelation rel)
  | some _ => .ok (bindings.flatMap fun binding =>
    let extended := (relations.tuples rel).filterMap fun tuple => matchTuple terms tuple binding
    if negate then if extended.isEmpty then [binding] else [] else extended)

def matchComparison (left : Term Var V) (op : ComparisonOp) (right : Term Var V)
    (bindings : List (Binding Var V)) : List (Binding Var V) :=
  bindings.filter fun binding =>
    match binding.apply left, binding.apply right with
    | some l, some r => op.satisfied l r
    | _, _ => false

def matchAtom (relations : Relations Rel V) (atom : Atom Rel Var V)
    (bindings : List (Binding Var V)) : Except (EvaluationError Rel) (List (Binding Var V)) :=
  match atom with
  | .positive rel terms => relations.matchRelationAtom false rel terms bindings
  | .negated rel terms => relations.matchRelationAtom true rel terms bindings
  | .comparison left op right => .ok (matchComparison left op right bindings)

/-- Match the atoms of a body in turn, until no binding is left. -/
def matchBody (relations : Relations Rel V) : List (Atom Rel Var V) → List (Binding Var V) →
      Except (EvaluationError Rel) (List (Binding Var V))
  | [], bindings => .ok bindings
  | atom :: rest, bindings =>
    match relations.matchAtom atom bindings with
    | .error e => .error e
    | .ok bindings => if bindings.isEmpty then .ok [] else relations.matchBody rest bindings

/-- The tuple of a head under a binding, unless a term has no value. -/
def headTuple (head : Head Rel Var V) (binding : Binding Var V) : Option (List V) :=
  let values := head.terms.filterMap binding.apply
  if values.length = head.terms.length then some values else none

/-- A rule with an empty body derives its head if that is constant. -/
def evaluateFact (rule : Rule Rel Var V) : List (List V) :=
  let values := rule.head.terms.filterMap Term.asConst
  if values.length = rule.head.terms.length then [values] else []

variable {program : Program Rel Var V} (order : HashOrder program)

def evaluateRule (relations : Relations Rel V) (rule : Rule Rel Var V) :
    Except (EvaluationError Rel) (List (List V)) :=
  if rule.body.isEmpty then .ok (evaluateFact rule) else
    match relations.matchBody rule.body [fun _ => none] with
    | .error e => .error e
    | .ok bindings => .ok (order.drain (bindings.filterMap (headTuple rule.head)))

/-- Evaluate rules once, each on what the rules before it inserted; the number of new tuples. -/
def evaluateOnce : List (Rule Rel Var V) → Relations Rel V →
    Except (EvaluationError Rel) Nat × Relations Rel V
  | [], relations => (.ok 0, relations)
  | rule :: rest, relations =>
    match relations.evaluateRule order rule with
    | .error e => (.error e, relations)
    | .ok derived =>
      let (count, relations) := relations.insertAll rule.head.relation derived
      match evaluateOnce rest relations with
      | (.error e, relations) => (.error e, relations)
      | (.ok newTuples, relations) => (.ok (count + newTuples), relations)

/-- Evaluate rules until nothing is new, within the rounds that are left; rounds and new tuples. -/
def evaluateLoop (rules : List (Rule Rel Var V)) : Nat → Relations Rel V →
    Except (EvaluationError Rel) (Nat × Nat) × Relations Rel V
  | 0, relations => (.error .maxIterationsExceeded, relations)
  | left + 1, relations =>
    match evaluateOnce order rules relations with
    | (.error e, relations) => (.error e, relations)
    | (.ok newTuples, relations) =>
      if newTuples = 0 then (.ok (0, 0), relations) else
        match evaluateLoop rules left relations with
        | (.error e, relations) => (.error e, relations)
        | (.ok (iterations, total), relations) =>
          (.ok (iterations + 1, newTuples + total), relations)

/-- Evaluate rules to a fixed point: a first round, then rounds within the limit. -/
def evaluateSemiNaive (maxIterations : Nat) (rules : List (Rule Rel Var V))
    (relations : Relations Rel V) : Except (EvaluationError Rel) (Nat × Nat) × Relations Rel V :=
  match evaluateOnce order rules relations with
  | (.error e, relations) => (.error e, relations)
  | (.ok initialNew, relations) =>
    match evaluateLoop order rules (maxIterations - 1) relations with
    | (.error e, relations) => (.error e, relations)
    | (.ok (iterations, total), relations) =>
      (.ok (iterations + 1, initialNew + total), relations)

end Relations

/-- The configuration of an engine, as far as evaluation reads it. -/
structure EngineConfig where
  maxIterations : Nat
  semiNaive : Bool

/-- An engine with its rules; the strata are kept once they are computed. -/
structure Engine (Rel Var V : Type*) where
  config : EngineConfig
  strata : Option (List (Stratum Rel Var V))
  relations : Relations Rel V

/-- What an evaluation reports. -/
structure EvaluationResult where
  iterations : Nat
  newTuples : Nat
  deriving DecidableEq

section

variable [DecidableEq Rel] [DecidableEq Var] [LinearOrder V] {program : Program Rel Var V}
  (order : HashOrder program)

def evaluateStratum (config : EngineConfig) (stratum : Stratum Rel Var V)
    (relations : Relations Rel V) : Except (EvaluationError Rel) (Nat × Nat) × Relations Rel V :=
  if !stratum.recursiveDeps.isEmpty && config.semiNaive then
    relations.evaluateSemiNaive order config.maxIterations stratum.rules
  else
    match relations.evaluateOnce order stratum.rules with
    | (.error e, relations) => (.error e, relations)
    | (.ok newTuples, relations) => (.ok (1, newTuples), relations)

/-- Evaluate the strata in turn; a stratum without rules is skipped. -/
def evaluateStrata (config : EngineConfig) : List (Stratum Rel Var V) → EvaluationResult →
    Relations Rel V → Except (EvaluationError Rel) EvaluationResult × Relations Rel V
  | [], result, relations => (.ok result, relations)
  | stratum :: rest, result, relations =>
    if stratum.rules.isEmpty then evaluateStrata config rest result relations else
      match evaluateStratum order config stratum relations with
      | (.error e, relations) => (.error e, relations)
      | (.ok (iterations, newTuples), relations) =>
        evaluateStrata config rest
          { iterations := result.iterations + iterations,
            newTuples := result.newTuples + newTuples } relations

/-- The strata, which are computed if they are not there. -/
def Engine.ensureStrata (engine : Engine Rel Var V) :
    Except (EvaluationError Rel) (List (Stratum Rel Var V)) :=
  match engine.strata with
  | some strata => .ok strata
  | none => stratify order

def Engine.evaluate (engine : Engine Rel Var V) :
    Except (EvaluationError Rel) EvaluationResult × Engine Rel Var V :=
  match engine.ensureStrata order with
  | .error e => (.error e, engine)
  | .ok strata =>
    let (result, relations) := evaluateStrata order engine.config strata ⟨0, 0⟩ engine.relations
    (result, { engine with strata := some strata, relations })

/-- A new engine with the rules of a program and facts. -/
def Engine.start (program : Program Rel Var V) (config : EngineConfig)
    (facts : List (Rel × List V)) : Engine Rel Var V :=
  { config, strata := none,
    relations := facts.foldl (fun relations fact => (relations.insert fact.1 fact.2).2)
      ⟨program.schema, fun _ => []⟩ }

end

end Nixie.Datalog
