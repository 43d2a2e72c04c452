import Mathlib.Algebra.GroupWithZero.Nat
import Nixie.Ast.Builder

/-! Clauses over bounded integer terms that are collected from instantiated quantifiers. -/

namespace Nixie.Ast.Pigeonhole

open List

def toI64 (value : Int) : Option Int :=
  if -2 ^ 63 ≤ value ∧ value < 2 ^ 63 then some value else none

def asI64 : Term → Option Int
  | .node (.intConst value) [] => toI64 value
  | _ => none

def subI64 (left right : Int) : Int := (left - right).bmod (2 ^ 64)

/-- The last lower bound and the last upper bound among the arguments of a conjunction. -/
structure Bounds where
  lower : Option (Term × Int)
  upper : Option (Term × Int)

/-- Note the bounds that one argument of a conjunction states. -/
def Bounds.note (bounds : Bounds) : Term → Bounds
  | .node .ge [lhs, rhs] =>
    let bounds := match asI64 rhs with
      | some value => { bounds with lower := some (lhs, value) }
      | none => bounds
    match asI64 lhs with
    | some value => { bounds with upper := some (rhs, value) }
    | none => bounds
  | .node .le [lhs, rhs] =>
    let bounds := match asI64 rhs with
      | some value => { bounds with upper := some (lhs, value) }
      | none => bounds
    match asI64 lhs with
    | some value => { bounds with lower := some (rhs, value) }
    | none => bounds
  | _ => bounds

/-- The term that a conjunction bounds from both sides, with the bounds. -/
def domainOf (args : List Term) : Option (Term × Int × Int) :=
  let bounds := args.foldl Bounds.note ⟨none, none⟩
  match bounds.lower, bounds.upper with
  | some (lx, lo), some (ux, hi) => if lx = ux then some (lx, lo, hi) else none
  | _, _ => none

/-- Arguments that are compared with a bound are not scanned. -/
def isBound : Term → Bool
  | .node .ge _ | .node .le _ => true
  | _ => false

/-- The domains, the latest first, and the disequalities in the order in which they are found. -/
structure Found where
  domains : List (Term × Int × Int)
  diseqPairs : List (Term × Term)

inductive ScanTask where
  | scan (term : Term)
  -- The domain of a conjunction is recorded after its nested arguments have been scanned.
  | recordDomain (var : Term) (lo hi : Int)

/-- What a unit of the scan still costs. -/
noncomputable def ScanTask.cost : ScanTask → Nat
  | .scan term => sizeOf term
  | .recordDomain _ _ _ => 1

def conjunctionTasks (args : List Term) : List ScanTask :=
  (args.filter (!isBound ·)).map .scan ++
    (domainOf args).toList.map fun (var, lo, hi) => .recordDomain var lo hi

theorem cost_conjunctionTasks (args : List Term) :
    ((conjunctionTasks args).map ScanTask.cost).sum < 1 + sizeOf args := by
  have nested : (((args.filter (!isBound ·)).map ScanTask.scan).map ScanTask.cost).sum + 1 ≤
      sizeOf args := by
    induction args with
    | nil => simp
    | cons arg rest ih =>
      rw [filter_cons]
      split
      · simp only [map_cons, sum_cons, ScanTask.cost, cons.sizeOf_spec]
        omega
      · simp only [cons.sizeOf_spec]
        omega
  rw [conjunctionTasks, map_append, sum_append]
  -- At most one domain is recorded.
  cases domainOf args with
  | none => simp only [Option.toList_none, map_nil, sum_nil]; omega
  | some domain =>
    simp only [Option.toList_some, map_cons, map_nil, sum_cons, sum_nil, ScanTask.cost]
    omega

def scanLoop : List ScanTask → Found → Found
  | [], found => found
  | .recordDomain var lo hi :: stack, found =>
    scanLoop stack { found with domains := (var, lo, hi) :: found.domains }
  -- The guard of an implication is skipped.
  | .scan (.node .implies [_, consequent]) :: stack, found =>
    scanLoop (.scan consequent :: stack) found
  | .scan (.node .and args) :: stack, found => scanLoop (conjunctionTasks args ++ stack) found
  | .scan (.node .not [.node .eq [lhs, rhs]]) :: stack, found =>
    scanLoop stack { found with diseqPairs := found.diseqPairs ++ [(lhs, rhs)] }
  | .scan _ :: stack, found => scanLoop stack found
termination_by stack => (stack.map ScanTask.cost).sum
decreasing_by
  · simp [ScanTask.cost]
  · simp only [map_cons, sum_cons, ScanTask.cost, Term.node.sizeOf_spec, List.cons.sizeOf_spec]
    omega
  · have cost := cost_conjunctionTasks args
    simp only [map_append, sum_append, map_cons, sum_cons, ScanTask.cost,
      Term.node.sizeOf_spec, Kind.and.sizeOf_spec]
    omega
  · simp only [map_cons, sum_cons, ScanTask.cost, Term.node.sizeOf_spec]
    omega
  · rename_i term
    have cost : 0 < sizeOf term := by cases term <;> simp <;> omega
    simp only [map_cons, sum_cons, ScanTask.cost]
    omega

def scanForPigeonhole (term : Term) (found : Found) : Found := scanLoop [.scan term] found

abbrev Clause := List (Term × Bool)

def intRange (lo hi : Int) : List Int :=
  (List.range (hi - lo + 1).toNat).map fun offset : Nat => lo + offset

/-- A term of a short domain has one of the values of the domain. -/
def addIntDomainClauses (before : InternOrder) : Term → List Clause
  | .node .and args =>
    match domainOf args with
    | some (var, lo, hi) =>
      if lo ≤ hi ∧ subI64 hi lo ≤ 10 then
        [(intRange lo hi).map fun value => (mkEq before var (mkInt value), true)]
      else []
    | none => []
  | _ => []

/-- Two different terms do not both have a value that their domains share. -/
def exclusions (before : InternOrder) (found : Found) (pair : Term × Term) : List Clause :=
  match found.domains.lookup pair.1, found.domains.lookup pair.2 with
  | some (xLo, xHi), some (yLo, yHi) =>
    let lo := max xLo yLo
    let hi := min xHi yHi
    if lo ≤ hi ∧ subI64 hi lo ≤ 20 then
      (intRange lo hi).map fun value =>
        [(mkEq before pair.1 (mkInt value), false), (mkEq before pair.2 (mkInt value), false)]
    else []
  | _, _ => []

def addPigeonholeExclusionsFrom (before : InternOrder) (found : Found) : List Clause :=
  found.diseqPairs.flatMap (exclusions before found)

/-- Collect from instances, up to a false one, which adds an empty clause instead. -/
def collectInstances (before : InternOrder) : List Term → Found → List Clause → Found × List Clause
  | [], found, clauses => (found, clauses)
  | inst :: rest, found, clauses =>
    if inst = mkFalse then (found, clauses ++ [[]])
    else collectInstances before rest (scanForPigeonhole inst found)
      (clauses ++ addIntDomainClauses before inst)

/-- All clauses that are added next to the instances of one round. -/
def pigeonholeClauses (before : InternOrder) (instances : List Term) : List Clause :=
  let (found, clauses) := collectInstances before instances ⟨[], []⟩ []
  if found.diseqPairs.isEmpty || found.domains.isEmpty then clauses
  else clauses ++ addPigeonholeExclusionsFrom before found

end Nixie.Ast.Pigeonhole
