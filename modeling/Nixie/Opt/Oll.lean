import Nixie.Opt.MaxSat

/-! The core-guided loop, and the choice between it and the search. -/

namespace Nixie.Opt

open Function

/-- Answer of the SAT solver under assumptions; a core is a list of them. -/
inductive Answer where
  | sat (model : PartialModel)
  | unsat (core : List Lit)
  | unknown
  deriving DecidableEq, Repr

/-- Soft clauses that share one bound on how many of them are violated. -/
structure OllGroup where
  softIds : List Nat
  totalizer : IncrementalTotalizer
  currentBound : Nat
  /-- Merged groups are not removed but switched off. -/
  active : Bool
  deriving Repr

/-- The state of the core-guided loop. -/
structure OllState where
  /-- The solver that the result is reported in. -/
  solver : MaxSatSolver
  clauses : Cnf
  nextVar : Nat
  blockingVars : Nat → Option Nat
  varToSoft : Nat → Option Nat
  groups : List OllGroup
  /-- Group of every soft clause that is in one. -/
  softToGroup : Nat → Option Nat

namespace OllState

def block (st : OllState) (id : Nat) : OllState :=
  match st.solver.softClauses[id]? with
  | none => st
  | some clause => { st with
      solver := { st.solver with
        relaxToSoft := update st.solver.relaxToSoft (Lit.pos st.nextVar) (some id) }
      clauses := st.clauses ++ [clause.lits ++ [Lit.pos st.nextVar]]
      nextVar := st.nextVar + 1
      blockingVars := update st.blockingVars id (some st.nextVar)
      varToSoft := update st.varToSoft st.nextVar (some id) }

def softIds (st : OllState) : List Nat := st.solver.softClauses.map SoftClause.id

/-- Hard clauses, and soft clauses with a blocking literal each. -/
def start (s : MaxSatSolver) : OllState :=
  (s.softClauses.map SoftClause.id).foldl block
    { solver := s
      clauses := s.hardClauses
      nextVar := MaxSatSolver.freshVar (s.hardClauses ++ s.softClauses.map SoftClause.lits)
      blockingVars := fun _ => none
      varToSoft := fun _ => none
      groups := []
      softToGroup := fun _ => none }

/-- Every soft clause outside the groups is satisfied, and every group keeps its bound. -/
def assumptions (st : OllState) : List Lit :=
  (st.softIds.filter fun id => (st.softToGroup id).isNone).filterMap
      (fun id => (st.blockingVars id).map Lit.neg) ++
    st.groups.filterMap fun group =>
      if group.active then group.totalizer.boundAssumption else none

def coreSoftIds (st : OllState) (core : List Lit) : List Nat :=
  core.filterMap fun lit => st.varToSoft lit.var

def minWeight (st : OllState) (ids : List Nat) : Weight :=
  ids.foldl (fun least id =>
    match st.solver.softClauses[id]? with
    | some clause => least.min clause.weight
    | none => least) .infinite

def blockLits (st : OllState) (ids : List Nat) : List Lit :=
  ids.filterMap fun id => (st.blockingVars id).map Lit.pos

def addGroup (st : OllState) (ids : List Nat) (bound : Nat) : OllState :=
  let totalizer := IncrementalTotalizer.new (st.blockLits ids) st.nextVar
  -- The next variable is read before the totalizer takes any.
  let nextVar := totalizer.nextVar
  let (_, clauses, totalizer) := totalizer.setBound bound
  { st with
    clauses := st.clauses ++ clauses
    nextVar := nextVar
    groups := st.groups ++ [⟨ids, totalizer, bound, true⟩]
    softToGroup := ids.foldl (fun map id => update map id (some st.groups.length))
      st.softToGroup }

def deactivate (groups : List OllGroup) (merged : List Nat) : List OllGroup :=
  groups.mapIdx fun i group => if i ∈ merged then { group with active := false } else group

/-- Relax the soft clauses of a core, merging the groups that it meets. -/
def relax (st : OllState) (ids : List Nat) : OllState :=
  let intersecting := ((ids.filterMap st.softToGroup).mergeSort (· ≤ ·)).dedup
  if intersecting.isEmpty then
    if (st.blockLits ids).isEmpty then st else st.addGroup ids 1
  else
    let merging := intersecting.filterMap fun i => st.groups[i]?
    let mergedIds := ids.foldl (fun merged id => if id ∈ merged then merged else merged ++ [id])
      (merging.flatMap OllGroup.softIds)
    let mergedBound := (merging.map OllGroup.currentBound).sum + 1
    let st := { st with groups := deactivate st.groups intersecting }
    if (st.blockLits mergedIds).isEmpty then st
    else st.addGroup mergedIds (min mergedBound (st.blockLits mergedIds).length)

/-- What one answer of the SAT solver leads to. -/
def round (answer : Answer) (st : OllState) : (MaxSatResult × MaxSatSolver) ⊕ OllState :=
  match answer with
  | .sat model => .inl (.optimal, st.solver.keepModel model)
  | .unknown => .inl (.unknown, st.solver)
  | .unsat core =>
    let ids := st.coreSoftIds core
    if core.isEmpty ∨ ids.isEmpty then .inl (.unsatisfiable, st.solver)
    else .inr (relax { st with solver := { st.solver with
      lowerBound := st.solver.lowerBound.add (st.minWeight ids) } } ids)

def loop (sat : Cnf → Verdict) (ask : Cnf → List Lit → Nat → Answer) :
    Nat → OllState → MaxSatResult × MaxSatSolver
  | 0, st => (.unknown, st.solver)
  | fuel + 1, st =>
    if st.assumptions.isEmpty ∧ st.groups.isEmpty then st.solver.checkHardSatisfiable sat
    else
      match st.round (ask st.clauses st.assumptions fuel) with
      | .inl done => done
      | .inr st => loop sat ask fuel st

end OllState

namespace MaxSatSolver

def solveOll (sat : Cnf → Verdict) (ask : Cnf → List Lit → Nat → Answer) (s : MaxSatSolver) :
    MaxSatResult × MaxSatSolver :=
  OllState.loop sat ask s.config.maxIterations (.start s)

def searches (s : MaxSatSolver) : Bool :=
  s.config.stratified && s.hasDifferentWeights || s.config.algorithm != .oll

def solve (sat : Cnf → Verdict) (ask : Cnf → List Lit → Nat → Answer) (s : MaxSatSolver) :
    MaxSatResult × MaxSatSolver :=
  if s.softClauses.isEmpty then s.checkHardSatisfiable sat
  else if s.config.stratified && s.hasDifferentWeights then s.solveWeightedCoreGuided sat
  else
    match s.config.algorithm with
    | .fuMalik => s.solveFuMalik sat
    | .oll => s.solveOll sat ask
    | .msu3 => s.solveMsu3 sat
    | .wmax => s.solveWmax sat
    | .pmres => s.solvePmres sat

end MaxSatSolver

end Nixie.Opt
