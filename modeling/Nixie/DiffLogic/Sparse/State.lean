import Mathlib.Algebra.Order.Ring.Rat

/-! The sparse difference-logic engine: its constraint graph, its searches, and its checked additions. -/

namespace Nixie.DiffLogic.Sparse

open Function

inductive DiffVar where
  | source
  | node (id : Nat)
  deriving DecidableEq, Repr

def DiffVar.isSource : DiffVar → Bool
  | .source => true
  | .node _ => false

inductive ConstraintType where
  | leqConst
  | ltConst
  deriving DecidableEq, Repr

/-- A difference constraint between two variables. -/
structure DiffConstraint where
  x : Nat
  y : Nat
  bound : ℚ
  constraintType : ConstraintType
  origin : Nat
  deriving DecidableEq, Repr

/-- The bound that the graph uses: over the integers a strict one is lowered by one. -/
def DiffConstraint.effectiveBound (constraint : DiffConstraint) (isInteger : Bool) : ℚ :=
  match constraint.constraintType with
  | .leqConst => constraint.bound
  | .ltConst => if isInteger then constraint.bound - 1 else constraint.bound

/-- An edge of the constraint graph. -/
structure DiffEdge where
  from_ : DiffVar
  to_ : Nat
  weight : ℚ
  constraintIdx : Nat
  /-- Whether it is strict, which only edges over the reals are. -/
  strict : Bool
  deriving DecidableEq, Repr

/-- The constraint graph. -/
structure ConstraintGraph where
  numVars : Nat
  varToNode : Nat → Option Nat
  /-- Outgoing edges by slot: the virtual source has the first slot, nodes the following ones. -/
  edges : Nat → List DiffEdge
  constraints : List DiffConstraint
  constraintMarks : List Nat
  currentLevel : Nat
  isInteger : Bool

namespace ConstraintGraph

def new (isInteger : Bool) : ConstraintGraph where
  numVars := 0
  varToNode := fun _ => none
  edges := fun _ => []
  constraints := []
  constraintMarks := [0]
  currentLevel := 0
  isInteger := isInteger

/-- The node of a term, which is created if there is none. -/
def getOrCreateVar (graph : ConstraintGraph) (term : Nat) : ConstraintGraph × Nat :=
  match graph.varToNode term with
  | some var => (graph, var)
  | none =>
      let var := graph.numVars
      -- An edge of the virtual source leads to the new node.
      let anchor : DiffEdge :=
        { from_ := .source, to_ := var, weight := 0, constraintIdx := 0, strict := false }
      ({ graph with
          numVars := var + 1
          varToNode := update graph.varToNode term (some var)
          edges := update graph.edges 0 (graph.edges 0 ++ [anchor]) },
        var)

def edgeSlot : DiffVar → Nat
  | .source => 0
  | .node id => id + 1

def getEdges (graph : ConstraintGraph) (var : DiffVar) : List DiffEdge := graph.edges (edgeSlot var)

def allEdges (graph : ConstraintGraph) : List DiffEdge :=
  (List.range (graph.numVars + 1)).flatMap graph.edges

def addConstraint (graph : ConstraintGraph) (constraint : DiffConstraint) : ConstraintGraph × Nat :=
  let idx := graph.constraints.length
  let edge : DiffEdge :=
    { from_ := .node constraint.y
      to_ := constraint.x
      weight := constraint.effectiveBound graph.isInteger
      constraintIdx := idx
      strict := constraint.constraintType = .ltConst && !graph.isInteger }
  let slot := edgeSlot (.node constraint.y)
  let marks := graph.constraintMarks ++
    List.replicate (graph.currentLevel + 1 - graph.constraintMarks.length) graph.constraints.length
  ({ graph with
      edges := update graph.edges slot (graph.edges slot ++ [edge])
      constraintMarks := marks.set graph.currentLevel (idx + 1)
      constraints := graph.constraints ++ [constraint] },
    idx)

def push (graph : ConstraintGraph) : ConstraintGraph :=
  { graph with
    currentLevel := graph.currentLevel + 1
    constraintMarks := graph.constraintMarks ++ [graph.constraints.length] }

def pop (graph : ConstraintGraph) (levels : Nat) : ConstraintGraph :=
  if levels = 0 then graph
  else
    let targetLevel := graph.currentLevel - levels
    let keep := graph.constraintMarks.getD targetLevel 0
    { graph with
      constraints := graph.constraints.take keep
      edges := fun slot =>
        match (graph.edges slot).getLast? with
        | none => graph.edges slot
        | some last =>
            if keep ≤ last.constraintIdx then
              (graph.edges slot).filter fun edge => edge.constraintIdx < keep
            else graph.edges slot
      constraintMarks := graph.constraintMarks.take (targetLevel + 1)
      currentLevel := targetLevel }

end ConstraintGraph

/-- Outcome of a search: distances of all nodes, or the edges and the weight of a negative cycle. -/
inductive BellmanFordResult where
  | distances (distances : Nat → Option ℚ)
  | negativeCycle (edges : List Nat) (totalWeight : ℚ)

/-- Go back along parent edges for a number of steps. -/
def walkBack (graph : ConstraintGraph) (parentEdge : Nat → Option Nat) : Nat → Nat → Nat
  | 0, current => current
  | steps + 1, current =>
      match (parentEdge current).bind fun idx => graph.constraints[idx]? with
      | none => current
      | some constraint => walkBack graph parentEdge steps constraint.y

/-- Collect parent edges until a node is met again; the list has at most two more edges than nodes. -/
def collectCycle (graph : ConstraintGraph) (parentEdge : Nat → Option Nat) (cycleStart : Nat) :
    Nat → Nat → List Nat × ℚ
  | 0, _ => ([], 0)
  | steps + 1, current =>
      match parentEdge current with
      | none => ([], 0)
      | some idx =>
          match graph.constraints[idx]? with
          | none => ([], 0)
          | some constraint =>
              let weight := constraint.effectiveBound graph.isInteger
              if constraint.y = cycleStart then ([idx], weight)
              else
                let rest := collectCycle graph parentEdge cycleStart steps constraint.y
                (idx :: rest.1, weight + rest.2)

/-- Extract a negative cycle from the parent edges; the trigger stands in where there are none. -/
def extractNegativeCycle (graph : ConstraintGraph) (parentEdge : Nat → Option Nat) (start : Nat)
    (trigger : Option DiffEdge) : BellmanFordResult :=
  let cycleStart := walkBack graph parentEdge (graph.numVars + 1) start
  match collectCycle graph parentEdge cycleStart (graph.numVars + 2) cycleStart, trigger with
  | ([], _), some edge => .negativeCycle [edge.constraintIdx] edge.weight
  | (edges, totalWeight), _ => .negativeCycle edges totalWeight

/-- Whether a label that would be new is lower than the old one. -/
def improves (newDist : ℚ) : Option ℚ → Bool
  | none => true
  | some d => newDist < d

/-- The labels of a search that makes passes over all edges. -/
structure BellmanFord where
  distances : Nat → Option ℚ
  parentEdge : Nat → Option Nat

namespace BellmanFord

def relax (state : BellmanFord × Bool) (edge : DiffEdge) : BellmanFord × Bool :=
  match edge.from_ with
  | .source => state
  | .node id =>
      match state.1.distances id with
      | none => state
      | some distFrom =>
          let newDist := distFrom + edge.weight
          if improves newDist (state.1.distances edge.to_) then
            ({ distances := update state.1.distances edge.to_ (some newDist)
               parentEdge := update state.1.parentEdge edge.to_ (some edge.constraintIdx) },
              true)
          else state

/-- Passes over all edges, until one of them changes nothing. -/
def passes (edges : List DiffEdge) : Nat → BellmanFord → BellmanFord
  | 0, bf => bf
  | count + 1, bf =>
      let next := edges.foldl relax (bf, false)
      if next.2 then passes edges count next.1 else next.1

def tense (bf : BellmanFord) (edge : DiffEdge) : Bool :=
  match edge.from_ with
  | .source => false
  | .node id =>
      match bf.distances id, bf.distances edge.to_ with
      | some distFrom, some distTo => distFrom + edge.weight < distTo
      | _, _ => false

/-- Labels of zero for the nodes of a graph. -/
def start (n : Nat) : BellmanFord where
  distances := fun id => if id < n then some 0 else none
  parentEdge := fun _ => none

def run (graph : ConstraintGraph) : BellmanFordResult :=
  let bf := passes graph.allEdges (graph.numVars - 1) (start graph.numVars)
  match graph.allEdges.find? bf.tense with
  | some edge => extractNegativeCycle graph bf.parentEdge edge.to_ (some edge)
  | none => .distances bf.distances

end BellmanFord

/-- The labels of a search with a queue. -/
structure Spfa where
  distances : Nat → Option ℚ
  parentEdge : Nat → Option Nat
  inQueue : Nat → Bool
  /-- How often a node was put into the queue. -/
  count : Nat → Nat
  queue : List Nat

namespace Spfa

def setLabel (spfa : Spfa) (edge : DiffEdge) (newDist : ℚ) : Spfa :=
  { spfa with
    distances := update spfa.distances edge.to_ (some newDist)
    parentEdge := update spfa.parentEdge edge.to_ (some edge.constraintIdx) }

def enqueue (spfa : Spfa) (id : Nat) : Spfa :=
  { spfa with
    queue := spfa.queue ++ [id]
    inQueue := update spfa.inQueue id true
    count := update spfa.count id (spfa.count id + 1) }

/-- Relax the outgoing edges of a node; a node that is put into the queue too often is returned. -/
def relaxEdges (n : Nat) (du : ℚ) : List DiffEdge → Spfa → Spfa × Option Nat
  | [], spfa => (spfa, none)
  | edge :: rest, spfa =>
      if edge.from_.isSource then relaxEdges n du rest spfa
      else
        let newDist := du + edge.weight
        if improves newDist (spfa.distances edge.to_) then
          let spfa := spfa.setLabel edge newDist
          if spfa.inQueue edge.to_ then relaxEdges n du rest spfa
          else
            let spfa := spfa.enqueue edge.to_
            if n + 1 < spfa.count edge.to_ then (spfa, some edge.to_)
            else relaxEdges n du rest spfa
        else relaxEdges n du rest spfa

/-- Work through the queue, for a bounded number of nodes. -/
def spfaLoop (graph : ConstraintGraph) (n : Nat) : Nat → Spfa → Spfa × Option Nat
  | 0, spfa => (spfa, none)
  | fuel + 1, spfa =>
      match spfa.queue with
      | [] => (spfa, none)
      | u :: queue =>
          let spfa := { spfa with queue := queue, inQueue := update spfa.inQueue u false }
          match spfa.distances u with
          | none => spfaLoop graph n fuel spfa
          | some du =>
              match relaxEdges n du (graph.getEdges (.node u)) spfa with
              | (spfa, some cycleNode) => (spfa, some cycleNode)
              | (spfa, none) => spfaLoop graph n fuel spfa

/-- More nodes than the queue can hand out before one of them was put into it too often. -/
def enough (n : Nat) : Nat := n * (n + 1) + 1

/-- Labels of zero for the nodes of a graph, all of them in the queue. -/
def start (n : Nat) : Spfa where
  distances := fun id => if id < n then some 0 else none
  parentEdge := fun _ => none
  inQueue := fun id => id < n
  count := fun id => if id < n then 1 else 0
  queue := List.range n

def run (graph : ConstraintGraph) : BellmanFordResult :=
  match spfaLoop graph graph.numVars (enough graph.numVars) (start graph.numVars) with
  | (spfa, some cycleNode) =>
      -- Any edge of the constraint that improved the node.
      let trigger := (spfa.parentEdge cycleNode).bind fun idx =>
        graph.allEdges.find? fun edge => edge.constraintIdx = idx
      extractNegativeCycle graph spfa.parentEdge cycleNode trigger
  | (spfa, none) => .distances spfa.distances

/-- Relax known labels from one node on; the flag says that a negative cycle was found. -/
def seedFrom (graph : ConstraintGraph) (distances : Nat → Option ℚ) (src : Nat) :
    (Nat → Option ℚ) × Bool :=
  let n := graph.numVars
  if n ≤ src then (distances, false)
  else if (distances src).isNone then (distances, false)
  else
    let spfa : Spfa :=
      { distances := distances
        parentEdge := fun _ => none
        inQueue := fun id => id = src
        count := fun id => if id = src then 1 else 0
        queue := [src] }
    let result := spfaLoop graph n (enough n) spfa
    (result.1.distances, result.2.isSome)

end Spfa

inductive DiffLogicResult where
  | ok
  /-- A conflict of the constraints with the listed origins. -/
  | conflict (origins : List Nat)
  deriving DecidableEq, Repr

def DiffLogicResult.isConflict : DiffLogicResult → Bool
  | .ok => false
  | .conflict _ => true

/-- The solver. -/
structure DiffLogicSolver where
  /-- Whether full checks use the search with a queue. -/
  useSpfa : Bool
  graph : ConstraintGraph
  distances : Nat → Option ℚ
  distancesValid : Bool

inductive IncAdd where
  | conflict (origins : List Nat)
  /-- The edge leaves this node, and the labels can be used. -/
  | ok (y : Nat)
  | fullCheck

namespace DiffLogicSolver

def new (isInteger useSpfa : Bool) : DiffLogicSolver where
  useSpfa := useSpfa
  graph := .new isInteger
  distances := fun _ => none
  distancesValid := false

def cycleToConflict (solver : DiffLogicSolver) (cycle : List Nat) : List Nat :=
  cycle.filterMap fun idx => solver.graph.constraints[idx]?.map DiffConstraint.origin

def search (solver : DiffLogicSolver) : BellmanFordResult :=
  if solver.useSpfa then Spfa.run solver.graph else BellmanFord.run solver.graph

def check (solver : DiffLogicSolver) : DiffLogicSolver × DiffLogicResult :=
  match solver.search with
  | .distances distances => ({ solver with distances := distances, distancesValid := true }, .ok)
  | .negativeCycle edges _ => (solver, .conflict (solver.cycleToConflict edges))

/-- Add a constraint, and report whether the labels can be used to check it. -/
def addConstraintInc (solver : DiffLogicSolver) (xTerm yTerm : Nat) (c : ℚ)
    (constraintType : ConstraintType) (origin : Nat) : DiffLogicSolver × IncAdd :=
  let (graph, x) := solver.graph.getOrCreateVar xTerm
  let (graph, y) := graph.getOrCreateVar yTerm
  let newVar := (solver.distances x).isNone || (solver.distances y).isNone
  if x = y ∧ c < 0 then
    ({ solver with graph := graph, distancesValid := false }, .conflict [origin])
  else
    let constraint : DiffConstraint :=
      { x := x, y := y, bound := c, constraintType := constraintType, origin := origin }
    let solver := { solver with graph := (graph.addConstraint constraint).1 }
    if newVar || !solver.distancesValid then ({ solver with distancesValid := false }, .fullCheck)
    else (solver, .ok y)

/-- Check the edge that was added last, from its source on. -/
def checkIncrementalFrom (solver : DiffLogicSolver) (y : Nat) : DiffLogicSolver × DiffLogicResult :=
  let (distances, cycle) := Spfa.seedFrom solver.graph solver.distances y
  let solver := { solver with distances := distances }
  -- The labels of the seeded search cannot explain a cycle.
  if cycle then { solver with distancesValid := false }.check else (solver, .ok)

def addCheck (solver : DiffLogicSolver) (x y : Nat) (c : ℚ) (constraintType : ConstraintType)
    (origin : Nat) : DiffLogicSolver × DiffLogicResult :=
  match solver.addConstraintInc x y c constraintType origin with
  | (solver, .conflict origins) => (solver, .conflict origins)
  | (solver, .ok y) => solver.checkIncrementalFrom y
  | (solver, .fullCheck) => solver.check

def addLeqCheck (solver : DiffLogicSolver) (x y : Nat) (c : ℚ) (origin : Nat) :
    DiffLogicSolver × DiffLogicResult := solver.addCheck x y c .leqConst origin

def addLtCheck (solver : DiffLogicSolver) (x y : Nat) (c : ℚ) (origin : Nat) :
    DiffLogicSolver × DiffLogicResult := solver.addCheck x y c .ltConst origin

def push (solver : DiffLogicSolver) : DiffLogicSolver := { solver with graph := solver.graph.push }

def pop (solver : DiffLogicSolver) (levels : Nat) : DiffLogicSolver :=
  if levels = 0 then solver
  else { solver with graph := solver.graph.pop levels, distancesValid := false }

end DiffLogicSolver

end Nixie.DiffLogic.Sparse
