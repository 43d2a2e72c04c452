import Nixie.Sat.Trail

/-! The state of the search: stored clauses, watch lists, binary implications, and propagation. -/

namespace Nixie.Sat.Search

open Function

/-- A clause of the database. -/
structure StoredClause where
  /-- Literals in stored order; the first two are watched. -/
  lits : Clause
  learned : Bool
  deleted : Bool
  deriving DecidableEq, Repr

/-- An entry of a watch list. -/
structure Watcher where
  clause : Nat
  /-- A literal of the clause that may satisfy it. -/
  blocker : Lit
  deriving DecidableEq, Repr

/-- The solver fields that propagation reads and writes. -/
structure Solver where
  numVars : Nat
  clauses : List StoredClause
  /-- Watchers of long clauses, by the literal whose truth falsifies the watched one. -/
  watches : Lit → List Watcher
  /-- Implications of binary clauses, by the literal whose truth triggers them. -/
  binaryGraph : Lit → List (Lit × Nat)
  trail : Trail

namespace Solver

def new (numVars : Nat) : Solver where
  numVars := numVars
  clauses := []
  watches := fun _ => []
  binaryGraph := fun _ => []
  trail := Trail.new

def liveLits (s : Solver) (id : Nat) : Option Clause :=
  (s.clauses[id]?).bind fun clause => if clause.deleted then none else some clause.lits

def setLits (s : Solver) (id : Nat) (lits : Clause) : Solver :=
  { s with clauses := s.clauses.modify id fun clause => { clause with lits := lits } }

def addWatcher (s : Solver) (lit : Lit) (watcher : Watcher) : Solver :=
  { s with watches := update s.watches lit (s.watches lit ++ [watcher]) }

def withList (s : Solver) (lit : Lit) (list : List Watcher) : Solver :=
  { s with watches := update s.watches lit list }

def addEdge (s : Solver) (lit implied : Lit) (id : Nat) : Solver :=
  { s with binaryGraph := update s.binaryGraph lit (s.binaryGraph lit ++ [(implied, id)]) }

def attachWatchers (s : Solver) (id : Nat) (l0 l1 : Lit) : Solver :=
  if (s.clauses[id]?).any fun clause => clause.lits.length = 2 then
    (s.addEdge l0.negate l1 id).addEdge l1.negate l0 id
  else (s.addWatcher l0.negate ⟨id, l1⟩).addWatcher l1.negate ⟨id, l0⟩

def storeClause (s : Solver) (clause : StoredClause) : Solver :=
  let stored := { s with clauses := s.clauses ++ [clause] }
  match clause.lits with
  | l0 :: l1 :: _ => stored.attachWatchers s.clauses.length l0 l1
  -- Shorter clauses are never watched.
  | _ => stored

/-- Take the two watchers of a long clause off their lists. -/
def detach (s : Solver) (id : Nat) : Solver :=
  match s.liveLits id with
  | some (l0 :: l1 :: _) =>
      let first := s.withList l0.negate ((s.watches l0.negate).filter fun w => w.clause ≠ id)
      first.withList l1.negate ((first.watches l1.negate).filter fun w => w.clause ≠ id)
  | _ => s

/-- Detach and retire a long clause, as the reduction of the database does. -/
def removeClause (s : Solver) (id : Nat) : Solver :=
  { s.detach id with
    clauses := s.clauses.modify id fun clause => { clause with deleted := true } }

/-- Whether a clause is the reason of one of its literals. -/
def isLiveReasonClause (s : Solver) (id : Nat) (lits : Clause) : Bool :=
  lits.any fun lit =>
    s.trail.isAssigned lit.var && (s.trail.varInfo lit.var).reason == .propagation id

/-- What happens to a watcher that was looked at. -/
inductive Visited where
  | kept (watcher : Watcher)
  | dropped
  | conflict (watcher : Watcher)
  deriving DecidableEq, Repr

/-- Look for another literal to watch; the false one is at position one. -/
def replaceWatch (s : Solver) (watcher : Watcher) (first other : Lit) (rest : Clause) :
    Solver × Visited :=
  if s.trail.litVal first > 0 then (s, .kept { watcher with blocker := first })
  else match rest.dropWhile fun lit => s.trail.litVal lit < 0 with
    | replacement :: back =>
        -- A satisfied literal only refreshes the blocker; an open one takes the watch over.
        if s.trail.litVal replacement > 0 then (s, .kept { watcher with blocker := replacement })
        else
          let front := rest.takeWhile fun lit => s.trail.litVal lit < 0
          ((s.setLits watcher.clause
              (first :: replacement :: (front ++ other :: back))).addWatcher
            replacement.negate { watcher with blocker := first }, .dropped)
    | [] =>
        if s.trail.litVal first < 0 then (s, .conflict { watcher with blocker := first })
        else ({ s with trail := s.trail.assign first (.propagation watcher.clause) },
          .kept { watcher with blocker := first })

/-- Look at a watcher of a literal that became true. -/
def visit (s : Solver) (lit : Lit) (watcher : Watcher) : Solver × Visited :=
  if s.trail.litVal watcher.blocker > 0 then (s, .kept watcher)
  else match s.liveLits watcher.clause with
    | some (l0 :: l1 :: rest) =>
        -- The false literal goes to position one.
        let first := if l0 = lit.negate then l1 else l0
        let other := if l0 = lit.negate then l0 else l1
        (s.setLits watcher.clause (first :: other :: rest)).replaceWatch watcher first other rest
    -- A retired clause loses its watcher.
    | _ => (s, .dropped)

/-- Look at the watchers of a list; the result holds the compacted list and the first conflict. -/
def scanWatches (lit : Lit) : Solver → List Watcher → List Watcher →
    Solver × List Watcher × Option Nat
  | s, kept, [] => (s, kept, none)
  | s, kept, watcher :: rest =>
      match s.visit lit watcher with
      | (s, .kept watcher) => scanWatches lit s (kept ++ [watcher]) rest
      | (s, .dropped) => scanWatches lit s kept rest
      | (s, .conflict watcher) => (s, kept ++ watcher :: rest, some watcher.clause)

/-- Follow the binary implications of a literal up to the first conflict. -/
def scanEdges (s : Solver) : List (Lit × Nat) → Solver × Option Nat
  | [] => (s, none)
  | (implied, id) :: rest =>
      if s.trail.litVal implied < 0 then (s, some id)
      else if s.trail.litVal implied = 0 then
        scanEdges { s with trail := s.trail.assign implied (.propagation id) } rest
      else scanEdges s rest

def requeue (s : Solver) : Solver := { s with trail := s.trail.requeueLastPropagated }

def propagateLit (s : Solver) (lit : Lit) : Solver × Option Nat :=
  match s.scanEdges (s.binaryGraph lit) with
  | (s, some id) => (s.requeue, some id)
  | (s, none) =>
      -- The list is taken out during its scan.
      match scanWatches lit (s.withList lit []) [] (s.watches lit) with
      | (s, kept, some id) => ((s.withList lit kept).requeue, some id)
      | (s, kept, none) => (s.withList lit kept, none)

inductive Outcome where
  | fixpoint
  | aborted
  | conflict (id : Nat)
  deriving DecidableEq, Repr

def propagateLoop : Nat → Option Nat → Solver → Option (Solver × Outcome)
  | 0, _, _ => none
  | fuel + 1, limit, s =>
      match s.trail.nextToPropagate with
      | (_, none) => some (s, .fixpoint)
      | (trail, some lit) =>
          if limit = some 0 then some ({ s with trail := trail }, .aborted)
          else match propagateLit { s with trail := trail } lit with
            | (s, some id) => some (s, .conflict id)
            | (s, none) => propagateLoop fuel (limit.map (· - 1)) s

/-- Unit propagation; every turn dequeues a variable, so their number is enough fuel. -/
def propagate (s : Solver) (limit : Option Nat) : Option (Solver × Outcome) :=
  propagateLoop (s.numVars + 1) limit s

def decide (s : Solver) (lit : Lit) : Solver :=
  { s with trail := s.trail.newDecisionLevel.assign lit .decision }

def force (s : Solver) (lit : Lit) (reason : Reason) (level : Nat) : Solver :=
  { s with trail := s.trail.assignAt lit reason level }

def backtrack (s : Solver) (level : Nat) : Solver := { s with trail := s.trail.backtrackTo level }

end Solver

section

variable {s : Solver}

theorem liveLits_setLits (id other : Nat) (lits : Clause) : (s.setLits id lits).liveLits other =
      if other = id then (s.liveLits id).map fun _ => lits else s.liveLits other := by
  unfold Solver.liveLits Solver.setLits
  dsimp only
  rw [List.getElem?_modify]
  by_cases same : other = id
  · subst same
    rw [if_pos rfl]
    cases found : s.clauses[other]? with
    | none => simp
    | some clause =>
      cases deleted : clause.deleted <;> simp [deleted]
  · rw [if_neg same]
    simp [Ne.symm same]

@[simp] theorem setLits_trail (id : Nat) (lits : Clause) : (s.setLits id lits).trail = s.trail := rfl
@[simp] theorem setLits_binaryGraph (id : Nat) (lits : Clause) :
    (s.setLits id lits).binaryGraph = s.binaryGraph := rfl
@[simp] theorem addWatcher_liveLits (lit : Lit) (watcher : Watcher) (id : Nat) :
    (s.addWatcher lit watcher).liveLits id = s.liveLits id := rfl
@[simp] theorem withList_liveLits (lit : Lit) (list : List Watcher) (id : Nat) :
    (s.withList lit list).liveLits id = s.liveLits id := rfl

theorem liveLits_lt {id : Nat} {lits : Clause} (live : s.liveLits id = some lits) :
    id < s.clauses.length := by
  unfold Solver.liveLits at live
  obtain ⟨clause, found, -⟩ := Option.bind_eq_some_iff.mp live
  exact (List.getElem?_eq_some_iff.mp found).1

end

end Nixie.Sat.Search
