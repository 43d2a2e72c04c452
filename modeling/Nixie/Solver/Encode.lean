import Nixie.Core.Term
import Nixie.Logic.Cnf

/-! The polarity-aware Tseitin encoder with its memo, journal, and assertion scopes. -/

namespace Nixie.Tseitin

inductive Polarity where
  | positive
  | negative
  | both
  deriving DecidableEq, Repr

namespace Polarity

def flip : Polarity → Polarity
  | .positive => .negative
  | .negative => .positive
  | .both => .both

def join : Option Polarity → Polarity → Polarity
  | some .both, _ => .both
  | _, .both => .both
  | some .positive, .negative => .both
  | some .negative, .positive => .both
  | some stored, _ => stored
  | none, visited => visited

/-- The first polarity includes the directions of the second. -/
def Covers (stored needed : Polarity) : Prop := stored = .both ∨ stored = needed

instance (stored needed : Polarity) : Decidable (Covers stored needed) :=
  inferInstanceAs (Decidable (_ ∨ _))

end Polarity

abbrev TermMap (α : Type) := Term → Option α

def TermMap.set {α : Type} (map : TermMap α) (key : Term) (value : Option α) : TermMap α :=
  fun term => if term = key then value else map term

inductive TrailOp where
  /-- A SAT variable was created for a term. -/
  | varCreated (var : Nat) (term : Term)
  /-- The memo entry of a term was overwritten. -/
  | encodedTermAdded (term : Term) (previous : Option (Lit × Polarity))
  | assertionAdded (index : Nat)
  | falseAssertionSet

/-- What a scope entry remembers. -/
structure ContextState where
  numAssertions : Nat
  hasFalseAssertion : Bool
  trailPosition : Nat
  encodeDepthExceeded : Bool
  /-- Number of live SAT clauses at the push. -/
  numClauses : Nat

/-- The solver fields that assertion encoding reads and writes. -/
structure Solver where
  termToVar : TermMap Nat
  /-- Literal and emitted directions of each memoised term. -/
  encodedTerms : TermMap (Lit × Polarity)
  polarities : TermMap Polarity
  numVars : Nat
  /-- SAT clauses of the open scopes, oldest first. -/
  clauses : Cnf
  assertions : List Term
  hasFalseAssertion : Bool
  /-- Some live assertion was too deep to encode. -/
  encodeDepthExceeded : Bool
  trail : List TrailOp
  contextStack : List ContextState

def Solver.new : Solver where
  termToVar := fun _ => none
  encodedTerms := fun _ => none
  polarities := fun _ => none
  numVars := 0
  clauses := []
  assertions := []
  hasFalseAssertion := false
  encodeDepthExceeded := false
  trail := []
  contextStack := []

def encodeDepthLimit : Nat := 512

/-- The SAT variable of a term, created on first use. -/
def getOrCreateVar (term : Term) (s : Solver) : Nat × Solver :=
  match s.termToVar term with
  | some var => (var, s)
  | none =>
      (s.numVars,
        { s with
          termToVar := s.termToVar.set term (some s.numVars)
          numVars := s.numVars + 1
          trail := .varCreated s.numVars term :: s.trail })

def addClauses (clauses : Cnf) (s : Solver) : Solver :=
  { s with clauses := s.clauses ++ clauses }

/-- Record a term's encoding, journalling every change of the memo. -/
def memoizeEncoding (term : Term) (lit : Lit) (polarity : Polarity) (s : Solver) : Solver :=
  let previous := s.encodedTerms term
  let stored := { s with encodedTerms := s.encodedTerms.set term (some (lit, polarity)) }
  if previous = some (lit, polarity) then stored
  else { stored with trail := .encodedTermAdded term previous :: s.trail }

/-- The polarity under which a gate would be emitted now. -/
def needed (s : Solver) (term : Term) : Polarity := (s.polarities term).getD .both

def pairs {α : Type} : List α → List (α × α)
  | [] => []
  | a :: rest => rest.map (fun b => (a, b)) ++ pairs rest

section

variable (termId : Term → Nat)

def mkEq (lhs rhs : Term) : Term :=
  if lhs = rhs then .tru
  else match lhs, rhs with
    | .intConst _, .intConst _ => .fls
    | .tru, .fls => .fls
    | .fls, .tru => .fls
    | _, _ => if termId lhs ≤ termId rhs then .eq lhs rhs else .eq rhs lhs

/-- Sub-terms whose literals a term's encoding is built from. -/
def childTerms : Term → List Term
  -- A theory equality is an atom; a distinct is built from its pairwise equalities.
  | .not arg => [arg]
  | .and args => args
  | .or args => args
  | .xor lhs rhs => [lhs, rhs]
  | .implies lhs rhs => [lhs, rhs]
  | .ite cond thenBr elseBr => [cond, thenBr, elseBr]
  | .eq lhs rhs => if lhs.sort = .bool then [lhs, rhs] else []
  | .distinct args => (pairs args).map fun pair => mkEq termId pair.1 pair.2
  | _ => []

end

def andClauses (result : Lit) (args : List Lit) (polarity : Polarity) : Cnf :=
  (if polarity ≠ .negative then args.map fun arg => [result.negate, arg] else []) ++
    (if polarity ≠ .positive then [args.map Lit.negate ++ [result]] else [])

def orClauses (result : Lit) (args : List Lit) (polarity : Polarity) : Cnf :=
  (if polarity ≠ .negative then [result.negate :: args] else []) ++
    (if polarity ≠ .positive then args.map fun arg => [arg.negate, result] else [])

/-- Defining clauses of a term's gate over the literals of its children. -/
def gateClauses : Term → Lit → List Lit → Polarity → Cnf
  -- Only conjunctions and disjunctions ever omit a direction.
  | .tru, result, _, _ => [[result]]
  | .fls, result, _, _ => [[result.negate]]
  | .and _, result, args, polarity => andClauses result args polarity
  | .or _, result, args, polarity => orClauses result args polarity
  | .xor _ _, result, [lhs, rhs], _ =>
      [[result.negate, lhs, rhs], [result.negate, lhs.negate, rhs.negate],
        [lhs.negate, rhs, result], [lhs, rhs.negate, result]]
  | .implies _ _, result, [lhs, rhs], _ =>
      [[result.negate, lhs.negate, rhs], [lhs, result], [rhs.negate, result]]
  | .ite _ _ _, result, [cond, thenLit, elseLit], _ =>
      [[cond.negate, result.negate, thenLit], [cond.negate, thenLit.negate, result],
        [cond, result.negate, elseLit], [cond, elseLit.negate, result]]
  | .eq _ _, result, [lhs, rhs], _ =>
      [[result.negate, lhs.negate, rhs], [result.negate, rhs.negate, lhs],
        [lhs, rhs, result], [lhs.negate, rhs.negate, result]]
  | .distinct _, result, equalities, _ =>
      andClauses result (equalities.map Lit.negate) .both
  | _, _, _, _ => []

def encodeArgs (encode : Term → Solver → Lit × Solver) : List Term → Solver → List Lit × Solver
  | [], s => ([], s)
  | arg :: rest, s =>
      let head := encode arg s
      let tail := encodeArgs encode rest head.2
      (head.1 :: tail.1, tail.2)

section

variable (termId : Term → Nat) (encode : Term → Solver → Lit × Solver)

/-- A gate whose variable is created before its arguments are encoded. -/
def gateBeforeArgs (term : Term) (polarity : Polarity) (s : Solver) : Lit × Solver :=
  let result := getOrCreateVar term s
  let args := encodeArgs encode (childTerms termId term) result.2
  (.pos result.1, addClauses (gateClauses term (.pos result.1) args.1 polarity) args.2)

/-- A gate whose variable is created after its arguments are encoded. -/
def gateAfterArgs (term : Term) (s : Solver) : Lit × Solver :=
  let args := encodeArgs encode (childTerms termId term) s
  let result := getOrCreateVar term args.2
  (.pos result.1, addClauses (gateClauses term (.pos result.1) args.1 .both) result.2)

def encodeAtom (term : Term) (s : Solver) : Lit × Solver :=
  let result := getOrCreateVar term s
  (.pos result.1, result.2)

/-- A conjunction or disjunction records the directions it emitted. -/
def encodePolarised (term : Term) (s : Solver) : Lit × Solver :=
  -- The collected polarities do not change while an encoding is in flight.
  let gate := gateBeforeArgs termId encode term (needed s term) s
  (gate.1, memoizeEncoding term gate.1 (needed s term) gate.2)

def encodeDepthUncached (term : Term) (s : Solver) : Lit × Solver :=
  match term with
  | .tru => gateBeforeArgs termId encode .tru .both s
  | .fls => gateBeforeArgs termId encode .fls .both s
  | .not arg =>
      let inner := encode arg s
      (inner.1.negate, inner.2)
  | .and args => encodePolarised termId encode (.and args) s
  | .or args => encodePolarised termId encode (.or args) s
  | .xor lhs rhs => gateAfterArgs termId encode (.xor lhs rhs) s
  | .implies lhs rhs => gateAfterArgs termId encode (.implies lhs rhs) s
  | .ite cond thenBr elseBr => gateAfterArgs termId encode (.ite cond thenBr elseBr) s
  | .eq lhs rhs =>
      if lhs.sort = .bool then gateAfterArgs termId encode (.eq lhs rhs) s
      else encodeAtom (.eq lhs rhs) s
  | .distinct args =>
      -- At most one argument is trivially true.
      if args.length ≤ 1 then encodeAtom .tru s
      else gateBeforeArgs termId encode (.distinct args) .both s
  | atom => encodeAtom atom s

end

/-- The memoised literal, when the entry answers for the term at its current polarity. -/
def memoHit (s : Solver) (term : Term) : Option Lit :=
  match s.encodedTerms term with
  | some (lit, cached) => if cached.Covers (needed s term) then some lit else none
  | none => none

section

variable (termId : Term → Nat)

/-- Memo lookup, depth guard, and encoding with the remaining depth budget. -/
def encodeDepth : Nat → Term → Solver → Lit × Solver
  -- Past the depth limit the term stays unconstrained and nothing is memoised.
  | 0, term, s =>
      match memoHit s term with
      | some lit => (lit, s)
      | none => encodeAtom term { s with encodeDepthExceeded := true }
  | remaining + 1, term, s =>
      match memoHit s term with
      | some lit => (lit, s)
      | none =>
          let encoded := encodeDepthUncached termId (encodeDepth remaining) term s
          if (encoded.2.encodedTerms term).isNone then
            (encoded.1, memoizeEncoding term encoded.1 .both encoded.2)
          else encoded

def encode : Term → Solver → Lit × Solver := encodeDepth termId (encodeDepthLimit + 1)

end

/-- Store the joined polarity and descend, unless the visit changes nothing. -/
def visit (term : Term) (polarity : Polarity) (descend : TermMap Polarity → TermMap Polarity)
    (map : TermMap Polarity) : TermMap Polarity :=
  let updated := Polarity.join (map term) polarity
  if map term = some updated then map else descend (map.set term (some updated))

mutual

/-- Join the polarity of a term and of its sub-terms into the map. -/
def collectPolarities : Term → Polarity → TermMap Polarity → TermMap Polarity
  -- The worklist of the source visits children depth first, from left to right.
  | .not arg, polarity, map => visit (.not arg) polarity (collectPolarities arg polarity.flip) map
  | .and args, polarity, map => visit (.and args) polarity (collectAll args polarity) map
  | .or args, polarity, map => visit (.or args) polarity (collectAll args polarity) map
  | .implies lhs rhs, polarity, map =>
      visit (.implies lhs rhs) polarity
        (fun map => collectPolarities rhs polarity (collectPolarities lhs polarity.flip map)) map
  | .ite cond thenBr elseBr, polarity, map =>
      visit (.ite cond thenBr elseBr) polarity
        (fun map => collectPolarities elseBr polarity
          (collectPolarities thenBr polarity (collectPolarities cond .both map))) map
  | .xor lhs rhs, polarity, map =>
      visit (.xor lhs rhs) polarity
        (fun map => collectPolarities rhs .both (collectPolarities lhs .both map)) map
  | .eq lhs rhs, polarity, map =>
      visit (.eq lhs rhs) polarity
        (fun map => collectPolarities rhs .both (collectPolarities lhs .both map)) map
  | .distinct args, polarity, map => visit (.distinct args) polarity (collectBool args) map
  | .apply func args sort, polarity, map =>
      visit (.apply func args sort) polarity (collectBool args) map
  | .forallQ vars body, polarity, map =>
      visit (.forallQ vars body) polarity (collectPolarities body .both) map
  | .existsQ vars body, polarity, map =>
      visit (.existsQ vars body) polarity (collectPolarities body .both) map
  -- Arithmetic nodes and leaves have no Boolean sub-terms.
  | atom, polarity, map => visit atom polarity id map

def collectAll : List Term → Polarity → TermMap Polarity → TermMap Polarity
  | [], _, map => map
  | term :: rest, polarity, map => collectAll rest polarity (collectPolarities term polarity map)

def collectBool : List Term → TermMap Polarity → TermMap Polarity
  | [], map => map
  | term :: rest, map =>
      collectBool rest (if term.sort = .bool then collectPolarities term .both map else map)

end

mutual

/-- Leaves of one clause: nested disjunctions, or nested conjunctions under a negation. -/
def clauseLeaves : Term → Bool → List (Term × Bool)
  | .or args, true => clauseLeavesAll args true
  | .and args, false => clauseLeavesAll args false
  | term, polarity => [(term, polarity)]

def clauseLeavesAll : List Term → Bool → List (Term × Bool)
  | [], _ => []
  | term :: rest, polarity => clauseLeaves term polarity ++ clauseLeavesAll rest polarity

end

/-- What the top-level skeleton of an assertion asks for. -/
inductive Emission where
  | clause (leaves : List (Term × Bool))
  | noteFalse

mutual

/-- Clauses of an asserted term's skeleton, in the order they are emitted. -/
def assertionClauses : Term → Bool → List Emission
  -- A negated implication leaves its right side on top of the worklist.
  | .tru, true => []
  | .tru, false => [.noteFalse]
  | .fls, true => [.noteFalse]
  | .fls, false => []
  | .not arg, polarity => assertionClauses arg !polarity
  | .and args, true => assertionClausesAll args true
  | .and args, false => [.clause (clauseLeavesAll args false)]
  | .or args, true => [.clause (clauseLeavesAll args true)]
  | .or args, false => assertionClausesAll args false
  | .implies lhs rhs, true => [.clause (clauseLeaves lhs false ++ clauseLeaves rhs true)]
  | .implies lhs rhs, false => assertionClauses rhs false ++ assertionClauses lhs true
  | term, polarity => [.clause [(term, polarity)]]

def assertionClausesAll : List Term → Bool → List Emission
  | [], _ => []
  | term :: rest, polarity => assertionClauses term polarity ++ assertionClausesAll rest polarity

end

mutual

def structuralDepth : Term → Nat
  | .not arg => structuralDepth arg + 1
  | .neg arg => structuralDepth arg + 1
  | .and args => structuralDepthAll args + 1
  | .or args => structuralDepthAll args + 1
  | .distinct args => structuralDepthAll args + 1
  | .add args => structuralDepthAll args + 1
  | .mul args => structuralDepthAll args + 1
  | .apply _ args _ => structuralDepthAll args + 1
  | .xor lhs rhs => max (structuralDepth lhs) (structuralDepth rhs) + 1
  | .implies lhs rhs => max (structuralDepth lhs) (structuralDepth rhs) + 1
  | .eq lhs rhs => max (structuralDepth lhs) (structuralDepth rhs) + 1
  | .le lhs rhs => max (structuralDepth lhs) (structuralDepth rhs) + 1
  | .lt lhs rhs => max (structuralDepth lhs) (structuralDepth rhs) + 1
  | .ge lhs rhs => max (structuralDepth lhs) (structuralDepth rhs) + 1
  | .gt lhs rhs => max (structuralDepth lhs) (structuralDepth rhs) + 1
  | .sub lhs rhs => max (structuralDepth lhs) (structuralDepth rhs) + 1
  | .ite cond thenBr elseBr =>
      max (structuralDepth cond) (max (structuralDepth thenBr) (structuralDepth elseBr)) + 1
  | .forallQ _ body => structuralDepth body + 1
  | .existsQ _ body => structuralDepth body + 1
  | _ => 1

def structuralDepthAll : List Term → Nat
  | [] => 0
  | term :: rest => max (structuralDepth term) (structuralDepthAll rest)

end

mutual

/-- Some leaf below the flattened conjunctive skeleton is too deep for the encoder. -/
def termExceedsEncodeDepth : Term → Bool → Bool
  -- Implications are measured, not flattened.
  | .not arg, polarity => termExceedsEncodeDepth arg !polarity
  | .and args, true => anyExceedsEncodeDepth args true
  | .or args, false => anyExceedsEncodeDepth args false
  | term, _ => decide (encodeDepthLimit < structuralDepth term)

/-- Some term of the list is too deep for the encoder. -/
def anyExceedsEncodeDepth : List Term → Bool → Bool
  | [], _ => false
  | term :: rest, polarity =>
      termExceedsEncodeDepth term polarity || anyExceedsEncodeDepth rest polarity

end

def noteFalse (s : Solver) : Solver :=
  if s.hasFalseAssertion then s
  else { s with hasFalseAssertion := true, trail := .falseAssertionSet :: s.trail }

section

variable (termId : Term → Nat)

def leafLit (lit : Lit) (polarity : Bool) : Lit := if polarity then lit else lit.negate

def emit (emission : Emission) (s : Solver) : Solver :=
  match emission with
  | .noteFalse => noteFalse s
  | .clause leaves =>
      let args := encodeArgs (encode termId) (leaves.map Prod.fst) s
      addClauses [List.zipWith leafLit args.1 (leaves.map Prod.snd)] args.2

def emitAssertionClauses (term : Term) (s : Solver) : Solver :=
  (assertionClauses term true).foldl (fun s emission => emit termId emission s) s

def recordAssertion (term : Term) (s : Solver) : Solver :=
  { s with
    assertions := s.assertions ++ [term]
    trail := .assertionAdded s.assertions.length :: s.trail }

def assertTerm (term : Term) (s : Solver) : Solver :=
  let recorded := recordAssertion term s
  if termExceedsEncodeDepth term true then { recorded with encodeDepthExceeded := true }
  else
    match term with
    | .fls => noteFalse recorded
    | .tru => recorded
    | _ => emitAssertionClauses termId term
        { recorded with polarities := collectPolarities term .positive recorded.polarities }

/-- Encode a lemma and force it true with a unit clause. -/
def assertGroundLemma (lemma_ : Term) (s : Solver) : Solver :=
  let encoded := encode termId lemma_ s
  addClauses [[encoded.1]] encoded.2

end

def push (s : Solver) : Solver :=
  { s with
    contextStack :=
      { numAssertions := s.assertions.length
        hasFalseAssertion := s.hasFalseAssertion
        trailPosition := s.trail.length
        encodeDepthExceeded := s.encodeDepthExceeded
        numClauses := s.clauses.length } :: s.contextStack }

def undo (op : TrailOp) (s : Solver) : Solver :=
  match op with
  | .varCreated _ term => { s with termToVar := s.termToVar.set term none }
  | .encodedTermAdded term previous =>
      { s with encodedTerms := s.encodedTerms.set term previous }
  | .assertionAdded index => { s with assertions := s.assertions.take index }
  | .falseAssertionSet => { s with hasFalseAssertion := false }

/-- Take back journal entries until the journal has the given length. -/
def undoTo (position : Nat) : List TrailOp → Solver → Solver
  | [], s => { s with trail := [] }
  | op :: rest, s =>
      if position < (op :: rest).length then undoTo position rest (undo op s)
      else { s with trail := op :: rest }

def restoreContext (context : ContextState) (s : Solver) : Solver :=
  { s with
    assertions := s.assertions.take context.numAssertions
    hasFalseAssertion := context.hasFalseAssertion
    encodeDepthExceeded := context.encodeDepthExceeded
    clauses := s.clauses.take context.numClauses }

def pop (s : Solver) : Solver :=
  match s.contextStack with
  | [] => s
  | context :: outer =>
      restoreContext context
        (undoTo context.trailPosition s.trail { s with contextStack := outer })

inductive Call where
  | assert (term : Term)
  | lemma_ (term : Term)
  | push
  | pop

def step (termId : Term → Nat) (call : Call) (s : Solver) : Solver :=
  match call with
  | .assert term => assertTerm termId term s
  | .lemma_ term => assertGroundLemma termId term s
  | .push => push s
  | .pop => pop s

def run (termId : Term → Nat) (history : List Call) : Solver :=
  history.foldl (fun s call => step termId call s) Solver.new

end Nixie.Tseitin
