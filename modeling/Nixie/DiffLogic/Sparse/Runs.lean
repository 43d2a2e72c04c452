import Nixie.DiffLogic.Sparse.BellmanFord
import Nixie.DiffLogic.Sparse.Scopes

/-! Histories of calls of the sparse engine, and the verdict of every checked addition. -/

namespace Nixie.DiffLogic.Sparse

open Nixie.Graph

inductive Call where
  /-- Add a constraint with a bound, and check it. -/
  | addLeqCheck (x y : Nat) (c : ℚ) (origin : Nat)
  | addLtCheck (x y : Nat) (c : ℚ) (origin : Nat)
  | push
  | pop (levels : Nat)
  deriving DecidableEq, Repr

def Call.difference : Call → Option Difference
  | .addLeqCheck x y c _ => some ⟨x, y, c, .leqConst⟩
  | .addLtCheck x y c _ => some ⟨x, y, c, .ltConst⟩
  | .push => none
  | .pop _ => none

/-- A solver with the constraints that are live at each open level, the innermost level first. -/
structure Session where
  solver : DiffLogicSolver
  live : List Difference
  /-- Constraints that were live when each level was opened. -/
  older : List (List Difference)

namespace Session

def new (isInteger useSpfa : Bool) : Session := ⟨.new isInteger useSpfa, [], []⟩

/-- Add a constraint, which is live whatever the check says. -/
def add (session : Session) (d : Difference) (origin : Nat) : Session :=
  { session with
    solver := (session.solver.addCheck d.x d.y d.bound d.constraintType origin).1
    live := session.live ++ [d] }

def run (session : Session) : Call → Session
  | .addLeqCheck x y c origin => session.add ⟨x, y, c, .leqConst⟩ origin
  | .addLtCheck x y c origin => session.add ⟨x, y, c, .ltConst⟩ origin
  | .push => ⟨session.solver.push, session.live, session.live :: session.older⟩
  | .pop levels =>
      -- More levels than there are close all but the base level.
      match (session.live :: session.older).drop (min levels session.older.length) with
      | [] => session
      | live :: older => ⟨session.solver.pop levels, live, older⟩

def answer (session : Session) : Call → DiffLogicResult
  | .addLeqCheck x y c origin => (session.solver.addLeqCheck x y c origin).2
  | .addLtCheck x y c origin => (session.solver.addLtCheck x y c origin).2
  | .push => .ok
  | .pop _ => .ok

inductive Reachable (isInteger useSpfa : Bool) : Session → Prop where
  | new : Reachable isInteger useSpfa (new isInteger useSpfa)
  | run {session : Session} (call : Call) (before : Reachable isInteger useSpfa session) :
      Reachable isInteger useSpfa (session.run call)

end Session

/-- The labels of a graph are a potential. -/
def Cached (graph : ConstraintGraph) (distances : Nat → Option ℚ) : Prop :=
  ∃ dist, Labels graph.numVars dist distances ∧ Potential (GraphEdge graph) dist

/-- The solver between two calls. -/
structure Faithful (isInteger : Bool) (session : Session) : Prop where
  tracks : Tracks session.solver.graph (session.live :: session.older)
  arithmetic : session.solver.graph.isInteger = isInteger
  valid : session.solver.distancesValid = true →
    Cached session.solver.graph session.solver.distances

section

variable {solver : DiffLogicSolver} {levels : List (List Difference)} {isInteger : Bool}
  {session : Session}

theorem check_spec (consistent : Consistent solver.graph) : solver.check.1.graph = solver.graph ∧
    (solver.check.2.isConflict = true ↔ ¬ NoNegativeCycle (GraphEdge solver.graph)) ∧
    ((solver.distancesValid = true → Cached solver.graph solver.distances) →
      solver.check.1.distancesValid = true → Cached solver.graph solver.check.1.distances) := by
  -- Both searches find a cycle, or labels that are a potential.
  have found : (∃ edges weight, solver.search = .negativeCycle edges weight ∧
        ¬ NoNegativeCycle (GraphEdge solver.graph)) ∨
      ∃ distances dist, solver.search = .distances distances ∧
        Labels solver.graph.numVars dist distances ∧ Potential (GraphEdge solver.graph) dist := by
    unfold DiffLogicSolver.search
    split
    · exact Spfa.run_spec consistent
    · exact BellmanFord.run_spec consistent
  unfold DiffLogicSolver.check
  rcases found with ⟨edges, weight, ends, negative⟩ | ⟨distances, dist, ends, labels, potential⟩
  · rw [ends]
    exact ⟨rfl, ⟨fun _ => negative, fun _ => rfl⟩, fun before => before⟩
  · rw [ends]
    refine ⟨rfl, ⟨fun conflict => (nomatch conflict), fun negative => ?_⟩,
      fun _ _ => ⟨dist, labels, potential⟩⟩
    exact absurd potential.noNegativeCycle negative

theorem addConstraintInc_cases (faithful : Faithful isInteger session) (d : Difference)
    (origin : Nat) : ∃ graph x y, Tracks graph (session.live :: session.older) ∧
      graph.isInteger = isInteger ∧ graph.varToNode d.x = some x ∧ graph.varToNode d.y = some y ∧
      let outcome := session.solver.addConstraintInc d.x d.y d.bound d.constraintType origin
      let c : DiffConstraint := ⟨x, y, d.bound, d.constraintType, origin⟩
      (d.contradictory = true ∧ outcome =
        ({ session.solver with graph := graph, distancesValid := false }, .conflict [origin])) ∨
      (d.contradictory = false ∧ (outcome = ({ session.solver with
            graph := (graph.addConstraint c).1
            distancesValid := false }, .fullCheck) ∨
        (outcome = ({ session.solver with graph := (graph.addConstraint c).1 }, .ok y) ∧
          session.solver.distancesValid = true ∧ graph = session.solver.graph ∧
            y < graph.numVars))) := by
  obtain ⟨tracks₁, first, _, old₁, integer₁⟩ := getOrCreateVar_spec faithful.tracks d.x
  obtain ⟨tracks₂, second, keeps, old₂, integer₂⟩ := getOrCreateVar_spec tracks₁ d.y
  unfold DiffLogicSolver.addConstraintInc
  cases created : session.solver.graph.getOrCreateVar d.x with
  | mk graph₁ x =>
    rw [created] at tracks₁ first old₁ integer₁ tracks₂ second keeps old₂ integer₂
    cases created' : graph₁.getOrCreateVar d.y with
    | mk graph y =>
      rw [created'] at tracks₂ second keeps old₂ integer₂
      dsimp only at *
      rw [created']
      dsimp only
      have minuend := keeps d.x x first
      -- Equal terms have equal nodes.
      have same : x = y ↔ d.x = d.y := by
        constructor
        · rintro rfl
          exact tracks₂.injective d.x d.y x minuend second
        · intro terms
          rw [terms, second] at minuend
          exact (Option.some.inj minuend).symm
      refine ⟨graph, x, y, tracks₂, integer₂.trans (integer₁.trans faithful.arithmetic), minuend,
        second, ?_⟩
      split
      · rename_i contradicts
        exact .inl ⟨decide_eq_true ⟨same.mp contradicts.1, contradicts.2⟩, rfl⟩
      · rename_i compatible
        refine .inr ⟨decide_eq_false fun both => compatible ⟨same.mpr both.1, both.2⟩, ?_⟩
        split
        · exact .inl rfl
        · -- Both nodes have labels, so they are old.
          rename_i usable
          rw [Bool.not_eq_true, Bool.or_eq_false_iff, Bool.or_eq_false_iff] at usable
          obtain ⟨⟨left, right⟩, valid⟩ := usable
          have valid : session.solver.distancesValid = true := by simpa using valid
          obtain ⟨dist, labels, _⟩ := faithful.valid valid
          have exists_ : ∀ v, (session.solver.distances v).isNone = false →
              v < session.solver.graph.numVars := by
            intro v known
            by_contra beyond
            rw [labels.beyond v (not_lt.mp beyond)] at known
            cases known
          have unchanged := old₁ (exists_ x left)
          subst unchanged
          have unchanged' := old₂ (exists_ y right)
          subst unchanged'
          exact .inr ⟨rfl, valid, rfl, exists_ y right⟩

theorem add_spec (faithful : Faithful isInteger session) (d : Difference) (origin : Nat) :
    let next := session.solver.addCheck d.x d.y d.bound d.constraintType origin
    Faithful isInteger (session.add d origin) ∧
      (d.contradictory = true → next.2.isConflict = true) ∧
      (d.contradictory = false → (next.2.isConflict = true ↔
        ¬ NoNegativeCycle (GraphEdge next.1.graph))) := by
  obtain ⟨graph, x, y, tracks, arithmetic, minuend, subtrahend, cases_⟩ :=
    addConstraintInc_cases faithful d origin
  unfold Session.add DiffLogicSolver.addCheck
  rcases cases_ with ⟨contradicts, outcome⟩ | ⟨compatible, cases_⟩
  · rw [outcome]
    refine ⟨⟨tracks.contradictory contradicts, arithmetic, fun absurd_ => (nomatch absurd_)⟩,
      fun _ => rfl, fun other => ?_⟩
    rw [contradicts] at other
    cases other
  have names : Names graph ⟨x, y, d.bound, d.constraintType, origin⟩ d :=
    ⟨minuend, subtrahend, rfl, rfl⟩
  obtain ⟨tracks', edges⟩ := addConstraint_spec tracks names compatible
  have formed := tracks'.consistent
  have never : d.contradictory = true → ∀ {p : Prop}, p := by
    intro contradicts
    rw [compatible] at contradicts
    cases contradicts
  -- A full check decides, whatever the labels were.
  have full : ∀ solver : DiffLogicSolver, solver.graph = (graph.addConstraint
        ⟨x, y, d.bound, d.constraintType, origin⟩).1 → solver.distancesValid = false →
      Faithful isInteger ⟨solver.check.1, session.live ++ [d], session.older⟩ ∧
        (solver.check.2.isConflict = true ↔ ¬ NoNegativeCycle (GraphEdge solver.check.1.graph)) := by
    intro solver same stale
    rw [← same] at formed tracks'
    obtain ⟨unchanged, verdict, cached⟩ := check_spec formed
    rw [← unchanged] at tracks' verdict cached
    have integers : solver.check.1.graph.isInteger = isInteger := by
      rw [unchanged, same]
      exact arithmetic
    refine ⟨⟨tracks', integers, cached fun valid => ?_⟩, verdict⟩
    rw [stale] at valid
    cases valid
  rcases cases_ with outcome | ⟨outcome, valid, old, lies⟩
  · rw [outcome]
    obtain ⟨faithful', verdict⟩ := full
      { session.solver with
        graph := (graph.addConstraint ⟨x, y, d.bound, d.constraintType, origin⟩).1
        distancesValid := false } rfl rfl
    exact ⟨faithful', fun contradicts => never contradicts, fun _ => verdict⟩
  · rw [outcome]
    obtain ⟨dist, labels, potential⟩ := faithful.valid valid
    rw [← old] at labels potential
    -- Only the new edge may not be relaxed.
    have settled : ∀ u, u ≠ y → ∀ v w, GraphEdge (graph.addConstraint
        ⟨x, y, d.bound, d.constraintType, origin⟩).1 u v w → dist v ≤ dist u + w := by
      intro u apart v w step
      rcases (edges u v w).mp step with before | ⟨here, _⟩
      · exact potential u v w before
      · exact absurd here.symm apart
    dsimp only
    unfold DiffLogicSolver.checkIncrementalFrom
    dsimp only
    rcases @Spfa.seedFrom_spec _ _ dist formed labels y lies settled with
      ⟨found, negative⟩ | ⟨none_, dist', labels', potential'⟩
    · rw [found, if_pos rfl]
      obtain ⟨faithful', verdict⟩ := full
        { session.solver with
          graph := (graph.addConstraint ⟨x, y, d.bound, d.constraintType, origin⟩).1
          distances := _
          distancesValid := false } rfl rfl
      exact ⟨faithful', fun contradicts => never contradicts, fun _ => verdict⟩
    · rw [none_, if_neg Bool.false_ne_true]
      refine ⟨⟨tracks', arithmetic, fun _ => ⟨dist', labels', potential'⟩⟩,
        fun contradicts => never contradicts, fun _ => ?_⟩
      exact ⟨fun conflict => (nomatch conflict),
        fun negative => absurd potential'.noNegativeCycle negative⟩

theorem Faithful.run (faithful : Faithful isInteger session) (call : Call) :
    Faithful isInteger (session.run call) := by
  cases call with
  | addLeqCheck x y c origin => exact (add_spec faithful ⟨x, y, c, .leqConst⟩ origin).1
  | addLtCheck x y c origin => exact (add_spec faithful ⟨x, y, c, .ltConst⟩ origin).1
  | push => exact ⟨faithful.tracks.push, faithful.arithmetic, faithful.valid⟩
  | pop levels =>
    have tracks := faithful.tracks.pop levels
    rw [List.length_cons, Nat.add_sub_cancel] at tracks
    unfold Session.run
    dsimp only
    cases rest : (session.live :: session.older).drop (min levels session.older.length) with
    | nil => exact faithful
    | cons live older =>
      rw [rest] at tracks
      dsimp only
      unfold DiffLogicSolver.pop
      split
      · -- No level is closed.
        rename_i none_
        subst none_
        rw [Nat.zero_min, List.drop_zero] at rest
        cases rest
        exact faithful
      · rename_i some_
        refine ⟨tracks, ?_, fun absurd_ => (nomatch absurd_)⟩
        show (session.solver.graph.pop levels).isInteger = isInteger
        unfold ConstraintGraph.pop
        rw [if_neg some_]
        exact faithful.arithmetic

theorem Session.Reachable.faithful {useSpfa : Bool} (reachable : session.Reachable isInteger useSpfa) :
    Faithful isInteger session := by
  induction reachable with
  | new => exact ⟨tracks_new isInteger, rfl, fun absurd_ => (nomatch absurd_)⟩
  | run call _ ih => exact ih.run call

end

section

variable {isInteger useSpfa : Bool} {session : Session}

/--
What the verdict of an addition relies on.

Integers have integer constants, no cycle through a strict constraint over the reals adds up to zero
unless some cycle is negative, and no constraint that contradicts itself is live already.
-/
structure Regular (isInteger : Bool) (live : List Difference) (d : Difference) : Prop where
  whole : isInteger = true → ∀ e ∈ live ++ [d], ∃ k : Int, e.bound = k
  loose : isInteger = false → NoNegativeCycle (TermEdge false (live ++ [d])) →
    ¬ TightStrictCycle (live ++ [d])
  closed : ∀ e ∈ live, e.contradictory = false

theorem Regular.satisfiable_iff {live : List Difference} {d : Difference}
    (regular : Regular isInteger live d) : Satisfiable isInteger (live ++ [d]) ↔
      NoNegativeCycle (TermEdge isInteger (live ++ [d])) := by
  cases isInteger with
  | true => exact satisfiable_integer (regular.whole rfl)
  | false =>
    by_cases sound : NoNegativeCycle (TermEdge false (live ++ [d]))
    · exact satisfiable_real (regular.loose rfl sound)
    · -- A negative cycle refutes real solutions whether or not some cycle is tight.
      exact ⟨satisfiable_sound, fun absurd_ => absurd absurd_ sound⟩

end

end Nixie.DiffLogic.Sparse
