import Nixie.DiffLogic.Sparse.BellmanFord

/-! The cycles that both searches report, and when the constraints they name are one. -/

namespace Nixie.DiffLogic.Sparse

open Nixie.Graph Option

/-- Constraints that lead back from a node: each starts where the next one ends. -/
inductive LeadsBack (graph : ConstraintGraph) : Nat → List Nat → Nat → ℚ → Prop where
  | nil (a : Nat) : LeadsBack graph a [] a 0
  /-- One more constraint in front, on the node itself. -/
  | cons {idx b : Nat} {c : DiffConstraint} {rest : List Nat} {w : ℚ}
      (found : graph.constraints[idx]? = some c) (back : LeadsBack graph c.y rest b w) :
      LeadsBack graph c.x (idx :: rest) b (c.effectiveBound graph.isInteger + w)

/-- Constraints of a closed walk of negative weight. -/
def NegativeWalk (graph : ConstraintGraph) (edges : List Nat) (total : ℚ) : Prop :=
  edges ≠ [] ∧ total < 0 ∧ ∃ a, LeadsBack graph a edges a total

/-- A search finds a negative cycle exactly if there is one, and names its constraints. -/
def Finds (graph : ConstraintGraph) : BellmanFordResult → Prop
  | .distances _ => NoNegativeCycle (GraphEdge graph)
  | .negativeCycle edges total =>
      ¬ NoNegativeCycle (GraphEdge graph) ∧ NegativeWalk graph edges total

/--
The first edge that the passes have not relaxed is a loop, or going back over the parent edges from its
target never ends.
-/
def BellmanFord.Explains (graph : ConstraintGraph) : Prop :=
  let bf := passes graph.allEdges (graph.numVars - 1) (start graph.numVars)
  ∀ edge, graph.allEdges.find? bf.tense = some edge → edge.from_ = .node edge.to_ ∨
      ∀ a vertices w, Walk (ParentEdge (parents graph bf.parentEdge)) a vertices edge.to_ w →
        parents graph bf.parentEdge a ≠ none

section

variable {graph : ConstraintGraph} {init distances : Nat → Option ℚ} {parentEdge : Nat → Option Nat}
  {a b k start : Nat} {vertices : List Nat} {w : ℚ}

theorem parents_some {step : Nat × ℚ} (pointer : parents graph parentEdge b = some step) :
    ∃ idx c, parentEdge b = some idx ∧ graph.constraints[idx]? = some c ∧
      step = (c.y, c.effectiveBound graph.isInteger) := by
  obtain ⟨idx, known, rest⟩ := bind_eq_some_iff.mp pointer
  obtain ⟨c, found, same⟩ := map_eq_some_iff.mp rest
  exact ⟨idx, c, known, found, same.symm⟩

theorem walkBack_walk : ∀ {vertices : List Nat} {b : Nat} {w : ℚ},
    Walk (ParentEdge (parents graph parentEdge)) a vertices b w →
      walkBack graph parentEdge (vertices.length + k) b = walkBack graph parentEdge k a := by
  -- By induction on the length: the last edge of the walk is the first step back.
  intro vertices
  induction length : vertices.length generalizing vertices with
  | zero =>
    intro b w walk
    rw [List.length_eq_zero_iff] at length
    subst length
    cases walk
    rw [Nat.zero_add]
  | succ m ih =>
    intro b w walk
    rcases walk.last with ⟨rfl, _⟩ | ⟨front, u, r, l, before, step, rfl, _⟩
    · cases length
    · obtain ⟨idx, c, known, found, same⟩ := parents_some step
      obtain ⟨rfl, rfl⟩ := Prod.mk.inj same
      rw [Nat.add_right_comm, walkBack, known, bind_some, found]
      exact ih (by simpa using length) before

theorem collectCycle_spec (treed : Treed graph init distances parentEdge) :
    ∀ {steps b : Nat} {vertices : List Nat} {w : ℚ},
      Walk (ParentEdge (parents graph parentEdge)) a vertices b w → vertices ≠ [] → vertices.Nodup →
      vertices.length ≤ steps →
        ∃ edges, collectCycle graph parentEdge a steps b = (edges, w) ∧ edges ≠ [] ∧
          LeadsBack graph b edges a w := by
  -- By induction on the number of steps: the last edge of the walk is collected first.
  intro steps
  induction steps with
  | zero =>
    intro b vertices w _ some_ _ short
    exact absurd (List.length_eq_zero_iff.mp (Nat.le_zero.mp short)) some_
  | succ steps ih =>
    intro b vertices w walk some_ distinct short
    rcases walk.last with ⟨none_, _⟩ | ⟨front, u, r, l, before, step, rfl, rfl⟩
    · exact absurd none_ some_
    obtain ⟨idx, c, known, found, same⟩ := parents_some step
    obtain ⟨rfl, rfl⟩ := Prod.mk.inj same
    obtain ⟨c', found', rfl⟩ := treed.recorded b idx known
    obtain rfl := some.inj (found.symm.trans found')
    rw [collectCycle, known]
    dsimp only
    rw [found]
    dsimp only
    obtain ⟨distinct', _, apart⟩ := List.nodup_append.mp distinct
    by_cases back : c.y = a
    · -- The walk leaves its start only once, so this edge is all of it.
      rw [if_pos back]
      subst back
      cases before with
      | nil => exact ⟨[idx], by rw [zero_add], List.cons_ne_nil _ _, by
          rw [add_comm]
          exact .cons found (.nil _)⟩
      | cons => exact absurd rfl (apart _ (.head _) _ (.head _))
    · rw [if_neg back]
      have some_' : front ≠ [] := by
        rintro rfl
        cases before
        exact back rfl
      obtain ⟨edges, collected, _, leads⟩ := ih before some_' distinct' (by simp at short; omega)
      rw [collected]
      refine ⟨idx :: edges, by rw [add_comm], List.cons_ne_nil _ _, ?_⟩
      rw [add_comm]
      exact .cons found leads

theorem extract_long (treed : Treed graph init distances parentEdge) (consistent : Consistent graph)
    (walk : Walk (ParentEdge (parents graph parentEdge)) a vertices start w)
    (long : vertices.length = graph.numVars + 1) (trigger : Option DiffEdge) :
    ∃ edges total, extractNegativeCycle graph parentEdge start trigger = .negativeCycle edges total ∧
      NegativeWalk graph edges total := by
  have few : FewSources _ _ := treed.few consistent
  obtain ⟨others, r, closed, some_⟩ := exists_closed few walk (by omega)
  obtain ⟨short, total, simple, some_', distinct⟩ := closed.simpleCycle le_rfl some_
  have length := few simple distinct
  obtain ⟨edges, collected, some_'', leads⟩ := collectCycle_spec treed simple some_' distinct
    (length.trans (Nat.le_add_right _ 2))
  have back := @walkBack_walk graph parentEdge a 0 vertices start w walk
  rw [Nat.add_zero, long] at back
  refine ⟨edges, total, ?_, some_'', treed.fits.closed a short total simple some_', a, leads⟩
  unfold extractNegativeCycle
  rw [back]
  dsimp only [walkBack]
  rw [collected]
  cases edges with
  | nil => exact absurd rfl some_''
  | cons => rfl

end

section

variable {graph : ConstraintGraph}

theorem Spfa.finds (consistent : Consistent graph) : Finds graph (Spfa.run graph) := by
  have labels : Labels graph.numVars (fun _ => 0) (start graph.numVars).distances :=
    ⟨fun v below => if_pos below, fun v above => if_neg (not_lt.mpr above)⟩
  unfold Spfa.run
  have searched := spfaLoop_tree consistent.toIndexed consistent.nodes (queued_start graph.numVars)
    (Spfa.tree_start consistent) le_rfl
  generalize spfaLoop graph graph.numVars (enough graph.numVars) (start graph.numVars) = result at *
  obtain ⟨spfa, _ | node⟩ := result
  · exact (searched.1.potential consistent labels searched.2).noNegativeCycle
  · obtain ⟨a, vertices, w, walk, length⟩ := searched.chain
    dsimp only
    obtain ⟨edges, total, extracted, negative⟩ := extract_long searched.treed consistent walk length _
    rw [extracted]
    exact ⟨searched.treed.negative consistent walk (by omega) searched.inside, negative⟩

/-- The weight of a negative cycle that is reported. -/
def BellmanFordResult.reported : BellmanFordResult → Option ℚ
  | .distances _ => none
  | .negativeCycle _ total => some total

end

end Nixie.DiffLogic.Sparse
