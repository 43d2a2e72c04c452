import Nixie.DiffLogic.Sparse.Runs

/-! The values that the sparse engine reads off its labels. -/

namespace Nixie.DiffLogic.Sparse

open Nixie.Graph

/-- Some values satisfy the constraints with their effective bounds. -/
def Solution (isInteger : Bool) (live : List Difference) (value : Nat → ℚ) : Prop :=
  ∀ d ∈ live, value d.x - value d.y ≤ d.effectiveBound isInteger

variable {isInteger useSpfa : Bool} {session : Session} {value : Nat → ℚ}

theorem Solution.noNegativeCycle {live : List Difference} (solution : Solution isInteger live value) :
    NoNegativeCycle (TermEdge isInteger live) := by
  have potential : Potential (TermEdge isInteger live) value := by
    rintro a b w ⟨d, mem, rfl, rfl, rfl⟩
    exact sub_le_iff_le_add'.mp (solution d mem)
  exact potential.noNegativeCycle

theorem Faithful.solution (faithful : Faithful isInteger session) {distances : Nat → Option ℚ}
    (cached : Cached session.solver.graph distances) :
    ∃ value, Solution isInteger (stored session.live) value ∧ ∀ d ∈ stored session.live,
      ∀ t ∈ [d.x, d.y], (session.solver.graph.varToNode t).bind distances = some (value t) := by
  obtain ⟨dist, labels, potential⟩ := cached
  have tracks := faithful.tracks
  refine ⟨fun t => dist ((session.solver.graph.varToNode t).getD 0), fun d mem => ?_,
    fun d mem t listed => ?_⟩
  · -- The constraint of the graph is an edge, along which the labels are a potential.
    obtain ⟨c, lies, names⟩ := tracks.exists_constraint mem
    have edge := potential _ _ _ (tracks.indexed.graphEdge.mpr ⟨c, lies, rfl, rfl, rfl⟩)
    dsimp only
    rw [names.x, names.y, Option.getD_some, Option.getD_some, sub_le_iff_le_add']
    refine edge.trans_eq ?_
    cases kind : d.constraintType <;>
      simp only [DiffConstraint.effectiveBound, Difference.effectiveBound, names.bound,
        names.constraintType, kind, faithful.arithmetic]
  · obtain ⟨c, -, names⟩ := tracks.exists_constraint mem
    obtain ⟨v, known⟩ : ∃ v, session.solver.graph.varToNode t = some v := by
      rcases List.mem_pair.mp listed with rfl | rfl
      · exact ⟨c.x, names.x⟩
      · exact ⟨c.y, names.y⟩
    dsimp only
    rw [known]
    exact labels.known v (tracks.named t v known)

end Nixie.DiffLogic.Sparse
