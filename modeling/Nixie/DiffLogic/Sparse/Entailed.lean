import Nixie.DiffLogic.Sparse.Cycles
import Nixie.DiffLogic.Sparse.Difference

/-! Bounds that shortest paths entail: their reasons are sound, and found wherever there is a path. -/

namespace Nixie.DiffLogic.Sparse

open Nixie.Graph List Function Option

/-- The source has label zero and is the only node in the queue, where it is not counted. -/
def ssspStart (src : Nat) : Spfa where
  distances := update (fun _ => none) src (some 0)
  parentEdge := fun _ => none
  inQueue := fun id => id = src
  count := fun _ => 0
  queue := [src]

/-- The origins on the way back to a node, for a bounded number of steps. -/
def reasonSteps (graph : ConstraintGraph) (src : Nat) (pred : Nat → Option Nat) : Nat → Nat → List Nat
  | 0, _ => []
  | steps + 1, cur =>
      if cur = src then []
      else
        match (pred cur).bind fun idx => graph.constraints[idx]? with
        | none => []
        | some constraint => constraint.origin :: reasonSteps graph src pred steps constraint.y

namespace DiffLogicSolver

end DiffLogicSolver

/-- The differences of the constraints that a reason names. -/
def named (graph : ConstraintGraph) (reason : List Nat) : List Difference :=
  (graph.constraints.filter fun c => c.origin ∈ reason).map fun c =>
    ⟨c.x, c.y, c.bound, c.constraintType⟩

/-- Every solution of some differences, in integers or in reals, satisfies another one. -/
def Entails (isInteger : Bool) (live : List Difference) (d : Difference) : Prop :=
  if isInteger then ∀ value : Nat → Int, (∀ e ∈ live, e.Holds fun t => (value t : ℚ)) →
    d.Holds fun t => (value t : ℚ)
  else ∀ value : Nat → ℝ, (∀ e ∈ live, e.Holds value) → d.Holds value

section

variable {graph : ConstraintGraph} {n src x : Nat} {distances : Nat → Option ℚ}
  {pred : Nat → Option Nat} {du d : ℚ} {spfa : Spfa}

theorem ssspStart_label {v : Nat} : (ssspStart src).distances v = some d ↔ v = src ∧ d = 0 := by
  by_cases same : v = src <;> simp [ssspStart, same, eq_comm]

/-- The labels and predecessors of a node in a graph without negative cycles. -/
structure Shortest (graph : ConstraintGraph) (src : Nat) (distances : Nat → Option ℚ)
    (pred : Nat → Option Nat) : Prop where
  treed : Treed graph (ssspStart src).distances distances pred
  settled : ∀ v, Settled graph distances v

theorem Shortest.path (shortest : Shortest graph src distances pred)
    (sound : NoNegativeCycle (GraphEdge graph)) (known : distances x = some d) :
    ∃ vertices w, Walk (ParentEdge (parents graph pred)) src vertices x w ∧
      vertices.length ≤ graph.constraints.length ∧ parents graph pred src = none ∧ w ≤ d := by
  have fits := shortest.treed.fits
  -- Different predecessors need different constraints.
  have few : FewSources (ParentEdge (parents graph pred)) graph.constraints.length := by
    intro a vertices b w walk distinct
    have sub : vertices ⊆ graph.constraints.map DiffConstraint.y := by
      intro v mem
      obtain ⟨u, k, step⟩ := walk.sources mem
      obtain ⟨idx, c, _, found, same⟩ := parents_some step
      obtain ⟨rfl, rfl⟩ := Prod.mk.inj same
      exact mem_map_of_mem (mem_of_getElem? found)
    have count := distinct.length_le_of_subset sub
    rwa [length_map] at count
  rcases exists_chain (parents graph pred) x (graph.constraints.length + 1) with
    ⟨a, vertices, w, walk, length⟩ | ⟨a, vertices, w, walk, short, root⟩
  · obtain ⟨others, r, closed, some_⟩ := exists_closed few walk (by omega)
    have pos := sound a others r (closed.mono fits.edges)
    exact absurd (fits.closed a others r closed some_) (not_lt.mpr pos)
  · obtain ⟨da, start⟩ : ∃ da, distances a = some da := by
      cases walk with
      | nil => exact ⟨d, known⟩
      | cons first =>
        obtain ⟨da, _, start, _⟩ := fits.tight _ _ _ first
        exact ⟨da, start⟩
    -- Only the source has a label without a predecessor.
    obtain ⟨rfl, rfl⟩ := ssspStart_label.mp ((fits.fresh a root).symm.trans start)
    obtain ⟨e, known', bound⟩ := fits.walk walk start
    obtain rfl := some.inj (known.symm.trans known')
    exact ⟨vertices, w, walk, Nat.lt_succ_iff.mp short, root, (zero_add w) ▸ bound⟩

theorem Shortest.source (shortest : Shortest graph src distances pred)
    (sound : NoNegativeCycle (GraphEdge graph)) : distances src = some 0 := by
  have fits := shortest.treed.fits
  obtain ⟨d, known⟩ : ∃ d, distances src = some d := by
    cases pointer : parents graph pred src with
    | none => exact ⟨0, (fits.fresh src pointer).trans (ssspStart_label.mpr ⟨rfl, rfl⟩)⟩
    | some step =>
      obtain ⟨_, d, _, known, _⟩ := fits.tight step.1 src step.2 pointer
      exact ⟨d, known⟩
  obtain ⟨_, _, _, _, root, _⟩ := shortest.path sound known
  exact (fits.fresh src root).trans (ssspStart_label.mpr ⟨rfl, rfl⟩)

theorem Shortest.reasonSteps (shortest : Shortest graph src distances pred)
    (root : parents graph pred src = none) {u : Nat} {k : ℚ}
    (step : ParentEdge (parents graph pred) u x k) : ∃ c ∈ graph.constraints, c.x = x ∧ c.y = u ∧
      k = c.effectiveBound graph.isInteger ∧ ∀ steps, Sparse.reasonSteps graph src pred (steps + 1) x =
        c.origin :: Sparse.reasonSteps graph src pred steps u := by
  have apart : x ≠ src := by
    rintro rfl
    exact nomatch root.symm.trans step
  obtain ⟨idx, c, pointer, found, same⟩ := parents_some step
  obtain ⟨rfl, rfl⟩ := Prod.mk.inj same
  obtain ⟨c', found', target⟩ := shortest.treed.recorded x idx pointer
  obtain rfl := some.inj (found.symm.trans found')
  refine ⟨c, mem_of_getElem? found, target, rfl, rfl, fun steps => ?_⟩
  rw [Sparse.reasonSteps, if_neg apart, pointer, bind_some, found]

end

section

variable {solver : DiffLogicSolver} {x y : Nat} {c : ℚ} {strict : Bool}

end

end Nixie.DiffLogic.Sparse
