import Nixie.DiffLogic.Sparse.Predecessors

/-! The search in passes over all edges finds a negative cycle exactly when there is one. -/

namespace Nixie.DiffLogic.Sparse

open Nixie.Graph List Function Option Nat

section

variable {graph : ConstraintGraph} {init : Nat → Option ℚ} {p : Nat} {rank : Nat → Nat}
  {bf : BellmanFord} {edge : DiffEdge} {rest : List DiffEdge} {changed : Bool}

theorem mem_allEdges (consistent : Consistent graph) : edge ∈ graph.allEdges ↔ edge ∈ graph.edges 0 ∨
    ∃ idx c, graph.constraints[idx]? = some c ∧ edge = edgeOf graph.isInteger idx c := by
  unfold ConstraintGraph.allEdges
  rw [mem_flatMap]
  constructor
  · rintro ⟨slot, _, mem⟩
    cases slot with
    | zero => exact .inl mem
    | succ id =>
      obtain ⟨idx, c, found, _, same⟩ := (consistent.edges id edge).mp mem
      exact .inr ⟨idx, c, found, same⟩
  · rintro (mem | ⟨idx, c, found, rfl⟩)
    · exact ⟨0, mem_range.mpr (succ_pos _), mem⟩
    · -- The slot of a constraint is that of an existing node.
      have nodes := consistent.nodes c (mem_of_getElem? found)
      exact ⟨c.y + 1, mem_range.mpr (succ_lt_succ nodes.2),
        (consistent.edges c.y _).mpr ⟨idx, c, found, rfl, rfl⟩⟩

/-- A constraint does not lower a label. -/
def Relaxed (isInteger : Bool) (distances : Nat → Option ℚ) (c : DiffConstraint) : Prop :=
  ∀ d, distances c.y = some d → ∃ e, distances c.x = some e ∧ e ≤ d + c.effectiveBound isInteger

/-- In a pass, only nodes whose labels sank lately have edges that are not relaxed. -/
structure Passing (graph : ConstraintGraph) (init : Nat → Option ℚ) (p : Nat) (rest : List DiffEdge)
    (state : BellmanFord × Bool) (rank : Nat → Nat) : Prop where
  treed : Treed graph init state.1.distances state.1.parentEdge
  ranked : Ranked (parents graph state.1.parentEdge) rank
  low : ∀ v, rank v ≤ p + 1
  quiet : state.2 = false → ∀ v, rank v ≤ p
  late : ∀ idx c, graph.constraints[idx]? = some c → Relaxed graph.isInteger state.1.distances c ∨
    p + (if edgeOf graph.isInteger idx c ∈ rest then 0 else 1) ≤ rank c.y

theorem Passing.relax (passing : Passing graph init p (edge :: rest) (bf, changed) rank)
    (consistent : Consistent graph) (mem : edge ∈ graph.allEdges) :
    ∃ rank', Passing graph init p rest (BellmanFord.relax (bf, changed) edge) rank' := by
  -- Every other edge is in the rest if it was before.
  have keep : ∀ {idx c r}, edgeOf graph.isInteger idx c ≠ edge →
      p + (if edgeOf graph.isInteger idx c ∈ edge :: rest then 0 else 1) ≤ r →
        p + (if edgeOf graph.isInteger idx c ∈ rest then 0 else 1) ≤ r := by
    intro idx c r other bound
    simpa only [mem_cons, or_iff_right other] using bound
  rcases (mem_allEdges consistent).mp mem with anchor | ⟨idx, c, found, rfl⟩
  · have leaves := consistent.anchors edge anchor
    unfold BellmanFord.relax
    rw [leaves]
    refine ⟨rank, passing.treed, passing.ranked, passing.low, passing.quiet, fun idx c found => ?_⟩
    refine (passing.late idx c found).imp_right (keep ?_)
    rintro rfl
    cases leaves
  · -- If the edge does not lower a label, it is relaxed.
    have same : Relaxed graph.isInteger bf.distances c →
        Passing graph init p rest (bf, changed) rank := by
      intro relaxed
      refine ⟨passing.treed, passing.ranked, passing.low, passing.quiet, fun idx' c' found' => ?_⟩
      by_cases here : edgeOf graph.isInteger idx' c' = edgeOf graph.isInteger idx c
      · obtain rfl : idx' = idx := congrArg DiffEdge.constraintIdx here
        obtain rfl := some.inj (found'.symm.trans found)
        exact .inl relaxed
      · exact (passing.late idx' c' found').imp_right (keep here)
    unfold BellmanFord.relax
    dsimp only [edgeOf]
    cases source : bf.distances c.y with
    | none =>
      exact ⟨rank, same fun d known => absurd (known.symm.trans source) (some_ne_none d)⟩
    | some d =>
      show ∃ rank', Passing graph init p rest
        (if improves (d + c.effectiveBound graph.isInteger) (bf.distances c.x) = true then
          ({ distances := update bf.distances c.x (some (d + c.effectiveBound graph.isInteger))
             parentEdge := update bf.parentEdge c.x (some idx) }, true)
        else (bf, changed)) rank'
      by_cases light : improves (d + c.effectiveBound graph.isInteger) (bf.distances c.x) = true
      · rw [if_pos light]
        -- The edge was not relaxed, so its source has a label of the last pass.
        have sinks : ∀ e, bf.distances c.x = some e → d + c.effectiveBound graph.isInteger < e := by
          intro e known
          rw [known] at light
          exact of_decide_eq_true light
        have high : p ≤ rank c.y := by
          rcases passing.late idx c found with relaxed | bound
          · obtain ⟨e, known, below⟩ := relaxed d source
            exact absurd (sinks e known) (not_lt.mpr below)
          · exact (le_add_right _ _).trans bound
        have ranked := passing.ranked.update (w := c.effectiveBound graph.isInteger) (passing.low c.x)
          (succ_le_succ high)
        rw [← parents_update found] at ranked
        refine ⟨update rank c.x (p + 1), passing.treed.update consistent.toIndexed found
          source le_rfl light, ranked, fun v => ?_, fun none_ => absurd none_.symm Bool.false_ne_true,
          fun idx' c' found' => ?_⟩
        · by_cases target : v = c.x
          · simp [target]
          · rw [update_of_ne target]
            exact passing.low v
        · by_cases leaves : c'.y = c.x
          · rw [leaves, update_self]
            right
            split <;> omega
          · rw [update_of_ne leaves]
            -- The labels of targets only sink.
            have lower : Relaxed graph.isInteger bf.distances c' → Relaxed graph.isInteger
                (update bf.distances c.x (some (d + c.effectiveBound graph.isInteger))) c' := by
              intro relaxed d' known
              rw [update_of_ne leaves] at known
              obtain ⟨e, target, below⟩ := relaxed d' known
              by_cases here : c'.x = c.x
              · exact ⟨_, here ▸ update_self .., (sinks e (here ▸ target)).le.trans below⟩
              · exact ⟨e, (update_of_ne here ..).trans target, below⟩
            by_cases here : edgeOf graph.isInteger idx' c' = edgeOf graph.isInteger idx c
            · obtain rfl : idx' = idx := congrArg DiffEdge.constraintIdx here
              obtain rfl := some.inj (found'.symm.trans found)
              refine .inl fun d' known => ⟨_, update_self .., ?_⟩
              obtain rfl := some.inj (source.symm.trans
                ((update_of_ne leaves ..).symm.trans known))
              exact le_rfl
            · exact (passing.late idx' c' found').imp lower (keep here)
      · rw [if_neg light]
        refine ⟨rank, same fun d' known => ?_⟩
        obtain rfl := some.inj (source.symm.trans known)
        exact not_improves light

theorem passes_spec (consistent : Consistent graph) : ∀ {count p : Nat} {bf : BellmanFord}
    {rank : Nat → Nat}, Treed graph init bf.distances bf.parentEdge →
      Ranked (parents graph bf.parentEdge) rank → (∀ v, rank v ≤ p) →
      (∀ c ∈ graph.constraints, Relaxed graph.isInteger bf.distances c ∨ p ≤ rank c.y) →
      let last := BellmanFord.passes graph.allEdges count bf
      ∃ rank', Treed graph init last.distances last.parentEdge ∧
        Ranked (parents graph last.parentEdge) rank' ∧ (∀ v, rank' v ≤ p + count) ∧
        ∀ c ∈ graph.constraints, Relaxed graph.isInteger last.distances c ∨ p + count ≤ rank' c.y := by
  -- The edges of a pass, one after the other.
  have pass : ∀ {edges : List DiffEdge} {p : Nat} {state : BellmanFord × Bool} {rank : Nat → Nat},
      edges ⊆ graph.allEdges → Passing graph init p edges state rank →
        ∃ rank', Passing graph init p [] (edges.foldl BellmanFord.relax state) rank' := by
    intro edges
    induction edges with
    | nil => exact fun _ passing => ⟨_, passing⟩
    | cons edge rest ih =>
      intro p state rank own passing
      obtain ⟨first, later⟩ := cons_subset.mp own
      obtain ⟨rank', passing'⟩ := passing.relax consistent first
      exact ih later passing'
  intro count
  induction count with
  | zero => exact fun treed ranked low late => ⟨_, treed, ranked, low, late⟩
  | succ count ih =>
    intro p bf rank treed ranked low late
    obtain ⟨rank', passing⟩ := @pass graph.allEdges p (bf, false) rank (List.Subset.refl _)
      ⟨treed, ranked, fun v => (low v).trans (le_succ p), fun _ => low, fun idx c found => by
        rw [if_pos ((mem_allEdges consistent).mpr (.inr ⟨idx, c, found, rfl⟩))]
        exact late c (mem_of_getElem? found)⟩
    have late' : ∀ c ∈ graph.constraints, Relaxed graph.isInteger
        (graph.allEdges.foldl BellmanFord.relax (bf, false)).1.distances c ∨ p + 1 ≤ rank' c.y := by
      intro c mem
      obtain ⟨idx, found⟩ := mem_iff_getElem?.mp mem
      simpa using passing.late idx c found
    unfold BellmanFord.passes
    dsimp only
    split
    · have next := ih passing.treed passing.ranked passing.low late'
      rwa [add_assoc, add_comm 1] at next
    · -- Nothing changed in the pass, so all edges are relaxed.
      rename_i still
      have quiet := passing.quiet (Bool.eq_false_iff.mpr still)
      refine ⟨rank', passing.treed, passing.ranked, fun v => (quiet v).trans (le_add_right _ _),
        fun c mem => .inl ((late' c mem).resolve_right fun high => ?_)⟩
      exact absurd (high.trans (quiet c.y)) (not_succ_le_self p)

theorem tense_spec (consistent : Consistent graph) (mem : edge ∈ graph.allEdges)
    (tense : bf.tense edge = true) : ∃ idx c d e, graph.constraints[idx]? = some c ∧
      edge = edgeOf graph.isInteger idx c ∧ bf.distances c.y = some d ∧ bf.distances c.x = some e ∧
      d + c.effectiveBound graph.isInteger < e := by
  unfold BellmanFord.tense at tense
  rcases (mem_allEdges consistent).mp mem with anchor | ⟨idx, c, found, rfl⟩
  · rw [consistent.anchors edge anchor] at tense
    cases tense
  · simp only [edgeOf] at tense
    split at tense
    · rename_i d e source target
      exact ⟨idx, c, d, e, found, rfl, source, target, of_decide_eq_true tense⟩
    · cases tense

theorem BellmanFord.run_tree (consistent : Consistent graph) :
    let last := passes graph.allEdges (graph.numVars - 1) (start graph.numVars)
    ∃ rank, Treed graph (start graph.numVars).distances last.distances last.parentEdge ∧
      Ranked (parents graph last.parentEdge) rank ∧ (∀ v, rank v ≤ graph.numVars - 1) ∧
      ∀ c ∈ graph.constraints, Relaxed graph.isInteger last.distances c ∨
        graph.numVars - 1 ≤ rank c.y := by
  have begin_ := @passes_spec graph (start graph.numVars).distances consistent (graph.numVars - 1) 0
    (start graph.numVars) (fun _ => 0) treed_start
    ⟨fun _ _ _ _ => zero_le _, fun _ high => absurd high (lt_irrefl 0)⟩ (fun _ => le_rfl)
    fun _ _ => .inr le_rfl
  rwa [zero_add] at begin_

theorem BellmanFord.run_spec (consistent : Consistent graph) :
    (∃ edges weight, BellmanFord.run graph = .negativeCycle edges weight ∧
      ¬ NoNegativeCycle (GraphEdge graph)) ∨
    ∃ distances dist, BellmanFord.run graph = .distances distances ∧
      Labels graph.numVars dist distances ∧ Potential (GraphEdge graph) dist := by
  have labels : Labels graph.numVars (fun _ => 0) (start graph.numVars).distances :=
    ⟨fun v below => if_pos below, fun v above => if_neg (not_lt.mpr above)⟩
  obtain ⟨rank, treed, ranked, low, late⟩ := run_tree consistent
  unfold BellmanFord.run
  dsimp only
  generalize passes graph.allEdges (graph.numVars - 1) (start graph.numVars) = bf at *
  cases found : graph.allEdges.find? bf.tense with
  | none =>
    -- No edge lowers a label.
    refine .inr ⟨_, _, rfl, treed.labels consistent labels,
      treed.potential consistent labels fun x d known v w step => ?_⟩
    obtain ⟨c, mem, rfl, rfl, rfl⟩ := consistent.graphEdge.mp step
    obtain ⟨idx, place⟩ := mem_iff_getElem?.mp mem
    have relaxed := find?_eq_none.mp found _
      ((mem_allEdges consistent).mpr (.inr ⟨idx, c, place, rfl⟩))
    have target := (treed.labels consistent labels).known c.x (consistent.nodes c mem).1
    refine ⟨_, target, not_lt.mp fun light => relaxed ?_⟩
    unfold tense
    dsimp only [edgeOf]
    rw [known, target]
    exact decide_eq_true light
  | some edge =>
    left
    have negative : ¬ NoNegativeCycle (GraphEdge graph) := by
      obtain ⟨idx, c, d, e, place, rfl, source, target, light⟩ :=
        tense_spec consistent (mem_of_find?_eq_some found) (find?_some found)
      have nodes := consistent.nodes c (mem_of_getElem? place)
      have high : graph.numVars - 1 ≤ rank c.y := by
        refine (late c (mem_of_getElem? place)).resolve_left fun relaxed => ?_
        obtain ⟨e', target', below⟩ := relaxed d source
        obtain rfl := some.inj (target.symm.trans target')
        exact absurd light (not_lt.mpr below)
      -- With this edge there is a chain of parents through more nodes than there are.
      have lower : improves (d + c.effectiveBound graph.isInteger) (bf.distances c.x) = true := by
        rw [target]
        exact decide_eq_true light
      have treed' := treed.update consistent.toIndexed place source le_rfl lower
      have ranked' := ranked.update (w := c.effectiveBound graph.isInteger)
        ((low c.x).trans (Nat.sub_le _ 1)) (Nat.sub_le_iff_le_add.mp high)
      rw [← parents_update place] at ranked'
      have top : graph.numVars ≤ update rank c.x graph.numVars c.x := by simp
      obtain ⟨a, vertices, w, walk, length⟩ := ranked'.chain top
      exact treed'.negative consistent walk length.ge nodes.1
    dsimp only
    unfold extractNegativeCycle
    dsimp only
    split
    · exact ⟨_, _, rfl, negative⟩
    · exact ⟨_, _, rfl, negative⟩

end

end Nixie.DiffLogic.Sparse
