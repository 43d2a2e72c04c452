import Mathlib.Algebra.BigOperators.Group.Finset.Piecewise
import Mathlib.Algebra.Order.BigOperators.Group.Finset
import Nixie.DiffLogic.Sparse.State
import Nixie.Graph.Walk

/-! The queue of a search: rounds, and how often nodes are put into it. -/

namespace Nixie.DiffLogic.Sparse

open List Function

def GraphEdge (graph : ConstraintGraph) (a b : Nat) (w : ℚ) : Prop :=
  ∃ edge ∈ graph.getEdges (.node a), edge.to_ = b ∧ edge.weight = w

/-- Edges are in the slot of their source, and connect existing nodes. -/
structure WellFormed (graph : ConstraintGraph) : Prop where
  anchors : ∀ edge ∈ graph.edges 0, edge.from_ = .source
  slots : ∀ id, ∀ edge ∈ graph.edges (id + 1),
    edge.from_ = .node id ∧ id < graph.numVars ∧ edge.to_ < graph.numVars

/-- Exactly the existing nodes have labels. -/
structure Labels (n : Nat) (dist : Nat → ℚ) (distances : Nat → Option ℚ) : Prop where
  known : ∀ v < n, distances v = some (dist v)
  beyond : ∀ v, n ≤ v → distances v = none

/--
The queue of a search in a round, after a number of nodes have left it.

Nodes that are in the queue at the beginning may not have been counted.
-/
structure Queued (n p : Nat) (cur next : List Nat) (head popped : Nat) (spfa : Spfa) : Prop where
  queue : spfa.queue = cur ++ next
  distinct : (cur ++ next).Nodup
  flags : ∀ v, spfa.inQueue v = true ↔ v ∈ cur ++ next
  inside : ∀ v ∈ cur ++ next, v < n
  rounds : ∀ v, spfa.count v ≤ p + 1 + if v ∈ next then 1 else 0
  few : ∀ v, spfa.count v ≤ n + 1
  tally : ∑ v ∈ Finset.range n, spfa.count v + head = popped + (cur ++ next).length

section

variable {n p u head popped : Nat} {cur next : List Nat} {spfa : Spfa} {edge : DiffEdge}

theorem Queued.setLabel (queued : Queued n p cur next head popped spfa) (newDist : ℚ) :
    Queued n p cur next head popped (spfa.setLabel edge newDist) :=
  { queued with }

theorem Queued.enqueue (queued : Queued n p cur next head popped spfa) {v : Nat} (lies : v < n)
    (absent : spfa.inQueue v = false) (few : ¬ n + 1 < (spfa.enqueue v).count v) :
    Queued n p cur (next ++ [v]) head popped (spfa.enqueue v) := by
  have outside : v ∉ cur ++ next := by
    intro mem
    rw [(queued.flags v).mpr mem] at absent
    cases absent
  have count : ∀ x, (spfa.enqueue v).count x = spfa.count x + if x = v then 1 else 0 := by
    intro x
    show update spfa.count v (spfa.count v + 1) x = _
    by_cases same : x = v
    · rw [same, update_self, if_pos rfl]
    · rw [update_of_ne same, if_neg same, Nat.add_zero]
  refine ⟨?_, ?_, ?_, ?_, ?_, ?_, ?_⟩
  · show spfa.queue ++ [v] = _
    rw [queued.queue, append_assoc]
  · -- The node was not in the queue.
    rw [← append_assoc]
    exact queued.distinct.append (nodup_singleton v) fun x old last =>
      outside (mem_singleton.mp last ▸ old)
  · intro x
    show update spfa.inQueue v true x = true ↔ _
    by_cases same : x = v
    · simp [same]
    · rw [update_of_ne same, queued.flags x]
      simp [same]
  · intro x mem
    rw [← append_assoc] at mem
    rcases mem_append.mp mem with old | last
    · exact queued.inside x old
    · exact mem_singleton.mp last ▸ lies
  · intro x
    have before := queued.rounds x
    have fresh : v ∉ next := fun mem => outside (mem_append_right _ mem)
    rw [count]
    by_cases same : x = v
    · -- Its first entry for the next round.
      subst same
      rw [if_neg fresh] at before
      simp only [if_true, mem_append, mem_singleton, or_true]
      omega
    · simpa [same] using before
  · intro x
    by_cases same : x = v
    · rw [same]
      exact not_lt.mp few
    · rw [count, if_neg same]
      exact queued.few x
  · have total := queued.tally
    simp only [count, Finset.sum_add_distrib, Finset.sum_ite_eq', Finset.mem_range, if_pos lies]
    simp only [length_append, length_singleton] at total ⊢
    omega

theorem Queued.pop (queued : Queued n p (u :: cur) next head popped spfa) :
    Queued n p cur next head (popped + 1)
      { spfa with queue := cur ++ next, inQueue := update spfa.inQueue u false } := by
  obtain ⟨fresh, distinct⟩ := nodup_cons.mp queued.distinct
  refine ⟨rfl, distinct, ?_, fun v mem => queued.inside v (.tail _ mem),
    queued.rounds, queued.few, ?_⟩
  · intro v
    show update spfa.inQueue u false v = true ↔ _
    by_cases same : v = u
    · -- It is not in the queue twice.
      rw [same, update_self]
      exact ⟨fun absurd_ => (nomatch absurd_), fun mem => absurd mem fresh⟩
    · rw [update_of_ne same, queued.flags v]
      exact ⟨fun mem => (mem_cons.mp mem).resolve_left same, .tail _⟩
  · have total := queued.tally
    rw [cons_append, length_cons] at total
    exact total.trans (by omega)

theorem Queued.turn (queued : Queued n p [] next head popped spfa) :
    Queued n (p + 1) next [] head popped spfa where
  queue := queued.queue.trans (append_nil _).symm
  distinct := by
    rw [append_nil]
    exact queued.distinct
  flags := by
    rw [append_nil]
    exact queued.flags
  inside := by
    rw [append_nil]
    exact queued.inside
  rounds := by
    -- The nodes of the next round were put into the queue once more.
    intro v
    have before := queued.rounds v
    rw [if_neg not_mem_nil]
    split at before
    · exact before
    · omega
  few := queued.few
  tally := by
    rw [append_nil]
    exact queued.tally

theorem Queued.popped_lt (queued : Queued n p cur next head popped spfa) :
    popped < Spfa.enough n + head := by
  -- All nodes together were put into the queue at most so often.
  have total : ∑ v ∈ Finset.range n, spfa.count v ≤ (Finset.range n).card • (n + 1) :=
    Finset.sum_le_card_nsmul _ _ _ fun v _ => queued.few v
  have tally := queued.tally
  rw [Finset.card_range, nsmul_eq_mul, Nat.cast_id] at total
  unfold Spfa.enough
  omega

theorem queued_start (n : Nat) : Queued n 0 (List.range n) [] 0 0 (Spfa.start n) := by
  constructor
  · exact (append_nil _).symm
  · rw [append_nil]
    exact nodup_range
  · intro v
    rw [append_nil, mem_range]
    exact decide_eq_true_iff
  · intro v mem
    rw [append_nil] at mem
    exact mem_range.mp mem
  · intro v
    show (if v < n then 1 else 0) ≤ 0 + 1 + _
    split <;> omega
  · intro v
    show (if v < n then 1 else 0) ≤ _
    split <;> omega
  · -- Every node was put into the queue once.
    rw [append_nil, length_range, Nat.zero_add]
    calc ∑ v ∈ Finset.range n, (if v < n then 1 else 0)
        = ∑ v ∈ Finset.range n, 1 :=
          Finset.sum_congr rfl fun v mem => if_pos (Finset.mem_range.mp mem)
      _ = n := by simp

theorem queued_single {src : Nat} (lies : src < n) (queue : spfa.queue = [src])
    (flags : ∀ v, spfa.inQueue v = decide (v = src)) (once : ∀ v, spfa.count v ≤ 1)
    (tally : ∑ v ∈ Finset.range n, spfa.count v + head = 1) : Queued n 0 [src] [] head 0 spfa where
  queue := queue
  distinct := nodup_singleton src
  flags := by simp [flags]
  inside := by simpa using lies
  rounds := by simpa using once
  few := fun v => (once v).trans (Nat.le_add_left 1 n)
  tally := tally

end

end Nixie.DiffLogic.Sparse

/-! The operations of the constraint graph keep the edges of its constraints. -/

namespace Nixie.DiffLogic.Sparse

open List Function

def edgeOf (isInteger : Bool) (idx : Nat) (constraint : DiffConstraint) : DiffEdge where
  from_ := .node constraint.y
  to_ := constraint.x
  weight := constraint.effectiveBound isInteger
  constraintIdx := idx
  strict := constraint.constraintType = .ltConst && !isInteger

/-- The slots of nodes have the edges of the constraints, in their order. -/
structure Indexed (graph : ConstraintGraph) : Prop where
  anchors : ∀ edge ∈ graph.edges 0, edge.from_ = .source
  edges : ∀ id edge, edge ∈ graph.edges (id + 1) ↔ ∃ idx c, graph.constraints[idx]? = some c ∧
    c.y = id ∧ edge = edgeOf graph.isInteger idx c
  sorted : ∀ id, (graph.edges (id + 1)).Pairwise fun a b => a.constraintIdx < b.constraintIdx

/-- Moreover, constraints are between existing nodes. -/
structure Consistent (graph : ConstraintGraph) : Prop extends Indexed graph where
  nodes : ∀ c ∈ graph.constraints, c.x < graph.numVars ∧ c.y < graph.numVars

def ConstraintGraph.clear (graph : ConstraintGraph) : ConstraintGraph :=
  { graph with
    constraints := []
    constraintMarks := [0]
    currentLevel := 0
    edges := fun slot => if slot = 0 then (graph.edges 0).take graph.numVars else [] }

/-- The graphs that the operations can build; constraints are between existing nodes. -/
inductive ConstraintGraph.Built : ConstraintGraph → Prop where
  | new (isInteger : Bool) : Built (.new isInteger)
  | node {graph : ConstraintGraph} (built : Built graph) (term : Nat) :
      Built (graph.getOrCreateVar term).1
  | constraint {graph : ConstraintGraph} (built : Built graph) (c : DiffConstraint)
      (x : c.x < graph.numVars) (y : c.y < graph.numVars) : Built (graph.addConstraint c).1
  | push {graph : ConstraintGraph} (built : Built graph) : Built graph.push
  | pop {graph : ConstraintGraph} (built : Built graph) (levels : Nat) : Built (graph.pop levels)
  | clear {graph : ConstraintGraph} (built : Built graph) : Built graph.clear

section

variable {graph : ConstraintGraph} {c : DiffConstraint}

theorem Indexed.graphEdge (indexed : Indexed graph) {a b : Nat} {w : ℚ} : GraphEdge graph a b w ↔
    ∃ c ∈ graph.constraints, c.y = a ∧ c.x = b ∧ c.effectiveBound graph.isInteger = w := by
  constructor
  · rintro ⟨edge, mem, rfl, rfl⟩
    obtain ⟨idx, c, found, source, rfl⟩ := (indexed.edges a edge).mp mem
    exact ⟨c, mem_of_getElem? found, source, rfl, rfl⟩
  · rintro ⟨c, mem, source, rfl, rfl⟩
    obtain ⟨idx, found⟩ := mem_iff_getElem?.mp mem
    exact ⟨edgeOf graph.isInteger idx c, (indexed.edges a _).mpr ⟨idx, c, found, source, rfl⟩, rfl, rfl⟩

theorem Consistent.wellFormed (consistent : Consistent graph) : WellFormed graph where
  anchors := consistent.anchors
  slots := by
    intro id edge mem
    obtain ⟨idx, c, found, source, rfl⟩ := (consistent.edges id edge).mp mem
    have nodes := consistent.nodes c (mem_of_getElem? found)
    exact ⟨congrArg DiffVar.node source, source ▸ nodes.2, nodes.1⟩

theorem indexed_new (isInteger : Bool) : Indexed (.new isInteger) where
  anchors := fun _ mem => nomatch mem
  edges := fun _ _ => ⟨fun mem => (nomatch mem), fun ⟨_, _, found, _⟩ => (nomatch found)⟩
  sorted := fun _ => .nil

theorem Indexed.getOrCreateVar (indexed : Indexed graph) (term : Nat) :
    Indexed (graph.getOrCreateVar term).1 := by
  unfold ConstraintGraph.getOrCreateVar
  split
  · exact indexed
  · refine ⟨fun edge mem => ?_, indexed.edges, indexed.sorted⟩
    -- The new edge is one of the virtual source.
    rcases mem_append.mp mem with old | last
    · exact indexed.anchors edge old
    · rw [mem_singleton.mp last]

theorem Indexed.addConstraint (indexed : Indexed graph) : Indexed (graph.addConstraint c).1 := by
  refine ⟨indexed.anchors, ?_, ?_⟩
  · intro id edge
    show edge ∈ update graph.edges (c.y + 1) (graph.edges (c.y + 1) ++
      [edgeOf graph.isInteger graph.constraints.length c]) (id + 1) ↔ ∃ idx c',
        (graph.constraints ++ [c])[idx]? = some c' ∧ c'.y = id ∧ edge = edgeOf graph.isInteger idx c'
    have split : (∃ idx c', (graph.constraints ++ [c])[idx]? = some c' ∧ c'.y = id ∧
          edge = edgeOf graph.isInteger idx c') ↔
        edge ∈ graph.edges (id + 1) ∨
          (c.y = id ∧ edge = edgeOf graph.isInteger graph.constraints.length c) := by
      rw [indexed.edges]
      constructor
      · rintro ⟨idx, c', found, source, rfl⟩
        rw [getElem?_append] at found
        split at found
        · exact .inl ⟨idx, c', found, source, rfl⟩
        · rename_i beyond
          rw [getElem?_singleton] at found
          split at found
          · cases found
            have here : idx = graph.constraints.length := by omega
            exact .inr ⟨source, by rw [here]⟩
          · cases found
      · rintro (⟨idx, c', found, source, rfl⟩ | ⟨source, rfl⟩)
        · exact ⟨idx, c', (List.getElem?_append_left (List.getElem?_eq_some_iff.mp found).1).trans
            found, source, rfl⟩
        · exact ⟨_, c, getElem?_concat_length, source, rfl⟩
    refine Iff.trans ?_ split.symm
    by_cases same : id = c.y
    · rw [same, update_self, mem_append, mem_singleton]
      exact ⟨Or.imp_right fun last => ⟨rfl, last⟩, Or.imp_right And.right⟩
    · have other : id + 1 ≠ c.y + 1 := fun slots => same (Nat.succ_injective slots)
      rw [update_of_ne other]
      exact ⟨.inl, fun either => either.resolve_right fun last => same last.1.symm⟩
  · intro id
    show (update graph.edges (c.y + 1) (graph.edges (c.y + 1) ++
      [edgeOf graph.isInteger graph.constraints.length c]) (id + 1)).Pairwise _
    by_cases same : id = c.y
    · rw [same, update_self]
      refine pairwise_append.mpr ⟨indexed.sorted c.y, pairwise_singleton _ _, ?_⟩
      intro edge mem last new_
      obtain ⟨idx, c', found, _, rfl⟩ := (indexed.edges c.y edge).mp mem
      rw [mem_singleton.mp new_]
      exact (List.getElem?_eq_some_iff.mp found).1
    · have other : id + 1 ≠ c.y + 1 := fun slots => same (Nat.succ_injective slots)
      rw [update_of_ne other]
      exact indexed.sorted id

theorem Indexed.pop_edges (indexed : Indexed graph) {count : Nat} (some_ : count ≠ 0) (id : Nat) :
    (graph.pop count).edges (id + 1) = (graph.edges (id + 1)).filter fun edge =>
      edge.constraintIdx < graph.constraintMarks.getD (graph.currentLevel - count) 0 := by
  have sorted := indexed.sorted id
  unfold ConstraintGraph.pop
  rw [if_neg some_]
  dsimp only
  rcases eq_nil_or_concat (graph.edges (id + 1)) with empty | ⟨front, last, same⟩
  · rw [empty]
    rfl
  · rw [concat_eq_append] at same
    rw [same, getLast?_concat]
    dsimp only
    split
    · rfl
    · -- The last edge is kept, and so are those in front of it.
      rename_i below
      rw [same] at sorted
      refine (filter_eq_self.mpr fun edge mem => ?_).symm
      refine decide_eq_true ?_
      have before := (pairwise_append.mp sorted).2.2
      rcases mem_append.mp mem with earlier | here
      · exact (before edge earlier last (.head _)).trans (not_le.mp below)
      · rw [mem_singleton.mp here]
        exact not_le.mp below

theorem Indexed.pop (indexed : Indexed graph) (count : Nat) : Indexed (graph.pop count) := by
  by_cases none_ : count = 0
  · subst none_
    exact indexed
  have fields : (graph.pop count).isInteger = graph.isInteger ∧ (graph.pop count).constraints =
      graph.constraints.take (graph.constraintMarks.getD (graph.currentLevel - count) 0) := by
    unfold ConstraintGraph.pop
    rw [if_neg none_]
    exact ⟨rfl, rfl⟩
  have slots := indexed.pop_edges none_
  generalize graph.constraintMarks.getD (graph.currentLevel - count) 0 = keep at fields slots
  refine ⟨?_, ?_, ?_⟩
  · intro edge lies
    unfold ConstraintGraph.pop at lies
    rw [if_neg none_] at lies
    dsimp only at lies
    -- Edges of the virtual source may be dropped as well.
    split at lies
    · exact indexed.anchors edge lies
    · split at lies
      · exact indexed.anchors edge (mem_of_mem_filter lies)
      · exact indexed.anchors edge lies
  · intro id edge
    rw [slots, mem_filter, indexed.edges, fields.1, fields.2]
    constructor
    · rintro ⟨⟨idx, c, found, source, rfl⟩, below⟩
      refine ⟨idx, c, ?_, source, rfl⟩
      have early : idx < keep := of_decide_eq_true below
      rw [getElem?_take_of_lt early]
      exact found
    · rintro ⟨idx, c, found, source, rfl⟩
      rw [getElem?_take] at found
      split at found
      · rename_i below
        exact ⟨⟨idx, c, found, source, rfl⟩, decide_eq_true below⟩
      · cases found
  · intro id
    rw [slots]
    exact (indexed.sorted id).sublist filter_sublist

theorem ConstraintGraph.Built.consistent (built : graph.Built) : Consistent graph := by
  -- By induction on the operations.
  induction built with
  | new isInteger => exact ⟨indexed_new isInteger, fun _ mem => nomatch mem⟩
  | @node graph _ term ih =>
    refine ⟨ih.toIndexed.getOrCreateVar term, ?_⟩
    unfold ConstraintGraph.getOrCreateVar
    split
    · exact ih.nodes
    · exact fun c mem => ⟨(ih.nodes c mem).1.trans (Nat.lt_succ_self _),
        (ih.nodes c mem).2.trans (Nat.lt_succ_self _)⟩
  | constraint _ c x y ih =>
    refine ⟨ih.toIndexed.addConstraint, fun c' mem => ?_⟩
    rcases mem_append.mp mem with old | last
    · exact ih.nodes c' old
    · rw [mem_singleton.mp last]
      exact ⟨x, y⟩
  | push _ ih => exact ⟨{ ih with }, ih.nodes⟩
  | @pop graph _ levels ih =>
    refine ⟨ih.toIndexed.pop levels, ?_⟩
    unfold ConstraintGraph.pop
    split
    · exact ih.nodes
    · exact fun c mem => ih.nodes c (mem_of_mem_take mem)
  | clear _ ih =>
    refine ⟨⟨fun edge mem => ih.anchors edge (mem_of_mem_take mem), ?_, fun _ => .nil⟩,
      fun _ mem => nomatch mem⟩
    exact fun _ _ => ⟨fun mem => (nomatch mem), fun ⟨_, _, found, _⟩ => (nomatch found)⟩

end

end Nixie.DiffLogic.Sparse
