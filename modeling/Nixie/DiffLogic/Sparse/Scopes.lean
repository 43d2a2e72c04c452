import Nixie.DiffLogic.Sparse.Difference
import Nixie.DiffLogic.Sparse.Spfa

/-! The constraint graph over levels: its edges are those of the constraints of open levels. -/

namespace Nixie.DiffLogic.Sparse

open List Function

/-- A constraint that contradicts itself is reported, and is not put into the graph. -/
def Difference.contradictory (d : Difference) : Bool := d.x = d.y ∧ d.bound < 0

def stored (live : List Difference) : List Difference := live.filter fun d => !d.contradictory

/-- A constraint between nodes stands for one between their terms. -/
structure Names (graph : ConstraintGraph) (c : DiffConstraint) (d : Difference) : Prop where
  x : graph.varToNode d.x = some c.x
  y : graph.varToNode d.y = some c.y
  bound : c.bound = d.bound
  constraintType : c.constraintType = d.constraintType

/-- The first constraints are those that were live at a level. -/
def Level (graph : ConstraintGraph) (mark : Nat) (live : List Difference) : Prop :=
  mark ≤ graph.constraints.length ∧
    List.Forall₂ (Names graph) (graph.constraints.take mark) (stored live)

/-- The graph has the constraints of the open levels, the innermost level first. -/
structure Tracks (graph : ConstraintGraph) (levels : List (List Difference)) : Prop where
  anchors : ∀ edge ∈ graph.edges 0, edge.from_ = .source
  named : ∀ t v, graph.varToNode t = some v → v < graph.numVars
  injective : ∀ s t v, graph.varToNode s = some v → graph.varToNode t = some v → s = t
  edges : ∀ id edge, edge ∈ graph.edges (id + 1) ↔ ∃ idx c, graph.constraints[idx]? = some c ∧
    c.y = id ∧ edge = edgeOf graph.isInteger idx c
  sorted : ∀ id, (graph.edges (id + 1)).Pairwise fun a b => a.constraintIdx < b.constraintIdx
  count : graph.constraintMarks.length = graph.currentLevel + 1
  marks : List.Forall₂ (Level graph) graph.constraintMarks.reverse levels
  order : graph.constraintMarks.reverse.Pairwise fun inner outer => outer ≤ inner
  whole : graph.constraintMarks.reverse.head? = some graph.constraints.length

section

variable {graph : ConstraintGraph} {live : List Difference} {older levels : List (List Difference)}
  {c : DiffConstraint} {d : Difference}

theorem Tracks.all (tracks : Tracks graph (live :: older)) :
    List.Forall₂ (Names graph) graph.constraints (stored live) := by
  have marks := tracks.marks
  have whole := tracks.whole
  cases reversed : graph.constraintMarks.reverse with
  | nil =>
    rw [reversed] at marks
    cases marks
  | cons mark rest =>
    rw [reversed] at marks whole
    cases marks with
    | cons level _ =>
      rw [head?_cons, Option.some_inj] at whole
      obtain ⟨_, names⟩ := level
      rwa [whole, take_length] at names

theorem Tracks.mark_le (tracks : Tracks graph levels) {mark : Nat}
    (mem : mark ∈ graph.constraintMarks.reverse) : mark ≤ graph.constraints.length := by
  have marks := tracks.marks
  clear tracks
  generalize graph.constraintMarks.reverse = reversed at marks mem
  induction marks with
  | nil => cases mem
  | cons level _ ih =>
    rcases mem_cons.mp mem with rfl | outer
    · exact level.1
    · exact ih outer

theorem Tracks.exists_live (tracks : Tracks graph (live :: older)) (mem : c ∈ graph.constraints) :
    ∃ d ∈ stored live, Names graph c d := by
  obtain ⟨i, lies, rfl⟩ := mem_iff_getElem.mp mem
  have bound : i < (stored live).length := tracks.all.length_eq ▸ lies
  exact ⟨_, getElem_mem bound, tracks.all.get lies bound⟩

theorem Tracks.exists_constraint (tracks : Tracks graph (live :: older)) (mem : d ∈ stored live) :
    ∃ c ∈ graph.constraints, Names graph c d := by
  obtain ⟨i, lies, rfl⟩ := mem_iff_getElem.mp mem
  have bound : i < graph.constraints.length := tracks.all.length_eq ▸ lies
  exact ⟨_, getElem_mem bound, tracks.all.get bound lies⟩

theorem Tracks.indexed (tracks : Tracks graph levels) : Indexed graph :=
  { tracks with }

theorem Tracks.consistent (tracks : Tracks graph (live :: older)) : Consistent graph := by
  refine ⟨tracks.indexed, fun c mem => ?_⟩
  -- The nodes of a constraint are those of terms.
  obtain ⟨d, _, names⟩ := tracks.exists_live mem
  exact ⟨tracks.named d.x c.x names.x, tracks.named d.y c.y names.y⟩

theorem tracks_new (isInteger : Bool) : Tracks (.new isInteger) [[]] where
  anchors := (indexed_new isInteger).anchors
  named := fun _ _ found => nomatch found
  injective := fun _ _ _ found => nomatch found
  edges := (indexed_new isInteger).edges
  sorted := (indexed_new isInteger).sorted
  count := rfl
  marks := .cons ⟨le_rfl, .nil⟩ .nil
  order := pairwise_singleton _ _
  whole := rfl

theorem Level.mono {graph' : ConstraintGraph} {mark : Nat} (level : Level graph mark live)
    (same : graph'.constraints = graph.constraints)
    (more : ∀ t v, graph.varToNode t = some v → graph'.varToNode t = some v) :
    Level graph' mark live := by
  unfold Level
  rw [same]
  exact ⟨level.1, level.2.imp fun _ _ names =>
    ⟨more _ _ names.x, more _ _ names.y, names.bound, names.constraintType⟩⟩

theorem getOrCreateVar_spec (tracks : Tracks graph levels) (term : Nat) :
    let next := graph.getOrCreateVar term
    Tracks next.1 levels ∧ next.1.varToNode term = some next.2 ∧
      (∀ t v, graph.varToNode t = some v → next.1.varToNode t = some v) ∧
      (next.2 < graph.numVars → next.1 = graph) ∧ next.1.isInteger = graph.isInteger := by
  unfold ConstraintGraph.getOrCreateVar
  cases found : graph.varToNode term with
  | some v => exact ⟨tracks, found, fun _ _ old => old, fun _ => rfl, rfl⟩
  | none =>
    dsimp only
    -- The nodes of the other terms stay.
    have keeps : ∀ t v, graph.varToNode t = some v →
        update graph.varToNode term (some graph.numVars) t = some v := by
      intro t v old
      have apart : t ≠ term := by
        rintro rfl
        rw [found] at old
        cases old
      rwa [update_of_ne apart]
    have anchors := (tracks.indexed.getOrCreateVar term).anchors
    simp only [ConstraintGraph.getOrCreateVar, found] at anchors
    refine ⟨⟨anchors, ?_, ?_, tracks.edges, tracks.sorted, tracks.count, ?_, tracks.order, tracks.whole⟩,
      ?_, keeps, fun old => absurd old (lt_irrefl _), rfl⟩
    · intro t v known
      dsimp only at known
      by_cases same : t = term
      · rw [same, update_self] at known
        cases known
        exact Nat.lt_succ_self _
      · rw [update_of_ne same] at known
        exact Nat.lt_succ_of_lt (tracks.named t v known)
    · -- The new node is beyond the others.
      intro s t v first second
      dsimp only at first second
      by_cases here : s = term
      · by_cases there : t = term
        · rw [here, there]
        · rw [here, update_self] at first
          cases first
          rw [update_of_ne there] at second
          exact absurd (tracks.named t _ second) (lt_irrefl _)
      · rw [update_of_ne here] at first
        by_cases there : t = term
        · rw [there, update_self] at second
          cases second
          exact absurd (tracks.named s _ first) (lt_irrefl _)
        · rw [update_of_ne there] at second
          exact tracks.injective s t v first second
    · exact tracks.marks.imp fun _ _ level => level.mono rfl keeps
    · exact update_self _ _ _

theorem reverse_set_last {marks : List Nat} {last : Nat} (count : marks.length = last + 1)
    (value : Nat) : (marks.set last value).reverse = value :: marks.reverse.tail := by
  rcases eq_nil_or_concat marks with rfl | ⟨front, x, rfl⟩
  · cases count
  · rw [length_concat, Nat.add_right_cancel_iff] at count
    subst count
    simp

theorem addConstraint_spec (tracks : Tracks graph (live :: older)) (names : Names graph c d)
    (kept : d.contradictory = false) :
    Tracks (graph.addConstraint c).1 ((live ++ [d]) :: older) ∧ ∀ a b w,
      GraphEdge (graph.addConstraint c).1 a b w ↔ GraphEdge graph a b w ∨
        (c.y = a ∧ c.x = b ∧ c.effectiveBound graph.isInteger = w) := by
  have marks := tracks.marks
  have all : List.Forall₂ (Names (graph.addConstraint c).1) graph.constraints (stored live) :=
    tracks.all.imp fun _ _ names => { names with }
  have names : Names (graph.addConstraint c).1 c d :=
    { names with }
  -- There is a mark for the level already, and it becomes the new number of constraints.
  have reversed : (graph.addConstraint c).1.constraintMarks.reverse =
      (graph.constraints.length + 1) :: graph.constraintMarks.reverse.tail := by
    show ((graph.constraintMarks ++ replicate (graph.currentLevel + 1 -
      graph.constraintMarks.length) graph.constraints.length).set graph.currentLevel _).reverse = _
    rw [tracks.count, Nat.sub_self, replicate_zero, append_nil]
    exact reverse_set_last tracks.count _
  have grown : (graph.addConstraint c).1.constraints = graph.constraints ++ [c] := rfl
  have length : (graph.constraints ++ [c]).length = graph.constraints.length + 1 := by
    rw [length_append, length_singleton]
  have tracks' : Tracks (graph.addConstraint c).1 ((live ++ [d]) :: older) := by
    have indexed := @Indexed.addConstraint _ c tracks.indexed
    refine ⟨indexed.anchors, tracks.named, tracks.injective, indexed.edges, indexed.sorted,
      ?_, ?_, ?_, ?_⟩
    · have count := congrArg List.length reversed
      rw [length_reverse, length_cons, length_tail, length_reverse, tracks.count] at count
      exact count
    · rw [reversed]
      cases whole : graph.constraintMarks.reverse with
      | nil =>
        rw [whole] at marks
        cases marks
      | cons mark rest =>
        rw [whole] at marks
        cases marks with
        | cons _ outer =>
          refine .cons ⟨length.ge, ?_⟩ (outer.imp fun _ _ level => ?_)
          · -- All constraints and the new one.
            rw [grown, ← length, take_length]
            unfold stored
            rw [filter_append, filter_cons_of_pos (by rw [kept]; rfl), filter_nil]
            exact rel_append all (.cons names .nil)
          · refine ⟨level.1.trans ?_, ?_⟩
            · rw [grown, length]
              exact Nat.le_succ _
            · rw [grown, take_append_of_le_length level.1]
              exact level.2.imp fun _ _ names =>
                { names with }
    · -- The new number of constraints is above every mark.
      rw [reversed]
      refine pairwise_cons.mpr ⟨fun mark mem => ?_, tracks.order.sublist (tail_sublist _)⟩
      exact (tracks.mark_le (mem_of_mem_tail mem)).trans (Nat.le_succ _)
    · rw [reversed, head?_cons, grown, length]
  refine ⟨tracks', fun a b w => ?_⟩
  rw [tracks'.indexed.graphEdge, tracks.indexed.graphEdge, grown]
  constructor
  · rintro ⟨c', mem, ends⟩
    rcases mem_append.mp mem with old | last
    · exact .inl ⟨c', old, ends⟩
    · exact .inr (mem_singleton.mp last ▸ ends)
  · rintro (⟨c', old, ends⟩ | ends)
    · exact ⟨c', mem_append_left _ old, ends⟩
    · exact ⟨c, mem_append_right _ (.head _), ends⟩

theorem Tracks.contradictory (tracks : Tracks graph (live :: older))
    (left : d.contradictory = true) : Tracks graph ((live ++ [d]) :: older) := by
  have same : stored (live ++ [d]) = stored live := by
    unfold stored
    rw [filter_append, filter_cons_of_neg (by rw [left]; exact Bool.false_ne_true),
      filter_nil, append_nil]
  refine ⟨tracks.anchors, tracks.named, tracks.injective, tracks.edges, tracks.sorted, tracks.count,
    ?_, tracks.order, tracks.whole⟩
  have marks := tracks.marks
  cases reversed : graph.constraintMarks.reverse with
  | nil =>
    rw [reversed] at marks
    cases marks
  | cons mark rest =>
    rw [reversed] at marks
    cases marks with
    | cons level outer =>
      refine .cons ⟨level.1, ?_⟩ outer
      rw [same]
      exact level.2

theorem Tracks.push (tracks : Tracks graph (live :: older)) :
    Tracks graph.push (live :: live :: older) := by
  have reversed : graph.push.constraintMarks.reverse =
      graph.constraints.length :: graph.constraintMarks.reverse := by
    show (graph.constraintMarks ++ [graph.constraints.length]).reverse = _
    rw [reverse_append]
    rfl
  refine ⟨tracks.anchors, tracks.named, tracks.injective, tracks.edges, tracks.sorted, ?_, ?_, ?_, ?_⟩
  · show (graph.constraintMarks ++ [graph.constraints.length]).length = graph.currentLevel + 1 + 1
    rw [length_append, tracks.count]
    rfl
  · rw [reversed]
    refine .cons ⟨le_rfl, ?_⟩ (tracks.marks.imp fun _ _ level => level.mono rfl fun _ _ same => same)
    rw [show graph.push.constraints = graph.constraints from rfl, take_length]
    exact tracks.all.imp fun _ _ names => { names with }
  · rw [reversed]
    exact pairwise_cons.mpr ⟨fun mark mem => tracks.mark_le mem, tracks.order⟩
  · rw [reversed]
    rfl

theorem Tracks.pop (tracks : Tracks graph levels) (count : Nat) :
    Tracks (graph.pop count) (levels.drop (min count (levels.length - 1))) := by
  by_cases none_ : count = 0
  · subst none_
    rw [Nat.zero_min, drop_zero]
    exact tracks
  have length : levels.length = graph.currentLevel + 1 := by
    rw [← tracks.marks.length_eq, length_reverse, tracks.count]
  have depth : min count (levels.length - 1) = min count graph.currentLevel := by
    rw [length, Nat.add_sub_cancel]
  rw [depth]
  generalize closed : min count graph.currentLevel = k
  have target : graph.currentLevel - count = graph.currentLevel - k := by omega
  have few : k ≤ graph.currentLevel := by omega
  obtain ⟨keep, keeps⟩ : ∃ keep, graph.constraintMarks[graph.currentLevel - k]? = some keep :=
    ⟨_, getElem?_eq_getElem (by rw [tracks.count]; omega)⟩
  -- The outer marks, of which the first says how many constraints stay.
  have outer : (graph.pop count).constraintMarks.reverse = graph.constraintMarks.reverse.drop k := by
    unfold ConstraintGraph.pop
    rw [if_neg none_]
    show (graph.constraintMarks.take (graph.currentLevel - count + 1)).reverse = _
    rw [reverse_take, tracks.count, target]
    exact congrArg (drop · _) (by omega)
  have first : (graph.constraintMarks.reverse.drop k).head? = some keep := by
    rw [head?_drop, getElem?_reverse (by rw [tracks.count]; omega), ← keeps, tracks.count]
    exact congrArg (graph.constraintMarks[·]?) (by omega)
  have shorter : (graph.pop count).constraints = graph.constraints.take keep := by
    unfold ConstraintGraph.pop
    rw [if_neg none_]
    show graph.constraints.take (graph.constraintMarks.getD (graph.currentLevel - count) 0) = _
    rw [target, getD_eq_getElem?_getD, keeps]
    rfl
  have mem : keep ∈ graph.constraintMarks.reverse := by
    have lies := mem_of_getElem? keeps
    exact mem_reverse.mpr lies
  have bound := tracks.mark_le mem
  have order := tracks.order.sublist (drop_sublist k _)
  have marks := forall₂_drop k tracks.marks
  have fields : (graph.pop count).varToNode = graph.varToNode ∧
      (graph.pop count).numVars = graph.numVars ∧
      (graph.pop count).isInteger = graph.isInteger ∧
      (graph.pop count).currentLevel = graph.currentLevel - k := by
    unfold ConstraintGraph.pop
    rw [if_neg none_]
    exact ⟨rfl, rfl, rfl, target⟩
  obtain ⟨nodes, number, integers, level⟩ := fields
  have indexed := tracks.indexed.pop count
  refine ⟨indexed.anchors, ?_, ?_, indexed.edges, indexed.sorted, ?_, ?_, ?_, ?_⟩
  · rw [nodes, number]
    exact tracks.named
  · rw [nodes]
    exact tracks.injective
  · have total := congrArg List.length outer
    rw [length_reverse, length_drop, length_reverse, tracks.count] at total
    rw [level]
    omega
  · -- Every outer level has at most as many constraints as are kept.
    rw [outer]
    have least : ∀ mark ∈ graph.constraintMarks.reverse.drop k, mark ≤ keep := by
      cases rest : graph.constraintMarks.reverse.drop k with
      | nil => exact fun _ lies => (nomatch lies)
      | cons head tail =>
        rw [rest] at first order
        cases first
        intro mark lies
        rcases mem_cons.mp lies with rfl | behind
        · exact le_rfl
        · exact (pairwise_cons.mp order).1 mark behind
    clear first order
    generalize graph.constraintMarks.reverse.drop k = kept, levels.drop k = open_ at marks least
    induction marks with
    | nil => exact .nil
    | cons own _ ih =>
      refine .cons ⟨?_, ?_⟩ (ih fun mark lies => least mark (.tail _ lies))
      · rw [shorter, length_take, Nat.le_min]
        exact ⟨least _ (.head _), own.1⟩
      · rw [shorter, take_take, Nat.min_eq_left (least _ (.head _))]
        exact own.2.imp fun _ _ names =>
          ⟨nodes ▸ names.x, nodes ▸ names.y, names.bound, names.constraintType⟩
  · rw [outer]
    exact order
  · rw [outer, first, shorter, length_take, Nat.min_eq_left bound]

end

end Nixie.DiffLogic.Sparse
