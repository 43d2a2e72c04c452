import Nixie.DiffLogic.Dense.Runs

/-! The matrix, the conflicts, the values, and the reasons in every reachable session. -/

namespace Nixie.DiffLogic.Dense

open Nixie.Graph List

/-- Weights of the walks between two nodes along live edges. -/
def pathWeights (live : List DlEdge) (s t : Nat) : Set Int :=
  {w | ∃ vertices, Walk (EdgeRel live) s vertices t w}

section

variable {n : Nat} {live : List DlEdge} {core : DenseDlCore} {s t v w : Nat}

theorem Exact.isLeast {cells : Cells} (exact_ : Exact n cells live) (finite : (cells s t).dist ≠ dlInf) :
    IsLeast (pathWeights live s t) (cells s t).dist := by
  refine ⟨exact_.closure.attained ((distances_coe finite).mpr rfl), fun other ⟨_, walk⟩ => ?_⟩
  have bound := exact_.closure.least walk
  rwa [(distances_coe finite).mpr rfl, WithTop.coe_le_coe] at bound

theorem Exact.reaches {cells : Cells} (exact_ : Exact n cells live) :
    (cells s t).dist = dlInf ↔ pathWeights live s t = ∅ := by
  constructor
  · refine fun infinite => Set.eq_empty_of_forall_notMem fun other ⟨_, walk⟩ => ?_
    have bound := exact_.closure.least walk
    rw [distances_top.mpr infinite] at bound
    exact absurd bound (not_le.mpr (WithTop.coe_lt_top _))
  · intro empty
    by_contra finite
    exact Set.eq_empty_iff_forall_notMem.mp empty _ (exact_.isLeast finite).1

theorem distance_eq (exact_ : Exact core.n core.cells live) (first : s < core.n)
    (second : t < core.n) : core.distance s t =
      if (core.cells s t).dist = dlInf then none else some (core.cells s t).dist := by
  rw [DenseDlCore.cells_inside first second]
  unfold DenseDlCore.distance
  by_cases finite : core.distOf s t = dlInf
  · rw [if_pos finite, if_neg]
    exact fun known => (known_iff exact_ first second).mp known finite
  · rw [if_neg finite, if_pos ((known_iff exact_ first second).mpr finite)]

theorem foldl_least {known : Nat → Prop} [DecidablePred known] {dist : Nat → Int} :
    ∀ (columns : List Nat) (start : Int),
      let least := columns.foldl (fun d w =>
        if w = v then d else if known w ∧ dist w < d then dist w else d) start
      least ≤ start ∧ (∀ w ∈ columns, w ≠ v → known w → least ≤ dist w) ∧
        (least = start ∨ ∃ w ∈ columns, w ≠ v ∧ known w ∧ least = dist w) := by
  intro columns
  induction columns with
  | nil => exact fun start => ⟨le_rfl, fun _ mem => (nomatch mem), .inl rfl⟩
  | cons w rest ih =>
    intro start
    rw [foldl_cons]
    -- The first column may lower the minimum that the rest starts with.
    obtain ⟨below, bounds, attained⟩ := ih
      (if w = v then start else if known w ∧ dist w < start then dist w else start)
    have lower : (if w = v then start else if known w ∧ dist w < start then dist w else start) ≤
        start := by
      split_ifs with same less
      · exact le_rfl
      · exact less.2.le
      · exact le_rfl
    refine ⟨below.trans lower, fun other mem apart finite => ?_, ?_⟩
    · rcases mem_cons.mp mem with rfl | later
      · refine below.trans ?_
        rw [if_neg apart]
        split
        · exact le_rfl
        · rename_i heavy
          exact not_lt.mp fun less => heavy ⟨finite, less⟩
      · exact bounds other later apart finite
    · rcases attained with same | ⟨other, later, found⟩
      · rw [same]
        split_ifs with here less
        · exact .inl rfl
        · exact .inr ⟨w, .head _, here, less.1, rfl⟩
        · exact .inl rfl
      · exact .inr ⟨other, .tail _ later, found⟩

theorem value_spec (exact_ : Exact core.n core.cells live) (lies : v < core.n) :
    (∀ w < core.n, (core.cells v w).dist ≠ dlInf → -core.value v ≤ (core.cells v w).dist) ∧
      ∃ w < core.n, (core.cells v w).dist ≠ dlInf ∧ -core.value v = (core.cells v w).dist := by
  have row : ∀ w < core.n, (core.cells v w).dist = core.distOf v w := fun w below =>
    congrArg Cell.dist (DenseDlCore.cells_inside lies below)
  have diagonal := exact_.diagonal v
  obtain ⟨below, bounds, attained⟩ :=
    @foldl_least v (fun w => core.known v w = true) _ (core.distOf v) (range core.n) 0
  have value : -core.value v = (range core.n).foldl (fun d w =>
      if w = v then d else if core.known v w = true ∧ core.distOf v w < d then core.distOf v w else d)
      0 := neg_neg _
  rw [← value] at below bounds attained
  refine ⟨fun w less finite => ?_, ?_⟩
  · by_cases same : w = v
    · -- The minimum starts with zero, the distance to the node itself.
      rw [same, diagonal]
      exact below
    · rw [row w less] at finite ⊢
      exact bounds w (mem_range.mpr less) same ((known_iff exact_ lies less).mpr finite)
  · rcases attained with zero | ⟨w, mem, _, known, same⟩
    · refine ⟨v, lies, ?_, ?_⟩
      · rw [diagonal]
        decide
      · rw [diagonal, zero]
    · have less := mem_range.mp mem
      refine ⟨w, less, ?_, ?_⟩
      · rw [row w less]
        exact (known_iff exact_ lies less).mp known
      · rw [row w less, same]

theorem value_holds (exact_ : Exact core.n core.cells live) {e : DlEdge} (mem : e ∈ live) :
    e.Holds core.value := by
  obtain ⟨first, second⟩ := exact_.nodes e mem
  obtain ⟨w, lies, finite, same⟩ := (value_spec exact_ second).2
  obtain ⟨reach, edge⟩ := exact_.edge_le mem
  -- What the target reaches, its source reaches through the edge.
  obtain ⟨known, bound⟩ := exact_.triangle reach finite
  have least := (value_spec exact_ first).1 w lies known
  unfold DlEdge.Holds
  omega

end

section

variable {session : Session}

def Session.outcome (session : Session) (e : DlEdge) : DenseDlCore × DlAssert :=
  session.core.assertEdge e.src e.dst e.offset e.key e.pol

/--
The matrix is the closure of the live edges, and the values satisfy them.

An assertion is refused exactly when the edge closes a negative cycle, and then changes nothing.
-/
theorem Session.Reachable.closure_exact (reachable : session.Reachable) :
    (∀ s t, s < session.core.n → t < session.core.n →
      (session.core.distOf s t = dlInf ↔ pathWeights session.live s t = ∅) ∧
      (session.core.distance s t = none ↔ pathWeights session.live s t = ∅) ∧
      ∀ d, session.core.distance s t = some d ↔ IsLeast (pathWeights session.live s t) d) ∧
    NoNegativeCycle (EdgeRel session.live) ∧
    (∀ e, session.Legal (.assertEdge e) → ((∃ reason, (session.outcome e).2 = .conflict reason) ↔
        ¬ NoNegativeCycle (EdgeRel (session.live ++ [e]))) ∧
      ∀ reason, (session.outcome e).2 = .conflict reason → (session.outcome e).1 = session.core) ∧
    ∀ e ∈ session.live, session.core.value e.dst - session.core.value e.src ≤ e.offset := by
  have faithful := reachable.faithful
  have exact_ := faithful.exact_
  refine ⟨fun s t first second => ?_, exact_.sound, fun e legal => ?_,
    fun e member => value_holds exact_ member⟩
  · have cell : session.core.distOf s t = (session.core.cells s t).dist :=
      (congrArg Cell.dist (DenseDlCore.cells_inside first second)).symm
    rw [cell, distance_eq exact_ first second]
    refine ⟨exact_.reaches, ?_, fun d => ?_⟩
    · rw [← exact_.reaches, ite_eq_left_iff]
      exact ⟨fun none_ => by_contra fun finite => (nomatch none_ finite),
        fun infinite finite => absurd infinite finite⟩
    · by_cases infinite : (session.core.cells s t).dist = dlInf
      · rw [if_pos infinite, exact_.reaches.mp infinite]
        exact ⟨fun same => (nomatch same), fun least => (least.1).elim⟩
      · -- Least elements are unique.
        rw [if_neg infinite, Option.some_inj]
        have least := exact_.isLeast infinite
        exact ⟨fun same => same ▸ least, fun other => least.unique other⟩
  · have verdict := @Exact.conflict_iff _ _ _ e exact_
    unfold Session.outcome
    rcases assertEdge_cases exact_ legal.1 with
      ⟨finite, light, outcome⟩ | ⟨cycle, ⟨_, outcome⟩ | ⟨_, outcome⟩⟩
    · rw [outcome, verdict]
      exact ⟨⟨fun _ => ⟨finite, light⟩, fun _ => ⟨_, rfl⟩⟩, fun _ _ => rfl⟩
    all_goals
      rw [outcome, verdict]
      refine ⟨⟨fun ⟨_, conflict⟩ => (nomatch conflict), fun ⟨finite, light⟩ => ?_⟩,
        fun _ conflict => (nomatch conflict)⟩
      exact absurd (cycle finite) (not_le.mpr light)

/-- A run with two edges and an atom that they entail. -/
def Session.twoEdges : Session :=
  [.internNode, .internNode, .internNode, .internAtom 9 0 2 3 false, .push,
    .assertEdge ⟨0, 1, 1, 1, true⟩, .assertEdge ⟨1, 2, 2, 2, true⟩].foldl Session.run .new

theorem Session.twoEdges_reachable : Session.twoEdges.Reachable := by
  have start := Session.Reachable.new
  have first := start.run .internNode (by exact rfl)
  have second := first.run .internNode (by exact rfl)
  have third := second.run .internNode (by exact rfl)
  have atom := third.run (.internAtom 9 0 2 3 false) trivial
  have scope := atom.run .push trivial
  have edge := scope.run (.assertEdge ⟨0, 1, 1, 1, true⟩) ⟨by decide, by decide⟩
  exact edge.run (.assertEdge ⟨1, 2, 2, 2, true⟩) ⟨by decide, by decide⟩

/-- In a run with two edges the distance is their sum, and an edge that closes the cycle is refused. -/
theorem Session.twoEdges_closure : IsLeast (pathWeights Session.twoEdges.live 0 2) 3 ∧
      ¬ NoNegativeCycle (EdgeRel (Session.twoEdges.live ++ [⟨2, 0, -4, 3, true⟩])) := by
  obtain ⟨distances, _, conflicts, _⟩ := Session.twoEdges_reachable.closure_exact
  refine ⟨((distances 0 2 (by decide) (by decide)).2.2 3).mp (by decide), ?_⟩
  exact (conflicts ⟨2, 0, -4, 3, true⟩ ⟨by decide, by decide⟩).1.mp
    ⟨[(2, true), (1, true), (3, true)], by decide⟩

/--
Every queued propagation is entailed by live atoms that its reason lists.

The reason of a conflict lists atoms, live ones and the new one, that have no solution.
-/
theorem Session.Reachable.reasons_valid (reachable : session.Reachable) :
    (∀ p ∈ session.core.pending, Justified session.live session.core p) ∧
    ∀ e, session.Legal (.assertEdge e) → ∀ reason, (session.outcome e).2 = .conflict reason →
      Inconsistent (session.live ++ [e]) reason := by
  have faithful := reachable.faithful
  have exact_ := faithful.exact_
  refine ⟨faithful.justified, fun e legal reason conflict => ?_⟩
  unfold Session.outcome at conflict
  rcases assertEdge_cases exact_ legal.1 with
    ⟨finite, light, outcome⟩ | ⟨_, ⟨_, outcome⟩ | ⟨_, outcome⟩⟩
  · rw [outcome] at conflict
    cases conflict
    obtain ⟨ids, path, distinct⟩ := faithful.supported.paths e.dst e.src finite
    have stored : ∀ f ∈ session.core.edges, f ∈ session.live ++ [e] := fun f member =>
      mem_append_left _ (faithful.supported.stored f member)
    rw [antecedents_eq path distinct]
    refine ⟨(asserted_reasons stored).append fun atom member => ?_, fun ⟨value, holds⟩ => ?_⟩
    · exact ⟨e, mem_append_right _ (.head _), (mem_singleton.mp member).symm⟩
    · -- The way back and the new edge bound the difference of two nodes by a negative sum.
      have back := path.bound exact_.diagonal stored (subset_append_left _ [(e.key, e.pol)]) holds
      have edge := holds e (mem_filter.mpr ⟨mem_append_right _ (.head _),
        decide_eq_true (mem_append_right _ (.head _))⟩)
      unfold DlEdge.Holds at edge
      omega
  all_goals
    rw [outcome] at conflict
    cases conflict

/-- In a run with two edges the entailed atom is queued, and the refused edge is explained. -/
theorem Session.twoEdges_reasons :
    Justified Session.twoEdges.live Session.twoEdges.core ⟨9, true, [(2, true), (1, true)]⟩ ∧
      Inconsistent (Session.twoEdges.live ++ [⟨2, 0, -4, 3, true⟩])
        [(2, true), (1, true), (3, true)] := by
  obtain ⟨propagations, conflicts⟩ := Session.twoEdges_reachable.reasons_valid
  exact ⟨propagations _ (by decide), conflicts ⟨2, 0, -4, 3, true⟩ ⟨by decide, by decide⟩ _ (by decide)⟩

end

end Nixie.DiffLogic.Dense
