import Nixie.DiffLogic.Dense.Round

/-! The paths that support cells, and the worklist that emits their atoms. -/

namespace Nixie.DiffLogic.Dense

open Nixie.Graph List

/--
The edges that support a cell, in the order in which they are emitted.

A cell is split at its supporting edge, and its distance is the sum of the parts.
-/
inductive Path (cells : Cells) (edges : List DlEdge) : Nat → Nat → List Nat → Prop where
  | refl (a : Nat) : Path cells edges a a []
  /-- The supporting edge, the part behind it, and the part before it. -/
  | step {a b id : Nat} {e : DlEdge} {before behind : List Nat} (apart : a ≠ b)
      (support : (cells a b).edge = .edge id) (found : edges[id]? = some e)
      (tight : (cells a b).dist = (cells a e.src).dist + (e.offset + (cells e.dst b).dist))
      (first : Path cells edges a e.src before) (second : Path cells edges e.dst b behind) :
      Path cells edges a b (id :: (behind ++ before))

/-- Every finite cell is supported by different stored edges, which are live. -/
structure Supported (cells : Cells) (edges live : List DlEdge) : Prop where
  paths : ∀ a b, (cells a b).dist ≠ dlInf → ∃ ids, Path cells edges a b ids ∧ ids.Nodup
  stored : ∀ e ∈ edges, e ∈ live

section

variable {n : Nat} {cells : Cells} {edges live : List DlEdge} {a b : Nat} {ids : List Nat}

theorem Path.found (path : Path cells edges a b ids) {id : Nat} (mem : id ∈ ids) :
    ∃ e, edges[id]? = some e := by
  -- By induction on the path, each edge was looked up.
  induction path with
  | refl => cases mem
  | step _ _ found _ _ _ first second =>
    rcases mem_cons.mp mem with rfl | lies
    · exact ⟨_, found⟩
    · rcases mem_append.mp lies with behind | before
      · exact second behind
      · exact first before

theorem Path.diagonal (path : Path cells edges a a ids) : ids = [] := by
  cases path with
  | refl => rfl
  | step apart => exact absurd rfl apart

theorem Path.finite (path : Path cells edges a b ids) (exact_ : Exact n cells live) :
    (cells a b).dist ≠ dlInf := by
  cases path with
  | refl =>
    rw [exact_.diagonal]
    decide
  | step _ support =>
    intro infinite
    rw [(exact_.known a b).mpr infinite] at support
    cases support

theorem Path.walk (path : Path cells edges a b ids) (diagonal : ∀ a, (cells a a).dist = 0) :
    ∃ vertices, Walk (EdgeRel (ids.filterMap (edges[·]?))) a vertices b (cells a b).dist := by
  induction path with
  | refl a =>
    rw [diagonal]
    exact ⟨[], .nil a⟩
  | @step a b id e before behind _ _ found tight _ _ first second =>
    obtain ⟨left, walk⟩ := first
    obtain ⟨right, walk'⟩ := second
    -- The edges of both parts are among those of the whole path.
    have more : ∀ {part : List Nat}, (∀ id ∈ part, id ∈ behind ++ before) → ∀ x y w,
        EdgeRel (part.filterMap (edges[·]?)) x y w →
          EdgeRel ((id :: (behind ++ before)).filterMap (edges[·]?)) x y w := by
      rintro part sub x y w ⟨other, mem, ends⟩
      obtain ⟨id', lies, found'⟩ := mem_filterMap.mp mem
      exact ⟨other, mem_filterMap.mpr ⟨id', .tail _ (sub id' lies), found'⟩, ends⟩
    refine ⟨left ++ e.src :: right, ?_⟩
    rw [tight]
    refine (walk.mono (more fun _ => mem_append_right _)).append
      (.cons ⟨e, ?_, rfl, rfl, rfl⟩ (walk'.mono (more fun _ => mem_append_left _)))
    exact mem_filterMap.mpr ⟨id, .head _, found⟩

theorem Path.through (path : Path cells edges a b ids) (exact_ : Exact n cells live)
    (stored : ∀ e ∈ edges, e ∈ live) {id : Nat} {f : DlEdge} (mem : id ∈ ids)
    (found : edges[id]? = some f) :
    (cells a f.src).dist ≠ dlInf ∧ (cells f.dst b).dist ≠ dlInf ∧
      (cells a f.src).dist + (f.offset + (cells f.dst b).dist) ≤ (cells a b).dist := by
  induction path with
  | refl => cases mem
  | @step a b id' e before behind _ _ found' tight first second ih ih' =>
    have finite := first.finite exact_
    have finite' := second.finite exact_
    obtain ⟨reach, bound⟩ := exact_.edge_le (stored e (mem_of_getElem? found'))
    rcases mem_cons.mp mem with rfl | lies
    · -- It is the supporting edge itself.
      rw [found] at found'
      cases found'
      exact ⟨finite, finite', tight.ge⟩
    · rcases mem_append.mp lies with later | earlier
      · -- The edge is behind the supporting one.
        obtain ⟨near, far, sum⟩ := ih' later
        obtain ⟨known, least⟩ := exact_.triangle finite reach
        obtain ⟨known', least'⟩ := exact_.triangle known near
        refine ⟨known', far, ?_⟩
        omega
      · obtain ⟨near, far, sum⟩ := ih earlier
        obtain ⟨known, least⟩ := exact_.triangle far reach
        obtain ⟨known', least'⟩ := exact_.triangle known finite'
        refine ⟨near, known', ?_⟩
        omega

end

section

variable {n id : Nat} {cells mid : Cells} {edges live : List DlEdge} {e : DlEdge} {a b : Nat}
  {ids : List Nat}

/-- A table in the middle of a round: some of the improved cells are written. -/
def Between (cells : Cells) (e : DlEdge) (id : Nat) (mid : Cells) : Prop :=
  ∀ y x, mid y x = cells y x ∨ (Improved cells e y x ∧ mid y x = after cells e id y x)

theorem Between.stays (between : Between cells e id mid) (same : ¬ Improved cells e a b) :
    mid a b = cells a b := by
  rcases between a b with old | ⟨improved, _⟩
  · exact old
  · exact absurd improved same

theorem after_le (cells : Cells) (e : DlEdge) (id y x : Nat) :
    (after cells e id y x).dist ≤ (cells y x).dist := by
  unfold after
  split
  · rename_i improved
    exact improved.2.2.2.le
  · exact le_rfl

/--
The parts of a cell that is not improved are not improved.

Otherwise the cell itself would be reached by a lighter walk.
-/
theorem Exact.parts_stay (exact_ : Exact n cells live) (budget : n ≤ dlMaxNodes)
    (accepted : Accepted n cells e) {f : DlEdge} (live_ : f ∈ live)
    (first : (cells a f.src).dist ≠ dlInf) (second : (cells f.dst b).dist ≠ dlInf)
    (tight : (cells a b).dist = (cells a f.src).dist + (f.offset + (cells f.dst b).dist))
    (same : ¬ Improved cells e a b) :
    ¬ Improved cells e a f.src ∧ ¬ Improved cells e f.dst b := by
  have next := exact_.after budget accepted 0
  have value : (Dense.after cells e 0 a b).dist = (cells a b).dist := by
    unfold Dense.after
    rw [if_neg same]
  have finite : ∀ {x y}, (cells x y).dist ≠ dlInf → (Dense.after cells e 0 x y).dist ≠ dlInf := by
    intro x y finite infinite
    unfold Dense.after at infinite
    split at infinite
    · rename_i improved
      obtain ⟨below, _⟩ := exact_.detour_lt budget accepted improved.2.1.2 improved.1.2.1
      exact absurd infinite (ne_of_lt below)
    · exact finite infinite
  -- After the round the cell is still bounded by its parts.
  obtain ⟨reach, edge⟩ := next.edge_le (mem_append_left _ live_)
  obtain ⟨known, bound⟩ := next.triangle (finite first) reach
  obtain ⟨_, bound'⟩ := next.triangle known (finite second)
  have lower := after_le cells e 0 a f.src
  have lower' := after_le cells e 0 f.dst b
  constructor
  · intro improved
    have less : (Dense.after cells e 0 a f.src).dist < (cells a f.src).dist := by
      unfold Dense.after
      rw [if_pos improved]
      exact improved.2.2.2
    omega
  · intro improved
    have less : (Dense.after cells e 0 f.dst b).dist < (cells f.dst b).dist := by
      unfold Dense.after
      rw [if_pos improved]
      exact improved.2.2.2
    omega

theorem Path.stays (path : Path cells edges a b ids) (exact_ : Exact n cells live)
    (budget : n ≤ dlMaxNodes) (accepted : Accepted n cells e) (stored : ∀ e ∈ edges, e ∈ live)
    (between : Between cells e id mid) (same : ¬ Improved cells e a b) :
    Path mid (edges ++ [e]) a b ids := by
  induction path with
  | refl a => exact .refl a
  | @step a b id' f before behind apart support found tight first second ih ih' =>
    obtain ⟨left, right⟩ := exact_.parts_stay budget accepted
      (stored f (mem_of_getElem? found)) (first.finite exact_) (second.finite exact_) tight same
    refine .step apart ?_ ?_ ?_ (ih left) (ih' right)
    · rw [between.stays same]
      exact support
    · exact (List.getElem?_append_left (List.getElem?_eq_some_iff.mp found).1).trans found
    · rw [between.stays same, between.stays left, between.stays right]
      exact tight

theorem Supported.improved (supported : Supported cells edges live) (exact_ : Exact n cells live)
    (budget : n ≤ dlMaxNodes) (accepted : Accepted n cells e)
    (between : Between cells e edges.length mid) {y x : Nat} (improved : Improved cells e y x)
    (written : mid y x = after cells e edges.length y x) :
    ∃ ids, Path mid (edges ++ [e]) y x ids ∧ ids.Nodup := by
  obtain ⟨before, first, distinct⟩ := supported.paths y e.src improved.2.1.2
  obtain ⟨behind, second, distinct'⟩ := supported.paths e.dst x improved.1.2.1
  -- Neither the column of the source nor the row of the target is improved.
  have column : ¬ Improved cells e y e.src := fun other => other.1.1 rfl
  have row : ¬ Improved cells e e.dst x := fun other => other.2.1.1 rfl
  have value : mid y x =
      ⟨(cells y e.src).dist + (e.offset + (cells e.dst x).dist), .edge edges.length⟩ := by
    rw [written]
    unfold after
    rw [if_pos improved]
  refine ⟨edges.length :: (behind ++ before), .step improved.2.2.1.symm ?_ ?_ ?_
    (first.stays exact_ budget accepted supported.stored between column)
    (second.stays exact_ budget accepted supported.stored between row), ?_⟩
  · rw [value]
  · exact getElem?_concat_length
  · rw [value, between.stays column, between.stays row]
  · refine nodup_cons.mpr ⟨fun mem => ?_, distinct'.append distinct fun id later earlier => ?_⟩
    · -- The new edge was not stored before.
      obtain ⟨f, found⟩ : ∃ f, edges[edges.length]? = some f := by
        rcases mem_append.mp mem with lies | lies
        · exact second.found lies
        · exact first.found lies
      rw [getElem?_eq_none le_rfl] at found
      cases found
    · -- An edge on both sides closes a cycle with the new one, which the path could avoid.
      obtain ⟨f, found⟩ := first.found earlier
      obtain ⟨near, far, sum⟩ := first.through exact_ supported.stored earlier found
      obtain ⟨near', far', sum'⟩ := second.through exact_ supported.stored later found
      obtain ⟨reach, edge⟩ := exact_.edge_le (supported.stored f (mem_of_getElem? found))
      obtain ⟨known, least⟩ := exact_.triangle near reach
      obtain ⟨_, direct⟩ := exact_.triangle known far'
      obtain ⟨known', least'⟩ := exact_.triangle near' reach
      obtain ⟨back, round⟩ := exact_.triangle known' far
      have cycle := accepted.cycle back
      have less := improved.2.2.2
      omega

theorem Supported.after (supported : Supported cells edges live) (exact_ : Exact n cells live)
    (budget : n ≤ dlMaxNodes) (accepted : Accepted n cells e) :
    Supported (after cells e edges.length) (edges ++ [e]) (live ++ [e]) where
  paths := by
    have between : Between cells e edges.length (Dense.after cells e edges.length) := by
      intro y x
      by_cases improved : Improved cells e y x
      · exact .inr ⟨improved, rfl⟩
      · left
        unfold Dense.after
        rw [if_neg improved]
    intro a b finite
    by_cases improved : Improved cells e a b
    · exact supported.improved exact_ budget accepted between improved rfl
    · rw [between.stays improved] at finite
      obtain ⟨ids, path, distinct⟩ := supported.paths a b finite
      exact ⟨ids, path.stays exact_ budget accepted supported.stored between improved, distinct⟩
  stored := by
    intro f mem
    rcases mem_append.mp mem with old | last
    · exact mem_append_left _ (supported.stored f old)
    · exact mem_append_right _ last

end

section

variable {core : DenseDlCore} {a b : Nat} {ids : List Nat}

def reasons (edges : List DlEdge) (ids : List Nat) : List (Nat × Bool) :=
  (ids.filterMap (edges[·]?)).map fun e => (e.key, e.pol)

abbrev Todo (core : DenseDlCore) : List (Nat × Nat) → List (List Nat) → Prop :=
  List.Forall₂ fun pair ids => Path core.cells core.edges pair.1 pair.2 ids

theorem Path.supportEdge {pair : Nat × Nat} {id : Nat} {e : DlEdge} (apart : pair.1 ≠ pair.2)
    (support : (core.cells pair.1 pair.2).edge = .edge id) (found : core.edges[id]? = some e) :
    core.skips pair = false ∧ core.supportEdge pair = some e := by
  -- Only cells of the matrix have edges.
  have lies : pair.1 < core.n ∧ pair.2 < core.n := by
    by_contra outside
    rw [DenseDlCore.cells_outside outside, isolated, if_neg apart] at support
    cases support
  rw [DenseDlCore.cells_inside lies.1 lies.2] at support
  dsimp only at support
  unfold DenseDlCore.skips DenseDlCore.supportEdge
  rw [support]
  simp [apart, found]

theorem todo_dropWhile {todo : List (Nat × Nat)} {paths : List (List Nat)}
    (listed : Todo core todo paths) :
    (todo.dropWhile core.skips = [] ∧ paths.flatten = []) ∨
      ∃ pair rest id e before behind paths', todo.dropWhile core.skips = pair :: rest ∧
        core.supportEdge pair = some e ∧ core.edges[id]? = some e ∧
        Path core.cells core.edges pair.1 e.src before ∧
        Path core.cells core.edges e.dst pair.2 behind ∧ Todo core rest paths' ∧
        paths.flatten = id :: (behind ++ before ++ paths'.flatten) := by
  induction listed with
  | nil => exact .inl ⟨rfl, rfl⟩
  | @cons pair ids todo paths path rest ih =>
    obtain ⟨a, b⟩ := pair
    dsimp only at path
    cases path with
    | refl =>
      -- A pair of the diagonal is skipped.
      rw [dropWhile_cons_of_pos (by simp [DenseDlCore.skips]), flatten_cons, nil_append]
      exact ih
    | @step _ _ id e before behind apart support found tight first second =>
      obtain ⟨kept, edge⟩ := @Path.supportEdge core (a, b) id e apart support found
      rw [dropWhile_cons_of_neg (by simp [kept])]
      exact .inr ⟨(a, b), todo, id, e, before, behind, paths, rfl, edge, found, first, second, rest,
        by simp⟩

theorem todo_push {todo : List (Nat × Nat)} {paths : List (List Nat)} {x y : Nat}
    (listed : Todo core todo paths) (path : Path core.cells core.edges x y ids) :
    ∃ paths', Todo core (if x ≠ y then (x, y) :: todo else todo) paths' ∧
      paths'.flatten = ids ++ paths.flatten := by
  split
  · exact ⟨ids :: paths, .cons path listed, rfl⟩
  · rename_i same
    rw [not_not] at same
    subst same
    rw [path.diagonal]
    exact ⟨paths, listed, rfl⟩

theorem antecedentsLoop_eq : ∀ {budget : Nat} {todo : List (Nat × Nat)} {paths : List (List Nat)},
    Todo core todo paths → paths.flatten.length ≤ budget + 1 →
      core.antecedentsLoop budget todo = reasons core.edges paths.flatten := by
  intro budget
  induction budget with
  | zero =>
    intro todo paths listed enough
    unfold DenseDlCore.antecedentsLoop
    rcases todo_dropWhile listed with ⟨done, empty⟩ |
      ⟨pair, rest, id, e, before, behind, paths', head, edge, found, _, _, _, total⟩
    · rw [done, empty]
      rfl
    · -- The budget ends with the last edge.
      rw [total, length_cons] at enough
      have nothing : behind ++ before ++ paths'.flatten = [] := length_eq_zero_iff.mp (by omega)
      rw [head, total, nothing]
      simp [edge, reasons, found]
  | succ budget ih =>
    intro todo paths listed enough
    unfold DenseDlCore.antecedentsLoop
    rcases todo_dropWhile listed with ⟨done, empty⟩ |
      ⟨pair, rest, id, e, before, behind, paths', head, edge, found, first, second, left, total⟩
    · rw [done, empty]
      rfl
    · obtain ⟨_, pushed, same⟩ := todo_push left first
      obtain ⟨_, pushed', same'⟩ := todo_push pushed second
      rw [total, length_cons] at enough
      have later := ih pushed' (by
        rw [same', same, ← append_assoc]
        omega)
      rw [same', same, ← append_assoc] at later
      rw [head, total]
      simp only [edge]
      rw [later]
      simp [reasons, found]

theorem antecedents_eq (path : Path core.cells core.edges a b ids) (distinct : ids.Nodup) :
    core.antecedents a b = reasons core.edges ids := by
  unfold DenseDlCore.antecedents
  split
  · -- Different edges of the list are no more than its length.
    have lies : ids ⊆ range core.edges.length := fun id mem => by
      obtain ⟨e, found⟩ := path.found mem
      exact mem_range.mpr (List.getElem?_eq_some_iff.mp found).1
    have count := distinct.length_le_of_subset lies
    rw [length_range] at count
    have listed : Todo core [(a, b)] [ids] := .cons path .nil
    have emitted := @antecedentsLoop_eq _ (core.edges.length * 2 + 8) _ _ listed (by simp; omega)
    rw [emitted]
    simp
  · rename_i same
    rw [not_not] at same
    subst same
    rw [path.diagonal]
    rfl

end

end Nixie.DiffLogic.Dense
