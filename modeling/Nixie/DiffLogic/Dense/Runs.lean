import Nixie.DiffLogic.Dense.Update

/-! Histories of calls of the core: the matrix stays the closure of the edges of open scopes. -/

namespace Nixie.DiffLogic.Dense

open Nixie.UndoTrail List Function

/-- A call of the core that changes its state. -/
inductive Call where
  | internNode
  | internAtom (key s t : Nat) (k : Int) (isEq : Bool)
  | assertEdge (e : DlEdge)
  | takePropagations
  | push
  | pop
  | reset
  deriving DecidableEq, Repr

/-- A core with the edges that were accepted in its open scopes. -/
structure Session where
  core : DenseDlCore
  live : List DlEdge
  /-- Edges that were accepted when each open scope began, the innermost first. -/
  older : List (List DlEdge)

namespace Session

def new : Session := ⟨.new, [], []⟩

/-- Assert an edge: it is live unless a conflict is reported. -/
def assertEdge (session : Session) (e : DlEdge) : Session :=
  match session.core.assertEdge e.src e.dst e.offset e.key e.pol with
  | (core, .ok) => { session with core := core, live := session.live ++ [e] }
  | (core, .conflict _) => { session with core := core }

def run (session : Session) : Call → Session
  | .internNode => { session with core := session.core.internNode.1 }
  | .internAtom key s t k isEq => { session with core := session.core.internAtom key s t k isEq }
  | .assertEdge e => session.assertEdge e
  | .takePropagations => { session with core := session.core.takePropagations.1 }
  | .push => ⟨session.core.push, session.live, session.live :: session.older⟩
  | .pop =>
      match session.older with
      | [] => { session with core := session.core.pop }
      | live :: older => ⟨session.core.pop, live, older⟩
  | .reset => new

/-- What callers check: the budget of nodes, and the range of weights. -/
def Legal (session : Session) : Call → Prop
  | .internNode => session.core.hasNodeBudget = true
  | .assertEdge e =>
      (e.src < session.core.n ∧ e.dst < session.core.n) ∧ |e.offset| ≤ dlMaxAbsWeight
  | _ => True

inductive Reachable : Session → Prop where
  | new : Reachable new
  | run {session : Session} (call : Call) (legal : session.Legal call) (before : Reachable session) :
      Reachable (session.run call)

end Session

/-- What is saved for a scope is the closure of what was live when it was opened. -/
def Level (n : Nat) (saved : Nat × (Cells × List DlEdge)) (live : List DlEdge) : Prop :=
  Exact n saved.2.1 live ∧ Supported saved.2.1 saved.2.2 live

/-- The state between two calls. -/
structure Faithful (session : Session) : Prop where
  budget : session.core.n ≤ dlMaxNodes
  laid : session.core.Laid
  watched : Watched session.core
  exact_ : Exact session.core.n session.core.cells session.live
  supported : Supported session.core.cells session.core.edges session.live
  justified : ∀ p ∈ session.core.pending, Justified session.live session.core p
  scopes : ∃ saved, Kept session.core saved ∧ List.Forall₂ (Level session.core.n) saved session.older

section

variable {n : Nat} {cells : Cells} {edges live more : List DlEdge} {core : DenseDlCore}
  {session : Session} {saved : List (Nat × (Cells × List DlEdge))}

theorem Exact.mono {m : Nat} (exact_ : Exact n cells live) (grown : n ≤ m) : Exact m cells live where
  closure := exact_.closure
  sound := exact_.sound
  nodes := fun e mem => ⟨Nat.lt_of_lt_of_le (exact_.nodes e mem).1 grown,
    Nat.lt_of_lt_of_le (exact_.nodes e mem).2 grown⟩
  weights := exact_.weights
  known := exact_.known

theorem Supported.mono (supported : Supported cells edges live) (sub : live ⊆ more) :
    Supported cells edges more :=
  ⟨supported.paths, fun e mem => sub (supported.stored e mem)⟩

theorem Justified.mono {p : DlPropagation} (justified : Justified live core p) (sub : live ⊆ more) :
    Justified more core p := by
  obtain ⟨asserted, a, atom, decides⟩ := justified
  refine ⟨fun pair mem => ?_, a, atom, fun value holds => decides value fun e mem => ?_⟩
  · obtain ⟨e, live_, same⟩ := asserted pair mem
    exact ⟨e, sub live_, same⟩
  · -- The live edges of the reason are among those of the longer list.
    obtain ⟨live_, lies⟩ := mem_filter.mp mem
    exact holds e (mem_filter.mpr ⟨sub live_, lies⟩)

theorem faithful_new : Faithful .new where
  budget := Nat.zero_le _
  laid := ⟨le_rfl, le_rfl, rfl⟩
  watched := ⟨fun _ _ found => (nomatch found), fun _ _ found => (nomatch found),
    fun _ _ _ mem => (nomatch mem), fun _ _ found => (nomatch found)⟩
  exact_ := by
    have same : DenseDlCore.new.cells = isolated := by
      funext a b
      exact DenseDlCore.cells_outside fun both => absurd both.1 (Nat.not_lt_zero _)
    show Exact 0 DenseDlCore.new.cells []
    rw [same]
    exact exact_new
  supported := by
    refine ⟨fun a b finite => ?_, fun _ mem => (nomatch mem)⟩
    -- Only the diagonal is finite.
    by_cases same : a = b
    · subst same
      exact ⟨[], .refl a, nodup_nil⟩
    · have outside : DenseDlCore.new.cells a b = isolated a b :=
        DenseDlCore.cells_outside fun both => absurd both.1 (Nat.not_lt_zero _)
      refine absurd ?_ finite
      show (DenseDlCore.new.cells a b).dist = dlInf
      rw [outside, isolated, if_neg same]
  justified := fun _ mem => nomatch mem
  scopes := ⟨[], ⟨fun _ mem => (nomatch mem), rfl, pairwise_singleton _ _, trivial⟩, .nil⟩

theorem fill_fields {ι : Type*} (row col : ι → Nat) (support : Support) (dist : Int) :
    ∀ (items : List ι) (core : DenseDlCore), ∃ distances supports,
      items.foldl (fun core item => core.setCell (row item) (col item) support dist) core =
        { core with dist := distances, edgeOf := supports } := by
  intro items
  induction items with
  | nil => exact fun core => ⟨core.dist, core.edgeOf, rfl⟩
  | cons item rest ih =>
    intro core
    obtain ⟨distances, supports, same⟩ := ih (core.setCell (row item) (col item) support dist)
    exact ⟨distances, supports, same⟩

theorem internNode_fields (core : DenseDlCore) : ∃ n cap distances supports, core.internNode.1 =
      { core with n := n, cap := cap, dist := distances, edgeOf := supports } := by
  obtain ⟨cap, distances, supports, wide⟩ : ∃ cap distances supports,
      (if core.n = core.cap then core.relayout else core) =
        { core with cap := cap, dist := distances, edgeOf := supports } := by
    split
    · exact ⟨_, _, _, rfl⟩
    · exact ⟨_, _, _, rfl⟩
  obtain ⟨distances', supports', room⟩ : ∃ distances' supports',
      DenseDlCore.reserve { core with cap := cap, dist := distances, edgeOf := supports }
          ((core.n + 1) * cap) =
        { core with cap := cap, dist := distances', edgeOf := supports' } := by
    unfold DenseDlCore.reserve
    split
    · exact ⟨_, _, rfl⟩
    · exact ⟨_, _, rfl⟩
  unfold DenseDlCore.internNode
  rw [wide]
  dsimp only
  rw [room]
  -- The row and the column are loops of writes.
  obtain ⟨_, _, row⟩ := fill_fields (fun _ => core.n) (fun c : Nat => c) .noEdge dlInf
    (range (core.n + 1))
    { core with n := core.n + 1, cap := cap, dist := distances', edgeOf := supports' }
  rw [row]
  obtain ⟨_, _, column⟩ := fill_fields (fun r : Nat => r) (fun _ => core.n) .noEdge dlInf
    (range core.n) { core with n := core.n + 1, cap := cap, dist := _, edgeOf := _ }
  rw [column]
  exact ⟨_, _, _, _, rfl⟩

theorem Faithful.internNode (faithful : Faithful session)
    (budget : session.core.hasNodeBudget = true) :
    Faithful { session with core := session.core.internNode.1 } := by
  obtain ⟨laid, number, _, table⟩ := DenseDlCore.internNode_spec faithful.laid
  obtain ⟨saved, kept, levels⟩ := faithful.scopes
  have same : session.core.internNode.1.cells = session.core.cells := funext₂ table
  have grown : session.core.n ≤ session.core.internNode.1.n := number ▸ Nat.le_succ _
  have bound : session.core.internNode.1.n ≤ dlMaxNodes := by
    rw [number]
    exact of_decide_eq_true budget
  have exact_ := faithful.exact_.mono grown
  have supported := faithful.supported
  have kept' := kept.kept
  rw [← same] at exact_ supported kept'
  -- The other fields are as before.
  obtain ⟨n, cap, distances, supports, fields⟩ := internNode_fields session.core
  rw [fields] at laid grown bound exact_ supported kept' ⊢
  exact
    { budget := bound
      laid := laid
      watched := { faithful.watched with }
      exact_ := exact_
      supported := supported
      justified := faithful.justified
      scopes := ⟨saved, ⟨fun entry mem => ⟨Nat.lt_of_lt_of_le (kept.inside entry mem).1 grown,
            Nat.lt_of_lt_of_le (kept.inside entry mem).2 grown⟩,
          kept.limits, kept.sizes, kept'⟩,
        levels.imp fun _ _ level => ⟨level.1.mono grown, level.2⟩⟩ }

theorem mem_watchers {occs : Nat × Nat → List Nat} {s t y x id new : Nat} :
    id ∈ (if s ≠ t then
        update (update occs (s, t) (occs (s, t) ++ [new])) (t, s)
          (update occs (s, t) (occs (s, t) ++ [new]) (t, s) ++ [new])
      else update occs (s, t) (occs (s, t) ++ [new])) (y, x) ↔
    id ∈ occs (y, x) ∨ (id = new ∧ ((s = y ∧ t = x) ∨ (s = x ∧ t = y))) := by
  by_cases forward : (y, x) = (s, t)
  · cases forward
    by_cases loop : s = t
    · subst loop
      simp
    · have apart : (s, t) ≠ (t, s) := fun same => loop (Prod.mk.inj same).1
      rw [if_pos loop, update_of_ne apart, update_self]
      simp
  · by_cases backward : (y, x) = (t, s)
    · cases backward
      have loop : s ≠ t := fun same => forward (by rw [same])
      rw [if_pos loop, update_self, update_of_ne forward]
      simp
    · have none_ : ¬ ((s = y ∧ t = x) ∨ (s = x ∧ t = y)) := by
        rintro (⟨rfl, rfl⟩ | ⟨rfl, rfl⟩)
        · exact forward rfl
        · exact backward rfl
      rw [or_iff_left fun new => none_ new.2]
      split
      · rw [update_of_ne backward, update_of_ne forward]
      · rw [update_of_ne forward]

theorem internAtom_fields (watched : Watched core) (key s t : Nat) (k : Int) (isEq : Bool) :
    ∃ atoms keyToAtom occs, core.internAtom key s t k isEq =
        { core with atoms := atoms, keyToAtom := keyToAtom, occs := occs } ∧
      Watched (core.internAtom key s t k isEq) ∧ ∀ other a, core.atomOf other = some a →
          (core.internAtom key s t k isEq).atomOf other = some a := by
  unfold DenseDlCore.internAtom
  split
  · exact ⟨_, _, _, rfl, watched, fun _ _ found => found⟩
  rename_i fresh
  rw [Bool.not_eq_true, Option.isSome_eq_false_iff, Option.isNone_iff_eq_none] at fresh
  refine ⟨_, _, _, rfl, ⟨?_, ?_, ?_, ?_⟩, ?_⟩
  · -- The new atom is the last one.
    intro id a found
    dsimp only at found ⊢
    rw [getElem?_append] at found
    split at found
    · have apart : a.key ≠ key := fun same => by
        rw [← same, watched.keyed id a found] at fresh
        cases fresh
      rw [update_of_ne apart]
      exact watched.keyed id a found
    · rename_i beyond
      rw [getElem?_singleton] at found
      split at found
      · cases found
        rw [update_self]
        exact congrArg some (by omega)
      · cases found
  · intro other id found
    dsimp only at found ⊢
    rw [length_append, length_singleton]
    by_cases same : other = key
    · rw [same, update_self] at found
      cases found
      exact Nat.lt_succ_self _
    · rw [update_of_ne same] at found
      exact Nat.lt_succ_of_lt (watched.bound other id found)
  · -- Only the two cells of the atom have a new watcher.
    intro y x id lies
    dsimp only at lies ⊢
    rcases mem_watchers.mp lies with old | ⟨rfl, ends⟩
    · obtain ⟨a, stored, ends⟩ := watched.watched y x id old
      exact ⟨a, (List.getElem?_append_left (List.getElem?_eq_some_iff.mp stored).1).trans stored, ends⟩
    · exact ⟨_, getElem?_concat_length, ends⟩
  · intro id a found
    dsimp only at found ⊢
    rw [mem_watchers, mem_watchers]
    rw [getElem?_append] at found
    split at found
    · obtain ⟨forward, backward⟩ := watched.watches id a found
      exact ⟨.inl forward, .inl backward⟩
    · rw [getElem?_singleton] at found
      split at found
      · cases found
        have last : id = core.atoms.length := by omega
        exact ⟨.inr ⟨last, .inl ⟨rfl, rfl⟩⟩, .inr ⟨last, .inr ⟨rfl, rfl⟩⟩⟩
      · cases found
  · intro other a found
    unfold DenseDlCore.atomOf at found ⊢
    dsimp only
    obtain ⟨id, keyed, stored⟩ := Option.bind_eq_some_iff.mp found
    have apart : other ≠ key := fun same => by
      rw [← same, keyed] at fresh
      cases fresh
    rw [update_of_ne apart, keyed]
    exact (getElem?_append_left (watched.bound other id keyed)).trans stored

theorem Faithful.internAtom (faithful : Faithful session) (key s t : Nat) (k : Int) (isEq : Bool) :
    Faithful { session with core := session.core.internAtom key s t k isEq } := by
  obtain ⟨atoms, keyToAtom, occs, fields, watched, found⟩ :=
    internAtom_fields faithful.watched key s t k isEq
  obtain ⟨saved, kept, levels⟩ := faithful.scopes
  have justified : ∀ p ∈ session.core.pending,
      Justified session.live (session.core.internAtom key s t k isEq) p := by
    intro p mem
    obtain ⟨asserted, a, atom, decides⟩ := faithful.justified p mem
    exact ⟨asserted, a, found p.key a atom, decides⟩
  rw [fields] at watched justified ⊢
  exact
    { budget := faithful.budget
      laid := { faithful.laid with }
      watched := watched
      exact_ := faithful.exact_
      supported := faithful.supported
      justified := justified
      scopes := ⟨saved, { kept with }, levels⟩ }

theorem undoEach_edges (entries : List CellEntry) (cells : Cells) (edges : List DlEdge) :
    undoEach CellEntry.undo entries (cells, edges) =
      ((undoEach CellEntry.undo entries (cells, [])).1, edges) :=
  @undoEach_comm _ _ CellEntry.undo (fun data => (data.1, edges)) (fun _ _ => rfl) entries (cells, [])

theorem cutEdges_append {size : Nat} {e : DlEdge} (short : size ≤ edges.length)
    (entries : List CellEntry) (cells : Cells) :
    cutEdges size (undoEach CellEntry.undo entries (cells, edges ++ [e])) =
      cutEdges size (undoEach CellEntry.undo entries (cells, edges)) := by
  rw [undoEach_edges, undoEach_edges entries cells edges]
  unfold cutEdges
  rw [take_append_of_le_length short]

theorem Faithful.updateCells (faithful : Faithful session) {e : DlEdge}
    (accepted : Accepted session.core.n session.core.cells e) :
    let next := { session.core with
      edges := session.core.edges ++ [e] }.updateCells session.core.edges.length
    (∃ saved, Alert session.core.n session.core.cells session.core.edges session.live e saved
        session.core.atoms next ∧ List.Forall₂ (Level session.core.n) saved session.older) ∧
      next.cells = after session.core.cells e session.core.edges.length := by
  obtain ⟨saved, kept, levels⟩ := faithful.scopes
  have start : Start session.core.n session.core.cells session.core.edges session.live e :=
    ⟨faithful.exact_, faithful.supported, faithful.budget, accepted⟩
  have kept' : Kept { session.core with edges := session.core.edges ++ [e] } saved := by
    have sizes := kept.sizes
    rw [pairwise_cons] at sizes
    refine ⟨kept.inside, kept.limits, ?_, ?_⟩
    · rw [length_append]
      exact pairwise_cons.mpr
        ⟨fun size mem => Nat.le_add_right_of_le (sizes.1 size mem), sizes.2⟩
    · -- The new edge is behind every limit.
      refine kept.kept.exchange fun limit size lies _ => ?_
      obtain ⟨data, mem⟩ := lies
      have short := sizes.1 size (mem_map_of_mem mem)
      exact cutEdges_append short _ _
  have alert : Alert session.core.n session.core.cells session.core.edges session.live e saved
      session.core.atoms { session.core with edges := session.core.edges ++ [e] } :=
    { number := rfl
      grown := rfl
      between := fun _ _ => .inl rfl
      laid := { faithful.laid with }
      watched := { faithful.watched with }
      kept := kept'
      justified := fun p mem =>
        (faithful.justified p mem).mono (subset_append_left _ _)
      registered := rfl
      noticed := fun _ _ _ => .inl }
  obtain ⟨alert', table⟩ := alert.updateCells start rfl
  exact ⟨⟨saved, alert', levels⟩, table⟩

theorem Faithful.round (faithful : Faithful session) {e : DlEdge}
    (accepted : Accepted session.core.n session.core.cells e) :
    Faithful { session with
      core := { session.core with
        edges := session.core.edges ++ [e] }.updateCells session.core.edges.length
      live := session.live ++ [e] } := by
  obtain ⟨⟨saved, turn', levels⟩, table⟩ := faithful.updateCells accepted
  have exact_ := faithful.exact_.after faithful.budget accepted session.core.edges.length
  have supported := faithful.supported.after faithful.exact_ faithful.budget accepted
  generalize DenseDlCore.updateCells _ _ = next at turn' table ⊢
  have number := turn'.number
  rw [← table, ← number] at exact_
  rw [← table, ← turn'.grown] at supported
  exact
    { budget := number.symm ▸ faithful.budget
      laid := turn'.laid
      watched := turn'.watched
      exact_ := exact_
      supported := supported
      justified := turn'.justified
      scopes := ⟨saved, turn'.kept, number.symm ▸ levels⟩ }

theorem known_iff (exact_ : Exact n core.cells live) {s t : Nat} (first : s < core.n)
    (second : t < core.n) : core.known s t = true ↔ core.distOf s t ≠ dlInf := by
  have support := exact_.known s t
  rw [DenseDlCore.cells_inside first second] at support
  dsimp only at support
  unfold DenseDlCore.known
  rw [Bool.and_eq_true, decide_eq_true_eq, decide_eq_true_eq, ne_eq, ne_eq, support]
  exact and_self_iff

theorem assertEdge_cases (exact_ : Exact n core.cells live) {e : DlEdge}
    (nodes : e.src < core.n ∧ e.dst < core.n) :
    let back := core.cells e.dst e.src
    (back.dist ≠ dlInf ∧ e.offset + back.dist < 0 ∧
      core.assertEdge e.src e.dst e.offset e.key e.pol =
        (core, .conflict (core.antecedents e.dst e.src ++ [(e.key, e.pol)]))) ∨
    (back.dist ≠ dlInf → 0 ≤ e.offset + back.dist) ∧ ((e.offset < (core.cells e.src e.dst).dist ∧
        core.assertEdge e.src e.dst e.offset e.key e.pol =
          ({ core with edges := core.edges ++ [e] }.updateCells core.edges.length, .ok)) ∨
      ((core.cells e.src e.dst).dist ≤ e.offset ∧
        core.assertEdge e.src e.dst e.offset e.key e.pol = (core, .ok))) := by
  have known := known_iff exact_ nodes.2 nodes.1
  intro back
  have here : back.dist = core.distOf e.dst e.src :=
    congrArg Cell.dist (DenseDlCore.cells_inside nodes.2 nodes.1)
  have there : (core.cells e.src e.dst).dist = core.distOf e.src e.dst :=
    congrArg Cell.dist (DenseDlCore.cells_inside nodes.1 nodes.2)
  rw [here, there, ← known]
  unfold DenseDlCore.assertEdge
  split
  · rename_i light
    exact .inl ⟨light.1, by omega, rfl⟩
  · rename_i heavy
    refine .inr ⟨fun finite => ?_, ?_⟩
    · have bound : ¬ -core.distOf e.dst e.src > e.offset := fun light => heavy ⟨finite, light⟩
      omega
    · split
      · rename_i shorter
        exact .inl ⟨shorter, rfl⟩
      · rename_i longer
        exact .inr ⟨not_lt.mp longer, rfl⟩

theorem Faithful.assertEdge (faithful : Faithful session) {e : DlEdge}
    (nodes : e.src < session.core.n ∧ e.dst < session.core.n) (weight : |e.offset| ≤ dlMaxAbsWeight) :
    Faithful (session.assertEdge e) := by
  unfold Session.assertEdge
  rcases assertEdge_cases faithful.exact_ nodes with ⟨_, _, outcome⟩ | ⟨cycle, ⟨_, outcome⟩ | ⟨longer, outcome⟩⟩
  · rw [outcome]
    exact faithful
  · rw [outcome]
    exact faithful.round ⟨nodes, weight, cycle⟩
  · -- An edge that does not improve the distance is not stored.
    rw [outcome]
    have more : session.live ⊆ session.live ++ [e] := subset_append_left _ _
    exact
      { budget := faithful.budget
        laid := faithful.laid
        watched := faithful.watched
        exact_ := faithful.exact_.redundant faithful.budget ⟨nodes, weight, cycle⟩ longer
        supported := faithful.supported.mono more
        justified := fun p mem => (faithful.justified p mem).mono more
        scopes := faithful.scopes }

theorem Faithful.push (faithful : Faithful session) :
    Faithful ⟨session.core.push, session.live, session.live :: session.older⟩ := by
  obtain ⟨saved, kept, levels⟩ := faithful.scopes
  have whole : cutEdges session.core.edges.length (session.core.cells, session.core.edges) =
      (session.core.cells, session.core.edges) :=
    Prod.ext rfl (take_length)
  exact
    { budget := faithful.budget
      laid := { faithful.laid with }
      watched := { faithful.watched with }
      exact_ := faithful.exact_
      supported := faithful.supported
      justified := faithful.justified
      scopes := by
        refine ⟨(session.core.edges.length, (session.core.cells, session.core.edges)) :: saved,
          ⟨kept.inside, congrArg (cons _) kept.limits, ?_, kept.kept.mark whole⟩,
          .cons ⟨faithful.exact_, faithful.supported⟩ levels⟩
        -- The new limit is the number of all edges.
        refine pairwise_cons.mpr ⟨fun size mem => ?_, kept.sizes⟩
        rcases mem_cons.mp mem with rfl | outer
        · exact le_rfl
        · exact (pairwise_cons.mp kept.sizes).1 size outer }

theorem undoEach_restore : ∀ {entries : List CellEntry} {core : DenseDlCore}, core.Laid →
    (∀ entry ∈ entries, entry.row < core.n ∧ entry.col < core.n) →
      ∃ distances supports, undoEach DenseDlCore.restore entries core =
          { core with dist := distances, edgeOf := supports } ∧
        (undoEach DenseDlCore.restore entries core).Laid ∧
        (undoEach DenseDlCore.restore entries core).cells =
          (undoEach CellEntry.undo entries (core.cells, core.edges)).1 := by
  intro entries
  induction entries with
  | nil => exact fun laid _ => ⟨_, _, rfl, laid, rfl⟩
  | cons entry rest ih =>
    intro core laid lies
    obtain ⟨row, col⟩ := lies entry (.head _)
    obtain ⟨distances, supports, fields, laid', table⟩ := ih
      (laid.setCell entry.row entry.col entry.edge entry.dist)
      fun other mem => lies other (.tail _ mem)
    refine ⟨distances, supports, fields, laid', table.trans ?_⟩
    -- The first write restores the cell of the first entry.
    have first : (core.setCell entry.row entry.col entry.edge entry.dist).cells =
        (entry.undo (core.cells, core.edges)).1 :=
      funext₂ fun a b => DenseDlCore.setCell_cells laid row col entry.edge entry.dist a b
    rw [undoEach_cons, first]
    rfl

theorem Kept.pop {limits : Nat × Nat} {scopes : List (Nat × Nat)} {first : Nat × (Cells × List DlEdge)}
    (kept : Kept core (first :: saved)) (open_ : core.scopes = limits :: scopes) (laid : core.Laid) :
    ∃ distances supports trail, core.pop =
        { core with
          dist := distances
          edgeOf := supports
          edges := core.edges.take limits.1
          cellTrail := trail
          scopes := scopes
          pending := [] } ∧
      core.pop.Laid ∧ Kept core.pop saved ∧ core.pop.cells = first.2.1 ∧ core.pop.edges = first.2.2 := by
  obtain ⟨edgesLimit, trailLimit⟩ := limits
  obtain ⟨size, data, stored⟩ := first
  have lies : ∀ entry ∈ above trailLimit core.cellTrail, entry.row < core.n ∧ entry.col < core.n :=
    fun entry mem => kept.inside entry (mem_of_mem_take mem)
  obtain ⟨distances, supports, fields, laid', table⟩ := undoEach_restore laid lies
  have sizes := kept.limits
  rw [open_, map_cons, map_cons] at sizes
  obtain ⟨same, rest⟩ := cons.inj sizes
  dsimp only at same
  subst same
  -- The trail gives back the cells, and the limit the edges.
  have closes := kept.kept
  rw [open_, map_cons] at closes
  obtain ⟨gives, outer⟩ := closes.close
  have parts := Prod.ext_iff.mp gives
  rw [undoEach_edges] at parts
  obtain ⟨cells, edges⟩ := parts
  have shorter : core.edges.take size = stored := edges
  rw [undoEach_edges] at table
  have before : (undoEach DenseDlCore.restore (above trailLimit core.cellTrail) core).cells = data :=
    table.trans cells
  rw [fields] at laid' before
  have form : core.pop =
      { core with
        dist := distances
        edgeOf := supports
        edges := core.edges.take size
        cellTrail := below trailLimit core.cellTrail
        scopes := scopes
        pending := [] } := by
    unfold DenseDlCore.pop
    rw [open_]
    dsimp only
    rw [fields]
  refine ⟨distances, supports, below trailLimit core.cellTrail, form, ?_⟩
  rw [form]
  refine ⟨{ laid' with }, ⟨?_, rest, ?_, ?_⟩, before, shorter⟩
  · exact fun entry mem => kept.inside entry (mem_of_mem_drop mem)
  · -- The closed scope had at least as many edges as the outer ones.
    have order := kept.sizes
    rw [map_cons, pairwise_cons] at order
    have short : size ≤ core.edges.length := order.1 size (.head _)
    show ((core.edges.take size).length :: saved.map Prod.fst).Pairwise _
    rw [length_take, Nat.min_eq_left short]
    exact order.2
  · show Saved CellEntry.undo cutEdges (scopes.map Prod.snd) (below trailLimit core.cellTrail)
      (_, core.edges.take size) saved
    have whole : ({ core with
        dist := distances
        edgeOf := supports
        edges := core.edges.take size
        cellTrail := below trailLimit core.cellTrail
        scopes := scopes
        pending := [] } : DenseDlCore).cells = data := before
    rw [whole, shorter]
    exact outer

theorem Faithful.pop (faithful : Faithful session) : Faithful (session.run .pop) := by
  obtain ⟨core, live, older⟩ := session
  obtain ⟨saved, kept, levels⟩ := faithful.scopes
  dsimp only at kept levels
  cases levels with
  | nil =>
    -- Without a scope nothing happens.
    have closed : core.scopes = [] := map_eq_nil_iff.mp kept.limits.symm
    have same : core.pop = core := by
      unfold DenseDlCore.pop
      rw [closed]
    show Faithful ⟨core.pop, live, []⟩
    rw [same]
    exact faithful
  | @cons first old saved older level levels =>
    obtain ⟨limits, scopes, open_⟩ : ∃ limits scopes, core.scopes = limits :: scopes := by
      have count := kept.limits
      cases open_ : core.scopes with
      | nil =>
        rw [open_] at count
        cases count
      | cons limits scopes => exact ⟨limits, scopes, rfl⟩
    obtain ⟨distances, supports, trail, fields, laid, kept', table, edges⟩ :=
      kept.pop open_ faithful.laid
    have exact_ := level.1
    have supported := level.2
    rw [← table] at exact_ supported
    rw [← edges] at supported
    show Faithful ⟨core.pop, old, older⟩
    rw [fields] at laid kept' exact_ supported ⊢
    exact
      { budget := faithful.budget
        laid := laid
        watched := { faithful.watched with }
        exact_ := exact_
        supported := supported
        justified := fun p mem => (nomatch mem)
        scopes := ⟨saved, kept', levels⟩ }

theorem Faithful.run (faithful : Faithful session) {call : Call} (legal : session.Legal call) :
    Faithful (session.run call) := by
  cases call with
  | internNode => exact faithful.internNode legal
  | internAtom key s t k isEq => exact faithful.internAtom key s t k isEq
  | assertEdge e => exact faithful.assertEdge legal.1 legal.2
  | takePropagations =>
    obtain ⟨saved, kept, levels⟩ := faithful.scopes
    exact
      { budget := faithful.budget
        laid := { faithful.laid with }
        watched := { faithful.watched with }
        exact_ := faithful.exact_
        supported := faithful.supported
        justified := fun p mem => (nomatch mem)
        scopes := ⟨saved, { kept with }, levels⟩ }
  | push => exact faithful.push
  | pop => exact faithful.pop
  | reset => exact faithful_new

theorem Session.Reachable.faithful (reachable : session.Reachable) : Faithful session := by
  -- By induction on the calls.
  induction reachable with
  | new => exact faithful_new
  | run call legal _ ih => exact ih.run legal

end

end Nixie.DiffLogic.Dense
