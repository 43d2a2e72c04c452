import Nixie.DiffLogic.Dense.Reasons

/-! One round of the closure update: every improved cell is written once, trailed, and explained. -/

namespace Nixie.DiffLogic.Dense

open Nixie.UndoTrail

section

variable {σ ι : Type*}

theorem foldl_settles {step : σ → ι → σ} {keeps : σ → Prop} {settled : ι → σ → Prop}
    {items : List ι}
    (one : ∀ item ∈ items, ∀ state, keeps state →
      keeps (step state item) ∧ settled item (step state item) ∧
        ∀ other, settled other state → settled other (step state item)) :
    ∀ {state : σ}, keeps state → keeps (items.foldl step state) ∧
      (∀ item ∈ items, settled item (items.foldl step state)) ∧
        ∀ other, settled other state → settled other (items.foldl step state) := by
  -- The first item is settled by the first step, and kept by the rest of the loop.
  induction items with
  | nil => exact fun kept => ⟨kept, fun _ mem => (nomatch mem), fun _ old => old⟩
  | cons item rest ih =>
    intro state kept
    obtain ⟨kept', own, others⟩ := one item (.head _) state kept
    obtain ⟨done, settles, stays⟩ := ih (fun later mem => one later (.tail _ mem)) kept'
    refine ⟨done, fun other mem => ?_, fun other old => stays other (others other old)⟩
    rcases List.mem_cons.mp mem with rfl | later
    · exact stays other own
    · exact settles other later

end

def CellEntry.undo (entry : CellEntry) (data : Cells × List DlEdge) : Cells × List DlEdge :=
  (fun a b => if a = entry.row ∧ b = entry.col then ⟨entry.dist, entry.edge⟩ else data.1 a b, data.2)

/-- Drop the edges that were stored since there were a number of them. -/
def cutEdges (limit : Nat) (data : Cells × List DlEdge) : Cells × List DlEdge :=
  (data.1, data.2.take limit)

/-- Closing the open scopes gives back the cells and edges of when they were opened. -/
structure Kept (core : DenseDlCore) (saved : List (Nat × (Cells × List DlEdge))) : Prop where
  inside : ∀ entry ∈ core.cellTrail, entry.row < core.n ∧ entry.col < core.n
  limits : saved.map Prod.fst = core.scopes.map Prod.fst
  sizes : (core.edges.length :: saved.map Prod.fst).Pairwise fun inner outer => outer ≤ inner
  kept : Saved CellEntry.undo cutEdges (core.scopes.map Prod.snd) core.cellTrail
    (core.cells, core.edges) saved

/-- A core during the round of an edge. -/
structure Turn (n : Nat) (cells : Cells) (edges live : List DlEdge) (e : DlEdge)
    (saved : List (Nat × (Cells × List DlEdge))) (core : DenseDlCore) : Prop extends
    Middle n cells edges e core where
  laid : core.Laid
  watched : Watched core
  kept : Kept core saved
  justified : ∀ p ∈ core.pending, Justified (live ++ [e]) core p

/-- What the round has decided so far is queued. -/
structure Alert (n : Nat) (cells : Cells) (edges live : List DlEdge) (e : DlEdge)
    (saved : List (Nat × (Cells × List DlEdge))) (atoms : List DlAtomEntry) (core : DenseDlCore) :
    Prop extends Turn n cells edges live e saved core where
  registered : core.atoms = atoms
  noticed : ∀ a ∈ atoms, ∀ pol, Decided core.cells a pol →
    Decided cells a pol ∨ Queued core.pending a.key pol

section

variable {n : Nat} {cells : Cells} {edges live : List DlEdge} {e : DlEdge}
  {saved : List (Nat × (Cells × List DlEdge))} {atoms : List DlAtomEntry} {core : DenseDlCore} {y x : Nat}

theorem Turn.queue (turn : Turn n cells edges live e saved core) {pending : List DlPropagation}
    (justified : ∀ p ∈ pending, Justified (live ++ [e]) core p) :
    Turn n cells edges live e saved { core with pending := pending } where
  number := turn.number
  grown := turn.grown
  between := turn.between
  laid := { turn.laid with }
  watched := { turn.watched with }
  kept := { turn.kept with }
  justified := justified

/-- Watchers that read a cell are queued with the polarity that it gives them. -/
def Notices (core : DenseDlCore) (y x : Nat) (ids : List Nat) (pending : List DlPropagation) : Prop :=
  ∀ id ∈ ids, ∀ a, core.atoms[id]? = some a → ∀ pol, Decided core.cells a pol → Reads a y x pol →
    Queued pending a.key pol

theorem Turn.propagateUsingCell (start : Start n cells edges live e)
    (turn : Turn n cells edges live e saved core) (row : y < n) (col : x < n) (apart : y ≠ x)
    (written : core.cells y x = after cells e edges.length y x)
    (finite : (core.cells y x).dist ≠ dlInf) :
    ∃ pending, core.propagateUsingCell y x = { core with pending := pending } ∧
      (∀ p ∈ pending, Justified (live ++ [e]) core p) ∧ core.pending ⊆ pending ∧
      Notices core y x (core.occs (y, x)) pending := by
  -- The loop over the watchers changes the queue only, so each of them reads the same matrix.
  suffices loop : ∀ (ids : List Nat), (∀ id ∈ ids, id ∈ core.occs (y, x)) →
      ∀ pending : List DlPropagation, (∀ p ∈ pending, Justified (live ++ [e]) core p) →
        ∃ queued, ids.foldl (DenseDlCore.watch y x) { core with pending := pending } =
            { core with pending := queued } ∧ (∀ p ∈ queued, Justified (live ++ [e]) core p) ∧
          pending ⊆ queued ∧ Notices core y x ids queued by
    exact loop (core.occs (y, x)) (fun _ mem => mem) core.pending turn.justified
  intro ids
  induction ids with
  | nil =>
    exact fun _ pending justified => ⟨pending, rfl, justified, .refl _, fun _ mem => (nomatch mem)⟩
  | cons id rest ih =>
    intro sub pending justified
    have turn' := turn.queue justified
    obtain ⟨queued, more, same⟩ := @watch_fields { core with pending := pending } y x id
    have next : ∀ p ∈ queued, Justified (live ++ [e]) core p := by
      intro p mem
      have lies : p ∈ (DenseDlCore.watch y x { core with pending := pending } id).pending := by
        rw [same]
        exact mem
      rcases turn'.toMiddle.watch start turn'.watched row col written finite (sub id (.head _)) lies
        with old | new
      · exact justified p old
      · exact new
    obtain ⟨final, folded, queued_, later, all_⟩ :=
      ih (fun other mem => sub other (.tail _ mem)) queued next
    refine ⟨final, ?_, queued_, List.Subset.trans more later, List.forall_mem_cons.mpr ⟨?_, all_⟩⟩
    · rw [List.foldl_cons, same]
      exact folded
    · intro a found pol decided reads
      obtain ⟨p, mem, names⟩ :=
        turn'.toMiddle.watch_queues start row col apart found decided reads
      rw [same] at mem
      exact ⟨p, later mem, names⟩

theorem Turn.write (turn : Turn n cells edges live e saved core) (row : y < n) (col : x < n)
    (improved : Improved cells e y x) :
    Turn n cells edges live e saved
      ({ core with cellTrail := ⟨y, x, core.supportOf y x, core.distOf y x⟩ :: core.cellTrail }.setCell
        y x (.edge edges.length) ((cells y e.src).dist + (e.offset + (cells e.dst x).dist))) ∧
    ∀ a b, ({ core with cellTrail :=
        ⟨y, x, core.supportOf y x, core.distOf y x⟩ :: core.cellTrail }.setCell
        y x (.edge edges.length) ((cells y e.src).dist + (e.offset + (cells e.dst x).dist))).cells a b =
      if a = y ∧ b = x then after cells e edges.length y x else core.cells a b := by
  have laid : DenseDlCore.Laid
      { core with cellTrail := ⟨y, x, core.supportOf y x, core.distOf y x⟩ :: core.cellTrail } :=
    { turn.laid with }
  have first : y < core.n := turn.number ▸ row
  have second : x < core.n := turn.number ▸ col
  have value : after cells e edges.length y x =
      ⟨(cells y e.src).dist + (e.offset + (cells e.dst x).dist), .edge edges.length⟩ := by
    unfold after
    rw [if_pos improved]
  have table := DenseDlCore.setCell_cells laid first second (.edge edges.length)
    ((cells y e.src).dist + (e.offset + (cells e.dst x).dist))
  rw [← value] at table
  refine ⟨?_, table⟩
  constructor
  · constructor
    · exact turn.number
    · exact turn.grown
    · -- The written cell has its final value, the others are as before.
      intro a b
      rw [table]
      split
      · rename_i here
        obtain ⟨rfl, rfl⟩ := here
        exact .inr ⟨improved, rfl⟩
      · exact turn.between a b
  · exact laid.setCell _ _ _ _
  · exact { turn.watched with }
  · constructor
    · intro entry mem
      rcases List.mem_cons.mp mem with rfl | old
      · exact ⟨first, second⟩
      · exact turn.kept.inside entry old
    · exact turn.kept.limits
    · exact turn.kept.sizes
    · -- The entry holds the cell as it was.
      refine @Saved.record _ _ _ _ _ _ _ (core.cells, core.edges) _ _ _ (Prod.ext ?_ rfl) turn.kept.kept
      funext a b
      show (if a = y ∧ b = x then (⟨core.distOf y x, core.supportOf y x⟩ : Cell) else _) = _
      split
      · rename_i here
        obtain ⟨rfl, rfl⟩ := here
        exact (DenseDlCore.cells_inside first second).symm
      · rename_i apart
        exact (table a b).trans (if_neg apart)
  · exact turn.justified

/-- A target of the round: a column that the edge brings nearer to its source. -/
def Target (cells : Cells) (e : DlEdge) (target : Nat × Int) : Prop :=
  target.1 ≠ e.src ∧ (cells e.dst target.1).dist ≠ dlInf ∧
    e.offset + (cells e.dst target.1).dist < (cells e.src target.1).dist ∧
      target.2 = e.offset + (cells e.dst target.1).dist

/-- A cell that the round is done with. -/
def Settled (cells : Cells) (edges : List DlEdge) (e : DlEdge) (pair : Nat × Nat)
    (core : DenseDlCore) : Prop :=
  core.cells pair.1 pair.2 = after cells e edges.length pair.1 pair.2

theorem Alert.relaxCell (start : Start n cells edges live e)
    (turn : Alert n cells edges live e saved atoms core) {target : Nat × Int} (row : y < n)
    (col : target.1 < n) (source : y ≠ e.dst ∧ (cells y e.src).dist ≠ dlInf)
    (aimed : Target cells e target) :
    Alert n cells edges live e saved atoms
        (DenseDlCore.relaxCell edges.length y (cells y e.src).dist core target) ∧
      Settled cells edges e (y, target.1)
        (DenseDlCore.relaxCell edges.length y (cells y e.src).dist core target) ∧
      ∀ pair, Settled cells edges e pair core → Settled cells edges e pair
        (DenseDlCore.relaxCell edges.length y (cells y e.src).dist core target) := by
  obtain ⟨x, via⟩ := target
  obtain ⟨column, reach, nearer, same⟩ := aimed
  dsimp only at col column reach nearer same
  subst same
  have here : core.cells y x = ⟨core.distOf y x, core.supportOf y x⟩ :=
    DenseDlCore.cells_inside (turn.number ▸ row) (turn.number ▸ col)
  unfold DenseDlCore.relaxCell
  dsimp only
  split
  · -- The diagonal is never improved.
    rename_i diagonal
    refine ⟨turn, ?_, fun _ settled => settled⟩
    have stays : ¬ Improved cells e y x := fun improved => improved.2.2.1 diagonal
    show core.cells y x = after cells e edges.length y x
    rw [turn.between.stays stays, after, if_neg stays]
  rename_i apart
  split
  · -- The cell has its old value, and is improved.
    rename_i lighter
    have improved : Improved cells e y x := by
      refine ⟨⟨column, reach, nearer⟩, source, apart, ?_⟩
      rcases turn.between y x with old | ⟨improved, _⟩
      · rw [← old, here]
        exact lighter
      · exact improved.2.2.2
    obtain ⟨turn', table⟩ := turn.write row col improved
    have written := (table y x).trans (if_pos ⟨rfl, rfl⟩)
    have finite : (after cells e edges.length y x).dist ≠ dlInf := by
      unfold after
      rw [if_pos improved]
      exact ne_of_lt (start.exact_.detour_lt start.budget start.accepted source.2 reach).1
    obtain ⟨pending, queued, justified, more, notices⟩ :=
      turn'.propagateUsingCell start row col (Ne.symm apart) written (written ▸ finite)
    rw [queued]
    refine ⟨⟨turn'.queue justified, turn.registered, fun a mem pol decided => ?_⟩, written, fun pair settled => ?_⟩
    · rcases decided.reads fun s t other => (table s t).trans (if_neg other) with old | reads
      · refine (turn.noticed a mem pol old).imp_right ?_
        rintro ⟨p, before, names⟩
        exact ⟨p, more before, names⟩
      · -- An atom that the cell decides watches it.
        obtain ⟨id, found⟩ := List.getElem?_of_mem (turn.registered ▸ mem)
        obtain ⟨forward, backward⟩ := turn.watched.watches id a found
        refine .inr (notices id ?_ a found pol decided reads)
        rcases reads with ⟨-, rfl, rfl⟩ | ⟨-, rfl, rfl⟩
        · exact forward
        · exact backward
    · refine (table pair.1 pair.2).trans ?_
      split
      · rename_i same
        rw [same.1, same.2]
      · exact settled
  · -- The cell is not improved, or it is written already.
    rename_i heavier
    refine ⟨turn, ?_, fun _ settled => settled⟩
    show core.cells y x = after cells e edges.length y x
    rcases turn.between y x with old | ⟨_, new⟩
    · have stays : ¬ Improved cells e y x := by
        rintro ⟨_, _, _, less⟩
        rw [← old, here] at less
        exact heavier less
      rw [old, after, if_neg stays]
    · exact new

theorem Alert.relaxRow (start : Start n cells edges live e)
    (turn : Alert n cells edges live e saved atoms core) {targets : List (Nat × Int)} (row : y < n)
    (aimed : ∀ target ∈ targets, target.1 < n ∧ Target cells e target) :
    Alert n cells edges live e saved atoms (DenseDlCore.relaxRow edges.length e targets core y) ∧
      (∀ target ∈ targets, Settled cells edges e (y, target.1)
        (DenseDlCore.relaxRow edges.length e targets core y)) ∧
      ∀ pair, Settled cells edges e pair core → Settled cells edges e pair
        (DenseDlCore.relaxRow edges.length e targets core y) := by
  -- A row that does not reach the source, or is that of the target, is not improved.
  have skipped : ¬ (y ≠ e.dst ∧ (cells y e.src).dist ≠ dlInf) →
      ∀ target : Nat × Int, Settled cells edges e (y, target.1) core := by
    intro skip target
    have stays : ¬ Improved cells e y target.1 := fun improved => skip improved.2.1
    show core.cells y target.1 = after cells e edges.length y target.1
    rw [turn.between.stays stays, after, if_neg stays]
  -- The column of the source is not written in the round.
  have column : core.cells y e.src = cells y e.src :=
    turn.between.stays fun improved => improved.1.1 rfl
  have stable : core.distOf y e.src = (cells y e.src).dist := by
    rw [← column, DenseDlCore.cells_inside (turn.number ▸ row)
      (turn.number ▸ start.accepted.nodes.1)]
  unfold DenseDlCore.relaxRow
  rw [stable]
  dsimp only
  split
  · rename_i same
    exact ⟨turn, fun target _ => skipped (fun source => source.1 same) target, fun _ old => old⟩
  rename_i apart
  split
  · rename_i unreachable
    exact ⟨turn, fun target _ => skipped (fun source => source.2 unreachable) target,
      fun _ old => old⟩
  · rename_i finite
    -- One step of the loop relaxes one cell; what was settled before the loop stays so.
    obtain ⟨⟨turn', stays⟩, settles, _⟩ := @foldl_settles _ _
      (DenseDlCore.relaxCell edges.length y (cells y e.src).dist)
      (fun state => Alert n cells edges live e saved atoms state ∧
        ∀ pair, Settled cells edges e pair core → Settled cells edges e pair state)
      (fun target => Settled cells edges e (y, target.1)) targets
      (fun target mem state ⟨turn, stays⟩ => by
        obtain ⟨col, aim⟩ := aimed target mem
        obtain ⟨turn', own, others⟩ := turn.relaxCell start row col ⟨apart, finite⟩ aim
        exact ⟨⟨turn', fun pair old => others pair (stays pair old)⟩, own, fun other => others _⟩)
      core ⟨turn, fun _ old => old⟩
    exact ⟨turn', settles, stays⟩

end

section

variable {n : Nat} {cells : Cells} {edges live : List DlEdge} {e : DlEdge}
  {saved : List (Nat × (Cells × List DlEdge))} {atoms : List DlAtomEntry} {core : DenseDlCore}

theorem mem_fTargets (nodes : e.src < core.n ∧ e.dst < core.n) {target : Nat × Int} :
    target ∈ core.fTargets e ↔ target.1 < core.n ∧ Target core.cells e target := by
  obtain ⟨x, via⟩ := target
  unfold DenseDlCore.fTargets Target
  rw [List.mem_filterMap]
  constructor
  · rintro ⟨x', lies, aimed⟩
    have lies := List.mem_range.mp lies
    split at aimed
    · cases aimed
    rename_i apart
    split at aimed
    · cases aimed
    rename_i finite
    split at aimed
    · rename_i nearer
      cases aimed
      rw [DenseDlCore.cells_inside nodes.2 lies, DenseDlCore.cells_inside nodes.1 lies]
      exact ⟨lies, apart, finite, nearer, rfl⟩
    · cases aimed
  · rintro ⟨lies, apart, finite, nearer, same⟩
    dsimp only at lies apart finite nearer same
    rw [DenseDlCore.cells_inside nodes.2 lies, DenseDlCore.cells_inside nodes.1 lies] at nearer
    rw [DenseDlCore.cells_inside nodes.2 lies] at finite same
    refine ⟨x, List.mem_range.mpr lies, ?_⟩
    rw [if_neg apart, if_neg finite, if_pos nearer, same]

theorem Alert.updateCells (start : Start n cells edges live e)
    (turn : Alert n cells edges live e saved atoms core) (same : core.cells = cells) :
    Alert n cells edges live e saved atoms (core.updateCells edges.length) ∧
      (core.updateCells edges.length).cells = after cells e edges.length := by
  have found : core.edges[edges.length]? = some e := by
    rw [turn.grown]
    exact List.getElem?_concat_length
  have targets : ∀ target, target ∈ core.fTargets e ↔ target.1 < n ∧ Target cells e target := by
    intro target
    rw [mem_fTargets (turn.number ▸ start.accepted.nodes), turn.number, same]
  -- An improved cell is in the row of a node, and in the column of a target.
  have aims : ∀ {y x : Nat}, Improved cells e y x →
      y < n ∧ ∃ target ∈ core.fTargets e, target.1 = x := by
    rintro y x ⟨⟨column, reach, nearer⟩, ⟨_, source⟩, _⟩
    constructor
    · by_cases here : y = e.src
      · exact here ▸ start.accepted.nodes.1
      · exact (start.exact_.inside source here).1
    · refine ⟨(x, e.offset + (cells e.dst x).dist),
        (targets _).mpr ⟨?_, column, reach, nearer, rfl⟩, rfl⟩
      by_cases here : e.dst = x
      · exact here ▸ start.accepted.nodes.2
      · exact (start.exact_.inside reach here).2
  unfold DenseDlCore.updateCells
  rw [found]
  dsimp only
  split
  · -- Without targets nothing is improved.
    rename_i none
    refine ⟨turn, ?_⟩
    rw [same]
    funext y x
    unfold after
    rw [if_neg]
    intro improved
    obtain ⟨_, target, mem, _⟩ := aims improved
    rw [none] at mem
    cases mem
  · rw [turn.number]
    obtain ⟨turn', settles, _⟩ := @foldl_settles _ _
      (DenseDlCore.relaxRow edges.length e (core.fTargets e))
      (Alert n cells edges live e saved atoms)
      (fun y state => ∀ target ∈ core.fTargets e, Settled cells edges e (y, target.1) state)
      (List.range n)
      (fun y mem state turn => by
        obtain ⟨turn', own, others⟩ := turn.relaxRow start (List.mem_range.mp mem)
          fun target lies => (targets target).mp lies
        exact ⟨turn', own, fun y' settled target lies => others _ (settled target lies)⟩)
      core turn
    refine ⟨turn', ?_⟩
    funext y x
    by_cases improved : Improved cells e y x
    · obtain ⟨row, target, mem, rfl⟩ := aims improved
      exact settles y (List.mem_range.mpr row) target mem
    · rw [turn'.between.stays improved, after, if_neg improved]

end

end Nixie.DiffLogic.Dense
