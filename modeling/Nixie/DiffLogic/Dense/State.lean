import Mathlib.Algebra.Group.Int.Defs
import Mathlib.Data.List.Basic
import Nixie.Data.UndoTrail

/-! The dense difference-logic core: its matrix, its edges, and the update for a new edge. -/

namespace Nixie.DiffLogic.Dense

open Function

def dlInf : Int := 2 ^ 61 - 1

def dlMaxAbsWeight : Int := 2 ^ 40

def dlMaxNodes : Nat := 2048

inductive Support where
  | noEdge
  | selfEdge
  | edge (id : Nat)
  deriving DecidableEq, Repr

/-- An asserted edge, justified by an atom with a polarity. -/
structure DlEdge where
  src : Nat
  dst : Nat
  offset : Int
  key : Nat
  pol : Bool
  deriving DecidableEq, Repr

/-- An atom under observation: the difference of two nodes is bounded by, or equal to, a constant. -/
structure DlAtomEntry where
  key : Nat
  s : Nat
  t : Nat
  k : Int
  isEq : Bool
  deriving DecidableEq, Repr

/-- An atom that is forced to a polarity by asserted atoms. -/
structure DlPropagation where
  key : Nat
  pol : Bool
  reason : List (Nat × Bool)
  deriving DecidableEq, Repr

inductive DlAssert where
  | ok
  /-- The edge closes a negative cycle of the listed atoms. -/
  | conflict (reason : List (Nat × Bool))
  deriving DecidableEq, Repr

/-- A cell as it was before a write. -/
structure CellEntry where
  row : Nat
  col : Nat
  edge : Support
  dist : Int
  deriving DecidableEq, Repr

/-- The state of the core. -/
structure DenseDlCore where
  n : Nat
  cap : Nat
  dist : List Int
  edgeOf : List Support
  edges : List DlEdge
  atoms : List DlAtomEntry
  keyToAtom : Nat → Option Nat
  occs : Nat × Nat → List Nat
  cellTrail : List CellEntry
  /-- Numbers of edges and written cells when each open scope began, the innermost first. -/
  scopes : List (Nat × Nat)
  pending : List DlPropagation

namespace DenseDlCore

def new : DenseDlCore where
  n := 0
  cap := 0
  dist := []
  edgeOf := []
  edges := []
  atoms := []
  keyToAtom := fun _ => none
  occs := fun _ => []
  cellTrail := []
  scopes := []
  pending := []

def hasNodeBudget (core : DenseDlCore) : Bool := core.n < dlMaxNodes

/-- Copy the rows of a matrix to a larger stride. -/
def restride {α : Type} (n cap newCap : Nat) (fill : α) (cells : List α) : List α :=
  (List.range n).flatMap fun r =>
    (cells.drop (r * cap)).take n ++ List.replicate (newCap - n) fill

def relayout (core : DenseDlCore) : DenseDlCore :=
  let newCap := if core.cap = 0 then 4 else core.cap * 2
  { core with
    dist := restride core.n core.cap newCap dlInf core.dist
    edgeOf := restride core.n core.cap newCap .noEdge core.edgeOf
    cap := newCap }

def cell (core : DenseDlCore) (s t : Nat) : Nat := s * core.cap + t

def distOf (core : DenseDlCore) (s t : Nat) : Int := core.dist.getD (core.cell s t) dlInf

def supportOf (core : DenseDlCore) (s t : Nat) : Support := core.edgeOf.getD (core.cell s t) .noEdge

def setCell (core : DenseDlCore) (row col : Nat) (support : Support) (dist : Int) : DenseDlCore :=
  { core with
    dist := core.dist.set (core.cell row col) dist
    edgeOf := core.edgeOf.set (core.cell row col) support }

def reserve (core : DenseDlCore) (needed : Nat) : DenseDlCore :=
  if core.dist.length < needed then
    { core with
      dist := core.dist ++ List.replicate (needed - core.dist.length) dlInf
      edgeOf := core.edgeOf ++ List.replicate (needed - core.edgeOf.length) .noEdge }
  else core

def internNode (core : DenseDlCore) : DenseDlCore × Nat :=
  let core := if core.n = core.cap then core.relayout else core
  let idx := core.n
  let core := { core.reserve ((idx + 1) * core.cap) with n := idx + 1 }
  -- The new row, the new column, and the diagonal.
  let core := (List.range (idx + 1)).foldl (fun core c => core.setCell idx c .noEdge dlInf) core
  let core := (List.range idx).foldl (fun core r => core.setCell r idx .noEdge dlInf) core
  (core.setCell idx idx .selfEdge 0, idx)

def known (core : DenseDlCore) (s t : Nat) : Bool :=
  core.distOf s t ≠ dlInf && core.supportOf s t ≠ .noEdge

def distance (core : DenseDlCore) (s t : Nat) : Option Int :=
  if core.known s t then some (core.distOf s t) else none

/-- Register an atom; the first registration of a key wins. -/
def internAtom (core : DenseDlCore) (key s t : Nat) (k : Int) (isEq : Bool) : DenseDlCore :=
  if (core.keyToAtom key).isSome then core
  else
    let id := core.atoms.length
    let occs := update core.occs (s, t) (core.occs (s, t) ++ [id])
    { core with
      atoms := core.atoms ++ [{ key := key, s := s, t := t, k := k, isEq := isEq }]
      keyToAtom := update core.keyToAtom key (some id)
      occs := if s ≠ t then update occs (t, s) (occs (t, s) ++ [id]) else occs }

def atomOf (core : DenseDlCore) (key : Nat) : Option DlAtomEntry :=
  (core.keyToAtom key).bind fun id => core.atoms[id]?

/-- Whether the explanation of a cell has nothing to emit. -/
def skips (core : DenseDlCore) (pair : Nat × Nat) : Bool :=
  pair.1 = pair.2 ||
    match core.supportOf pair.1 pair.2 with
    | .edge id => core.edges[id]?.isNone
    | _ => true

def supportEdge (core : DenseDlCore) (pair : Nat × Nat) : Option DlEdge :=
  match core.supportOf pair.1 pair.2 with
  | .edge id => core.edges[id]?
  | _ => none

/-- Work through cells to explain; the budget bounds the emitted edges. -/
def antecedentsLoop (core : DenseDlCore) : Nat → List (Nat × Nat) → List (Nat × Bool)
  | budget, todo =>
      match todo.dropWhile core.skips with
      | [] => []
      | pair :: rest =>
          match core.supportEdge pair with
          | none => []
          | some e =>
              -- The part behind the edge is explained first.
              let rest := if pair.1 ≠ e.src then (pair.1, e.src) :: rest else rest
              let rest := if e.dst ≠ pair.2 then (e.dst, pair.2) :: rest else rest
              match budget with
              | 0 => [(e.key, e.pol)]
              | budget + 1 => (e.key, e.pol) :: antecedentsLoop core budget rest

def antecedents (core : DenseDlCore) (s t : Nat) : List (Nat × Bool) :=
  if s ≠ t then core.antecedentsLoop (core.edges.length * 2 + 8) [(s, t)] else []

/-- Queue a propagation unless the same atom and polarity are queued. -/
def pushProp (core : DenseDlCore) (key : Nat) (pol : Bool) (reason : List (Nat × Bool)) :
    DenseDlCore :=
  if core.pending.any fun p => p.key = key && p.pol = pol then core
  else { core with pending := core.pending ++ [{ key := key, pol := pol, reason := reason }] }

def watch (y x : Nat) (core : DenseDlCore) (id : Nat) : DenseDlCore :=
  match core.atoms[id]? with
  | none => core
  | some a =>
      let d := core.distOf y x
      if a.s = y ∧ a.t = x then
        if d ≤ a.k then
          if a.isEq then
            -- An equality needs the way back as well.
            if core.known x y ∧ core.distOf x y ≤ -a.k then
              core.pushProp a.key true (core.antecedents y x ++ core.antecedents x y)
            else core
          else core.pushProp a.key true (core.antecedents y x)
        else core
      else if a.isEq then
        if d ≤ -a.k ∧ core.known a.s a.t ∧ core.distOf a.s a.t ≤ a.k then
          core.pushProp a.key true (core.antecedents y x ++ core.antecedents a.s a.t)
        else core
      else if -d > a.k then core.pushProp a.key false (core.antecedents y x)
      else core

/-- Let the atoms of an improved cell watch it. -/
def propagateUsingCell (core : DenseDlCore) (y x : Nat) : DenseDlCore :=
  (core.occs (y, x)).foldl (watch y x) core

/-- Nodes whose distance from the source of an edge improves through the edge. -/
def fTargets (core : DenseDlCore) (e : DlEdge) : List (Nat × Int) :=
  (List.range core.n).filterMap fun x =>
    if x = e.src then none
    else if core.distOf e.dst x = dlInf then none
    else if e.offset + core.distOf e.dst x < core.distOf e.src x then
      some (x, e.offset + core.distOf e.dst x)
    else none

def relaxCell (id y : Nat) (toSource : Int) (core : DenseDlCore) (target : Nat × Int) : DenseDlCore :=
  let x := target.1
  if x = y then core
  else
    let newDist := toSource + target.2
    if newDist < core.distOf y x then
      let entry : CellEntry :=
        { row := y, col := x, edge := core.supportOf y x, dist := core.distOf y x }
      ({ core with cellTrail := entry :: core.cellTrail }.setCell y x (.edge id)
        newDist).propagateUsingCell y x
    else core

def relaxRow (id : Nat) (e : DlEdge) (targets : List (Nat × Int)) (core : DenseDlCore) (y : Nat) :
    DenseDlCore :=
  if y = e.dst then core
  else
    let toSource := core.distOf y e.src
    if toSource = dlInf then core else targets.foldl (relaxCell id y toSource) core

def updateCells (core : DenseDlCore) (id : Nat) : DenseDlCore :=
  match core.edges[id]? with
  | none => core
  | some e =>
      let targets := core.fTargets e
      if targets = [] then core else (List.range core.n).foldl (relaxRow id e targets) core

def assertEdge (core : DenseDlCore) (src dst : Nat) (offset : Int) (key : Nat) (pol : Bool) :
    DenseDlCore × DlAssert :=
  if core.known dst src ∧ -core.distOf dst src > offset then
    (core, .conflict (core.antecedents dst src ++ [(key, pol)]))
  else if offset < core.distOf src dst then
    let edge : DlEdge := { src := src, dst := dst, offset := offset, key := key, pol := pol }
    ({ core with edges := core.edges ++ [edge] }.updateCells core.edges.length, .ok)
  else (core, .ok)

def takePropagations (core : DenseDlCore) : DenseDlCore × List DlPropagation :=
  ({ core with pending := [] }, core.pending)

def push (core : DenseDlCore) : DenseDlCore :=
  { core with scopes := (core.edges.length, core.cellTrail.length) :: core.scopes }

def restore (entry : CellEntry) (core : DenseDlCore) : DenseDlCore :=
  core.setCell entry.row entry.col entry.edge entry.dist

def pop (core : DenseDlCore) : DenseDlCore :=
  match core.scopes with
  | [] => core
  | (edgesLimit, trailLimit) :: scopes =>
      let core := UndoTrail.undoEach restore (UndoTrail.above trailLimit core.cellTrail) core
      { core with
        cellTrail := UndoTrail.below trailLimit core.cellTrail
        scopes := scopes
        edges := core.edges.take edgesLimit
        pending := [] }

def value (core : DenseDlCore) (v : Nat) : Int :=
  -(List.range core.n).foldl (fun d w =>
    if w = v then d
    else if core.known v w ∧ core.distOf v w < d then core.distOf v w else d) 0

end DenseDlCore

end Nixie.DiffLogic.Dense

/-! The row-major matrix read as a table of cells, which re-layouts and new nodes do not change. -/

namespace Nixie.DiffLogic.Dense

open List Nat

/-- Distance and support of a pair of nodes. -/
structure Cell where
  dist : Int
  edge : Support
  deriving DecidableEq, Repr

/-- The cell of a pair that no edge touches. -/
def isolated (s t : Nat) : Cell := if s = t then ⟨0, .selfEdge⟩ else ⟨dlInf, .noEdge⟩

namespace DenseDlCore

/-- The cells of the matrix; nodes that do not exist are isolated. -/
def cells (core : DenseDlCore) (s t : Nat) : Cell :=
  if s < core.n ∧ t < core.n then ⟨core.distOf s t, core.supportOf s t⟩ else isolated s t

/-- The vectors have room for every row. -/
structure Laid (core : DenseDlCore) : Prop where
  stride : core.n ≤ core.cap
  dist : core.n * core.cap ≤ core.dist.length
  same : core.edgeOf.length = core.dist.length

theorem Laid.edgeOf {core : DenseDlCore} (laid : Laid core) :
    core.n * core.cap ≤ core.edgeOf.length := laid.same ▸ laid.dist

section

variable {core : DenseDlCore} {s t : Nat}

theorem cells_inside (first : s < core.n) (second : t < core.n) :
    core.cells s t = ⟨core.distOf s t, core.supportOf s t⟩ := if_pos ⟨first, second⟩

theorem cells_outside (beyond : ¬ (s < core.n ∧ t < core.n)) : core.cells s t = isolated s t :=
  if_neg beyond

theorem position_inj {cap a b c d : Nat} (first : b < cap) (second : d < cap) :
    a * cap + b = c * cap + d ↔ a = c ∧ b = d := by
  constructor
  · intro same
    -- The row is the quotient by the stride, the column the remainder.
    have rows := congrArg (· / cap) same
    have cols := congrArg (· % cap) same
    have pos : 0 < cap := by omega
    simp only [mul_add_mod_of_lt first, mul_add_mod_of_lt second] at cols
    simp only [Nat.mul_comm _ cap, Nat.mul_add_div pos, div_eq_of_lt first,
      div_eq_of_lt second, Nat.add_zero] at rows
    exact ⟨rows, cols⟩
  · rintro ⟨rfl, rfl⟩
    rfl

theorem position_lt {n cap a b : Nat} (row : a < n) (col : b < cap) : a * cap + b < n * cap := by
  have whole : (a + 1) * cap ≤ n * cap := mul_le_mul_right _ row
  rw [Nat.add_mul, Nat.one_mul] at whole
  omega

theorem setCell_cells (laid : Laid core) (row : s < core.n) (col : t < core.n) (support : Support)
    (dist : Int) (a b : Nat) : (core.setCell s t support dist).cells a b =
      if a = s ∧ b = t then ⟨dist, support⟩ else core.cells a b := by
  have stride := laid.stride
  unfold cells
  show (if a < core.n ∧ b < core.n then _ else _) = _
  by_cases lies : a < core.n ∧ b < core.n
  · rw [if_pos lies, if_pos lies]
    -- The written position is that of the cell exactly when the pairs agree.
    have place := @position_inj core.cap a b s t (Nat.lt_of_lt_of_le lies.2 stride)
      (Nat.lt_of_lt_of_le col stride)
    have room := position_lt row (Nat.lt_of_lt_of_le col stride)
    unfold distOf supportOf setCell cell
    dsimp only
    by_cases here : a = s ∧ b = t
    · obtain ⟨rfl, rfl⟩ := here
      rw [if_pos ⟨rfl, rfl⟩]
      have first := Nat.lt_of_lt_of_le room laid.dist
      have second := Nat.lt_of_lt_of_le room laid.edgeOf
      simp [getD_eq_getElem?_getD, first, second]
    · have apart : s * core.cap + t ≠ a * core.cap + b := fun same => here (place.mp same.symm)
      rw [if_neg here]
      simp [getD_eq_getElem?_getD, getElem?_set_ne apart]
  · rw [if_neg lies, if_neg lies]
    have apart : ¬ (a = s ∧ b = t) := by
      rintro ⟨rfl, rfl⟩
      exact lies ⟨row, col⟩
    rw [if_neg apart]

theorem Laid.setCell (laid : Laid core) (row col : Nat) (support : Support) (dist : Int) :
    Laid (core.setCell row col support dist) where
  stride := laid.stride
  dist := by
    show core.n * core.cap ≤ (core.dist.set _ _).length
    rw [length_set]
    exact laid.dist
  same := by
    show (core.edgeOf.set _ _).length = (core.dist.set _ _).length
    rw [length_set, length_set]
    exact laid.same

theorem length_rows {α : Type} {row : Nat → List α} {width : Nat} : ∀ {count : Nat},
    (∀ r < count, (row r).length = width) →
      ((List.range count).flatMap row).length = count * width := by
  intro count
  induction count with
  | zero => exact fun _ => (Nat.zero_mul _).symm
  | succ count ih =>
    intro uniform
    rw [range_succ, flatMap_append, length_append,
      ih fun r below => uniform r (lt_succ_of_lt below), Nat.add_mul, Nat.one_mul]
    simp [uniform count (lt_succ_self _)]

theorem getElem?_rows {α : Type} {row : Nat → List α} {width : Nat} : ∀ {count r c : Nat},
    (∀ r < count, (row r).length = width) → r < count → c < width →
      ((List.range count).flatMap row)[r * width + c]? = (row r)[c]? := by
  intro count
  induction count with
  | zero => exact fun _ below => absurd below (not_lt_zero _)
  | succ count ih =>
    intro r c uniform below lies
    have earlier : ∀ r < count, (row r).length = width :=
      fun r below => uniform r (lt_succ_of_lt below)
    have length := length_rows earlier
    rw [range_succ, flatMap_append]
    rcases Nat.lt_succ_iff_lt_or_eq.mp below with before | rfl
    · rw [getElem?_append_left (by rw [length]; exact position_lt before lies)]
      exact ih earlier before lies
    · -- The last row begins behind the others.
      rw [getElem?_append_right (by omega), length]
      simp

theorem length_row {α : Type} {n cap newCap r : Nat} {fill : α} {matrix : List α} (stride : n ≤ cap)
    (wider : n ≤ newCap) (room : n * cap ≤ matrix.length) (row : r < n) :
    ((matrix.drop (r * cap)).take n ++ List.replicate (newCap - n) fill).length = newCap := by
  have whole : (r + 1) * cap ≤ n * cap := mul_le_mul_right _ row
  rw [Nat.add_mul, Nat.one_mul] at whole
  simp only [length_append, length_take, length_drop, length_replicate]
  omega

theorem getD_restride {α : Type} {n cap newCap a b : Nat} {fill : α} {matrix : List α}
    (row : a < n) (col : b < n) (stride : n ≤ cap) (wider : n ≤ newCap)
    (room : n * cap ≤ matrix.length) :
    (restride n cap newCap fill matrix).getD (a * newCap + b) fill =
      matrix.getD (a * cap + b) fill := by
  have lies : b < newCap := by omega
  have whole : (a + 1) * cap ≤ n * cap := mul_le_mul_right _ row
  rw [Nat.add_mul, Nat.one_mul] at whole
  unfold restride
  rw [getD_eq_getElem?_getD,
    getElem?_rows (fun r below => length_row stride wider room below) row lies,
    getElem?_append_left (by simp; omega), getElem?_take_of_lt col, getElem?_drop,
    getD_eq_getElem?_getD]

theorem length_restride {α : Type} {n cap newCap : Nat} {fill : α} {matrix : List α}
    (stride : n ≤ cap) (wider : n ≤ newCap) (room : n * cap ≤ matrix.length) :
    (restride n cap newCap fill matrix).length = n * newCap :=
  length_rows fun _ below => length_row stride wider room below

theorem relayout_spec (laid : Laid core) : Laid core.relayout ∧
    core.n < core.relayout.cap ∧ ∀ a b, core.relayout.cells a b = core.cells a b := by
  have stride := laid.stride
  have wider : core.n < if core.cap = 0 then 4 else core.cap * 2 := by
    split <;> omega
  have room := Nat.le_of_lt wider
  refine ⟨⟨room, ?_, ?_⟩, wider, fun a b => ?_⟩
  · exact Nat.le_of_eq (length_restride stride room laid.dist).symm
  · exact (length_restride stride room laid.edgeOf).trans
      (length_restride stride room laid.dist).symm
  · unfold cells
    show (if a < core.n ∧ b < core.n then _ else _) = _
    split
    · rename_i lies
      unfold distOf supportOf relayout cell
      dsimp only
      rw [getD_restride lies.1 lies.2 stride room laid.dist,
        getD_restride lies.1 lies.2 stride room laid.edgeOf]
    · rfl

theorem reserve_spec (laid : Laid core) (stride : core.n < core.cap) :
    Laid { core.reserve ((core.n + 1) * core.cap) with n := core.n + 1 } ∧
      ∀ a b, a < core.n → b < core.n →
        ({ core.reserve ((core.n + 1) * core.cap) with n := core.n + 1 } : DenseDlCore).cells a b =
          core.cells a b := by
  have dist := laid.dist
  have same := laid.same
  unfold reserve
  split
  · refine ⟨⟨stride, ?_, ?_⟩, fun a b row col => ?_⟩
    · simp only [length_append, length_replicate]
      omega
    · simp only [length_append, length_replicate]
      omega
    · -- The old cells are in front of the new room.
      have place := position_lt row (Nat.lt_trans col stride)
      have first := Nat.lt_of_lt_of_le place dist
      have second := Nat.lt_of_lt_of_le place laid.edgeOf
      rw [cells_inside row col, cells_inside (lt_succ_of_lt row) (lt_succ_of_lt col)]
      unfold distOf supportOf cell
      dsimp only
      simp only [getD_eq_getElem?_getD, getElem?_append_left first, getElem?_append_left second]
  · rename_i enough
    refine ⟨⟨stride, Nat.le_of_not_lt enough, same⟩, fun a b row col => ?_⟩
    rw [cells_inside row col, cells_inside (lt_succ_of_lt row) (lt_succ_of_lt col)]
    rfl

theorem fill_cells {pairs : List (Nat × Nat)} (support : Support) (dist : Int) : ∀ {core : DenseDlCore},
    Laid core → (∀ pair ∈ pairs, pair.1 < core.n ∧ pair.2 < core.n) →
      Laid (pairs.foldl (fun core pair => core.setCell pair.1 pair.2 support dist) core) ∧
        (pairs.foldl (fun core pair => core.setCell pair.1 pair.2 support dist) core).n = core.n ∧
        ∀ a b, (pairs.foldl (fun core pair => core.setCell pair.1 pair.2 support dist) core).cells a b =
          if (a, b) ∈ pairs then ⟨dist, support⟩ else core.cells a b := by
  induction pairs with
  | nil => exact fun laid _ => ⟨laid, rfl, fun a b => (if_neg not_mem_nil).symm⟩
  | cons pair rest ih =>
    intro core laid lies
    obtain ⟨row, col⟩ := lies pair (.head _)
    obtain ⟨laid', number, cells⟩ := ih (laid.setCell pair.1 pair.2 support dist)
      fun other mem => lies other (.tail _ mem)
    refine ⟨laid', number, fun a b => ?_⟩
    rw [foldl_cons, cells, setCell_cells laid row col]
    -- A later write of the same value does not matter.
    by_cases later : (a, b) ∈ rest
    · simp [later]
    · by_cases here : (a, b) = pair
      · subst here
        simp
      · have apart : ¬ (a = pair.1 ∧ b = pair.2) := fun ⟨first, second⟩ =>
          here (Prod.ext first second)
        simp [later, here, apart]

theorem internNode_spec (laid : Laid core) : Laid core.internNode.1 ∧
    core.internNode.1.n = core.n + 1 ∧ core.internNode.2 = core.n ∧
    ∀ a b, core.internNode.1.cells a b = core.cells a b := by
  -- After a re-layout, if one is needed, there is room in every row.
  obtain ⟨wide, start, laid', stride, number, cells⟩ : ∃ wide,
      (if core.n = core.cap then core.relayout else core) = wide ∧ Laid wide ∧ wide.n < wide.cap ∧
        wide.n = core.n ∧ ∀ a b, wide.cells a b = core.cells a b := by
    refine ⟨_, rfl, ?_⟩
    split
    · obtain ⟨laid', stride, cells⟩ := relayout_spec laid
      exact ⟨laid', stride, rfl, cells⟩
    · rename_i room
      exact ⟨laid, Nat.lt_of_le_of_ne laid.stride room, rfl, fun _ _ => rfl⟩
  obtain ⟨reserved, kept⟩ := reserve_spec laid' stride
  unfold internNode
  rw [start]
  dsimp only
  -- The row and the column are written as lists of pairs.
  have row := @fill_cells ((range (wide.n + 1)).map fun c => (wide.n, c)) .noEdge dlInf _ reserved
    (by simp)
  rw [foldl_map] at row
  obtain ⟨laid₁, number₁, cells₁⟩ := row
  have column := @fill_cells ((range wide.n).map fun r => (r, wide.n)) .noEdge dlInf _ laid₁
    (by rw [number₁]; simp; omega)
  rw [foldl_map] at column
  obtain ⟨laid₂, number₂, cells₂⟩ := column
  rw [number₁] at number₂
  refine ⟨laid₂.setCell _ _ _ _, number₂.trans (congrArg (· + 1) number), number, fun a b => ?_⟩
  rw [setCell_cells laid₂ (by rw [number₂]; exact lt_succ_self _)
    (by rw [number₂]; exact lt_succ_self _), cells₂, cells₁, ← cells a b]
  simp only [mem_map, mem_range, Prod.mk.injEq]
  by_cases lies : a < wide.n ∧ b < wide.n
  · -- Old cells are not written.
    rw [if_neg (by omega), if_neg (by rintro ⟨r, _, _, _⟩; omega),
      if_neg (by rintro ⟨c, _, _, _⟩; omega)]
    exact kept a b lies.1 lies.2
  · rw [cells_outside lies]
    unfold isolated
    by_cases diagonal : a = wide.n ∧ b = wide.n
    · rw [if_pos diagonal, if_pos (diagonal.1.trans diagonal.2.symm)]
    · rw [if_neg diagonal]
      by_cases column : a < wide.n ∧ b = wide.n
      · rw [if_pos ⟨a, column.1, rfl, column.2.symm⟩, if_neg (by omega)]
      · rw [if_neg (by rintro ⟨r, _, _, _⟩; omega)]
        by_cases row : a = wide.n ∧ b < wide.n + 1
        · rw [if_pos ⟨b, row.2, row.1.symm, rfl⟩, if_neg (by omega)]
        · -- Beyond the new node nothing changed.
          rw [if_neg (by rintro ⟨c, _, _, _⟩; omega)]
          exact cells_outside fun both => by
            have first : a < wide.n + 1 := both.1
            have second : b < wide.n + 1 := both.2
            omega

end

end DenseDlCore

end Nixie.DiffLogic.Dense
