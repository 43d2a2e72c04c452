import Mathlib.Data.List.AList
import Nixie.Core.Term
import Nixie.Logic.Cnf
import Nixie.Graph.PerfectElimination

/-! Static transitivity clauses for pure equality logic, added along a min-fill elimination. -/

namespace Nixie.EqualityGraph

/-- Canonical operand pair to the Boolean variable of the pair's equality atom. -/
abbrev EdgeVar := AList (fun _ : Nat × Nat => Nat)

/-- The solver fields that the preprocessing reads. -/
structure State where
  hasQuantifiers : Bool
  hasArrayOps : Bool
  /-- The congruence closure has met an uninterpreted application. -/
  eufHasApps : Bool
  assertions : List Term
  termToVar : Term → Option Nat
  numVars : Nat

def numeric : SortKind → Bool
  | .int => true
  | .real => true
  | _ => false

def canonical (a b : Nat) : Nat × Nat := if a < b then (a, b) else (b, a)

/-- Record one equality atom between variables; other operands leave the fragment. -/
def recordEq (state : State) (lhs rhs : Term) (edges : EdgeVar) : Option EdgeVar :=
  match lhs, rhs with
  | .var a sort, .var b sort' =>
      -- Plain arithmetic goals opt out; other goals keep even numeric equalities.
      if (!state.eufHasApps && !state.hasArrayOps) && (numeric sort || numeric sort') then none
      else match state.termToVar (.eq lhs rhs) with
        | none => none
        | some var => some (edges.insert (canonical a b) var)
  | _, _ => none

mutual

/-- Record the equality edges of a term; nothing is returned outside pure equality logic. -/
def collectEqEdges (state : State) : Term → EdgeVar → Option EdgeVar
  | .tru, edges => some edges
  | .fls, edges => some edges
  | .not inner, edges => collectEqEdges state inner edges
  | .and args, edges => collectAllEdges state args edges
  | .or args, edges => collectAllEdges state args edges
  | .eq lhs rhs, edges => recordEq state lhs rhs edges
  | _, _ => none

/-- Record the equality edges of a list of terms from left to right. -/
def collectAllEdges (state : State) : List Term → EdgeVar → Option EdgeVar
  | [], edges => some edges
  | term :: rest, edges =>
      match collectEqEdges state term edges with
      | none => none
      | some edges => collectAllEdges state rest edges

end

/-- An enumeration order of a hash map's keys. -/
structure HashOrder where
  /-- The keys in the order the map happens to yield them. -/
  arrange : List (Nat × Nat) → List (Nat × Nat)
  perm : ∀ keys, (arrange keys).Perm keys

/-- Give a term the next dense index unless it already has one. -/
def pushTerm (idxTerm : List Nat) (term : Nat) : List Nat :=
  if term ∈ idxTerm then idxTerm else idxTerm ++ [term]

/-- Dense vertex numbering in the order the edges are enumerated. -/
def numberTerms : List (Nat × Nat) → List Nat → List Nat
  | [], idxTerm => idxTerm
  | (a, b) :: rest, idxTerm => numberTerms rest (pushTerm (pushTerm idxTerm a) b)

/-- Adjacency over dense indices, with each ordered set given by its membership test. -/
abbrev Adj := Nat → Nat → Bool

def connect (adj : Adj) (i j : Nat) : Adj :=
  fun u w => adj u w || (u == i && w == j) || (u == j && w == i)

def buildAdj (idxTerm : List Nat) : List (Nat × Nat) → Adj → Adj
  | [], adj => adj
  | (a, b) :: rest, adj =>
      let i := idxTerm.idxOf a
      let j := idxTerm.idxOf b
      buildAdj idxTerm rest (if i ≠ j then connect adj i j else adj)

def liveNeighbours (n : Nat) (adj : Adj) (removed : List Nat) (v : Nat) : List Nat :=
  (List.range n).filter fun u => adj v u && !removed.contains u

def fillCount (adj : Adj) : List Nat → Nat
  | [] => 0
  | a :: rest => (rest.filter fun u => !adj a u).length + fillCount adj rest

/-- The first remaining vertex with the fewest missing edges among its neighbours. -/
def pickVertex (n : Nat) (adj : Adj) (removed : List Nat) : List Nat → Option (Nat × Nat) →
    Option (Nat × Nat)
  | [], best => best
  | v :: rest, best =>
      if removed.contains v then pickVertex n adj removed rest best
      else
        let fill := fillCount adj (liveNeighbours n adj removed v)
        match best with
        | none => pickVertex n adj removed rest (some (v, fill))
        | some (w, bestFill) =>
            pickVertex n adj removed rest
              (if fill < bestFill then some (v, fill) else some (w, bestFill))

/-- What the elimination loop changes while it adds chords. -/
structure Fill where
  adj : Adj
  edgeVar : EdgeVar
  numVars : Nat

def termAt (idxTerm : List Nat) (i : Nat) : Nat := idxTerm.getD i 0

def addChord (idxTerm : List Nat) (a : Nat) (fill : Fill) (u : Nat) : Fill :=
  if fill.adj a u then fill
  else
    { adj := connect fill.adj a u
      edgeVar := fill.edgeVar.insert (canonical (termAt idxTerm a) (termAt idxTerm u)) fill.numVars
      numVars := fill.numVars + 1 }

def fillClique (idxTerm : List Nat) : List Nat → Fill → Fill
  | [], fill => fill
  | a :: rest, fill => fillClique idxTerm rest (rest.foldl (addChord idxTerm a) fill)

/-- Eliminate up to `rounds` vertices by min-fill, collecting the order of elimination. -/
def eliminate (idxTerm : List Nat) (n : Nat) : Nat → Fill → List Nat → Fill × List Nat
  | 0, fill, removed => (fill, removed)
  | rounds + 1, fill, removed =>
      match pickVertex n fill.adj removed (List.range n) none with
      | none => (fill, removed)
      | some (v, _) =>
          eliminate idxTerm n rounds
            (fillClique idxTerm (liveNeighbours n fill.adj removed v) fill) (removed ++ [v])

def varOf (idxTerm : List Nat) (edgeVar : EdgeVar) (i j : Nat) : Nat :=
  (edgeVar.lookup (canonical (termAt idxTerm i) (termAt idxTerm j))).getD 0

def triangleClauses (va vb ab : Nat) : Cnf :=
  [[.neg va, .neg vb, .pos ab], [.neg va, .neg ab, .pos vb], [.neg vb, .neg ab, .pos va]]

def trianglesAt (idxTerm : List Nat) (fill : Fill) (v : Nat) : List Nat → Cnf
  | [] => []
  | a :: rest =>
      ((rest.filter (fill.adj a)).flatMap fun b =>
        triangleClauses (varOf idxTerm fill.edgeVar v a) (varOf idxTerm fill.edgeVar v b)
          (varOf idxTerm fill.edgeVar a b)) ++ trianglesAt idxTerm fill v rest

def transitivityClauses (idxTerm : List Nat) (n : Nat) (fill : Fill) : Cnf :=
  (List.range n).flatMap fun v =>
    trianglesAt idxTerm fill v ((List.range n).filter fun u => fill.adj v u && decide (v < u))

/-- What an accepted preprocessing run leaves behind. -/
structure Outcome where
  numVars : Nat
  added : Cnf

/-- Add transitivity clauses when the assertions are pure equality logic. -/
def equalityTransitivityPreprocess (order : HashOrder) (state : State) : Option Outcome :=
  -- A rejected goal leaves the solver unchanged, so only accepted runs carry an outcome.
  if state.hasQuantifiers || state.hasArrayOps then none
  else match collectAllEdges state state.assertions ∅ with
    | none => none
    | some edges =>
        if edges.keys.isEmpty then none
        else
          let keys := order.arrange edges.keys
          let idxTerm := numberTerms keys []
          let n := idxTerm.length
          let adj := buildAdj idxTerm keys (fun _ _ => false)
          let fill := (eliminate idxTerm n n ⟨adj, edges, state.numVars⟩ []).1
          some ⟨fill.numVars, transitivityClauses idxTerm n fill⟩

end Nixie.EqualityGraph

/-! Min-fill elimination leaves a chordal graph whose every edge owns a Boolean variable. -/

namespace Nixie.EqualityGraph

open List

variable {idxTerm : List Nat} {n : Nat}

theorem canonical_comm (a b : Nat) : canonical a b = canonical b a := by
  -- Whichever operand is smaller comes first; equal operands are interchangeable.
  unfold canonical
  split <;> split <;> simp only [Prod.mk.injEq] <;> omega

theorem canonical_eq_iff {a b c d : Nat} :
    canonical a b = canonical c d ↔ (a = c ∧ b = d) ∨ (a = d ∧ b = c) := by
  -- Both pairs list the same two numbers in increasing order.
  unfold canonical
  split <;> split <;> simp only [Prod.mk.injEq] <;> omega

theorem connect_iff {adj : Adj} {i j u w : Nat} : connect adj i j u w = true ↔
      adj u w = true ∨ (u = i ∧ w = j) ∨ (u = j ∧ w = i) := by
  simp [connect, or_assoc]

/-- Adjacency is symmetric, loop-free, and confined to the dense indices. -/
structure SimpleAdj (n : Nat) (adj : Adj) : Prop where
  symm : ∀ {i j}, adj i j = true → adj j i = true
  loopless : ∀ i, adj i i = false
  bounded : ∀ {i j}, adj i j = true → i < n

theorem SimpleAdj.ne {adj : Adj} (simple : SimpleAdj n adj) {i j : Nat}
    (edge : adj i j = true) : i ≠ j := by
  -- A loop would contradict irreflexivity.
  rintro rfl
  simp [simple.loopless] at edge

theorem SimpleAdj.connect {adj : Adj} (simple : SimpleAdj n adj) {i j : Nat}
    (left : i < n) (right : j < n) (distinct : i ≠ j) :
    SimpleAdj n (connect adj i j) := by
  refine ⟨fun {u w} edge => ?_, fun u => ?_, fun {u w} edge => ?_⟩
  · -- Swapping the endpoints swaps the two new orientations.
    rcases connect_iff.mp edge with old | new
    · exact connect_iff.mpr (.inl (simple.symm old))
    · exact connect_iff.mpr (.inr (by tauto))
  · rw [← Bool.not_eq_true, connect_iff]
    have old := simple.loopless u
    rintro (edge | ⟨rfl, same⟩ | ⟨rfl, same⟩)
    · simp [old] at edge
    · exact distinct same
    · exact distinct same.symm
  · rcases connect_iff.mp edge with old | ⟨rfl, rfl⟩ | ⟨rfl, rfl⟩
    · exact simple.bounded old
    · exact left
    · exact right

/-- The edge map and the adjacency describe the same edges, each with its own variable. -/
structure Linked (idxTerm : List Nat) (start : Nat) (original : EdgeVar) (fill : Fill) : Prop where
  simple : SimpleAdj idxTerm.length fill.adj
  linked : ∀ {i j}, i < idxTerm.length → j < idxTerm.length → i ≠ j →
    (fill.adj i j = true ↔ canonical (termAt idxTerm i) (termAt idxTerm j) ∈ fill.edgeVar)
  injective : ∀ {key key' var}, fill.edgeVar.lookup key = some var →
    fill.edgeVar.lookup key' = some var → key = key'
  below : ∀ {key var}, fill.edgeVar.lookup key = some var → var < fill.numVars
  extends_ : ∀ {key var}, original.lookup key = some var → fill.edgeVar.lookup key = some var
  fresh : ∀ {key var}, fill.edgeVar.lookup key = some var →
    original.lookup key = some var ∨ (original.lookup key = none ∧ start ≤ var)
  grows : start ≤ fill.numVars

theorem termAt_injective (nodup : idxTerm.Nodup) {i j : Nat} (left : i < idxTerm.length)
    (right : j < idxTerm.length) (same : termAt idxTerm i = termAt idxTerm j) : i = j := by
  -- Reading inside the list is injective because the list has no duplicates.
  simp only [termAt, getD_eq_getElem?_getD, getElem?_eq_getElem left,
    getElem?_eq_getElem right, Option.getD_some] at same
  exact (List.Nodup.getElem_inj_iff nodup).mp same

theorem canonical_termAt_iff (nodup : idxTerm.Nodup) {i j u w : Nat}
    (iIn : i < idxTerm.length) (jIn : j < idxTerm.length) (uIn : u < idxTerm.length)
    (wIn : w < idxTerm.length) :
    canonical (termAt idxTerm u) (termAt idxTerm w) =
        canonical (termAt idxTerm i) (termAt idxTerm j) ↔
      (u = i ∧ w = j) ∨ (u = j ∧ w = i) := by
  -- Terms of dense indices are equal only for equal indices.
  have inject : ∀ {x y}, x < idxTerm.length → y < idxTerm.length →
      (termAt idxTerm x = termAt idxTerm y ↔ x = y) :=
    fun left right => ⟨termAt_injective nodup left right, fun same => by rw [same]⟩
  rw [canonical_eq_iff, inject uIn iIn, inject wIn jIn, inject uIn jIn, inject wIn iIn]

variable {start : Nat}

variable {original : EdgeVar}

theorem addChord_linked {fill : Fill}
    (nodup : idxTerm.Nodup) (good : Linked idxTerm start original fill) {a u : Nat}
    (aIn : a < idxTerm.length) (uIn : u < idxTerm.length) (distinct : a ≠ u) :
    Linked idxTerm start original (addChord idxTerm a fill u) := by
  unfold addChord
  split
  · exact good
  · rename_i missing
    -- A missing edge has no variable yet, so the insertion overwrites nothing.
    have absent : canonical (termAt idxTerm a) (termAt idxTerm u) ∉ fill.edgeVar :=
      fun mem => missing ((good.linked aIn uIn distinct).mpr mem)
    have unused : fill.edgeVar.lookup (canonical (termAt idxTerm a) (termAt idxTerm u)) = none :=
      AList.lookup_eq_none.mpr absent
    refine
      { simple := good.simple.connect aIn uIn distinct
        linked := ?_
        injective := ?_
        below := ?_
        extends_ := ?_
        fresh := ?_
        grows := Nat.le_succ_of_le good.grows }
    · intro i j iIn jIn differ
      rw [connect_iff, AList.mem_insert, good.linked iIn jIn differ,
        canonical_termAt_iff nodup aIn uIn iIn jIn]
      exact or_comm
    · intro key key' var found found'
      by_cases here : key = canonical (termAt idxTerm a) (termAt idxTerm u)
      · by_cases there : key' = canonical (termAt idxTerm a) (termAt idxTerm u)
        · rw [here, there]
        · -- An older variable is below the fresh one.
          subst here
          rw [AList.lookup_insert, Option.some.injEq] at found
          rw [AList.lookup_insert_ne there] at found'
          have := good.below found'
          omega
      · rw [AList.lookup_insert_ne here] at found
        by_cases there : key' = canonical (termAt idxTerm a) (termAt idxTerm u)
        · subst there
          rw [AList.lookup_insert, Option.some.injEq] at found'
          have := good.below found
          omega
        · rw [AList.lookup_insert_ne there] at found'
          exact good.injective found found'
    · intro key var found
      by_cases here : key = canonical (termAt idxTerm a) (termAt idxTerm u)
      · subst here
        rw [AList.lookup_insert, Option.some.injEq] at found
        exact found ▸ Nat.lt_succ_self _
      · rw [AList.lookup_insert_ne here] at found
        exact Nat.lt_succ_of_lt (good.below found)
    · intro key var found
      have stored := good.extends_ found
      have here : key ≠ canonical (termAt idxTerm a) (termAt idxTerm u) := by
        rintro rfl
        rw [unused] at stored
        cases stored
      rw [AList.lookup_insert_ne here]
      exact stored
    · intro key var found
      by_cases here : key = canonical (termAt idxTerm a) (termAt idxTerm u)
      · subst here
        rw [AList.lookup_insert, Option.some.injEq] at found
        refine .inr ⟨?_, found ▸ good.grows⟩
        cases stored : original.lookup (canonical (termAt idxTerm a) (termAt idxTerm u)) with
        | none => rfl
        | some old =>
          have := good.extends_ stored
          rw [unused] at this
          cases this
      · rw [AList.lookup_insert_ne here] at found
        exact good.fresh found

theorem addChord_adj {fill : Fill} (symm : ∀ i j, fill.adj i j = true → fill.adj j i = true)
    {a u i j : Nat} :
    (addChord idxTerm a fill u).adj i j = true ↔
      fill.adj i j = true ∨ (i = a ∧ j = u) ∨ (i = u ∧ j = a) := by
  unfold addChord
  split
  · -- The edge was already present in both orientations.
    rename_i present
    constructor
    · exact .inl
    · rintro (edge | ⟨rfl, rfl⟩ | ⟨rfl, rfl⟩)
      · exact edge
      · exact present
      · exact symm _ _ present
  · exact connect_iff

theorem foldl_addChord (nodup : idxTerm.Nodup) {a : Nat} (aIn : a < idxTerm.length) :
    ∀ (row : List Nat) (fill : Fill), Linked idxTerm start original fill →
      (∀ u ∈ row, u < idxTerm.length) → a ∉ row →
      Linked idxTerm start original (row.foldl (addChord idxTerm a) fill) ∧
        ∀ i j, (row.foldl (addChord idxTerm a) fill).adj i j = true ↔
          fill.adj i j = true ∨ (i = a ∧ j ∈ row) ∨ (i ∈ row ∧ j = a) := by
  -- The induction follows the row; each vertex contributes its own edge.
  intro row
  induction row with
  | nil => intro fill good _ _; exact ⟨good, fun i j => by simp⟩
  | cons u rest ih =>
    intro fill good lies outside
    have head : Linked idxTerm start original (addChord idxTerm a fill u) :=
      addChord_linked nodup good aIn (lies u (by simp)) (fun same => outside (by simp [same]))
    obtain ⟨linked, exact_⟩ := ih (addChord idxTerm a fill u) head
      (fun w mem => lies w (by simp [mem])) (fun mem => outside (by simp [mem]))
    refine ⟨linked, fun i j => ?_⟩
    rw [foldl_cons, exact_ i j, addChord_adj (fun i j => good.simple.symm)]
    simp only [mem_cons]
    tauto

theorem fillClique_spec (nodup : idxTerm.Nodup) :
    ∀ (vertices : List Nat) (fill : Fill), Linked idxTerm start original fill →
      (∀ u ∈ vertices, u < idxTerm.length) → vertices.Nodup →
      Linked idxTerm start original (fillClique idxTerm vertices fill) ∧
        ∀ i j, (fillClique idxTerm vertices fill).adj i j = true ↔
          fill.adj i j = true ∨ (i ≠ j ∧ i ∈ vertices ∧ j ∈ vertices) := by
  -- The first vertex is joined to the others, which are then filled among themselves.
  intro vertices
  induction vertices with
  | nil => intro fill good _ _; exact ⟨good, fun i j => by simp [fillClique]⟩
  | cons a rest ih =>
    intro fill good lies distinct
    have outside : a ∉ rest := (nodup_cons.mp distinct).1
    obtain ⟨rowLinked, rowAdj⟩ := foldl_addChord nodup (lies a (by simp)) rest fill good
      (fun u mem => lies u (by simp [mem])) outside
    obtain ⟨linked, adj⟩ := ih _ rowLinked (fun u mem => lies u (by simp [mem]))
      (nodup_cons.mp distinct).2
    refine ⟨linked, fun i j => ?_⟩
    rw [fillClique, adj i j, rowAdj i j]
    simp only [mem_cons]
    constructor
    · rintro ((edge | ⟨rfl, mem⟩ | ⟨mem, rfl⟩) | ⟨differ, left, right⟩)
      · exact .inl edge
      · exact .inr ⟨fun same => outside (same ▸ mem), .inl rfl, .inr mem⟩
      · exact .inr ⟨fun same => outside (same ▸ mem), .inr mem, .inl rfl⟩
      · exact .inr ⟨differ, .inr left, .inr right⟩
    · rintro (edge | ⟨differ, rfl | left, rfl | right⟩)
      · exact .inl (.inl edge)
      · exact absurd rfl differ
      · exact .inl (.inr (.inl ⟨rfl, right⟩))
      · exact .inl (.inr (.inr ⟨left, rfl⟩))
      · exact .inr ⟨differ, left, right⟩

theorem pickVertex_spec {adj : Adj} {removed : List Nat} :
    ∀ (candidates : List Nat) (best : Option (Nat × Nat)),
      (∀ found ∈ best, found.1 < n ∧ found.1 ∉ removed) → (∀ v ∈ candidates, v < n) →
      (∀ found ∈ pickVertex n adj removed candidates best, found.1 < n ∧ found.1 ∉ removed) ∧
        (pickVertex n adj removed candidates best = none →
          best = none ∧ ∀ v ∈ candidates, v ∈ removed) := by
  -- The scan keeps a remaining candidate, whichever comparison it makes.
  intro candidates
  induction candidates with
  | nil => intro best sound _; simp [pickVertex]; exact fun v fill found => sound (v, fill) found
  | cons v rest ih =>
    intro best sound lies
    have restInside : ∀ w ∈ rest, w < n := fun w mem => lies w (by simp [mem])
    by_cases gone : v ∈ removed
    · obtain ⟨keeps, none_⟩ := ih best sound restInside
      simp only [pickVertex, contains_iff_mem, gone, if_true]
      refine ⟨keeps, fun empty => ⟨(none_ empty).1, ?_⟩⟩
      simpa [gone] using (none_ empty).2
    · have fits : v < n ∧ v ∉ removed := ⟨lies v (by simp), gone⟩
      cases best with
      | none =>
        obtain ⟨keeps, none_⟩ := ih (some (v, fillCount adj (liveNeighbours n adj removed v)))
          (by simpa using fits) restInside
        simp only [pickVertex, contains_iff_mem, gone, if_false]
        exact ⟨keeps, fun empty => absurd (none_ empty).1 (by simp)⟩
      | some held =>
        rcases held with ⟨w, bestFill⟩
        have old := sound (w, bestFill) (by simp)
        simp only [pickVertex, contains_iff_mem, gone, if_false]
        split
        · obtain ⟨keeps, none_⟩ := ih (some (v, fillCount adj (liveNeighbours n adj removed v)))
            (by simpa using fits) restInside
          exact ⟨keeps, fun empty => absurd (none_ empty).1 (by simp)⟩
        · obtain ⟨keeps, none_⟩ := ih (some (w, bestFill)) (by simpa using old) restInside
          exact ⟨keeps, fun empty => absurd (none_ empty).1 (by simp)⟩

/-- The eliminated vertices see their later neighbours as cliques. -/
structure Eliminated (n : Nat) (adj : Adj) (removed : List Nat) : Prop where
  nodup : removed.Nodup
  inside : ∀ v ∈ removed, v < n
  clique : ∀ {v a b}, v ∈ removed → adj v a = true → adj v b = true →
    removed.idxOf v < removed.idxOf a → removed.idxOf v < removed.idxOf b → a ≠ b →
    adj a b = true

theorem idxOf_append_singleton_lt {removed : List Nat} {v w a : Nat} (mem : w ∈ removed)
    (later : (removed ++ [v]).idxOf w < (removed ++ [v]).idxOf a) :
    removed.idxOf w < removed.idxOf a := by
  -- Old positions do not move, and a vertex outside the old list sits past its end.
  rw [idxOf_append_of_mem mem] at later
  by_cases old : a ∈ removed
  · rwa [idxOf_append_of_mem old] at later
  · rw [idxOf_eq_length old]
    exact idxOf_lt_length_of_mem mem

theorem Eliminated.step {fill : Fill} {removed : List Nat}
    {v : Nat} (nodup : idxTerm.Nodup) (good : Linked idxTerm start original fill)
    (sofar : Eliminated idxTerm.length fill.adj removed) (vIn : v < idxTerm.length)
    (present : v ∉ removed) :
    Linked idxTerm start original
        (fillClique idxTerm (liveNeighbours idxTerm.length fill.adj removed v) fill) ∧
      Eliminated idxTerm.length
        (fillClique idxTerm (liveNeighbours idxTerm.length fill.adj removed v) fill).adj
        (removed ++ [v]) := by
  have live : ∀ u, u ∈ liveNeighbours idxTerm.length fill.adj removed v ↔
      u < idxTerm.length ∧ fill.adj v u = true ∧ u ∉ removed := by
    intro u
    simp [liveNeighbours]
  obtain ⟨linked, adj⟩ := fillClique_spec nodup
    (liveNeighbours idxTerm.length fill.adj removed v) fill good
    (fun u mem => ((live u).mp mem).1) (nodup_range.filter _)
  refine ⟨linked, ⟨?_, ?_, ?_⟩⟩
  · exact sofar.nodup.append (by simp) (by simpa using present)
  · intro w mem
    rcases mem_append.mp mem with old | new
    · exact sofar.inside w old
    · simpa [mem_singleton.mp new] using vIn
  · intro w a b mem toA toB aLater bLater differ
    -- Chords join remaining neighbours of the new vertex, so they never touch eliminated ones.
    have oldEdge : ∀ x c, x ∈ removed →
        (fillClique idxTerm (liveNeighbours idxTerm.length fill.adj removed v) fill).adj x c =
          true → fill.adj x c = true := by
      intro x c gone edge
      rcases (adj x c).mp edge with old | ⟨_, left, _⟩
      · exact old
      · exact absurd gone ((live x).mp left).2.2
    rcases mem_append.mp mem with old | new
    · have kept := sofar.clique old (oldEdge w a old toA) (oldEdge w b old toB)
        (idxOf_append_singleton_lt old aLater) (idxOf_append_singleton_lt old bLater) differ
      exact (adj a b).mpr (.inl kept)
    · -- The neighbours of the new vertex were all present, and the fill joined them.
      have here : w = v := mem_singleton.mp new
      subst here
      have remaining : ∀ c, (removed ++ [w]).idxOf w < (removed ++ [w]).idxOf c →
          c ∉ removed := by
        intro c later gone
        rw [idxOf_append_of_notMem present, idxOf_append_of_mem gone] at later
        have := idxOf_lt_length_of_mem gone
        simp at later
        omega
      have neighbour : ∀ c,
          (fillClique idxTerm (liveNeighbours idxTerm.length fill.adj removed w) fill).adj w c =
            true → c ∉ removed → c ∈ liveNeighbours idxTerm.length fill.adj removed w := by
        intro c edge stays
        rcases (adj w c).mp edge with old | ⟨_, left, right⟩
        · exact (live c).mpr ⟨good.simple.bounded (good.simple.symm old), old, stays⟩
        · exact right
      exact (adj a b).mpr (.inr ⟨differ, neighbour a toA (remaining a aLater),
        neighbour b toB (remaining b bLater)⟩)

theorem eliminate_spec (nodup : idxTerm.Nodup) :
    ∀ (rounds : Nat) (fill : Fill) (removed : List Nat),
      Linked idxTerm start original fill → Eliminated idxTerm.length fill.adj removed →
      Linked idxTerm start original (eliminate idxTerm idxTerm.length rounds fill removed).1 ∧
        Eliminated idxTerm.length (eliminate idxTerm idxTerm.length rounds fill removed).1.adj
          (eliminate idxTerm idxTerm.length rounds fill removed).2 ∧
        ((eliminate idxTerm idxTerm.length rounds fill removed).2.length = removed.length + rounds ∨
          ∀ v < idxTerm.length, v ∈ (eliminate idxTerm idxTerm.length rounds fill removed).2) := by
  -- Each round either finds everything removed or extends the elimination order by one vertex.
  intro rounds
  induction rounds with
  | zero => intro fill removed good sofar; exact ⟨good, sofar, .inl rfl⟩
  | succ rounds ih =>
    intro fill removed good sofar
    obtain ⟨keeps, none_⟩ := @pickVertex_spec idxTerm.length fill.adj
      removed (range idxTerm.length) none (by simp) (by simp)
    simp only [eliminate]
    cases picked : pickVertex idxTerm.length fill.adj removed (range idxTerm.length) none with
    | none => exact ⟨good, sofar, .inr fun v bound => (none_ picked).2 v (by simpa using bound)⟩
    | some found =>
      rcases found with ⟨v, fewest⟩
      have chosen := keeps (v, fewest) picked
      obtain ⟨linked, more⟩ := sofar.step nodup good chosen.1 chosen.2
      obtain ⟨finalLinked, finalElim, count⟩ := ih _ _ linked more
      refine ⟨finalLinked, finalElim, ?_⟩
      rcases count with length | all
      · left
        rw [length, length_append, length_singleton]
        omega
      · exact .inr all

theorem mem_of_full {removed : List Nat} (nodup : removed.Nodup)
    (lies : ∀ v ∈ removed, v < n) (full : removed.length = n) :
    ∀ v < n, v ∈ removed := by
  -- A sublist of the range with as many elements is a permutation of it.
  intro v bound
  have fewer : removed.Subperm (range n) :=
    nodup.subperm fun w mem => mem_range.mpr (lies w mem)
  have same : removed.Perm (range n) := fewer.perm_of_length_le (by simp [full])
  exact same.mem_iff.mpr (mem_range.mpr bound)

/-- The filled graph as a simple graph on indices. -/
def filledGraph (adj : Adj) (simple : SimpleAdj n adj) : SimpleGraph Nat where
  Adj i j := adj i j = true
  symm := ⟨fun _ _ edge => simple.symm edge⟩
  loopless := ⟨fun i => by simp [simple.loopless]⟩

theorem eliminate_perfect (nodup : idxTerm.Nodup)
    {fill : Fill} (good : Linked idxTerm start original fill) :
    ∃ linked : Linked idxTerm start original
        (eliminate idxTerm idxTerm.length idxTerm.length fill []).1,
      ∃ rank, PerfectElimination (filledGraph _ linked.simple) rank := by
  obtain ⟨linked, elim, count⟩ := eliminate_spec nodup idxTerm.length fill [] good
    ⟨nodup_nil, by simp, by simp⟩
  -- After as many rounds as vertices nothing remains.
  have all : ∀ v < idxTerm.length,
      v ∈ (eliminate idxTerm idxTerm.length idxTerm.length fill []).2 := by
    rcases count with length | all
    · exact mem_of_full elim.nodup elim.inside (by simpa using length)
    · exact all
  refine ⟨linked, (eliminate idxTerm idxTerm.length idxTerm.length fill []).2.idxOf, ?_, ?_⟩
  · intro a b edge same
    have left := all a (linked.simple.bounded edge)
    exact linked.simple.ne edge ((idxOf_inj left).mp same)
  · intro v a b toA toB aLater bLater differ
    exact elim.clique (all v (linked.simple.bounded toA)) toA toB aLater bLater differ

end Nixie.EqualityGraph
