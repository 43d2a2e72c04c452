import Mathlib.Algebra.BigOperators.Group.Finset.Piecewise
import Mathlib.Algebra.Order.BigOperators.Group.Finset
import Nixie.Euf.State

/-! Explanations of equalities by searching the proof forest. -/

namespace Nixie.Euf

open Function

def explCacheCapacity : Nat := 1024

/-- Explanations by pair of nodes, most recently used first. -/
abbrev ExplCache := List ((Nat × Nat) × List Nat)

namespace ExplCache

/-- Look an explanation up and move it to the front. -/
def get (key : Nat × Nat) (cache : ExplCache) : Option (List Nat) × ExplCache :=
  match cache.find? fun entry => entry.1 = key with
  | none => (none, cache)
  | some entry => (some entry.2, entry :: cache.filter fun other => other.1 ≠ key)

/-- Put an explanation in front; a full cache drops the least recently used one. -/
def insert (key : Nat × Nat) (reasons : List Nat) (cache : ExplCache) : ExplCache :=
  (key, reasons) :: (cache.filter fun other => other.1 ≠ key).take (explCacheCapacity - 1)

end ExplCache

/-- Tables of one search; they start empty instead of being stamped with a generation. -/
structure Search where
  settled : List Nat
  /-- Best known distance: the latest stamp in the high half, the hops in the low one. -/
  dist : Nat → Option Nat
  /-- Node and edge index through which a node was reached best. -/
  parent : Nat → Option (Nat × Nat)
  /-- Reached nodes with their distances, the smallest distance first. -/
  heap : List (Nat × Nat)

namespace Search

def heapLe (left right : Nat × Nat) : Prop :=
  left.1 < right.1 ∨ (left.1 = right.1 ∧ left.2 ≤ right.2)

instance (left right : Nat × Nat) : Decidable (heapLe left right) :=
  inferInstanceAs (Decidable (_ ∨ _))

def start (source : Nat) : Search where
  settled := []
  dist := update (fun _ => none) source (some 0)
  parent := fun _ => none
  heap := [(0, source)]

def extendDist (d stamp : Nat) : Nat := max (d / 2 ^ 32) stamp * 2 ^ 32 + (d % 2 ^ 32 + 1)

/-- Try to reach the other end of an edge better than before. -/
def relax (n node d idx : Nat) (edge : MergeEdge) (search : Search) : Search :=
  if n ≤ edge.other ∨ edge.other ∈ search.settled then search
  else
    let nd := extendDist d edge.stamp
    if (search.dist edge.other).all fun known => nd < known then
      { search with
        dist := update search.dist edge.other (some nd)
        parent := update search.parent edge.other (some (node, idx))
        heap := search.heap.orderedInsert heapLe (nd, edge.other) }
    else search

/-- Try every edge of a settled node, numbered from an index on. -/
def relaxEdges (n node d : Nat) : Nat → List MergeEdge → Search → Search
  | _, [], search => search
  | idx, edge :: rest, search => relaxEdges n node d (idx + 1) rest (search.relax n node d idx edge)

/-- Settle nodes by distance until the target is; at most a number of heap entries is popped. -/
def run (edges : Nat → List MergeEdge) (n target : Nat) : Nat → Search → Option Search
  | 0, _ => none
  | fuel + 1, search =>
    match search.heap with
    | [] => none
    | (d, node) :: rest =>
      if node ∈ search.settled then run edges n target fuel { search with heap := rest }
      else
        let settled := { search with settled := node :: search.settled, heap := rest }
        if node = target then some settled
        else run edges n target fuel (relaxEdges n node d 0 (edges node) settled)

/-- Edges from a node back to the start, as owner and index. -/
def walk (source : Nat) (search : Search) : Nat → Nat → List (Nat × Nat)
  | 0, _ => []
  | fuel + 1, current =>
    if current = source then []
    else if search.dist current = none then []
    else
      match search.parent current with
      | none => []
      | some (prev, idx) => (prev, idx) :: search.walk source fuel prev

end Search

/-- Goals of one explanation and what has been collected for them. -/
structure Goals where
  /-- Pairs still to be explained, the next one first. -/
  todo : List (Nat × Nat)
  enqueued : List (Nat × Nat)
  reasons : List Nat

namespace Goals

/-- Note the reason of an asserted equality; the reason zero stands for no literal. -/
def addReason (term : Nat) (goals : Goals) : Goals :=
  if term ≠ 0 ∧ term ∉ goals.reasons then { goals with reasons := goals.reasons ++ [term] }
  else goals

/-- Ask for an explanation of two argument nodes, once for each pair. -/
def ask (n arg1 arg2 : Nat) (goals : Goals) : Goals :=
  if arg1 ≠ arg2 ∧ arg1 < n ∧ arg2 < n ∧ orderedPair arg1 arg2 ∉ goals.enqueued then
    { goals with
      todo := (arg1, arg2) :: goals.todo
      enqueued := orderedPair arg1 arg2 :: goals.enqueued }
  else goals

end Goals

namespace EufSolver

/-- Search for the first unused argument in the class of another one, and use it. -/
def takePartner (s : EufSolver) (arg : Nat) : List Nat → Option (Nat × List Nat)
  | [] => none
  | other :: rest =>
    if other = arg ∨ s.areEqual arg other then some (other, rest)
    else (s.takePartner arg rest).map fun found => (found.1, other :: found.2)

/-- Match the arguments of two congruent applications by class and ask for each pair. -/
def scheduleCongruenceSubgoals (s : EufSolver) (n : Nat) :
    List Nat → List Nat → Goals → Option Goals
  | [], _, goals => some goals
  | arg :: rest, unmatched, goals =>
    match s.takePartner arg unmatched with
    | none => none
    | some (partner, unmatched) =>
      s.scheduleCongruenceSubgoals n rest unmatched (goals.ask n arg partner)

def explainEdge (s : EufSolver) (n : Nat) (edge : MergeEdge) (goals : Goals) : Option Goals :=
  match edge.reason with
  | .assertion term => some (goals.addReason term)
  | .congruence term1 term2 =>
    match s.nodes[term1]?, s.nodes[term2]? with
    | some node1, some node2 =>
      if node1.args.length ≠ node2.args.length then none
      else s.scheduleCongruenceSubgoals n node1.args node2.args goals
    | _, _ => none

def explainPath (s : EufSolver) (n : Nat) : List (Nat × Nat) → Goals → Option Goals
  | [], goals => some goals
  | (prev, idx) :: rest, goals =>
    match (s.proofForest.lists prev)[idx]? with
    | none => none
    | some edge => (s.explainEdge n edge goals).bind (s.explainPath n rest)

/-- Heap entries of one search: its start and one for each edge. -/
def searchFuel (s : EufSolver) (n : Nat) : Nat :=
  ((List.range n).map fun node => (s.proofForest.lists node).length).sum + 2

/-- Find the path between two nodes whose latest edge is as early as possible. -/
def searchPath (s : EufSolver) (n source target : Nat) : Option (List (Nat × Nat)) :=
  (Search.run s.proofForest.lists n target (s.searchFuel n) (.start source)).map fun search =>
    search.walk source search.settled.length target

/-- Explain the goals one after the other, at most a number of them. -/
def explainLoop (s : EufSolver) (n : Nat) : Nat → Goals → Option (List Nat)
  | 0, _ => none
  | fuel + 1, goals =>
    match goals.todo with
    | [] => some goals.reasons
    | (source, target) :: rest =>
      match s.searchPath n source target with
      | none => none
      | some path =>
        (s.explainPath n path { goals with todo := rest }).bind (s.explainLoop n fuel)

/-- Explain why two nodes are equal: the reasons of asserted equalities, or nothing. -/
def tryExplainEquality (a b : Nat) (s : EufSolver) : Option (List Nat) × EufSolver :=
  let n := s.nodes.length
  if a = b then (some [], s)
  else if n ≤ a ∨ n ≤ b then (none, s)
  else if s.areEqual a b = false then (none, s)
  else
    let cached := ExplCache.get (orderedPair a b) s.explCache
    match cached.1 with
    | some reasons => (some reasons, { s with explCache := cached.2 })
    | none =>
      -- Every pair of nodes is a goal at most once.
      match s.explainLoop n (n * n + 1) ⟨[(a, b)], [orderedPair a b], []⟩ with
      | none => (none, s)
      | some reasons =>
        (some reasons,
          { s with explCache := ExplCache.insert (orderedPair a b) reasons s.explCache })

/-- Append the terms that are not in a list yet, without the term zero. -/
def appendNew (found : List Nat) (terms : List Nat) : List Nat :=
  terms.foldl (fun found term =>
    if term ≠ 0 ∧ term ∉ found then found ++ [term] else found) found

def allAssertedReasons (s : EufSolver) : List Nat :=
  let merged := (List.range s.nodes.length).flatMap fun node =>
    (s.proofForest.lists node).filterMap fun edge =>
      match edge.reason with
      | .assertion term => some term
      | .congruence _ _ => none
  appendNew (appendNew [] merged) (s.diseq.diseqs.map Diseq.reason)

/-- Report the noted violated disequality with an explanation of its equality. -/
def checkConflicts (s : EufSolver) : Option (List Nat) × EufSolver :=
  match s.diseq.pendingDiseqConflict.bind fun idx => s.diseq.diseqs[idx]? with
  | none => (none, s)
  | some diseq =>
    let explained := s.tryExplainEquality diseq.lhs diseq.rhs
    let explanation := explained.1.getD explained.2.allAssertedReasons
    (some (if diseq.reason ∈ explanation then explanation else explanation ++ [diseq.reason]),
      explained.2)

/-- The first watched disequality between two classes, with the end in the first class first. -/
def findDiseq (ra rb : Nat) : List Nat → EufSolver → Option (Nat × Nat × Nat) × EufSolver
  | [], s => (none, s)
  | idx :: rest, s =>
    match s.diseq.diseqs[idx]? with
    | none => (none, s)
    | some diseq =>
      let foundL := s.uf.find diseq.lhs
      let foundR := foundL.2.find diseq.rhs
      let s := { s with uf := foundR.2 }
      if foundL.1 = ra ∧ foundR.1 = rb then (some (diseq.lhs, diseq.rhs, diseq.reason), s)
      else if foundL.1 = rb ∧ foundR.1 = ra then (some (diseq.rhs, diseq.lhs, diseq.reason), s)
      else findDiseq ra rb rest s

def tryExplainDiseq (a b : Nat) (s : EufSolver) : Option (List Nat) × EufSolver :=
  let foundA := s.uf.find a
  let foundB := foundA.2.find b
  let s := { s with uf := foundB.2 }
  if foundA.1 = foundB.1 then (none, s)
  else
    match findDiseq foundA.1 foundB.1 (s.diseq.diseqWatch.lists foundA.1) s with
    | (none, s) => (none, s)
    | (some (sideA, sideB, reason), s) =>
      match s.tryExplainEquality a sideA with
      | (none, s) => (none, s)
      | (some reasonsA, s) =>
        let explained := s.tryExplainEquality b sideB
        (explained.1.map fun reasonsB =>
          reasonsA ++ (if reason ≠ 0 then [reason] else []) ++ reasonsB, explained.2)

end EufSolver

end Nixie.Euf

/-! The search of the proof forest reaches every connected node and remembers how. -/

namespace Nixie.Euf

open List Function

namespace Search

variable {edges : Nat → List MergeEdge} {n source target node d idx : Nat} {edge : MergeEdge}
  {search : Search}

/-- What the tables of a search mean. -/
structure Valid (edges : Nat → List MergeEdge) (n source : Nat) (search : Search) : Prop where
  bounds : ∀ x, search.dist x ≠ none → x < n
  start : search.dist source ≠ none
  settled : ∀ x ∈ search.settled, search.dist x ≠ none
  nodup : search.settled.Nodup
  reached : ∀ x, search.dist x ≠ none → x = source ∨ ∃ step edge,
    search.parent x = some step ∧ step.1 ∈ search.settled ∧
      (edges step.1)[step.2]? = some edge ∧ edge.other = x
  chained : ∀ newer x older, search.settled = newer ++ x :: older →
    x = source ∨ ∃ step, search.parent x = some step ∧ step.1 ∈ older
  queued : ∀ x, search.dist x ≠ none → x ∈ search.settled ∨ ∃ d, (d, x) ∈ search.heap
  heap : ∀ entry ∈ search.heap, search.dist entry.2 ≠ none

/-- The edges of settled nodes have been tried. -/
def Closed (edges : Nat → List MergeEdge) (search : Search) : Prop :=
  ∀ x ∈ search.settled, ∀ edge ∈ edges x, search.dist edge.other ≠ none

theorem Valid.of_start (lies : source < n) : Valid edges n source (.start source) where
  bounds := by
    intro x known
    by_cases same : x = source
    · omega
    · simp [Search.start, update_of_ne same] at known
  start := by simp [Search.start]
  settled := by simp [Search.start]
  nodup := nodup_nil
  reached := by
    intro x known
    by_cases same : x = source
    · exact .inl same
    · simp [Search.start, update_of_ne same] at known
  chained := by
    intro newer x older split
    simp [Search.start] at split
  queued := by
    intro x known
    by_cases same : x = source
    · exact .inr ⟨0, by simp [Search.start, same]⟩
    · simp [Search.start, update_of_ne same] at known
  heap := by simp [Search.start]

theorem Valid.skip (valid : Valid edges n source search) {rest : List (Nat × Nat)}
    (next : search.heap = (d, node) :: rest) (old : node ∈ search.settled) :
    Valid edges n source { search with heap := rest } :=
  { valid with
    queued := by
      intro x known
      rcases valid.queued x known with settled | ⟨d', waiting⟩
      · exact .inl settled
      · rw [next] at waiting
        rcases mem_cons.mp waiting with first | later
        · cases first
          exact .inl old
        · exact .inr ⟨d', later⟩
    heap := fun entry mem => valid.heap entry (by rw [next]; exact mem_cons_of_mem _ mem) }

theorem Valid.settle (valid : Valid edges n source search) {rest : List (Nat × Nat)}
    (next : search.heap = (d, node) :: rest) (fresh : node ∉ search.settled) :
    Valid edges n source { search with settled := node :: search.settled, heap := rest } := by
  have known : search.dist node ≠ none := valid.heap (d, node) (by rw [next]; simp)
  exact {
    bounds := valid.bounds
    start := valid.start
    settled := by
      intro x mem
      rcases mem_cons.mp mem with rfl | old
      · exact known
      · exact valid.settled x old
    nodup := nodup_cons.mpr ⟨fresh, valid.nodup⟩
    reached := by
      intro x known
      rcases valid.reached x known with start | ⟨step, edge, parent, settled, here, other⟩
      · exact .inl start
      · exact .inr ⟨step, edge, parent, mem_cons_of_mem _ settled, here, other⟩
    chained := by
      intro newer x older split
      cases newer with
      | nil =>
        obtain ⟨rfl, rfl⟩ := cons.inj split
        rcases valid.reached _ known with start | ⟨step, _, parent, settled, _⟩
        · exact .inl start
        · exact .inr ⟨step, parent, settled⟩
      | cons first newer => exact valid.chained newer x older (cons.inj split).2
    queued := by
      intro x known
      rcases valid.queued x known with settled | ⟨d', waiting⟩
      · exact .inl (mem_cons_of_mem _ settled)
      · rw [next] at waiting
        rcases mem_cons.mp waiting with first | later
        · cases first
          exact .inl (mem_cons_self ..)
        · exact .inr ⟨d', later⟩
    heap := fun entry mem => valid.heap entry (by rw [next]; exact mem_cons_of_mem _ mem) }

/-- What trying one edge or several edges of a settled node does. -/
structure Relaxed (edges : Nat → List MergeEdge) (n source : Nat) (search after : Search)
    (count : Nat) : Prop where
  valid : Valid edges n source after
  settled : after.settled = search.settled
  keeps : ∀ x, search.dist x ≠ none → after.dist x ≠ none
  grows : after.heap.length ≤ search.heap.length + count

theorem Valid.relax (valid : Valid edges n source search) (settled : node ∈ search.settled)
    (here : (edges node)[idx]? = some edge) (lies : edge.other < n) :
    Relaxed edges n source search (search.relax n node d idx edge) 1 ∧
      (search.relax n node d idx edge).dist edge.other ≠ none := by
  unfold Search.relax
  split
  · rename_i skipped
    have old : edge.other ∈ search.settled := by
      rcases skipped with outside | old
      · omega
      · exact old
    exact ⟨⟨valid, rfl, fun _ known => known, Nat.le_succ _⟩, valid.settled _ old⟩
  · rename_i fresh
    rw [not_or] at fresh
    dsimp only
    split
    · -- The other end is reached better than before.
      have keeps : ∀ x, search.dist x ≠ none →
          update search.dist edge.other (some (extendDist d edge.stamp)) x ≠ none := by
        intro x known
        rw [update_apply]
        split
        · simp
        · exact known
      refine ⟨⟨?_, rfl, keeps, ?_⟩, by simp⟩
      · exact {
          bounds := by
            intro x known
            by_cases same : x = edge.other
            · rw [same]
              exact lies
            · have known : update search.dist edge.other _ x ≠ none := known
              rw [update_of_ne same] at known
              exact valid.bounds x known
          start := keeps _ valid.start
          settled := fun x mem => keeps x (valid.settled x mem)
          nodup := valid.nodup
          reached := by
            intro x known
            by_cases same : x = edge.other
            · subst same
              exact .inr ⟨(node, idx), edge, by simp, settled, here, rfl⟩
            · have known : update search.dist edge.other _ x ≠ none := known
              rw [update_of_ne same] at known
              rcases valid.reached x known with start | ⟨step, other, parent, rest⟩
              · exact .inl start
              · exact .inr ⟨step, other, (update_of_ne same ..).trans parent, rest⟩
          chained := by
            intro newer x older split
            have mem : x ∈ search.settled := by
              have split : search.settled = newer ++ x :: older := split
              rw [split]
              simp
            have ne : x ≠ edge.other := fun same => fresh.2 (same ▸ mem)
            rcases valid.chained newer x older split with start | ⟨step, parent, old⟩
            · exact .inl start
            · exact .inr ⟨step, (update_of_ne ne ..).trans parent, old⟩
          queued := by
            intro x known
            by_cases same : x = edge.other
            · subst same
              exact .inr ⟨_, (mem_orderedInsert _).mpr (.inl rfl)⟩
            · have known : update search.dist edge.other _ x ≠ none := known
              rw [update_of_ne same] at known
              rcases valid.queued x known with old | ⟨d', waiting⟩
              · exact .inl old
              · exact .inr ⟨d', (mem_orderedInsert _).mpr (.inr waiting)⟩
          heap := by
            intro entry mem
            rcases (mem_orderedInsert _).mp mem with rfl | old
            · simp
            · exact keeps _ (valid.heap entry old) }
      · show (orderedInsert heapLe _ search.heap).length ≤ _
        rw [orderedInsert_length]
    · rename_i worse
      refine ⟨⟨valid, rfl, fun _ known => known, Nat.le_succ _⟩, ?_⟩
      intro unknown
      rw [unknown] at worse
      simp at worse

theorem Valid.relaxEdges (lies : ∀ x, ∀ edge ∈ edges x, edge.other < n) :
    ∀ (rest : List MergeEdge) {idx : Nat} {search : Search}, Valid edges n source search →
      node ∈ search.settled → (edges node).drop idx = rest →
      Relaxed edges n source search (relaxEdges n node d idx rest search) rest.length ∧
        ∀ edge ∈ rest, (relaxEdges n node d idx rest search).dist edge.other ≠ none := by
  intro rest
  induction rest with
  | nil =>
    exact fun valid _ _ => ⟨⟨valid, rfl, fun _ known => known, Nat.le_refl _⟩, by simp⟩
  | cons edge rest ih =>
    intro idx search valid settled suffix
    have here : (edges node)[idx]? = some edge := by
      have first := congrArg head? suffix
      rw [head?_drop] at first
      exact first
    have later : (edges node).drop (idx + 1) = rest := by
      rw [← drop_drop, suffix]
      rfl
    obtain ⟨one, reached⟩ := @Valid.relax edges n source node d idx edge search valid settled here
      (lies node edge (mem_of_getElem? here))
    obtain ⟨all, reachedAll⟩ := @ih (idx + 1) _ one.valid (one.settled.symm ▸ settled) later
    refine ⟨⟨all.valid, all.settled.trans one.settled, fun x known => all.keeps x (one.keeps x known),
      ?_⟩, ?_⟩
    · have first := one.grows
      have others := all.grows
      rw [length_cons]
      show (Search.relaxEdges n node d (idx + 1) rest _).heap.length ≤ _
      omega
    · intro other mem
      rcases mem_cons.mp mem with rfl | old
      · exact all.keeps _ reached
      · exact reachedAll other old

def unsettledEdges (edges : Nat → List MergeEdge) (n : Nat) (settled : List Nat) : Nat :=
  ∑ x ∈ Finset.range n, if x ∈ settled then 0 else (edges x).length

theorem unsettledEdges_settle {settled : List Nat} (lies : node < n) (fresh : node ∉ settled) :
    unsettledEdges edges n (node :: settled) + (edges node).length =
      unsettledEdges edges n settled := by
  have own : (∑ x ∈ Finset.range n, if x = node then (edges node).length else 0) =
      (edges node).length := by
    rw [Finset.sum_ite_eq' (Finset.range n) node fun _ => (edges node).length,
      if_pos (Finset.mem_range.mpr lies)]
  calc _ = _ + ∑ x ∈ Finset.range n, (if x = node then (edges node).length else 0) := by rw [own]
    _ = _ := by
      unfold unsettledEdges
      rw [← Finset.sum_add_distrib]
      refine Finset.sum_congr rfl fun x _ => ?_
      by_cases same : x = node
      · subst same
        simp [fresh]
      · simp [same]

theorem run_found (lies : ∀ x, ∀ edge ∈ edges x, edge.other < n)
    (connected : ∀ known : Nat → Prop, known source →
      (∀ x, known x → ∀ edge ∈ edges x, known edge.other) → known target) :
    ∀ (fuel : Nat) {search : Search}, Valid edges n source search → Closed edges search →
      target ∉ search.settled →
      search.heap.length + unsettledEdges edges n search.settled < fuel →
      ∃ final older, run edges n target fuel search = some final ∧ Valid edges n source final ∧
        final.settled = target :: older := by
  intro fuel
  induction fuel with
  | zero =>
    intro search _ _ _ enough
    omega
  | succ fuel ih =>
    intro search valid closed missing enough
    rw [run]
    cases next : search.heap with
    | nil =>
      -- With nothing left to settle the reached nodes contain everything connected.
      have all : ∀ x, search.dist x ≠ none → x ∈ search.settled := by
        intro x known
        rcases valid.queued x known with settled | ⟨d, waiting⟩
        · exact settled
        · rw [next] at waiting
          cases waiting
      have reached := connected (fun x => search.dist x ≠ none) valid.start
        fun x known edge mem => closed x (all x known) edge mem
      exact absurd (all target reached) missing
    | cons entry rest =>
      obtain ⟨d, node⟩ := entry
      rw [next, length_cons] at enough
      dsimp only
      split
      · rename_i old
        exact ih (valid.skip next old) closed missing (by dsimp only; omega)
      · rename_i fresh
        have settled := valid.settle next fresh
        have known : node < n := valid.bounds node (valid.heap (d, node) (by rw [next]; simp))
        split
        · rename_i same
          subst same
          exact ⟨_, search.settled, rfl, settled, rfl⟩
        · rename_i ne
          obtain ⟨relaxed, reached⟩ := @Valid.relaxEdges edges n source node d lies (edges node) 0 _
            settled (mem_cons_self ..) rfl
          have fewer := @unsettledEdges_settle edges n node search.settled known fresh
          refine ih relaxed.valid ?_ ?_ ?_
          · intro x mem edge inEdges
            rw [relaxed.settled] at mem
            rcases mem_cons.mp mem with rfl | old
            · exact reached edge inEdges
            · exact relaxed.keeps _ (closed x old edge inEdges)
          · rw [relaxed.settled]
            simp only [mem_cons, not_or]
            exact ⟨Ne.symm ne, missing⟩
          · have grows := relaxed.grows
            rw [relaxed.settled]
            dsimp only at grows ⊢
            omega

theorem Valid.walk (valid : Valid edges n source search) :
    ∀ (fuel : Nat) {x : Nat} {newer older : List Nat},
      search.settled = newer ++ x :: older → older.length < fuel →
      (∀ step ∈ search.walk source fuel x, ∃ edge, (edges step.1)[step.2]? = some edge) ∧
      ∀ related : Nat → Nat → Prop, Equivalence related →
        (∀ step ∈ search.walk source fuel x, ∀ edge, (edges step.1)[step.2]? = some edge →
          related step.1 edge.other) → related source x := by
  intro fuel
  induction fuel with
  | zero =>
    intro x newer older _ enough
    omega
  | succ fuel ih =>
    intro x newer older split enough
    rw [Search.walk]
    by_cases start : x = source
    · subst start
      rw [if_pos rfl]
      exact ⟨by simp, fun related equivalence _ => equivalence.refl _⟩
    · have mem : x ∈ search.settled := by rw [split]; simp
      have known := valid.settled x mem
      rw [if_neg start, if_neg known]
      -- The parent was settled before the node.
      obtain ⟨step, parent, old⟩ := (valid.chained newer x older split).resolve_left start
      obtain ⟨step', edge, parent', _, here, other⟩ := (valid.reached x known).resolve_left start
      obtain rfl : step' = step := Option.some.inj (parent'.symm.trans parent)
      rw [parent]
      obtain ⟨before, after, rfl⟩ := append_of_mem old
      rw [length_append, length_cons] at enough
      have split' : search.settled = (newer ++ x :: before) ++ step'.1 :: after := by
        rw [split]
        simp
      obtain ⟨exists_, connects⟩ := ih split' (by omega)
      constructor
      · intro other_ mem
        rcases mem_cons.mp mem with rfl | later
        · exact ⟨edge, here⟩
        · exact exists_ other_ later
      · intro related equivalence along
        have last := along step' (mem_cons_self ..) edge here
        rw [other] at last
        exact equivalence.trans (connects related equivalence fun step mem =>
          along step (mem_cons_of_mem _ mem)) last

end Search

end Nixie.Euf
