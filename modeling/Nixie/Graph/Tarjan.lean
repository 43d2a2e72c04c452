import Mathlib.Algebra.GroupWithZero.Nat
import Mathlib.Data.List.Basic
import Mathlib.Data.Nat.Init
import Mathlib.Logic.Relation

/-! Strongly connected components by one iterative depth-first walk with low links. -/

namespace Nixie.Tarjan

open List Function

/-- The bookkeeping of the walk. -/
structure Walk where
  index : Nat → Option Nat
  /-- Smallest discovery number known to be reachable on the stack. -/
  lowlink : Nat → Nat
  onStack : Nat → Bool
  /-- Visited nodes that wait for their component, newest first. -/
  stack : List Nat
  /-- Open nodes with the cursor into their successors, innermost first. -/
  work : List (Nat × Nat)
  counter : Nat
  components : List (List Nat)

namespace Walk

def new : Walk where
  index := fun _ => none
  lowlink := fun _ => 0
  onStack := fun _ => false
  stack := []
  work := []
  counter := 0
  components := []

def seed (node : Nat) (walk : Walk) : Walk :=
  { walk with
    index := update walk.index node (some walk.counter)
    lowlink := update walk.lowlink node walk.counter
    onStack := update walk.onStack node true
    stack := node :: walk.stack
    work := (node, 0) :: walk.work
    counter := walk.counter + 1 }

/-- Hand a closed node's low link to the node below it. -/
def passLowlink (node : Nat) (walk : Walk) : Walk :=
  match walk.work with
  | [] => walk
  | (parent, _) :: _ =>
      { walk with
        lowlink := update walk.lowlink parent
          (min (walk.lowlink parent) (walk.lowlink node)) }

/-- Take a root and everything above it off the stack as one component. -/
def popComponent (node : Nat) (walk : Walk) : Walk :=
  let above := walk.stack.takeWhile fun other => other != node
  { walk with
    stack := (walk.stack.dropWhile fun other => other != node).tail
    onStack := fun other => if other = node ∨ other ∈ above then false else walk.onStack other
    components := walk.components ++ [node :: above.reverse] }

/-- One turn of the walk: follow the next successor of the innermost open node, or close it. -/
def step (succs : Nat → List Nat) (walk : Walk) : Walk :=
  match walk.work with
  | [] => walk
  | (node, cursor) :: rest =>
      match (succs node)[cursor]? with
      | some next =>
          let advanced := { walk with work := (node, cursor + 1) :: rest }
          match walk.index next with
          | none => advanced.seed next
          | some found =>
              if walk.onStack next then
                { advanced with
                  lowlink := update walk.lowlink node (min (walk.lowlink node) found) }
              else advanced
      | none =>
          let closed := passLowlink node { walk with work := rest }
          if walk.index node = some (closed.lowlink node) then closed.popComponent node
          else closed

def run (succs : Nat → List Nat) : Nat → Walk → Walk
  | 0, walk => walk
  | fuel + 1, walk => if walk.work = [] then walk else run succs fuel (walk.step succs)

/-- Number of turns that visiting the nodes below a bound can take. -/
def effort (succs : Nat → List Nat) (nodes : Nat) : Nat :=
  ((List.range nodes).map fun node => (succs node).length + 1).sum

/-- Walk from a root that no earlier walk has visited. -/
def visitRoot (succs : Nat → List Nat) (nodes : Nat) (walk : Walk) (root : Nat) : Walk :=
  if walk.index root = none then run succs (effort succs nodes) (walk.seed root) else walk

end Walk

/-- Strongly connected components of the graph on the nodes below a bound. -/
def components (succs : Nat → List Nat) (nodes : Nat) : List (List Nat) :=
  ((List.range nodes).foldl (Walk.visitRoot succs nodes) Walk.new).components

example : components (fun node => [[1], [2], [0, 3], []].getD node []) 4 = [[3], [0, 1, 2]] := by
  decide

section

variable (succs : Nat → List Nat)

def Reach : Nat → Nat → Prop := Relation.ReflTransGen fun node next => next ∈ succs node

def Connected (left right : Nat) : Prop := Reach succs left right ∧ Reach succs right left

def Walk.rank (walk : Walk) (node : Nat) : Nat := (walk.index node).getD 0

/-- The cursor of an open node has passed the successor; closed nodes have passed all. -/
def Walk.Examined (walk : Walk) (node next : Nat) : Prop :=
  next ∈ succs node ∧ ∀ cursor, (node, cursor) ∈ walk.work → next ∈ (succs node).take cursor

def Walk.opened (walk : Walk) : List Nat := walk.work.map Prod.fst

/-- What holds between any two turns of the walk. -/
structure Inv (nodes : Nat) (walk : Walk) : Prop where
  numbered : ∀ {node number}, walk.index node = some number → number < walk.counter
  bounded : ∀ {node}, walk.index node ≠ none → node < nodes
  flagged : ∀ {node}, walk.onStack node = true ↔ node ∈ walk.stack
  visited : ∀ {node}, node ∈ walk.stack → walk.index node ≠ none
  stackSorted : walk.stack.Pairwise fun later earlier => walk.rank earlier < walk.rank later
  openSorted : walk.opened.Pairwise fun later earlier => walk.rank earlier < walk.rank later
  openStacked : ∀ {node}, node ∈ walk.opened → node ∈ walk.stack
  anchored : ∀ {node}, node ∈ walk.stack → ∃ anchor ∈ walk.opened, walk.rank anchor ≤ walk.rank node
  spread : ∀ {anchor node}, anchor ∈ walk.opened → node ∈ walk.stack →
    walk.rank anchor ≤ walk.rank node → Reach succs anchor node
  lowLe : ∀ {node}, node ∈ walk.stack → walk.lowlink node ≤ walk.rank node
  witness : ∀ {node}, node ∈ walk.stack →
    ∃ other ∈ walk.stack, walk.rank other = walk.lowlink node ∧ Reach succs node other
  closedLow : ∀ {node}, node ∈ walk.stack → node ∉ walk.opened → walk.lowlink node < walk.rank node
  examinedVisited : ∀ {node next}, walk.index node ≠ none → walk.Examined succs node next →
    walk.index next ≠ none
  linked : ∀ {node next}, node ∈ walk.stack → walk.Examined succs node next →
    next ∈ walk.stack → ∀ anchor ∈ walk.opened, walk.rank anchor ≤ walk.rank node →
      ∃ inner ∈ walk.opened, walk.rank anchor ≤ walk.rank inner ∧
        walk.lowlink inner ≤ walk.rank next
  done : ∀ {node next}, walk.index node ≠ none → node ∉ walk.stack → next ∈ succs node →
    walk.index next ≠ none ∧ next ∉ walk.stack
  classes : ∀ {component node}, component ∈ walk.components → node ∈ component →
    walk.index node ≠ none ∧ node ∉ walk.stack ∧
      ∀ other, other ∈ component ↔ Connected succs node other
  covered : ∀ {node}, walk.index node ≠ none → node ∉ walk.stack →
    ∃ component ∈ walk.components, node ∈ component

end

variable {succs : Nat → List Nat} {nodes : Nat}

theorem sorted_inj {α : Type} {key : α → Nat} {items : List α}
    (sorted : items.Pairwise fun later earlier => key earlier < key later) {a b : α}
    (left : a ∈ items) (right : b ∈ items) (same : key a = key b) : a = b := by
  induction items with
  | nil => cases left
  | cons head rest ih =>
    obtain ⟨above, tail⟩ := pairwise_cons.mp sorted
    -- The head's key exceeds every other key.
    rcases mem_cons.mp left with rfl | leftLater
    · rcases mem_cons.mp right with rfl | rightLater
      · rfl
      · have := above b rightLater
        omega
    · rcases mem_cons.mp right with rfl | rightLater
      · have := above a leftLater
        omega
      · exact ih tail leftLater rightLater

namespace Inv

variable {walk : Walk} {node cursor next : Nat} {rest : List (Nat × Nat)}

theorem index_eq (visited : walk.index node ≠ none) : walk.index node = some (walk.rank node) := by
  cases number : walk.index node with
  | none => exact absurd number visited
  | some value => simp [Walk.rank, number]

theorem top_opened (top : walk.work = (node, cursor) :: rest) : node ∈ walk.opened := by
  simp [Walk.opened, top]

theorem rank_le_top (inv : Inv succs nodes walk) (top : walk.work = (node, cursor) :: rest)
    {anchor : Nat} (mem : anchor ∈ walk.opened) : walk.rank anchor ≤ walk.rank node := by
  have sorted := inv.openSorted
  rw [Walk.opened, top, map_cons] at sorted mem
  obtain ⟨above, _⟩ := pairwise_cons.mp sorted
  rcases mem_cons.mp mem with rfl | later
  · exact Nat.le_refl _
  · exact Nat.le_of_lt (above anchor later)

theorem top_once (inv : Inv succs nodes walk) (top : walk.work = (node, cursor) :: rest) :
    node ∉ rest.map Prod.fst := by
  intro mem
  have sorted := inv.openSorted
  rw [Walk.opened, top, map_cons] at sorted
  have := (pairwise_cons.mp sorted).1 _ mem
  exact Nat.lt_irrefl _ this

variable {source : Nat}

variable {target : Nat}

theorem examined_advance (inv : Inv succs nodes walk) (top : walk.work = (node, cursor) :: rest)
    (found : (succs node)[cursor]? = some next) (mem : target ∈ succs source)
    (passed : ∀ position, (source, position) ∈ (node, cursor + 1) :: rest →
      target ∈ (succs source).take position) :
    walk.Examined succs source target ∨ (source = node ∧ target = next) := by
  by_cases here : source = node
  · subst here
    have reached := passed (cursor + 1) (by simp)
    rw [take_add_one, found, Option.toList_some, mem_append, mem_singleton] at reached
    rcases reached with before | now
    · left
      refine ⟨mem, fun position entry => ?_⟩
      rw [top] at entry
      rcases mem_cons.mp entry with same | later
      · cases same
        exact before
      · exact absurd (mem_map.mpr ⟨_, later, rfl⟩) (inv.top_once top)
    · exact .inr ⟨rfl, now⟩
  · left
    refine ⟨mem, fun position entry => passed position ?_⟩
    rw [top] at entry
    rcases mem_cons.mp entry with same | later
    · cases same
      exact absurd rfl here
    · exact mem_cons_of_mem _ later

theorem advance (inv : Inv succs nodes walk) (top : walk.work = (node, cursor) :: rest)
    (found : (succs node)[cursor]? = some next) (seen : walk.index next ≠ none) {low : Nat}
    (lower : low ≤ walk.lowlink node)
    (origin : low = walk.lowlink node ∨ (next ∈ walk.stack ∧ low = walk.rank next))
    (taken : next ∈ walk.stack → low ≤ walk.rank next) :
    Inv succs nodes { walk with
      work := (node, cursor + 1) :: rest
      lowlink := update walk.lowlink node low } := by
  have same : (node :: rest.map Prod.fst) = walk.opened := by simp [Walk.opened, top]
  have nodeStacked := inv.openStacked (top_opened top)
  have edge : next ∈ succs node := mem_of_getElem? found
  -- The low link of the innermost open node can only fall.
  have fallen : ∀ other, update walk.lowlink node low other ≤ walk.lowlink other := by
    intro other
    by_cases here : other = node
    · subst here
      simpa using lower
    · simp [here]
  refine { inv with
    openSorted := ?_, openStacked := ?_, anchored := ?_, spread := ?_, lowLe := ?_
    witness := ?_, closedLow := ?_, examinedVisited := ?_, linked := ?_ }
  · simp only [Walk.opened, map_cons, same]
    exact inv.openSorted
  · simp only [Walk.opened, map_cons, same]
    exact inv.openStacked
  · simp only [Walk.opened, map_cons, same]
    exact inv.anchored
  · simp only [Walk.opened, map_cons, same]
    exact inv.spread
  · intro other stacked
    exact Nat.le_trans (fallen other) (inv.lowLe stacked)
  · intro other stacked
    by_cases here : other = node
    · subst here
      dsimp only
      rw [update_self]
      rcases origin with kept | ⟨nextStacked, number⟩
      · rw [kept]
        exact inv.witness stacked
      · exact ⟨next, nextStacked, number.symm, .single edge⟩
    · dsimp only
      rw [update_of_ne here]
      exact inv.witness stacked
  · simp only [Walk.opened, map_cons, same]
    intro other stacked closed
    exact Nat.lt_of_le_of_lt (fallen other) (inv.closedLow stacked closed)
  · intro source target visited examined
    rcases inv.examined_advance top found examined.1 examined.2 with old | ⟨_, new⟩
    · exact inv.examinedVisited visited old
    · rw [new]
      exact seen
  · simp only [Walk.opened, map_cons, same]
    intro source target stacked examined targetStacked anchor mem below
    rcases inv.examined_advance top found examined.1 examined.2 with old | ⟨rfl, rfl⟩
    · obtain ⟨inner, opened, above, linked⟩ := inv.linked stacked old targetStacked anchor mem below
      exact ⟨inner, opened, above, Nat.le_trans (fallen inner) linked⟩
    · refine ⟨source, top_opened top, below, ?_⟩
      rw [update_self]
      exact taken targetStacked

theorem seed (inv : Inv succs nodes walk) {work : List (Nat × Nat)}
    (same : work.map Prod.fst = walk.opened) (fresh : walk.index next = none)
    (inRange : next < nodes) (edge : ∀ top, walk.opened.head? = some top → next ∈ succs top)
    (passed : ∀ source target, target ∈ succs source →
      (∀ position, (source, position) ∈ work → target ∈ (succs source).take position) →
      walk.Examined succs source target ∨ (walk.opened.head? = some source ∧ target = next)) :
    Inv succs nodes (Walk.seed next { walk with work := work }) := by
  have opened : (Walk.seed next { walk with work := work }).opened = next :: walk.opened := by
    simp [Walk.seed, Walk.opened, same]
  have other : ∀ {old}, walk.index old ≠ none → old ≠ next := by
    intro old seen same
    rw [same] at seen
    exact seen fresh
  -- Only the new node changes its number, which exceeds all others.
  have newRank : (Walk.seed next { walk with work := work }).rank next = walk.counter := by
    simp [Walk.seed, Walk.rank]
  have oldRank : ∀ {old}, walk.index old ≠ none →
      (Walk.seed next { walk with work := work }).rank old = walk.rank old := by
    intro old seen
    simp [Walk.seed, Walk.rank, other seen]
  have below : ∀ {old}, walk.index old ≠ none → walk.rank old < walk.counter :=
    fun seen => inv.numbered (index_eq seen)
  have index : ∀ {node}, (Walk.seed next { walk with work := work }).index node ≠ none →
      node = next ∨ walk.index node ≠ none := by
    intro node seen
    by_cases here : node = next
    · exact .inl here
    · exact .inr (by simpa [Walk.seed, here] using seen)
  have seenStill : ∀ {old}, walk.index old ≠ none →
      (Walk.seed next { walk with work := work }).index old ≠ none := by
    intro old seen
    simpa [Walk.seed, other seen] using seen
  have nextSeen : (Walk.seed next { walk with work := work }).index next ≠ none := by
    simp [Walk.seed]
  have examined : ∀ {source target},
      (Walk.seed next { walk with work := work }).Examined succs source target →
      walk.Examined succs source target ∨ (walk.opened.head? = some source ∧ target = next) :=
    fun both => passed _ _ both.1 fun position mem =>
      both.2 position (mem_cons_of_mem _ mem)
  have unexamined : ∀ {target},
      ¬ (Walk.seed next { walk with work := work }).Examined succs next target := by
    intro target both
    have := both.2 0 mem_cons_self
    simp at this
  have lowOld : ∀ {old}, walk.index old ≠ none →
      (Walk.seed next { walk with work := work }).lowlink old = walk.lowlink old := by
    intro old seen
    simp [Walk.seed, other seen]
  have openSeen : ∀ {old}, old ∈ walk.opened → walk.index old ≠ none :=
    fun mem => inv.visited (inv.openStacked mem)
  refine
    { numbered := ?_, bounded := ?_, flagged := ?_, visited := ?_, stackSorted := ?_
      openSorted := ?_, openStacked := ?_, anchored := ?_, spread := ?_, lowLe := ?_
      witness := ?_, closedLow := ?_, examinedVisited := ?_, linked := ?_, done := ?_
      classes := ?_, covered := ?_ }
  · intro node number found
    by_cases here : node = next
    · subst here
      simp only [Walk.seed, update_self, Option.some.injEq] at found ⊢
      omega
    · simp only [Walk.seed, update_of_ne here] at found ⊢
      have := inv.numbered found
      omega
  · intro node seen
    rcases index seen with rfl | old
    · exact inRange
    · exact inv.bounded old
  · intro node
    by_cases here : node = next
    · subst here
      simp [Walk.seed]
    · simpa [Walk.seed, here] using inv.flagged
  · intro node stacked
    rcases mem_cons.mp stacked with rfl | old
    · exact nextSeen
    · exact seenStill (inv.visited old)
  · refine pairwise_cons.mpr ⟨fun old mem => ?_, ?_⟩
    · rw [newRank, oldRank (inv.visited mem)]
      exact below (inv.visited mem)
    · refine inv.stackSorted.imp_of_mem fun left right order => ?_
      rw [oldRank (inv.visited left), oldRank (inv.visited right)]
      exact order
  · rw [opened]
    refine pairwise_cons.mpr ⟨fun old mem => ?_, ?_⟩
    · rw [newRank, oldRank (openSeen mem)]
      exact below (openSeen mem)
    · refine inv.openSorted.imp_of_mem fun left right order => ?_
      rw [oldRank (openSeen left), oldRank (openSeen right)]
      exact order
  · rw [opened]
    intro node mem
    rcases mem_cons.mp mem with rfl | old
    · exact mem_cons_self
    · exact mem_cons_of_mem _ (inv.openStacked old)
  · rw [opened]
    intro node stacked
    rcases mem_cons.mp stacked with rfl | old
    · exact ⟨node, mem_cons_self, Nat.le_refl _⟩
    · obtain ⟨anchor, mem, order⟩ := inv.anchored old
      refine ⟨anchor, mem_cons_of_mem _ mem, ?_⟩
      rw [oldRank (openSeen mem), oldRank (inv.visited old)]
      exact order
  · rw [opened]
    intro anchor node mem stacked order
    rcases mem_cons.mp mem with rfl | oldAnchor
    · rcases mem_cons.mp stacked with rfl | old
      · exact .refl
      · rw [newRank, oldRank (inv.visited old)] at order
        have := below (inv.visited old)
        omega
    · rcases mem_cons.mp stacked with rfl | old
      · -- The new node is a successor of the innermost open node.
        cases tops : walk.opened with
        | nil =>
          rw [tops] at oldAnchor
          cases oldAnchor
        | cons top others =>
          have head : walk.opened.head? = some top := by rw [tops]; rfl
          have topOpen : top ∈ walk.opened := by rw [tops]; exact mem_cons_self
          have atMost : walk.rank anchor ≤ walk.rank top := by
            have sorted := inv.openSorted
            rw [tops] at sorted oldAnchor
            rcases mem_cons.mp oldAnchor with rfl | outer
            · exact Nat.le_refl _
            · exact Nat.le_of_lt ((pairwise_cons.mp sorted).1 anchor outer)
          exact (inv.spread oldAnchor (inv.openStacked topOpen) atMost).tail (edge top head)
      · rw [oldRank (openSeen oldAnchor), oldRank (inv.visited old)] at order
        exact inv.spread oldAnchor old order
  · intro node stacked
    rcases mem_cons.mp stacked with rfl | old
    · rw [newRank]
      simp [Walk.seed]
    · rw [lowOld (inv.visited old), oldRank (inv.visited old)]
      exact inv.lowLe old
  · intro node stacked
    rcases mem_cons.mp stacked with rfl | old
    · refine ⟨node, mem_cons_self, ?_, .refl⟩
      rw [newRank]
      simp [Walk.seed]
    · obtain ⟨reached, mem, number, path⟩ := inv.witness old
      refine ⟨reached, mem_cons_of_mem _ mem, ?_, path⟩
      rw [oldRank (inv.visited mem), lowOld (inv.visited old)]
      exact number
  · rw [opened]
    intro node stacked closed
    rcases mem_cons.mp stacked with rfl | old
    · exact absurd mem_cons_self closed
    · rw [lowOld (inv.visited old), oldRank (inv.visited old)]
      exact inv.closedLow old fun mem => closed (mem_cons_of_mem _ mem)
  · intro source target seen edgeDone
    rcases index seen with rfl | old
    · exact absurd edgeDone unexamined
    · rcases examined edgeDone with before | ⟨_, rfl⟩
      · exact seenStill (inv.examinedVisited old before)
      · exact nextSeen
  · rw [opened]
    intro source target stacked edgeDone targetStacked anchor mem order
    rcases mem_cons.mp stacked with rfl | old
    · exact absurd edgeDone unexamined
    · have sourceSeen := inv.visited old
      have oldAnchor : anchor ∈ walk.opened := by
        rcases mem_cons.mp mem with rfl | outer
        · rw [newRank, oldRank sourceSeen] at order
          have := below sourceSeen
          omega
        · exact outer
      rw [oldRank (openSeen oldAnchor), oldRank sourceSeen] at order
      rcases examined edgeDone with before | ⟨head, rfl⟩
      · have targetSeen := inv.examinedVisited sourceSeen before
        have targetOld : target ∈ walk.stack := by
          rcases mem_cons.mp targetStacked with same | outer
          · exact absurd same (other targetSeen)
          · exact outer
        obtain ⟨inner, innerOpen, above, linked⟩ :=
          inv.linked old before targetOld anchor oldAnchor order
        refine ⟨inner, mem_cons_of_mem _ innerOpen, ?_, ?_⟩
        · rw [oldRank (openSeen oldAnchor), oldRank (openSeen innerOpen)]
          exact above
        · rw [lowOld (openSeen innerOpen), oldRank targetSeen]
          exact linked
      · refine ⟨source, mem_cons_of_mem _ (mem_of_mem_head? head), ?_, ?_⟩
        · rw [oldRank (openSeen oldAnchor), oldRank sourceSeen]
          exact order
        · rw [lowOld sourceSeen, newRank]
          exact Nat.le_trans (inv.lowLe old) (Nat.le_of_lt (below sourceSeen))
  · intro source target seen unstacked mem
    have old : walk.index source ≠ none := by
      rcases index seen with rfl | old
      · exact absurd mem_cons_self unstacked
      · exact old
    obtain ⟨targetSeen, targetOff⟩ :=
      inv.done old (fun stacked => unstacked (mem_cons_of_mem _ stacked)) mem
    refine ⟨seenStill targetSeen, fun stacked => ?_⟩
    rcases mem_cons.mp stacked with same | before
    · exact other targetSeen same
    · exact targetOff before
  · intro component node mem lies
    obtain ⟨seen, off, exact_⟩ := inv.classes mem lies
    refine ⟨seenStill seen, fun stacked => ?_, exact_⟩
    rcases mem_cons.mp stacked with same | before
    · exact other seen same
    · exact off before
  · intro node seen unstacked
    rcases index seen with rfl | old
    · exact absurd mem_cons_self unstacked
    · exact inv.covered old fun stacked => unstacked (mem_cons_of_mem _ stacked)

theorem examined_top (inv : Inv succs nodes walk) (top : walk.work = (node, cursor) :: rest)
    (spent : (succs node)[cursor]? = none) (mem : next ∈ succs node) :
    walk.Examined succs node next := by
  refine ⟨mem, fun position entry => ?_⟩
  rw [top] at entry
  rcases mem_cons.mp entry with same | later
  · cases same
    rw [take_of_length_le (getElem?_eq_none_iff.mp spent)]
    exact mem
  · exact absurd (mem_map.mpr ⟨_, later, rfl⟩) (inv.top_once top)

theorem examined_close (inv : Inv succs nodes walk) (top : walk.work = (node, cursor) :: rest)
    (spent : (succs node)[cursor]? = none) (mem : target ∈ succs source)
    (passed : ∀ position, (source, position) ∈ rest → target ∈ (succs source).take position) :
    walk.Examined succs source target := by
  by_cases here : source = node
  · subst here
    exact inv.examined_top top spent mem
  · refine ⟨mem, fun position entry => passed position ?_⟩
    rw [top] at entry
    rcases mem_cons.mp entry with same | later
    · cases same
      exact absurd rfl here
    · exact later

theorem close (inv : Inv succs nodes walk) {parent position : Nat} {outer : List (Nat × Nat)}
    (top : walk.work = (node, cursor) :: (parent, position) :: outer)
    (spent : (succs node)[cursor]? = none) (low : walk.lowlink node < walk.rank node) :
    Inv succs nodes { walk with
      work := (parent, position) :: outer
      lowlink := update walk.lowlink parent
        (min (walk.lowlink parent) (walk.lowlink node)) } := by
  have opened : walk.opened = node :: parent :: outer.map Prod.fst := by simp [Walk.opened, top]
  have sorted := inv.openSorted
  rw [opened] at sorted
  obtain ⟨above, sortedRest⟩ := pairwise_cons.mp sorted
  have parentBelow : walk.rank parent < walk.rank node := above parent mem_cons_self
  have fallen : ∀ other, update walk.lowlink parent
      (min (walk.lowlink parent) (walk.lowlink node)) other ≤ walk.lowlink other := by
    intro other
    by_cases here : other = parent
    · subst here
      rw [update_self]
      exact Nat.min_le_left _ _
    · exact Nat.le_of_eq (update_of_ne here _ _)
  have still : ∀ {anchor}, anchor ∈ parent :: outer.map Prod.fst → anchor ∈ walk.opened := by
    intro anchor mem
    rw [opened]
    exact mem_cons_of_mem _ mem
  have nodeStacked := inv.openStacked (top_opened top)
  refine { inv with
    openSorted := sortedRest, openStacked := fun mem => inv.openStacked (still mem)
    anchored := ?_, spread := fun mem => inv.spread (still mem), lowLe := ?_
    witness := ?_, closedLow := ?_, examinedVisited := ?_, linked := ?_ }
  · intro other stacked
    obtain ⟨anchor, mem, order⟩ := inv.anchored stacked
    rw [opened] at mem
    rcases mem_cons.mp mem with rfl | outerMember
    · -- The parent was discovered before the closed node.
      exact ⟨parent, mem_cons_self, Nat.le_trans (Nat.le_of_lt parentBelow) order⟩
    · exact ⟨anchor, outerMember, order⟩
  · intro other stacked
    exact Nat.le_trans (fallen other) (inv.lowLe stacked)
  · intro other stacked
    by_cases here : other = parent
    · subst here
      dsimp only
      rw [update_self]
      rcases Nat.le_total (walk.lowlink other) (walk.lowlink node) with kept | lowered
      · rw [Nat.min_eq_left kept]
        exact inv.witness stacked
      · rw [Nat.min_eq_right lowered]
        obtain ⟨reached, mem, number, path⟩ := inv.witness nodeStacked
        have tree := inv.spread (still mem_cons_self) nodeStacked (Nat.le_of_lt parentBelow)
        exact ⟨reached, mem, number, tree.trans path⟩
    · dsimp only
      rw [update_of_ne here]
      exact inv.witness stacked
  · intro other stacked closed
    by_cases here : other = node
    · subst here
      exact Nat.lt_of_le_of_lt (fallen other) low
    · refine Nat.lt_of_le_of_lt (fallen other) (inv.closedLow stacked fun mem => ?_)
      rw [opened] at mem
      rcases mem_cons.mp mem with same | outerMember
      · exact here same
      · exact closed outerMember
  · intro source target visited examined
    exact inv.examinedVisited visited (inv.examined_close top spent examined.1 examined.2)
  · intro source target stacked examined targetStacked anchor mem order
    have before := inv.examined_close top spent examined.1 examined.2
    obtain ⟨inner, innerOpen, innerAbove, linked⟩ :=
      inv.linked stacked before targetStacked anchor (still mem) order
    rw [opened] at innerOpen
    rcases mem_cons.mp innerOpen with rfl | outerInner
    · -- The closed node's low link now shows in its parent.
      refine ⟨parent, mem_cons_self, ?_, ?_⟩
      · rcases mem_cons.mp mem with rfl | further
        · exact Nat.le_refl _
        · exact Nat.le_of_lt ((pairwise_cons.mp sortedRest).1 anchor further)
      · dsimp only
        rw [update_self]
        exact Nat.le_trans (Nat.min_le_right _ _) linked
    · exact ⟨inner, outerInner, innerAbove, Nat.le_trans (fallen inner) linked⟩

theorem done_reach (inv : Inv succs nodes walk)
    (seen : walk.index source ≠ none) (off : source ∉ walk.stack)
    (path : Reach succs source target) : walk.index target ≠ none ∧ target ∉ walk.stack := by
  induction path with
  | refl => exact ⟨seen, off⟩
  | tail _ edge ih => exact inv.done ih.1 ih.2 edge

section

variable (inv : Inv succs nodes walk) (top : walk.work = (node, cursor) :: rest)
  (spent : (succs node)[cursor]? = none) (root : walk.lowlink node = walk.rank node)

include inv top spent root

theorem root_edge (stacked : source ∈ walk.stack)
    (above : walk.rank node ≤ walk.rank source) (edge : target ∈ succs source) :
    (target ∈ walk.stack ∧ walk.rank node ≤ walk.rank target) ∨
      (walk.index target ≠ none ∧ target ∉ walk.stack) := by
  have nodeStacked := inv.openStacked (top_opened top)
  have examined : walk.Examined succs source target := by
    by_cases here : source = node
    · subst here
      exact inv.examined_top top spent edge
    · refine ⟨edge, fun position entry => ?_⟩
      -- Another open node would have been discovered before the root.
      have opened : source ∈ walk.opened := mem_map.mpr ⟨_, entry, rfl⟩
      have := inv.rank_le_top top opened
      have same : walk.rank source = walk.rank node := by omega
      exact absurd (sorted_inj inv.stackSorted stacked nodeStacked same) here
  have seen := inv.examinedVisited (inv.visited stacked) examined
  by_cases targetStacked : target ∈ walk.stack
  · left
    obtain ⟨inner, opened, innerAbove, linked⟩ :=
      inv.linked stacked examined targetStacked node (top_opened top) above
    have atMost := inv.rank_le_top top opened
    have same : inner = node :=
      sorted_inj inv.stackSorted (inv.openStacked opened) nodeStacked (by omega)
    rw [same, root] at linked
    exact ⟨targetStacked, linked⟩
  · exact .inr ⟨seen, targetStacked⟩

theorem root_reach (stacked : source ∈ walk.stack)
    (above : walk.rank node ≤ walk.rank source) (path : Reach succs source target) :
    (target ∈ walk.stack ∧ walk.rank node ≤ walk.rank target) ∨
      (walk.index target ≠ none ∧ target ∉ walk.stack) := by
  induction path with
  | refl => exact .inl ⟨stacked, above⟩
  | tail _ edge ih =>
    rcases ih with ⟨lies, order⟩ | ⟨seen, off⟩
    · exact inv.root_edge top spent root lies order edge
    · exact .inr (inv.done seen off edge)

theorem root_back (stacked : source ∈ walk.stack)
    (above : walk.rank node ≤ walk.rank source) : Reach succs source node := by
  -- Low links lead to ever smaller numbers until the root is met.
  induction number : walk.rank source using Nat.strong_induction_on generalizing source with
  | _ bound ih =>
    have nodeStacked := inv.openStacked (top_opened top)
    by_cases here : source = node
    · rw [here]
      exact .refl
    · have closed : source ∉ walk.opened := by
        intro opened
        have := inv.rank_le_top top opened
        exact here (sorted_inj inv.stackSorted stacked nodeStacked (by omega))
      have low := inv.closedLow stacked closed
      obtain ⟨reached, mem, same, path⟩ := inv.witness stacked
      rcases inv.root_reach top spent root stacked above path with ⟨_, order⟩ | ⟨_, off⟩
      · exact path.trans (ih (walk.rank reached) (by omega) mem order rfl)
      · exact absurd mem off

theorem root_class (stacked : source ∈ walk.stack)
    (above : walk.rank node ≤ walk.rank source) (other : Nat) :
    (other ∈ walk.stack ∧ walk.rank node ≤ walk.rank other) ↔ Connected succs source other := by
  have forward : ∀ {lies}, lies ∈ walk.stack → walk.rank node ≤ walk.rank lies →
      Reach succs node lies :=
    fun mem order => inv.spread (top_opened top) mem order
  constructor
  · intro both
    obtain ⟨mem, order⟩ := both
    exact ⟨(inv.root_back top spent root stacked above).trans (forward mem order),
      (inv.root_back top spent root mem order).trans (forward stacked above)⟩
  · intro connected
    rcases inv.root_reach top spent root stacked above connected.1 with lies | ⟨seen, off⟩
    · exact lies
    · exact absurd stacked (inv.done_reach seen off connected.2).2

theorem root_split : ∃ above below, walk.stack = above ++ node :: below ∧
    walk.stack.takeWhile (fun other => other != node) = above ∧
    (walk.stack.dropWhile fun other => other != node).tail = below ∧
    (∀ other, other ∈ node :: above.reverse ↔
      other ∈ walk.stack ∧ walk.rank node ≤ walk.rank other) ∧
    (∀ other, other ∈ below ↔ other ∈ walk.stack ∧ walk.rank other < walk.rank node) := by
  obtain ⟨above, below, split, absent⟩ := eq_append_cons_of_mem (inv.openStacked (top_opened top))
  have sorted := inv.stackSorted
  rw [split] at sorted
  obtain ⟨_, tail, across⟩ := pairwise_append.mp sorted
  obtain ⟨older, _⟩ := pairwise_cons.mp tail
  have newer : ∀ other ∈ above, walk.rank node < walk.rank other :=
    fun other mem => across other mem node mem_cons_self
  have skip : ∀ other ∈ above, (other != node) = true := by
    intro other mem
    rw [bne_iff_ne]
    intro same
    rw [same] at mem
    exact absent mem
  refine ⟨above, below, split, ?_, ?_, ?_, ?_⟩
  · rw [split, takeWhile_append_of_pos skip]
    simp
  · rw [split, dropWhile_append_of_pos skip]
    simp
  · intro other
    rw [split]
    simp only [mem_cons, mem_reverse, mem_append]
    constructor
    · intro lies
      rcases lies with rfl | mem
      · exact ⟨.inr (.inl rfl), Nat.le_refl _⟩
      · exact ⟨.inl mem, Nat.le_of_lt (newer other mem)⟩
    · intro both
      obtain ⟨mem | rfl | mem, order⟩ := both
      · exact .inr mem
      · exact .inl rfl
      · have := older other mem
        omega
  · intro other
    rw [split]
    simp only [mem_cons, mem_append]
    constructor
    · intro mem
      exact ⟨.inr (.inr mem), older other mem⟩
    · intro both
      obtain ⟨mem | rfl | mem, order⟩ := both
      · have := newer other mem
        omega
      · omega
      · exact mem

theorem popRoot : Inv succs nodes (Walk.popComponent node { walk with work := rest }) := by
  obtain ⟨above, below, split, taken, dropped, inClass, inBelow⟩ := inv.root_split top spent root
  have opened : walk.opened = node :: rest.map Prod.fst := by simp [Walk.opened, top]
  have sorted := inv.openSorted
  rw [opened] at sorted
  obtain ⟨outerBelow, sortedRest⟩ := pairwise_cons.mp sorted
  have still : ∀ {anchor}, anchor ∈ rest.map Prod.fst → anchor ∈ walk.opened := by
    intro anchor mem
    rw [opened]
    exact mem_cons_of_mem _ mem
  have state : Walk.popComponent node { walk with work := rest } = { walk with
      work := rest
      stack := below
      onStack := fun other => if other = node ∨ other ∈ above then false else walk.onStack other
      components := walk.components ++ [node :: above.reverse] } := by
    simp only [Walk.popComponent, taken, dropped]
  rw [state]
  have stackedBelow : ∀ {other}, other ∈ below → other ∈ walk.stack :=
    fun mem => ((inBelow _).mp mem).1
  have notClass : ∀ {other}, other ∈ below → other ≠ node := by
    intro other mem same
    have := ((inBelow other).mp mem).2
    rw [same] at this
    exact Nat.lt_irrefl _ this
  -- A visited node off the new stack was off the old one, or is in the root's class.
  have offBelow : ∀ {other}, other ∉ below → other ∉ walk.stack ∨
      (other ∈ walk.stack ∧ walk.rank node ≤ walk.rank other) := by
    intro other off
    by_cases stacked : other ∈ walk.stack
    · right
      refine ⟨stacked, Nat.le_of_not_lt fun order => off ((inBelow other).mpr ⟨stacked, order⟩)⟩
    · exact .inl stacked
  refine { inv with
    flagged := ?_, visited := fun mem => inv.visited (stackedBelow mem)
    stackSorted := ?_, openSorted := sortedRest, openStacked := ?_, anchored := ?_
    spread := fun mem lies => inv.spread (still mem) (stackedBelow lies)
    lowLe := fun mem => inv.lowLe (stackedBelow mem), witness := ?_, closedLow := ?_
    examinedVisited := fun seen examined =>
      inv.examinedVisited seen (inv.examined_close top spent examined.1 examined.2)
    linked := ?_, done := ?_, classes := ?_, covered := ?_ }
  · intro other
    have listed := inClass other
    simp only [mem_cons, mem_reverse] at listed
    dsimp only
    by_cases mem : other = node ∨ other ∈ above
    · have := (listed.mp mem).2
      simp only [mem, if_true, Bool.false_eq_true, false_iff]
      intro lies
      have := ((inBelow other).mp lies).2
      omega
    · simp only [mem, if_false]
      rw [inv.flagged, inBelow]
      constructor
      · intro stacked
        refine ⟨stacked, Nat.lt_of_not_le fun order => mem (listed.mpr ⟨stacked, order⟩)⟩
      · exact fun both => both.1
  · have sortedStack := inv.stackSorted
    rw [split] at sortedStack
    exact (pairwise_cons.mp (pairwise_append.mp sortedStack).2.1).2
  · intro other mem
    exact (inBelow other).mpr ⟨inv.openStacked (still mem), outerBelow other mem⟩
  · intro other mem
    obtain ⟨stacked, order⟩ := (inBelow other).mp mem
    obtain ⟨anchor, anchorOpen, anchorBelow⟩ := inv.anchored stacked
    rw [opened] at anchorOpen
    rcases mem_cons.mp anchorOpen with rfl | outer
    · omega
    · exact ⟨anchor, outer, anchorBelow⟩
  · intro other mem
    obtain ⟨stacked, order⟩ := (inBelow other).mp mem
    obtain ⟨reached, lies, number, path⟩ := inv.witness stacked
    have := inv.lowLe stacked
    refine ⟨reached, (inBelow reached).mpr ⟨lies, ?_⟩, number, path⟩
    omega
  · intro other mem closed
    refine inv.closedLow (stackedBelow mem) fun openBefore => ?_
    rw [opened] at openBefore
    rcases mem_cons.mp openBefore with same | outer
    · exact notClass mem same
    · exact closed outer
  · intro source target stacked examined targetStacked anchor mem order
    have before := inv.examined_close top spent examined.1 examined.2
    obtain ⟨inner, innerOpen, innerAbove, linked⟩ := inv.linked (stackedBelow stacked) before
      (stackedBelow targetStacked) anchor (still mem) order
    rw [opened] at innerOpen
    rcases mem_cons.mp innerOpen with rfl | outer
    · have := ((inBelow target).mp targetStacked).2
      rw [root] at linked
      omega
    · exact ⟨inner, outer, innerAbove, linked⟩
  · intro source target seen off edge
    rcases offBelow off with unstacked | ⟨stacked, order⟩
    · obtain ⟨targetSeen, targetOff⟩ := inv.done seen unstacked edge
      exact ⟨targetSeen, fun lies => targetOff (stackedBelow lies)⟩
    · rcases inv.root_edge top spent root stacked order edge with ⟨lies, above⟩ | ⟨targetSeen, targetOff⟩
      · refine ⟨inv.visited lies, fun older => ?_⟩
        have := ((inBelow target).mp older).2
        omega
      · exact ⟨targetSeen, fun lies => targetOff (stackedBelow lies)⟩
  · intro component source mem lies
    rcases mem_append.mp mem with old | new
    · obtain ⟨seen, off, exact_⟩ := inv.classes old lies
      exact ⟨seen, fun older => off (stackedBelow older), exact_⟩
    · rw [mem_singleton.mp new] at lies ⊢
      obtain ⟨stacked, order⟩ := (inClass source).mp lies
      refine ⟨inv.visited stacked, fun older => ?_, fun other => ?_⟩
      · have := ((inBelow source).mp older).2
        omega
      · rw [inClass]
        exact inv.root_class top spent root stacked order other
  · intro source seen off
    rcases offBelow off with unstacked | classMember
    · obtain ⟨component, mem, lies⟩ := inv.covered seen unstacked
      exact ⟨component, mem_append_left _ mem, lies⟩
    · refine ⟨node :: above.reverse, mem_append_right _ (mem_singleton.mpr rfl), ?_⟩
      exact (inClass source).mpr classMember

end

end Inv

variable {walk : Walk}

theorem Inv.idle (inv : Inv succs nodes walk) (idle : walk.work = []) : walk.stack = [] := by
  cases stack : walk.stack with
  | nil => rfl
  | cons node rest =>
    obtain ⟨anchor, mem, _⟩ := @anchored _ _ _ inv node (by simp [stack])
    simp [Walk.opened, idle] at mem

theorem Inv.outermost (inv : Inv succs nodes walk) {node cursor : Nat}
    (top : walk.work = [(node, cursor)]) : walk.lowlink node = walk.rank node := by
  have stacked := inv.openStacked (top_opened top)
  obtain ⟨reached, mem, number, _⟩ := inv.witness stacked
  -- Every stacked node was discovered after the only open one.
  obtain ⟨anchor, anchorOpen, order⟩ := inv.anchored mem
  have only : anchor = node := by simpa [Walk.opened, top] using anchorOpen
  have := inv.lowLe stacked
  rw [only] at order
  omega

theorem Inv.step (inv : Inv succs nodes walk)
    (range : ∀ node < nodes, ∀ next ∈ succs node, next < nodes) :
    Inv succs nodes (walk.step succs) := by
  unfold Walk.step
  cases top : walk.work with
  | nil => exact inv
  | cons entry rest =>
    obtain ⟨node, cursor⟩ := entry
    have stacked := inv.openStacked (top_opened top)
    have number := index_eq (inv.visited stacked)
    dsimp only
    cases found : (succs node)[cursor]? with
    | some next =>
      have edge : next ∈ succs node := mem_of_getElem? found
      dsimp only
      cases seen : walk.index next with
      | none =>
        refine inv.seed (by simp [Walk.opened, top]) seen ?_ ?_ ?_
        · exact range node (inv.bounded (inv.visited stacked)) next edge
        · intro head same
          have : node = head := by simpa [Walk.opened, top] using same
          exact this ▸ edge
        · intro source target mem passed
          rcases inv.examined_advance top found mem passed with old | ⟨rfl, rfl⟩
          · exact .inl old
          · exact .inr ⟨by simp [Walk.opened, top], rfl⟩
      | some value =>
        have visited : walk.index next ≠ none := by simp [seen]
        have rank : walk.rank next = value := by simp [Walk.rank, seen]
        dsimp only
        split
        · rename_i flag
          have nextStacked := inv.flagged.mp flag
          exact inv.advance top found visited (Nat.min_le_left _ _)
            (by
              rcases Nat.le_total (walk.lowlink node) value with kept | lowered
              · exact .inl (Nat.min_eq_left kept)
              · exact .inr ⟨nextStacked, by rw [Nat.min_eq_right lowered, rank]⟩)
            fun _ => rank ▸ Nat.min_le_right _ _
        · rename_i flag
          have off : next ∉ walk.stack := fun mem => flag (inv.flagged.mpr mem)
          have same := inv.advance top found visited (Nat.le_refl _) (.inl rfl)
            fun mem => absurd mem off
          rwa [update_eq_self] at same
    | none =>
      dsimp only
      cases rest with
      | nil =>
        -- The outermost open node is always a root.
        have root := inv.outermost top
        have isRoot : walk.index node = some (walk.lowlink node) := by rw [root]; exact number
        simp only [Walk.passLowlink, isRoot, if_true]
        exact inv.popRoot top found root
      | cons parentEntry outer =>
        obtain ⟨parent, position⟩ := parentEntry
        have opened : walk.opened = node :: parent :: outer.map Prod.fst := by
          simp [Walk.opened, top]
        have sorted := inv.openSorted
        rw [opened] at sorted
        have below : walk.rank parent < walk.rank node :=
          (pairwise_cons.mp sorted).1 parent mem_cons_self
        have ne : node ≠ parent := by
          intro same
          rw [same] at below
          exact Nat.lt_irrefl _ below
        simp only [Walk.passLowlink, update_of_ne ne]
        split
        · rename_i isRoot
          rw [number, Option.some.injEq] at isRoot
          have parentLow := inv.lowLe (@openStacked _ _ _ inv parent (by simp [opened]))
          -- A root's low link is too large to lower its parent's.
          have kept : min (walk.lowlink parent) (walk.lowlink node) = walk.lowlink parent := by
            omega
          rw [kept, update_eq_self]
          exact inv.popRoot top found isRoot.symm
        · rename_i notRoot
          have low := inv.lowLe stacked
          refine inv.close top found (Nat.lt_of_le_of_ne low fun same => notRoot ?_)
          rw [same]
          exact number

section

variable (succs nodes)

def Walk.unvisited (walk : Walk) : Nat :=
  ((List.range nodes).map fun node =>
    if walk.index node = none then (succs node).length + 1 else 0).sum

def Walk.pending (walk : Walk) : Nat :=
  (walk.work.map fun entry => (succs entry.1).length - entry.2 + 1).sum

end

theorem sum_range_change {f g : Nat → Nat} {bound point : Nat} (lies : point < bound)
    (same : ∀ other, other ≠ point → f other = g other) :
    ((List.range bound).map f).sum + g point = ((List.range bound).map g).sum + f point := by
  induction bound with
  | zero => omega
  | succ bound ih =>
    simp only [range_succ, map_append, sum_append_nat, map_cons, map_nil, sum_cons, sum_nil]
    by_cases last : point = bound
    · have earlier : (range bound).map f = (range bound).map g := by
        refine map_congr_left fun other mem => same other ?_
        have := mem_range.mp mem
        omega
      rw [earlier, last]
      omega
    · have before := ih (by omega)
      have final := same bound (by omega)
      omega

theorem sum_map_le {f g : Nat → Nat} {items : List Nat} (le : ∀ item, f item ≤ g item) :
    (items.map f).sum ≤ (items.map g).sum := by
  induction items with
  | nil => simp
  | cons item rest ih =>
    have := le item
    simp only [map_cons, sum_cons]
    omega

theorem unvisited_seed {next : Nat} (fresh : walk.index next = none)
    (inRange : next < nodes) (work : List (Nat × Nat)) :
    (Walk.seed next { walk with work := work }).unvisited succs nodes + (succs next).length + 1 =
      walk.unvisited succs nodes := by
  have change := @sum_range_change
    (fun node => if (Walk.seed next { walk with work := work }).index node = none then
      (succs node).length + 1 else 0)
    (fun node => if walk.index node = none then (succs node).length + 1 else 0) nodes next inRange
    (fun other ne => by simp [Walk.seed, ne])
  simp only [fresh, if_true, Walk.seed, update_self, reduceCtorEq, if_false] at change
  simp only [Walk.unvisited, Walk.seed]
  omega

theorem Inv.effort_step (inv : Inv succs nodes walk)
    (range : ∀ node < nodes, ∀ next ∈ succs node, next < nodes) (busy : walk.work ≠ []) :
    (walk.step succs).unvisited succs nodes + (walk.step succs).pending succs + 1 =
      walk.unvisited succs nodes + walk.pending succs := by
  unfold Walk.step
  cases top : walk.work with
  | nil => exact absurd top busy
  | cons entry rest =>
    obtain ⟨node, cursor⟩ := entry
    have stacked := inv.openStacked (top_opened top)
    have before : walk.pending succs = ((succs node).length - cursor + 1) +
        (rest.map fun entry => (succs entry.1).length - entry.2 + 1).sum := by
      simp [Walk.pending, top]
    dsimp only
    cases found : (succs node)[cursor]? with
    | some next =>
      have within : cursor < (succs node).length := (List.getElem?_eq_some_iff.mp found).1
      have edge : next ∈ succs node := mem_of_getElem? found
      dsimp only
      cases seen : walk.index next with
      | none =>
        have inRange := range node (inv.bounded (inv.visited stacked)) next edge
        have moved := @unvisited_seed succs _ _ _ seen inRange ((node, cursor + 1) :: rest)
        simp only [Walk.pending, Walk.seed, map_cons, sum_cons] at moved before ⊢
        omega
      | some value =>
        dsimp only
        split <;>
          · simp only [Walk.pending, Walk.unvisited, map_cons, sum_cons] at before ⊢
            omega
    | none =>
      have spent : (succs node).length ≤ cursor := getElem?_eq_none_iff.mp found
      have passed : ∀ walk : Walk, (Walk.passLowlink node walk).work = walk.work ∧
          (Walk.passLowlink node walk).index = walk.index := by
        intro walk
        unfold Walk.passLowlink
        split <;> exact ⟨rfl, rfl⟩
      have closed := passed { walk with work := rest }
      dsimp only
      split <;>
        · simp only [Walk.pending, Walk.unvisited, Walk.popComponent, closed] at before ⊢
          omega

theorem Inv.run (range : ∀ node < nodes, ∀ next ∈ succs node, next < nodes) :
    ∀ {fuel : Nat} {walk : Walk}, Inv succs nodes walk →
      walk.unvisited succs nodes + walk.pending succs ≤ fuel →
      Inv succs nodes (Walk.run succs fuel walk) ∧ (Walk.run succs fuel walk).work = [] := by
  intro fuel
  induction fuel with
  | zero =>
    intro walk inv enough
    refine ⟨inv, ?_⟩
    -- An open node would still need a turn.
    cases top : walk.work with
    | nil => simp [Walk.run, top]
    | cons entry rest =>
      simp [Walk.pending, top] at enough
  | succ fuel ih =>
    intro walk inv enough
    unfold Walk.run
    split
    · rename_i idle
      exact ⟨inv, idle⟩
    · rename_i busy
      have used := inv.effort_step range busy
      exact ih (inv.step range) (by omega)

theorem seed_index {node next : Nat} (seen : walk.index node ≠ none) :
    (walk.seed next).index node ≠ none := by
  by_cases here : node = next
  · simp [Walk.seed, here]
  · simpa [Walk.seed, here] using seen

theorem step_index {node : Nat} (seen : walk.index node ≠ none) :
    (walk.step succs).index node ≠ none := by
  unfold Walk.step
  split
  · exact seen
  · split
    · dsimp only
      split
      · exact seed_index seen
      · split <;> exact seen
    · have passed : ∀ (top : Nat) (walk : Walk),
          (Walk.passLowlink top walk).index = walk.index := by
        intro top walk
        unfold Walk.passLowlink
        split <;> rfl
      dsimp only
      split
      · simpa [Walk.popComponent, passed] using seen
      · simpa [passed] using seen

theorem run_index {node : Nat} : ∀ {fuel : Nat} {walk : Walk}, walk.index node ≠ none →
    (Walk.run succs fuel walk).index node ≠ none := by
  intro fuel
  induction fuel with
  | zero => exact fun seen => seen
  | succ fuel ih =>
    intro walk seen
    unfold Walk.run
    split
    · exact seen
    · exact ih (step_index seen)

theorem inv_new : Inv succs nodes Walk.new := by
  constructor <;> simp [Walk.new, Walk.opened]

theorem Inv.visitRoot (inv : Inv succs nodes walk)
    (range : ∀ node < nodes, ∀ next ∈ succs node, next < nodes) (idle : walk.work = [])
    {root : Nat} (inRange : root < nodes) :
    Inv succs nodes (Walk.visitRoot succs nodes walk root) ∧
      (Walk.visitRoot succs nodes walk root).work = [] ∧
      (Walk.visitRoot succs nodes walk root).index root ≠ none ∧
      ∀ {node}, walk.index node ≠ none →
        (Walk.visitRoot succs nodes walk root).index node ≠ none := by
  unfold Walk.visitRoot
  split
  · rename_i fresh
    have same : walk = { walk with work := [] } := by rw [← idle]
    have seeded : Inv succs nodes (walk.seed root) := by
      rw [same]
      refine inv.seed (by simp [Walk.opened, idle]) fresh inRange ?_ ?_
      · intro top head
        simp [Walk.opened, idle] at head
      · intro source target mem _
        refine .inl ⟨mem, fun position entry => ?_⟩
        rw [idle] at entry
        cases entry
    have moved := @unvisited_seed succs _ _ _ fresh inRange walk.work
    have start : (walk.seed root).unvisited succs nodes + (walk.seed root).pending succs =
        walk.unvisited succs nodes := by
      simp only [Walk.pending, Walk.seed, idle, map_cons, map_nil, sum_cons, sum_nil] at moved ⊢
      omega
    have enough : walk.unvisited succs nodes ≤ Walk.effort succs nodes := by
      exact sum_map_le fun node => by split <;> omega
    have fits : (walk.seed root).unvisited succs nodes + (walk.seed root).pending succs ≤
        Walk.effort succs nodes := Nat.le_trans (Nat.le_of_eq start) enough
    obtain ⟨inv', idle'⟩ := seeded.run range fits
    exact ⟨inv', idle', run_index (by simp [Walk.seed]), fun seen => run_index (seed_index seen)⟩
  · rename_i visited
    exact ⟨inv, idle, visited, id⟩

theorem walk_roots (range : ∀ node < nodes, ∀ next ∈ succs node, next < nodes) :
    ∀ {roots : List Nat} {walk : Walk}, (∀ root ∈ roots, root < nodes) → Inv succs nodes walk →
      walk.work = [] →
      Inv succs nodes (roots.foldl (Walk.visitRoot succs nodes) walk) ∧
        (roots.foldl (Walk.visitRoot succs nodes) walk).work = [] ∧
        (∀ root ∈ roots, (roots.foldl (Walk.visitRoot succs nodes) walk).index root ≠ none) ∧
        ∀ {node}, walk.index node ≠ none →
          (roots.foldl (Walk.visitRoot succs nodes) walk).index node ≠ none := by
  intro roots
  induction roots with
  | nil => exact fun _ inv idle => ⟨inv, idle, fun _ mem => (not_mem_nil mem).elim, id⟩
  | cons root rest ih =>
    intro walk inRange inv idle
    obtain ⟨inv', idle', seen, kept⟩ := inv.visitRoot range idle (inRange root mem_cons_self)
    obtain ⟨inv'', idle'', others, kept'⟩ :=
      ih (fun other mem => inRange other (mem_cons_of_mem _ mem)) inv' idle'
    refine ⟨inv'', idle'', fun other mem => ?_, fun before => kept' (kept before)⟩
    rcases mem_cons.mp mem with rfl | later
    · exact kept' seen
    · exact others other later

theorem components_spec (range : ∀ node < nodes, ∀ next ∈ succs node, next < nodes) :
    (∀ node < nodes, ∃ component ∈ components succs nodes, node ∈ component) ∧
      ∀ component ∈ components succs nodes, ∀ node ∈ component, node < nodes ∧
        ∀ other, other ∈ component ↔ Connected succs node other := by
  obtain ⟨inv, idle, seen, _⟩ := @walk_roots succs nodes range
    (List.range nodes) _ (fun root mem => mem_range.mp mem) inv_new rfl
  have empty := inv.idle idle
  constructor
  · intro node inRange
    refine inv.covered (seen node (mem_range.mpr inRange)) ?_
    rw [empty]
    exact not_mem_nil
  · intro component mem node lies
    obtain ⟨visited, _, exact_⟩ := inv.classes mem lies
    exact ⟨inv.bounded visited, exact_⟩

end Nixie.Tarjan
