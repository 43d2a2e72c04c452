import Nixie.DiffLogic.Sparse.Spfa
import Nixie.Graph.Parents

/-! The parent edges of the searches: cycles of them are negative, and many rounds make one. -/

namespace Nixie.DiffLogic.Sparse

open Nixie.Graph List Function Option

/-- The parent of a node, with the weight of the edge from it. -/
def parents (graph : ConstraintGraph) (parentEdge : Nat → Option Nat) (v : Nat) : Option (Nat × ℚ) :=
  (parentEdge v).bind fun idx =>
    graph.constraints[idx]?.map fun c => (c.y, c.effectiveBound graph.isInteger)

/-- The parent edges belong to the labels, and each is a constraint on its node. -/
structure Treed (graph : ConstraintGraph) (init distances : Nat → Option ℚ)
    (parentEdge : Nat → Option Nat) : Prop where
  recorded : ∀ v idx, parentEdge v = some idx → ∃ c, graph.constraints[idx]? = some c ∧ c.x = v
  fits : Parents (GraphEdge graph) init distances (parents graph parentEdge)

section

variable {graph : ConstraintGraph} {init distances : Nat → Option ℚ} {parentEdge : Nat → Option Nat}
  {c : DiffConstraint} {idx : Nat} {d du : ℚ}

theorem parents_update (found : graph.constraints[idx]? = some c) (v : Nat) :
    parents graph (update parentEdge v (some idx)) =
      update (parents graph parentEdge) v (some (c.y, c.effectiveBound graph.isInteger)) := by
  -- Other nodes keep their parents.
  funext x
  by_cases same : x = v
  · simp [parents, same, found]
  · simp [parents, same]

theorem treed_start : Treed graph init init fun _ => none where
  recorded := fun _ _ found => nomatch found
  fits := .start

theorem not_improves {newDist : ℚ} {old : Option ℚ} (heavy : ¬ improves newDist old = true) :
    ∃ e, old = some e ∧ e ≤ newDist := by
  cases old with
  | none => exact absurd rfl heavy
  | some e => exact ⟨e, rfl, not_lt.mp fun lower => heavy (decide_eq_true lower)⟩

theorem Treed.update (treed : Treed graph init distances parentEdge) (indexed : Indexed graph)
    (found : graph.constraints[idx]? = some c) (source : distances c.y = some d) (sunk : d ≤ du)
    (light : improves (du + c.effectiveBound graph.isInteger) (distances c.x) = true) :
    Treed graph init
      (update distances c.x (some (du + c.effectiveBound graph.isInteger)))
      (update parentEdge c.x (some idx)) where
  recorded := by
    intro v i known
    by_cases same : v = c.x
    · rw [same, update_self, some_inj] at known
      exact ⟨c, known ▸ found, same.symm⟩
    · rw [update_of_ne same] at known
      exact treed.recorded v i known
  fits := by
    rw [parents_update found]
    -- The edge of the constraint is one of the graph.
    refine treed.fits.update ?_ source sunk fun e known => ?_
    · exact indexed.graphEdge.mpr ⟨c, mem_of_getElem? found, rfl, rfl, rfl⟩
    · rw [known] at light
      exact of_decide_eq_true light

end

/-- The edges of a known node are relaxed. -/
def Settled (graph : ConstraintGraph) (distances : Nat → Option ℚ) (x : Nat) : Prop :=
  ∀ d, distances x = some d → ∀ v w, GraphEdge graph x v w → ∃ e, distances v = some e ∧ e ≤ d + w

/-- The labels and parents of a search with a queue: nodes of later rounds have higher ranks. -/
structure Tree (graph : ConstraintGraph) (init : Nat → Option ℚ) (p : Nat) (cur next : List Nat)
    (spfa : Spfa) (rank : Nat → Nat) : Prop where
  treed : Treed graph init spfa.distances spfa.parentEdge
  ranked : Ranked (parents graph spfa.parentEdge) rank
  low : ∀ v, rank v ≤ p + 1
  current : ∀ v ∈ cur, p ≤ rank v
  later : ∀ v ∈ next, p + 1 ≤ rank v
  settled : ∀ x, x ∉ cur → x ∉ next → Settled graph spfa.distances x

/-- The edges of a node are being relaxed, with the label it had when it left the queue. -/
structure Growing (graph : ConstraintGraph) (init : Nat → Option ℚ) (n p u : Nat) (du : ℚ)
    (cur next : List Nat) (head popped : Nat) (spfa : Spfa) (rank : Nat → Nat)
    (done : Nat → ℚ → Prop) : Prop where
  queued : Queued n p cur next head popped spfa
  tree : Tree graph init p (u :: cur) next spfa rank
  label : ∃ d, spfa.distances u = some d ∧ d ≤ du ∧ (d = du ∨ u ∈ next)
  passed : ∀ v w, done v w → ∃ e, spfa.distances v = some e ∧ e ≤ du + w

/-- A node was put into the queue so often that its chain of parents is longer than the graph. -/
structure Overflow (graph : ConstraintGraph) (init : Nat → Option ℚ) (n : Nat) (spfa : Spfa)
    (node : Nat) : Prop where
  treed : Treed graph init spfa.distances spfa.parentEdge
  inside : node < n
  chain : ∃ a vertices w,
    Walk (ParentEdge (parents graph spfa.parentEdge)) a vertices node w ∧ vertices.length = n + 1

/-- What a loop over edges of a node ends with. -/
def Grown (graph : ConstraintGraph) (init : Nat → Option ℚ) (n p u : Nat) (du : ℚ) (cur : List Nat)
    (head popped : Nat) (done : Nat → ℚ → Prop) : Spfa × Option Nat → Prop
  | (spfa, some node) => Overflow graph init n spfa node
  | (spfa, none) => ∃ next rank, Growing graph init n p u du cur next head popped spfa rank done

def Searched (graph : ConstraintGraph) (init : Nat → Option ℚ) (n : Nat) : Spfa × Option Nat → Prop
  | (spfa, some node) => Overflow graph init n spfa node
  | (spfa, none) => Treed graph init spfa.distances spfa.parentEdge ∧ ∀ x, Settled graph spfa.distances x

section

variable {graph : ConstraintGraph} {init : Nat → Option ℚ} {n p u idx head popped : Nat}
  {cur next : List Nat} {du : ℚ} {spfa : Spfa} {rank : Nat → Nat} {c : DiffConstraint}
  {done : Nat → ℚ → Prop}

theorem Growing.lower (growing : Growing graph init n p c.y du cur next head popped spfa rank done)
    (indexed : Indexed graph) (found : graph.constraints[idx]? = some c)
    (light : improves (du + c.effectiveBound graph.isInteger) (spfa.distances c.x) = true)
    {queue : List Nat} {spfa' : Spfa} (queued : Queued n p cur queue head popped spfa')
    (labels : spfa'.distances =
      update spfa.distances c.x (some (du + c.effectiveBound graph.isInteger)))
    (edges : spfa'.parentEdge = update spfa.parentEdge c.x (some idx))
    (more : ∀ x, x ∈ queue ↔ x ∈ next ∨ x = c.x ∧ x ∉ cur) (fresh : c.y ∉ cur) :
    Growing graph init n p c.y du cur queue head popped spfa' (update rank c.x (p + 1))
      fun v w => done v w ∨ (v = c.x ∧ w = c.effectiveBound graph.isInteger) := by
  obtain ⟨d, source, sunk, again⟩ := growing.label
  have tree := growing.tree
  -- Labels only sink.
  have sinks : ∀ {x e b}, spfa.distances x = some e → e ≤ b →
      ∃ e', spfa'.distances x = some e' ∧ e' ≤ b := by
    intro x e b known below
    rw [labels]
    by_cases same : x = c.x
    · rw [← same, known] at light
      exact ⟨_, same ▸ update_self .., (of_decide_eq_true light).le.trans below⟩
    · exact ⟨e, (update_of_ne same ..).trans known, below⟩
  have higher : ∀ x b, b ≤ p + 1 → b ≤ rank x → b ≤ update rank c.x (p + 1) x := by
    intro x b top below
    by_cases same : x = c.x <;> simp [same, top]
    exact below
  have root := tree.current c.y (.head _)
  refine ⟨queued, ⟨?_, ?_, ?_, ?_, ?_, ?_⟩, ?_, ?_⟩
  · rw [labels, edges]
    exact tree.treed.update indexed found source sunk light
  · rw [edges, parents_update found]
    exact tree.ranked.update (tree.low c.x) (Nat.succ_le_succ root)
  · intro x
    by_cases same : x = c.x
    · simp [same]
    · rw [update_of_ne same]
      exact tree.low x
  · exact fun x mem => higher x p (Nat.le_succ p) (tree.current x mem)
  · intro x mem
    rcases (more x).mp mem with old | ⟨rfl, _⟩
    · exact higher x _ le_rfl (tree.later x old)
    · simp
  · intro x apart rests e known v w step
    have old : x ∉ next := fun mem => rests ((more x).mpr (.inl mem))
    have same : x ≠ c.x := fun here =>
      rests ((more x).mpr (.inr ⟨here, fun mem => apart (.tail _ mem)⟩))
    rw [labels, update_of_ne same] at known
    obtain ⟨e', target, below⟩ := tree.settled x apart old e known v w step
    exact sinks target below
  · by_cases loop : c.y = c.x
    · have lower := light
      rw [← loop, source] at lower
      refine ⟨_, by rw [labels, loop, update_self], ?_, ?_⟩
      · exact (of_decide_eq_true lower).le.trans sunk
      · exact .inr ((more c.y).mpr (.inr ⟨loop, fresh⟩))
    · refine ⟨d, by rw [labels, update_of_ne loop, source], sunk, ?_⟩
      exact again.imp_right fun mem => (more c.y).mpr (.inl mem)
  · rintro v w (before | ⟨rfl, rfl⟩)
    · obtain ⟨e, known, below⟩ := growing.passed v w before
      exact sinks known below
    · exact ⟨_, by rw [labels, update_self], le_rfl⟩

theorem Grown.imp {other : Nat → ℚ → Prop} {result : Spfa × Option Nat}
    (grown : Grown graph init n p u du cur head popped done result)
    (fewer : ∀ v w, other v w → done v w) : Grown graph init n p u du cur head popped other result := by
  obtain ⟨spfa, _ | node⟩ := result
  · obtain ⟨next, rank, growing⟩ := grown
    exact ⟨next, rank, growing.queued, growing.tree, growing.label,
      fun v w before => growing.passed v w (fewer v w before)⟩
  · exact grown

theorem relaxEdges_tree (indexed : Indexed graph)
    (lies : ∀ c ∈ graph.constraints, c.x < n ∧ c.y < n) {edges : List DiffEdge}
    (own : ∀ edge ∈ edges, edge ∈ graph.edges (u + 1)) (fresh : u ∉ cur)
    (growing : Growing graph init n p u du cur next head popped spfa rank done) :
    Grown graph init n p u du cur head popped
      (fun v w => done v w ∨ ∃ edge ∈ edges, edge.to_ = v ∧ edge.weight = w)
      (Spfa.relaxEdges n du edges spfa) := by
  -- By induction on the edges that are left; what is done grows by one edge.
  induction edges generalizing next spfa rank done with
  | nil =>
    exact ⟨next, rank, growing.queued, growing.tree, growing.label, by simpa using growing.passed⟩
  | cons edge rest ih =>
    obtain ⟨idx, c, found, rfl, rfl⟩ := (indexed.edges u edge).mp (own edge (.head _))
    -- What the rest of the loop gives, once the first edge is done.
    have resume : ∀ {next' : List Nat} {spfa' : Spfa} {rank' : Nat → Nat},
        (Growing graph init n p c.y du cur next' head popped spfa' rank' fun v w =>
          done v w ∨ (v = c.x ∧ w = c.effectiveBound graph.isInteger)) →
        Grown graph init n p c.y du cur head popped
          (fun v w => done v w ∨ ∃ edge ∈ edgeOf graph.isInteger idx c :: rest,
            edge.to_ = v ∧ edge.weight = w)
          (Spfa.relaxEdges n du rest spfa') := by
      intro next' spfa' rank' growing'
      refine (ih (fun other mem => own other (.tail _ mem)) growing').imp ?_
      rintro v w (before | ⟨other, mem, target, weight⟩)
      · exact .inl (.inl before)
      · rcases mem_cons.mp mem with rfl | behind
        · exact .inl (.inr ⟨target.symm, weight.symm⟩)
        · exact .inr ⟨other, behind, target, weight⟩
    have nodes := lies c (mem_of_getElem? found)
    have real : ¬ (edgeOf graph.isInteger idx c).from_.isSource = true := Bool.false_ne_true
    rw [Spfa.relaxEdges, if_neg real]
    dsimp only
    by_cases light : improves (du + (edgeOf graph.isInteger idx c).weight)
        (spfa.distances (edgeOf graph.isInteger idx c).to_) = true
    · rw [if_pos light]
      have labelled := @Queued.setLabel _ _ _ _ _ _ _ (edgeOf graph.isInteger idx c) growing.queued
        (du + (edgeOf graph.isInteger idx c).weight)
      split
      · -- The target waits already.
        rename_i waiting
        have waits := mem_append.mp ((labelled.flags c.x).mp waiting)
        refine resume (growing.lower indexed found light labelled rfl rfl (fun x => ?_) fresh)
        exact ⟨.inl, fun either => either.elim id fun ⟨same, apart⟩ =>
          same ▸ waits.resolve_left (same ▸ apart)⟩
      · rename_i absent
        have outside : c.x ∉ cur ++ next := fun mem => absent ((labelled.flags c.x).mpr mem)
        split
        · -- The rank of the target is above the number of nodes.
          rename_i often
          obtain ⟨d, source, sunk, _⟩ := growing.label
          have tree := growing.tree
          have ranked := tree.ranked.update (w := c.effectiveBound graph.isInteger) (tree.low c.x)
            (Nat.succ_le_succ (tree.current c.y (.head _)))
          rw [← parents_update found] at ranked
          have apart : (edgeOf graph.isInteger idx c).to_ ∉ next := fun mem =>
            outside (mem_append_right _ mem)
          have count := labelled.rounds (edgeOf graph.isInteger idx c).to_
          rw [if_neg apart] at count
          have more := often.trans_eq (update_self ..)
          refine ⟨tree.treed.update indexed found source sunk light, nodes.1, ranked.chain ?_⟩
          show n + 1 ≤ update rank c.x (p + 1) c.x
          rw [update_self]
          omega
        · rename_i seldom
          refine resume (growing.lower indexed found light (labelled.enqueue nodes.1
            (Bool.eq_false_iff.mpr absent) seldom) rfl rfl (fun x => ?_) fresh)
          have first := fun mem => outside (mem_append_left next mem)
          show x ∈ next ++ [c.x] ↔ _
          rw [mem_append, mem_singleton]
          exact or_congr_right ⟨fun same => ⟨same, same ▸ first⟩, And.left⟩
    · rw [if_neg light]
      refine resume ⟨growing.queued, growing.tree, growing.label, ?_⟩
      rintro v w (before | ⟨rfl, rfl⟩)
      · exact growing.passed v w before
      · exact not_improves light

theorem spfaLoop_tree (indexed : Indexed graph)
    (lies : ∀ c ∈ graph.constraints, c.x < n ∧ c.y < n) {fuel : Nat}
    (queued : Queued n p cur next head popped spfa) (tree : Tree graph init p cur next spfa rank)
    (fueled : Spfa.enough n + head ≤ fuel + popped) :
    Searched graph init n (Spfa.spfaLoop graph n fuel spfa) := by
  -- By induction on the nodes that may still leave the queue.
  induction fuel generalizing p popped cur next spfa rank with
  | zero =>
    have bound := queued.popped_lt
    omega
  | succ fuel ih =>
    cases waiting : cur ++ next with
    | nil =>
      obtain ⟨rfl, rfl⟩ := append_eq_nil_iff.mp waiting
      have queue : spfa.queue = [] := queued.queue
      rw [Spfa.spfaLoop, queue]
      exact ⟨tree.treed, fun x => tree.settled x not_mem_nil not_mem_nil⟩
    | cons u rest =>
      -- If the round is over, the next one begins with the first node.
      obtain ⟨p', cur', next', queued', tree', rfl⟩ : ∃ p' cur' next',
          Queued n p' (u :: cur') next' head popped spfa ∧
          Tree graph init p' (u :: cur') next' spfa rank ∧ rest = cur' ++ next' := by
        cases cur with
        | nil =>
          rw [nil_append] at waiting
          subst waiting
          refine ⟨p + 1, rest, [], queued.turn, ⟨tree.treed, tree.ranked, ?_, tree.later, ?_, ?_⟩,
            (append_nil _).symm⟩
          · exact fun v => (tree.low v).trans (Nat.le_succ _)
          · exact fun _ mem => nomatch mem
          · exact fun x apart _ => tree.settled x not_mem_nil apart
        | cons v cur =>
          obtain ⟨rfl, rfl⟩ := cons.inj waiting
          exact ⟨p, cur, next, queued, tree, rfl⟩
      have queue : spfa.queue = u :: (cur' ++ next') := queued'.queue
      have fresh : u ∉ cur' := fun mem =>
        (nodup_cons.mp queued'.distinct).1 (mem_append_left _ mem)
      -- Once its edges are relaxed, the node does not wait any more.
      have leave : ∀ {next'' spfa' rank'}, Tree graph init p' (u :: cur') next'' spfa' rank' →
          (u ∉ next'' → Settled graph spfa'.distances u) →
            Tree graph init p' cur' next'' spfa' rank' := by
        intro next'' spfa' rank' tree'' own
        refine ⟨tree''.treed, tree''.ranked, tree''.low,
          fun v mem => tree''.current v (.tail _ mem), tree''.later, fun x apart rests => ?_⟩
        by_cases same : x = u
        · exact same ▸ own (same ▸ rests)
        · exact tree''.settled x (fun mem => apart ((mem_cons.mp mem).resolve_left same)) rests
      have popped' := queued'.pop
      rw [Spfa.spfaLoop, queue]
      dsimp only
      generalize leaves : ({ spfa with
        queue := cur' ++ next'
        inQueue := update spfa.inQueue u false } : Spfa) = left_ at popped' ⊢
      have kept : Tree graph init p' (u :: cur') next' left_ rank := leaves ▸
        { tree' with }
      rw [show spfa.distances u = left_.distances u from leaves ▸ rfl]
      cases known : left_.distances u with
      | none =>
        exact ih popped' (leave kept fun _ d found => nomatch known.symm.trans found) (by omega)
      | some du =>
        have growing : Growing graph init n p' u du cur' next' head (popped + 1) left_ rank
            fun _ _ => False :=
          ⟨popped', kept, ⟨du, known, le_rfl, .inl rfl⟩, fun _ _ none_ => none_.elim⟩
        have grown := relaxEdges_tree indexed lies (fun edge mem => mem) fresh growing
        dsimp only
        unfold ConstraintGraph.getEdges ConstraintGraph.edgeSlot
        generalize Spfa.relaxEdges n du (graph.edges (u + 1)) left_ = result at grown ⊢
        obtain ⟨spfa', _ | node⟩ := result
        · obtain ⟨next'', rank', growing'⟩ := grown
          refine ih growing'.queued (leave growing'.tree ?_) (by omega)
          -- Its label did not change, and all of its edges were passed.
          intro rests d found v w step
          obtain ⟨edge, mem, target, weight⟩ := step
          obtain ⟨e, found', _, again⟩ := growing'.label
          obtain rfl := some.inj (found.symm.trans found')
          rw [again.resolve_right rests]
          exact growing'.passed v w (.inr ⟨edge, mem, target, weight⟩)
        · exact grown

end

section

variable {graph : ConstraintGraph} {init distances : Nat → Option ℚ} {parentEdge : Nat → Option Nat}
  {first : Nat → ℚ} {spfa : Spfa} {node : Nat}

theorem Treed.few (treed : Treed graph init distances parentEdge) (consistent : Consistent graph) :
    FewSources (ParentEdge (parents graph parentEdge)) graph.numVars := by
  refine fewSources fun a b w step => ?_
  -- They are the sources of edges.
  obtain ⟨edge, mem, _⟩ := treed.fits.edges a b w step
  exact (consistent.wellFormed.slots a edge mem).2.1

theorem Treed.negative (treed : Treed graph init distances parentEdge) (consistent : Consistent graph)
    {a b : Nat} {vertices : List Nat} {w : ℚ}
    (walk : Walk (ParentEdge (parents graph parentEdge)) a vertices b w)
    (long : graph.numVars ≤ vertices.length) (lies : b < graph.numVars) :
    ¬ NoNegativeCycle (GraphEdge graph) := by
  intro sound
  -- The end and the nodes before it cannot all be different.
  have repeats : ¬ (vertices ++ [b]).Nodup := by
    intro distinct
    have sub : vertices ++ [b] ⊆ range graph.numVars := by
      intro x mem
      rcases mem_append.mp mem with left | last
      · obtain ⟨y, k, step⟩ := walk.sources left
        obtain ⟨edge, outgoing, _⟩ := treed.fits.edges x y k step
        exact mem_range.mpr (consistent.wellFormed.slots x edge outgoing).2.1
      · exact mem_range.mpr (mem_singleton.mp last ▸ lies)
    have count := distinct.length_le_of_subset sub
    simp only [length_append, length_singleton, length_range] at count
    omega
  obtain ⟨x, others, r, closed, some_⟩ := exists_cycle walk repeats
  have pos := sound x others r (closed.mono treed.fits.edges)
  exact absurd (treed.fits.closed x others r closed some_) (not_lt.mpr pos)

theorem Treed.labels (treed : Treed graph init distances parentEdge) (consistent : Consistent graph)
    (labels : Labels graph.numVars first init) :
    Labels graph.numVars (fun v => (distances v).getD 0) distances := by
  constructor
  · intro v below
    cases pointer : parents graph parentEdge v with
    | none =>
      rw [treed.fits.fresh v pointer, labels.known v below]
      rfl
    | some step =>
      obtain ⟨_, d, _, known, _⟩ := treed.fits.tight step.1 v step.2 pointer
      rw [known]
      rfl
  · intro v above
    cases pointer : parents graph parentEdge v with
    | none => rw [treed.fits.fresh v pointer, labels.beyond v above]
    | some step =>
      -- Nodes with a parent exist.
      obtain ⟨edge, mem, rfl, _⟩ := treed.fits.edges step.1 v step.2 pointer
      exact absurd (consistent.wellFormed.slots _ edge mem).2.2 (not_lt.mpr above)

theorem Treed.potential (treed : Treed graph init distances parentEdge) (consistent : Consistent graph)
    (labels : Labels graph.numVars first init) (settled : ∀ x, Settled graph distances x) :
    Potential (GraphEdge graph) fun v => (distances v).getD 0 := by
  intro a b w step
  obtain ⟨edge, mem, same⟩ := step
  have known := (treed.labels consistent labels).known a (consistent.wellFormed.slots a edge mem).2.1
  obtain ⟨e, target, below⟩ := settled a _ known b w ⟨edge, mem, same⟩
  simpa [target] using below

theorem tree_start {cur : List Nat} (start : spfa.distances = init)
    (fresh : spfa.parentEdge = fun _ => none) (settled : ∀ x, x ∉ cur → Settled graph init x) :
    Tree graph init 0 cur [] spfa fun _ => 0 := by
  refine ⟨?_, ⟨fun _ _ _ _ => Nat.zero_le _, fun _ high => absurd high (lt_irrefl 0)⟩,
    fun _ => Nat.zero_le 1, fun _ _ => le_rfl, fun _ mem => (nomatch mem),
    fun x apart _ => start ▸ settled x apart⟩
  rw [start, fresh]
  exact treed_start

theorem Searched.verdict {result : Spfa × Option Nat}
    (searched : Searched graph init graph.numVars result) (consistent : Consistent graph)
    (labels : Labels graph.numVars first init) :
    (∃ spfa node, result = (spfa, some node) ∧ ¬ NoNegativeCycle (GraphEdge graph)) ∨
      ∃ spfa dist, result = (spfa, none) ∧ Labels graph.numVars dist spfa.distances ∧
        Potential (GraphEdge graph) dist := by
  obtain ⟨spfa, _ | node⟩ := result
  · obtain ⟨treed, settled⟩ := searched
    exact .inr ⟨spfa, _, rfl, treed.labels consistent labels,
      treed.potential consistent labels settled⟩
  · obtain ⟨a, vertices, w, walk, length⟩ := searched.chain
    exact .inl ⟨spfa, node, rfl, searched.treed.negative consistent walk (by omega) searched.inside⟩

theorem Consistent.settled_beyond (consistent : Consistent graph) {x : Nat}
    (above : graph.numVars ≤ x) : Settled graph init x :=
  fun _ _ _ _ ⟨edge, mem, _⟩ => absurd (consistent.wellFormed.slots x edge mem).2.1
    (not_lt.mpr above)

theorem Spfa.tree_start (consistent : Consistent graph) : Tree graph
    (Spfa.start graph.numVars).distances 0 (List.range graph.numVars) []
    (Spfa.start graph.numVars) fun _ => 0 :=
  Sparse.tree_start rfl rfl fun _ apart =>
    consistent.settled_beyond (not_lt.mp fun below => apart (mem_range.mpr below))

theorem Spfa.run_spec (consistent : Consistent graph) :
    (∃ edges weight, Spfa.run graph = .negativeCycle edges weight ∧
      ¬ NoNegativeCycle (GraphEdge graph)) ∨
    ∃ distances dist, Spfa.run graph = .distances distances ∧
      Labels graph.numVars dist distances ∧ Potential (GraphEdge graph) dist := by
  have labels : Labels graph.numVars (fun _ => 0) (Spfa.start graph.numVars).distances :=
    ⟨fun v below => if_pos below, fun v above => if_neg (not_lt.mpr above)⟩
  unfold Spfa.run
  rcases (spfaLoop_tree consistent.toIndexed consistent.nodes (queued_start graph.numVars)
      (Spfa.tree_start consistent) le_rfl).verdict consistent labels with
    ⟨spfa', node, ends, negative⟩ | ⟨spfa', dist, ends, labels', potential⟩
  · rw [ends]
    left
    dsimp only
    unfold extractNegativeCycle
    dsimp only
    split
    · exact ⟨_, _, rfl, negative⟩
    · exact ⟨_, _, rfl, negative⟩
  · rw [ends]
    exact .inr ⟨_, dist, rfl, labels', potential⟩

theorem Spfa.seedFrom_spec (consistent : Consistent graph)
    (labels : Labels graph.numVars first distances) {src : Nat} (lies : src < graph.numVars)
    (settled : ∀ u, u ≠ src → ∀ v w, GraphEdge graph u v w → first v ≤ first u + w) :
    ((Spfa.seedFrom graph distances src).2 = true ∧ ¬ NoNegativeCycle (GraphEdge graph)) ∨
    (Spfa.seedFrom graph distances src).2 = false ∧ ∃ dist,
      Labels graph.numVars dist (Spfa.seedFrom graph distances src).1 ∧
        Potential (GraphEdge graph) dist := by
  unfold Spfa.seedFrom
  dsimp only
  rw [if_neg (not_le.mpr lies), labels.known src lies]
  generalize start : Spfa.mk distances (fun _ => none) (fun id => decide (id = src))
    (fun id => if id = src then 1 else 0) [src] = spfa
  have queued : Queued graph.numVars 0 [src] [] 0 0 spfa := by
    subst start
    refine queued_single lies rfl (fun v => rfl) (fun v => ?_) ?_
    · show (if v = src then 1 else 0) ≤ 1
      split <;> omega
    · show ∑ v ∈ Finset.range graph.numVars, (if v = src then 1 else 0) + 0 = 1
      rw [Finset.sum_ite_eq', if_pos (Finset.mem_range.mpr lies)]
  have tree : Tree graph distances 0 [src] [] spfa fun _ => 0 := by
    subst start
    refine Sparse.tree_start rfl rfl fun x apart d known v w step => ?_
    -- Only the node of the new edge may have one that is not relaxed.
    obtain ⟨edge, mem, rfl, rfl⟩ := step
    obtain ⟨_, source, target⟩ := consistent.wellFormed.slots x edge mem
    have bound := settled x (fun same => apart (mem_singleton.mpr same)) edge.to_ edge.weight
      ⟨edge, mem, rfl, rfl⟩
    obtain rfl := some.inj ((labels.known x source).symm.trans known)
    exact ⟨_, labels.known edge.to_ target, bound⟩
  rcases (spfaLoop_tree consistent.toIndexed consistent.nodes queued tree le_rfl).verdict consistent
      labels with
    ⟨spfa', node, ends, negative⟩ | ⟨spfa', dist, ends, labels', potential⟩
  · exact .inl ⟨congrArg (fun result => result.2.isSome) ends, negative⟩
  · refine .inr ⟨congrArg (fun result => result.2.isSome) ends, dist, ?_, potential⟩
    simp only [isNone_some, Bool.false_eq_true, if_false, ends]
    exact labels'

end

end Nixie.DiffLogic.Sparse
