import Nixie.Bdd.Manager

/-! The manager keeps diagrams canonical, and its operations are those of Boolean functions. -/

namespace Nixie

open List Function Nat

namespace DecisionTree

variable {α : Type*} [LinearOrder α]

/-- What is left of a tree once its first variable is decided, if that is the given one. -/
def cofactor (var : α) (value : Bool) : DecisionTree α → DecisionTree α
  | leaf b => leaf b
  | branch first low high =>
    if first = var then if value then high else low else branch first low high

/-- No variable of a tree comes before the given one. -/
def NotBefore (var : α) : DecisionTree α → Prop
  | leaf _ => True
  | branch first _ _ => var ≤ first

theorem eval_cofactor (var : α) (t : DecisionTree α) (σ : α → Bool) :
    (t.cofactor var (σ var)).eval σ = t.eval σ := by
  cases t with
  | leaf value => rfl
  | branch first low high =>
    rw [cofactor]
    split
    · rename_i same
      subst same
      cases value : σ first with
      | false => simp [eval, value]
      | true => simp [eval, value]
    · rfl

theorem Ordered.after_cofactor {var : α} {t : DecisionTree α} (ordered : t.Ordered)
    (notBefore : t.NotBefore var) (value : Bool) : (t.cofactor var value).After var := by
  cases t with
  | leaf _ => exact trivial
  | branch first low high =>
    rw [cofactor]
    split
    · rename_i same
      subst same
      cases value
      · exact ordered.1
      · exact ordered.2.1
    · rename_i distinct
      exact lt_of_le_of_ne notBefore (Ne.symm distinct)

theorem Ordered.after_cofactor_of_after {var var' : α} {t : DecisionTree α} (ordered : t.Ordered)
    (after : t.After var') (value : Bool) : (t.cofactor var value).After var' := by
  cases t with
  | leaf _ => exact trivial
  | branch first low high =>
    have less : var' < first := after
    rw [cofactor]
    split
    · cases value
      · exact ordered.1.of_le less.le
      · exact ordered.2.1.of_le less.le
    · exact after

end DecisionTree

namespace Bdd

open DecisionTree

/-- All nodes of the table stand for ordered and reduced trees. -/
structure NodeTable.Canonical (table : NodeTable) : Prop extends table.WellFormed where
  ordered : ∀ {id tree}, table.Denotes id tree → tree.Ordered
  reduced : ∀ {id tree}, table.Denotes id tree → tree.Reduced

namespace NodeTable

variable {table table' : NodeTable}

theorem canonical_new : new.Canonical := by
  refine ⟨wellFormed_new, fun {id tree} denotes => ?_, fun {id tree} denotes => ?_⟩
  · cases denotes with
    | ff | tt => exact trivial
    | node internal found =>
      exact absurd internal (Nat.not_le.mpr (List.getElem?_eq_some_iff.mp found).1)
  · cases denotes with
    | ff | tt => exact trivial
    | node internal found =>
      exact absurd internal (Nat.not_le.mpr (List.getElem?_eq_some_iff.mp found).1)

/--
A node is a function of other nodes.

Its tree does not decide variables that come before those of the others.
-/
def Computes (table : NodeTable) (args : List NodeId) (f : List Bool → Bool) (id : NodeId) :
    Prop := ∃ tree, table.Denotes id tree ∧
  ∀ trees, List.Forall₂ table.Denotes args trees →
    (∀ σ, tree.eval σ = f (trees.map fun t => t.eval σ)) ∧
      ∀ var, (∀ t ∈ trees, t.After var) → tree.After var

theorem Computes.mono (wellFormed : table.WellFormed) (grows : table.Grows table')
    {args : List NodeId} (valid : ∀ arg ∈ args, table.Valid arg) {f : List Bool → Bool}
    {id : NodeId} (computes : table.Computes args f id) : table'.Computes args f id := by
  obtain ⟨tree, denotes, each⟩ := computes
  refine ⟨tree, denotes.mono grows, fun trees denotes' => each trees ?_⟩
  -- The operands stood for their trees before.
  clear each
  induction denotes' with
  | nil => exact .nil
  | cons head _ ih =>
    obtain ⟨first, rest⟩ := forall_mem_cons.mp valid
    obtain ⟨tree', denotes'⟩ := wellFormed.exists_denotes first
    obtain rfl := (denotes'.mono grows).unique head
    exact .cons denotes' (ih rest)

/-- What a node becomes when a variable is decided, if it is the one that the node decides. -/
def cofactor (table : NodeTable) (var : VarId) (value : Bool) (id : NodeId) : NodeId :=
  match table.nodes[id]? with
  | some n => if 2 ≤ id ∧ n.var = var then if value then n.high else n.low else id
  | none => id

theorem Denotes.cofactor {id : NodeId} {tree : DecisionTree VarId}
    (denotes : table.Denotes id tree) (var : VarId) (value : Bool) :
    table.Denotes (table.cofactor var value id) (tree.cofactor var value) := by
  cases denotes with
  | ff =>
    rw [NodeTable.cofactor, DecisionTree.cofactor]
    split
    · simpa using Denotes.ff
    · exact .ff
  | tt =>
    rw [NodeTable.cofactor, DecisionTree.cofactor]
    split
    · simpa using Denotes.tt
    · exact .tt
  | @node _ low high first _ _ internal found left right =>
    rw [NodeTable.cofactor, found, DecisionTree.cofactor]
    by_cases same : first = var
    · simp only [same, internal, and_self, if_true]
      cases value
      · exact left
      · exact right
    · simp only [same, and_false, if_false]
      exact .node internal found left right

/-- The first variable of a node, behind all others for the constants. -/
def Top (table : NodeTable) (var : VarId) (id : NodeId) : Prop :=
  2 ≤ id ∧ ∃ n, table.nodes[id]? = some n ∧ n.var = var

/-- No variable of a node comes before the given one. -/
def NotBefore (table : NodeTable) (var : VarId) (id : NodeId) : Prop :=
  ∀ n, 2 ≤ id → table.nodes[id]? = some n → var ≤ n.var

theorem Denotes.notBefore {id : NodeId} {tree : DecisionTree VarId}
    (denotes : table.Denotes id tree) {var : VarId} (notBefore : table.NotBefore var id) :
    tree.NotBefore var := by
  cases denotes with
  | ff | tt => exact trivial
  | node internal found => exact notBefore _ internal found

theorem Denotes.top {id : NodeId} {tree : DecisionTree VarId} (denotes : table.Denotes id tree)
    {var var' : VarId} (top : table.Top var id) (after : tree.After var') : var' < var := by
  obtain ⟨internal, n, found, rfl⟩ := top
  cases denotes with
  | ff | tt => exact absurd internal (by decide)
  | node _ found' =>
    rw [found] at found'
    obtain rfl := Option.some.inj found'
    exact after

end NodeTable

def BddOp.value : BddOp → Bool → Bool → Bool
  | .and => (· && ·)
  | .or => (· || ·)
  | .xor => (· ^^ ·)

namespace BddManager

variable {m m' : BddManager}
variable {f : List Bool → Bool} {left right cond thenNode elseNode result low high : NodeId}
  {tree : DecisionTree VarId} {var : VarId}

theorem makeNode_spec (canonical : m.Canonical) (var : VarId)
    {left right : DecisionTree VarId} (denotesLow : m.Denotes low left)
    (denotesHigh : m.Denotes high right) (afterLow : left.After var) (afterHigh : right.After var) :
    (m.makeNode var low high).2.Canonical ∧ m.Grows (m.makeNode var low high).2.toNodeTable ∧
      (m.makeNode var low high).2.Denotes (m.makeNode var low high).1
        (if left = right then left else .branch var left right) := by
  unfold makeNode
  split
  · rename_i same
    subst same
    obtain rfl := denotesLow.unique denotesHigh
    rw [if_pos rfl]
    exact ⟨canonical, .refl _, denotesLow⟩
  · rename_i distinct
    have differ : left ≠ right := by
      intro same
      subst same
      exact distinct (canonical.denotes_injective denotesLow denotesHigh)
    rw [if_neg differ]
    obtain ⟨wellFormed, grows, only, branch⟩ := canonical.intern_spec var
      (canonical.valid denotesLow) (canonical.valid denotesHigh)
    have denotes := branch denotesLow denotesHigh
    refine ⟨⟨wellFormed, fun {id tree} denotes' => ?_, fun {id tree} denotes' => ?_⟩, grows, denotes⟩
    · rcases only id (wellFormed.valid denotes') with old | rfl
      · obtain ⟨tree', before⟩ := canonical.exists_denotes old
        obtain rfl := (before.mono grows).unique denotes'
        exact canonical.ordered before
      · obtain rfl := denotes.unique denotes'
        exact ⟨afterLow, afterHigh, canonical.ordered denotesLow, canonical.ordered denotesHigh⟩
    · rcases only id (wellFormed.valid denotes') with old | rfl
      · obtain ⟨tree', before⟩ := canonical.exists_denotes old
        obtain rfl := (before.mono grows).unique denotes'
        exact canonical.reduced before
      · obtain rfl := denotes.unique denotes'
        exact ⟨differ, canonical.reduced denotesLow, canonical.reduced denotesHigh⟩

/-- The branches of operands on the variable that comes first. -/
structure Splits (m : BddManager) (var : VarId) (args low high : List NodeId) : Prop where
  top : ∃ arg ∈ args, m.Top var arg
  notBefore : ∀ arg ∈ args, m.NotBefore var arg
  low_eq : low = args.map (m.cofactor var false)
  high_eq : high = args.map (m.cofactor var true)

theorem Splits.mono {args low high : List NodeId}
    (splits : m.Splits var args low high) (valid : ∀ arg ∈ args, m.Valid arg)
    (grows : m.Grows m'.toNodeTable) : m'.Splits var args low high := by
  -- The nodes of the operands are the same in both tables.
  have same (arg : NodeId) (mem : arg ∈ args) : m'.nodes[arg]? = m.nodes[arg]? := by
    have found := getElem?_eq_getElem (valid arg mem)
    rw [grows.getElem? found, found]
  have cofactors (value : Bool) :
      args.map (m.cofactor var value) = args.map (m'.cofactor var value) :=
    map_congr_left fun arg mem => by
      rw [NodeTable.cofactor, NodeTable.cofactor, same arg mem]
  refine ⟨?_, fun arg mem n internal found => ?_, splits.low_eq.trans (cofactors false),
    splits.high_eq.trans (cofactors true)⟩
  · obtain ⟨arg, mem, internal, n, found, eq⟩ := splits.top
    exact ⟨arg, mem, internal, n, (same arg mem).trans found, eq⟩
  · rw [same arg mem] at found
    exact splits.notBefore arg mem n internal found

theorem makeNode_computes (canonical : m.Canonical) {args lowArgs highArgs : List NodeId}
    (valid : ∀ arg ∈ args, m.Valid arg) (splits : m.Splits var args lowArgs highArgs)
    (computesLow : m.Computes lowArgs f low) (computesHigh : m.Computes highArgs f high) :
    (m.makeNode var low high).2.Canonical ∧ m.Grows (m.makeNode var low high).2.toNodeTable ∧
      (m.makeNode var low high).2.Computes args f (m.makeNode var low high).1 := by
  obtain ⟨left, denotesLow, eachLow⟩ := computesLow
  obtain ⟨right, denotesHigh, eachHigh⟩ := computesHigh
  -- The trees of the operands, and of their branches.
  have exists_ : ∃ trees, List.Forall₂ m.Denotes args trees := by
    clear splits
    induction args with
    | nil => exact ⟨[], .nil⟩
    | cons arg rest ih =>
      obtain ⟨first, others⟩ := forall_mem_cons.mp valid
      obtain ⟨tree, denotes⟩ := canonical.exists_denotes first
      obtain ⟨trees, denotes'⟩ := ih others
      exact ⟨tree :: trees, .cons denotes denotes'⟩
  obtain ⟨trees, denotes⟩ := exists_
  have branches (value : Bool) : List.Forall₂ m.Denotes (args.map (m.cofactor var value))
      (trees.map (cofactor var value)) :=
    forall₂_map_left_iff.mpr (forall₂_map_right_iff.mpr
      (denotes.imp fun _ _ denotes => denotes.cofactor var value))
  have ordered : ∀ t ∈ trees, t.Ordered ∧ t.NotBefore var := by
    have notBefore := splits.notBefore
    clear splits branches eachLow eachHigh
    induction denotes with
    | nil => exact fun _ mem => nomatch mem
    | cons head _ ih =>
      obtain ⟨first, others⟩ := forall_mem_cons.mp notBefore
      exact forall_mem_cons.mpr ⟨⟨canonical.ordered head, head.notBefore first⟩,
        ih (forall_mem_cons.mp valid).2 others⟩
  obtain ⟨evalLow, afterLow⟩ := eachLow _ (splits.low_eq ▸ branches false)
  obtain ⟨evalHigh, afterHigh⟩ := eachHigh _ (splits.high_eq ▸ branches true)
  have later (value : Bool) : ∀ t ∈ trees.map (cofactor var value), t.After var :=
    forall_mem_map.mpr fun t mem =>
      (ordered t mem).1.after_cofactor (ordered t mem).2 value
  obtain ⟨canonical', grows, result⟩ := makeNode_spec canonical var denotesLow denotesHigh
    (afterLow var (later false)) (afterHigh var (later true))
  refine ⟨canonical', grows, _, result, fun trees' denotes' => ?_⟩
  -- The operands stand for the same trees as before.
  obtain rfl : trees = trees' := by
    clear splits branches eachLow eachHigh evalLow evalHigh ordered later afterLow afterHigh
    induction denotes generalizing trees' with
    | nil =>
      cases denotes'
      rfl
    | cons head _ ih =>
      obtain _ | ⟨head', tail'⟩ := denotes'
      rw [(head.mono grows).unique head', ih (forall_mem_cons.mp valid).2 _ tail']
  refine ⟨fun σ => ?_, fun var' after => ?_⟩
  · have sides : (if left = right then left else .branch var left right).eval σ =
        if σ var then right.eval σ else left.eval σ := by
      split
      · rename_i same
        subst same
        exact (ite_self _).symm
      · rfl
    have cofactors : (trees.map (cofactor var (σ var))).map (fun t => t.eval σ) =
        trees.map fun t => t.eval σ := by
      rw [map_map]
      exact map_congr_left fun t _ => eval_cofactor var t σ
    rw [sides, ← cofactors]
    cases σ var with
    | false => exact evalLow σ
    | true => exact evalHigh σ
  · have kept (value : Bool) : ∀ t ∈ trees.map (cofactor var value), t.After var' :=
      forall_mem_map.mpr fun t mem =>
        (ordered t mem).1.after_cofactor_of_after (after t mem) value
    split
    · exact afterLow var' (kept false)
    · -- The decided variable is the first one of an operand.
      obtain ⟨arg, mem, top⟩ := splits.top
      obtain ⟨n, bound, rfl⟩ := mem_iff_getElem.mp mem
      have denotesArg := denotes.get bound (denotes.length_eq ▸ bound)
      exact denotesArg.top top (after _ (getElem_mem _))

def notValue : List Bool → Bool
  | [a] => !a
  | _ => false

def opValue (op : BddOp) : List Bool → Bool
  | [a, b] => op.value a b
  | _ => false

def iteValue : List Bool → Bool
  | [c, a, b] => if c then a else b
  | _ => false

/-- A result that is stored for operands. -/
def Answers (m : BddManager) (args : List NodeId) (f : List Bool → Bool) (id : NodeId) : Prop :=
  (∀ arg ∈ args, m.Valid arg) ∧ m.Computes args f id

/-- All diagrams are canonical, and all stored results are right. -/
structure Sound (m : BddManager) : Prop where
  canonical : m.Canonical
  not : ∀ {id result}, m.notCache id = some result → m.Answers [id] notValue result
  op : ∀ {op left right result}, m.opCache (op, left, right) = some result →
    m.Answers [left, right] (opValue op) result
  ite : ∀ {cond thenNode elseNode result}, m.iteCache (cond, thenNode, elseNode) = some result →
    m.Answers [cond, thenNode, elseNode] iteValue result

/-- Nothing that one manager knows is lost in the other one. -/
structure Later (m m' : BddManager) : Prop where
  grows : m.Grows m'.toNodeTable
  not : ∀ {id}, (m.notCache id).isSome → (m'.notCache id).isSome
  op : ∀ {key}, (m.opCache key).isSome → (m'.opCache key).isSome
  ite : ∀ {key}, (m.iteCache key).isSome → (m'.iteCache key).isSome

theorem Later.refl (m : BddManager) : m.Later m := ⟨.refl _, id, id, id⟩

theorem Later.trans {m'' : BddManager} (first : m.Later m') (second : m'.Later m'') : m.Later m'' :=
  ⟨first.grows.trans second.grows, second.not ∘ first.not, second.op ∘ first.op,
    second.ite ∘ first.ite⟩

theorem Answers.mono (sound : m.Canonical) (grows : m.Grows m'.toNodeTable)
    {args : List NodeId} {f : List Bool → Bool} {id : NodeId} (answers : m.Answers args f id) :
    m'.Answers args f id :=
  ⟨fun arg mem => grows.valid (answers.1 arg mem),
    answers.2.mono sound.toWellFormed grows answers.1⟩

theorem makeNode_caches (var : VarId) (low high : NodeId) :
    (m.makeNode var low high).2.notCache = m.notCache ∧
      (m.makeNode var low high).2.opCache = m.opCache ∧
      (m.makeNode var low high).2.iteCache = m.iteCache := by
  unfold makeNode
  split <;> exact ⟨rfl, rfl, rfl⟩

theorem Sound.makeNode (sound : m.Sound) (canonical : (m.makeNode var low high).2.Canonical)
    (grows : m.Grows (m.makeNode var low high).2.toNodeTable) :
    (m.makeNode var low high).2.Sound ∧ m.Later (m.makeNode var low high).2 := by
  obtain ⟨notEq, opEq, iteEq⟩ := makeNode_caches (m := m) var low high
  refine ⟨⟨canonical, fun stored => ?_, fun stored => ?_, fun stored => ?_⟩,
    ⟨grows, fun known => ?_, fun known => ?_, fun known => ?_⟩⟩
  · rw [notEq] at stored
    exact (sound.not stored).mono sound.canonical grows
  · rw [opEq] at stored
    exact (sound.op stored).mono sound.canonical grows
  · rw [iteEq] at stored
    exact (sound.ite stored).mono sound.canonical grows
  · rw [notEq]
    exact known
  · rw [opEq]
    exact known
  · rw [iteEq]
    exact known

theorem computes_one {a id : NodeId} (denotes : m.Denotes id tree) (each : ∀ t, m.Denotes a t →
      (∀ σ, tree.eval σ = f [t.eval σ]) ∧ ∀ var, t.After var → tree.After var) :
    m.Computes [a] f id := by
  refine ⟨tree, denotes, fun trees denotes' => ?_⟩
  obtain _ | ⟨head, _ | _⟩ := denotes'
  obtain ⟨eval, after⟩ := each _ head
  exact ⟨eval, fun var both => after var (both _ mem_cons_self)⟩

theorem computes_two {a b id : NodeId}
    (denotes : m.Denotes id tree) (each : ∀ s t, m.Denotes a s → m.Denotes b t →
      (∀ σ, tree.eval σ = f [s.eval σ, t.eval σ]) ∧
        ∀ var, s.After var → t.After var → tree.After var) : m.Computes [a, b] f id := by
  refine ⟨tree, denotes, fun trees denotes' => ?_⟩
  obtain _ | ⟨first, _ | ⟨second, _ | _⟩⟩ := denotes'
  obtain ⟨eval, after⟩ := each _ _ first second
  exact ⟨eval, fun var both => after var (both _ mem_cons_self)
    (both _ (mem_cons_of_mem _ mem_cons_self))⟩

theorem computes_three {a b c id : NodeId}
    (denotes : m.Denotes id tree) (each : ∀ r s t, m.Denotes a r → m.Denotes b s → m.Denotes c t →
      (∀ σ, tree.eval σ = f [r.eval σ, s.eval σ, t.eval σ]) ∧
        ∀ var, r.After var → s.After var → t.After var → tree.After var) :
    m.Computes [a, b, c] f id := by
  refine ⟨tree, denotes, fun trees denotes' => ?_⟩
  obtain _ | ⟨first, _ | ⟨second, _ | ⟨third, _ | _⟩⟩⟩ := denotes'
  obtain ⟨eval, after⟩ := each _ _ _ first second third
  exact ⟨eval, fun var both => after var (both _ mem_cons_self)
    (both _ (mem_cons_of_mem _ mem_cons_self))
    (both _ (mem_cons_of_mem _ (mem_cons_of_mem _ mem_cons_self)))⟩

theorem denotes_false : m.Denotes bddFalse (.leaf false) := .ff

theorem denotes_true : m.Denotes bddTrue (.leaf true) := .tt

theorem Sound.negated (sound : m.Sound) {id : NodeId} (known : m.negated id = some result) :
    m.Computes [id] notValue result := by
  unfold BddManager.negated at known
  split at known
  · rename_i same
    subst same
    obtain rfl := Option.some.inj known
    refine computes_one denotes_true fun t denotes => ?_
    obtain rfl := denotes.unique denotes_false
    exact ⟨fun _ => rfl, fun _ _ => trivial⟩
  split at known
  · rename_i same
    subst same
    obtain rfl := Option.some.inj known
    refine computes_one denotes_false fun t denotes => ?_
    obtain rfl := denotes.unique denotes_true
    exact ⟨fun _ => rfl, fun _ _ => trivial⟩
  · exact (sound.not known).2

theorem isSome_update {κ ρ : Type*} [DecidableEq κ] {table : κ → Option ρ} {key : κ} {r : ρ}
    {other : κ} (known : (table other).isSome) :
    (update table key (some r) other).isSome := by
  rw [update_apply]
  split
  · rfl
  · exact known

theorem of_update {κ ρ : Type*} [DecidableEq κ] {table : κ → Option ρ} {key other : κ} {r r' : ρ}
    (stored : update table key (some r) other = some r') :
    other = key ∧ r' = r ∨ table other = some r' := by
  rw [update_apply] at stored
  split at stored
  · rename_i same
    exact .inl ⟨same, (Option.some.inj stored).symm⟩
  · exact .inr stored

theorem Sound.storeNot (sound : m.Sound) {node : NodeId}
    (answers : m.Answers [node] notValue result) :
    Sound { m with notCache := update m.notCache node (some result) } ∧
      m.Later { m with notCache := update m.notCache node (some result) } := by
  refine ⟨⟨sound.canonical, fun stored => ?_, sound.op, sound.ite⟩, .refl _, isSome_update, id, id⟩
  rcases of_update stored with ⟨rfl, rfl⟩ | old
  · exact answers
  · exact sound.not old

theorem Sound.storeOp (sound : m.Sound) {op : BddOp}
    (answers : m.Answers [left, right] (opValue op) result) :
    Sound { m with opCache := update m.opCache (op, left, right) (some result) } ∧
      m.Later { m with opCache := update m.opCache (op, left, right) (some result) } := by
  refine ⟨⟨sound.canonical, sound.not, fun stored => ?_, sound.ite⟩, .refl _, id, isSome_update, id⟩
  rcases of_update stored with ⟨same, rfl⟩ | old
  · obtain ⟨rfl, rfl, rfl⟩ := by simpa only [Prod.mk.injEq] using same
    exact answers
  · exact sound.op old

theorem Sound.storeIte (sound : m.Sound)
    (answers : m.Answers [cond, thenNode, elseNode] iteValue result) :
    Sound { m with iteCache :=
        Function.update m.iteCache (cond, thenNode, elseNode) (some result) } ∧
      m.Later { m with iteCache :=
        Function.update m.iteCache (cond, thenNode, elseNode) (some result) } := by
  refine ⟨⟨sound.canonical, sound.not, sound.op, fun stored => ?_⟩, .refl _, id, id, isSome_update⟩
  rcases of_update stored with ⟨same, rfl⟩ | old
  · obtain ⟨rfl, rfl, rfl⟩ := by simpa only [Prod.mk.injEq] using same
    exact answers
  · exact sound.ite old

theorem Later.combine {m₀ : BddManager} (later : m₀.Later m) (sound : m.Sound)
    {args lowArgs highArgs : List NodeId} (valid : ∀ arg ∈ args, m₀.Valid arg)
    (splits : m₀.Splits var args lowArgs highArgs)
    (computesLow : m.Computes lowArgs f low) (computesHigh : m.Computes highArgs f high) :
    (m.makeNode var low high).2.Sound ∧ m.Later (m.makeNode var low high).2 ∧
      (m.makeNode var low high).2.Answers args f (m.makeNode var low high).1 := by
  have valid' : ∀ arg ∈ args, m.Valid arg := fun arg mem => later.grows.valid (valid arg mem)
  obtain ⟨canonical, grows, computes⟩ := makeNode_computes sound.canonical valid'
    (splits.mono valid later.grows) computesLow computesHigh
  obtain ⟨sound', later'⟩ := sound.makeNode canonical grows
  exact ⟨sound', later', fun arg mem => grows.valid (valid' arg mem), computes⟩

theorem negated_isSome {id : NodeId} (stored : (m.notCache id).isSome) : (m.negated id).isSome := by
  unfold negated
  split
  · rfl
  split
  · rfl
  · exact stored

theorem two_le_of_negated {id : NodeId} (unknown : m.negated id = none) : 2 ≤ id := by
  unfold negated at unknown
  by_contra small
  match id, not_le.mp small with
  | 0, _ => cases unknown
  | 1, _ => cases unknown

theorem splits_one {id : NodeId} {n : BddNode} (internal : 2 ≤ id) (found : m.nodes[id]? = some n) :
    m.Splits n.var [id] [n.low] [n.high] := by
  refine ⟨⟨id, mem_singleton_self id, internal, n, found, rfl⟩, ?_, ?_, ?_⟩
  · refine forall_mem_singleton.mpr fun n' _ found' => ?_
    rw [found] at found'
    rw [Option.some.inj found']
  · simp [NodeTable.cofactor, found, internal]
  · simp [NodeTable.cofactor, found, internal]

theorem notSteps_lawful : notSteps.Lawful Sound (fun m id => m.Valid id)
    (fun m id result => m.Computes [id] notValue result) Later id where
  refl := Later.refl
  trans := Later.trans
  valid later := later.grows.valid
  good sound later valid good := good.mono sound.canonical.toWellFormed later.grows
    (forall_mem_singleton.mpr valid)
  resolved {m id} sound _ := ⟨m.negated id, m, rfl, sound, .refl m,
    fun _ known => sound.negated known, fun _ => rfl⟩
  keeps {m m' id r t} _ _ later _ known := by
    have known : m.negated id = some r := (Prod.mk.inj (Option.some.inj known)).1
    suffices isSome : (m'.negated id).isSome by
      obtain ⟨r', eq⟩ := Option.isSome_iff_exists.mp isSome
      exact ⟨r', m', congrArg (fun r => some (r, m')) eq⟩
    unfold negated at known ⊢
    split
    · rfl
    split
    · rfl
    · rename_i notFalse notTrue
      rw [if_neg notFalse, if_neg notTrue] at known
      exact later.not (Option.isSome_iff_exists.mpr ⟨r, known⟩)
  parts {m id} sound valid unknown := by
    have internal := two_le_of_negated (Prod.mk.inj (Option.some.inj unknown)).1
    have found := getElem?_eq_getElem valid
    obtain ⟨less, less'⟩ := sound.canonical.earlier internal found
    exact ⟨_, _, _, congrArg (Option.map _) found, lt_trans less valid,
      lt_trans less' valid, less, less'⟩
  stored {m id} _ _ stored := by
    obtain ⟨r, eq⟩ := Option.isSome_iff_exists.mp (negated_isSome stored)
    exact ⟨r, m, congrArg (fun r => some (r, m)) eq⟩
  store {s m id var low high lowId highId} sound valid unknown parts sound' later good good' := by
    have internal := two_le_of_negated (Prod.mk.inj (Option.some.inj unknown)).1
    obtain ⟨n, found, same⟩ := Option.map_eq_some_iff.mp parts
    obtain ⟨rfl, rfl, rfl⟩ := by simpa only [Prod.mk.injEq] using same
    obtain ⟨sound₁, later₁, answers⟩ := later.combine sound'
      (forall_mem_singleton.mpr valid) (splits_one internal found) good good'
    obtain ⟨sound₂, later₂⟩ := sound₁.storeNot answers
    have stored : (update (m.makeNode n.var lowId highId).2.notCache id
        (some (m.makeNode n.var lowId highId).1) id).isSome := by
      rw [update_self]
      rfl
    obtain ⟨r, eq⟩ := Option.isSome_iff_exists.mp
      (negated_isSome (m := { (m.makeNode n.var lowId highId).2 with
        notCache := update _ id _ }) stored)
    exact ⟨sound₂, later₁.trans later₂, r, _, congrArg (fun r => some (r, _)) eq⟩

theorem Sound.not_spec (sound : m.Sound) {node : NodeId} (valid : m.Valid node) :
    ∃ result m', m.not node = some (result, m') ∧ m'.Sound ∧ m.Later m' ∧
      m'.Computes [node] notValue result :=
  notSteps_lawful.run_spec sound node valid (le_refl _)

theorem Sound.computes_left (sound : m.Sound) (valid : m.Valid left)
    (each : ∀ s t, m.Denotes left s → m.Denotes right t →
      ∀ σ, s.eval σ = f [s.eval σ, t.eval σ]) : m.Computes [left, right] f left := by
  obtain ⟨tree, denotes⟩ := sound.canonical.exists_denotes valid
  refine computes_two denotes fun s t denotesLeft denotesRight => ?_
  obtain rfl := denotes.unique denotesLeft
  exact ⟨each _ t denotes denotesRight, fun _ after _ => after⟩

theorem Sound.computes_right (sound : m.Sound) (valid : m.Valid right)
    (each : ∀ s t, m.Denotes left s → m.Denotes right t →
      ∀ σ, t.eval σ = f [s.eval σ, t.eval σ]) : m.Computes [left, right] f right := by
  obtain ⟨tree, denotes⟩ := sound.canonical.exists_denotes valid
  refine computes_two denotes fun s t denotesLeft denotesRight => ?_
  obtain rfl := denotes.unique denotesRight
  exact ⟨each s _ denotesLeft denotes, fun _ _ after => after⟩

theorem computes_constant {left right id : NodeId} {value : Bool} {f : List Bool → Bool}
    (denotes : m.Denotes id (.leaf value)) (each : ∀ s t, m.Denotes left s → m.Denotes right t →
      ∀ σ, value = f [s.eval σ, t.eval σ]) : m.Computes [left, right] f id :=
  computes_two denotes fun s t denotesLeft denotesRight =>
    ⟨each s t denotesLeft denotesRight, fun _ _ _ => trivial⟩

theorem computes_negated {operand id : NodeId} (computes : m.Computes [operand] notValue id)
    (each : ∀ s t, m.Denotes left s → m.Denotes right t → ∃ u, m.Denotes operand u ∧
      (∀ σ, (!u.eval σ) = opValue .xor [s.eval σ, t.eval σ]) ∧
        ∀ var, s.After var → t.After var → u.After var) :
    m.Computes [left, right] (opValue .xor) id := by
  obtain ⟨tree, denotes, negation⟩ := computes
  refine computes_two denotes fun s t denotesLeft denotesRight => ?_
  obtain ⟨u, denotes', value, after⟩ := each s t denotesLeft denotesRight
  obtain ⟨eval, later⟩ := negation [u] (.cons denotes' .nil)
  refine ⟨fun σ => (eval σ).trans (value σ), fun var first second => later var ?_⟩
  exact forall_mem_singleton.mpr (after var first second)

theorem eq_leaf_false {t : DecisionTree VarId} (denotes : m.Denotes bddFalse t) :
    t = .leaf false := denotes.unique .ff

theorem eq_leaf_true {t : DecisionTree VarId} (denotes : m.Denotes bddTrue t) :
    t = .leaf true := denotes.unique .tt

theorem Sound.applyResolved_spec (sound : m.Sound) (op : BddOp)
    (validLeft : m.Valid left) (validRight : m.Valid right) :
    ∃ result m', m.applyResolved (op, left, right) = some (result, m') ∧ m'.Sound ∧ m.Later m' ∧
      (∀ id, result = some id → m'.Computes [left, right] (opValue op) id) ∧
      (result = none → m' = m) := by
  have known {id : NodeId} (computes : m.Computes [left, right] (opValue op) id) :
      ∃ result m', some (some id, m) = some (result, m') ∧ m'.Sound ∧ m.Later m' ∧
        (∀ id, result = some id → m'.Computes [left, right] (opValue op) id) ∧
        (result = none → m' = m) :=
    ⟨some id, m, rfl, sound, .refl m, fun _ eq => Option.some.inj eq ▸ computes,
      fun eq => (nomatch eq)⟩
  have stored : ∃ result m', some (m.opCache (op, left, right), m) = some (result, m') ∧
      m'.Sound ∧ m.Later m' ∧ (∀ id, result = some id → m'.Computes [left, right] (opValue op) id) ∧
        (result = none → m' = m) :=
    ⟨m.opCache (op, left, right), m, rfl, sound, .refl m, fun _ eq => (sound.op eq).2,
      fun _ => rfl⟩
  cases op with
  | and =>
    rw [applyResolved]
    split
    · rename_i constant
      refine known (computes_constant denotes_false fun s t denotesLeft denotesRight σ => ?_)
      rcases constant with rfl | rfl
      · rw [eq_leaf_false denotesLeft]
        rfl
      · rw [eq_leaf_false denotesRight]
        exact (Bool.and_false _).symm
    split
    · rename_i same
      subst same
      refine known (sound.computes_right validRight fun s t denotesLeft _ σ => ?_)
      rw [eq_leaf_true denotesLeft]
      rfl
    split
    · rename_i same
      subst same
      refine known (sound.computes_left validLeft fun s t _ denotesRight σ => ?_)
      rw [eq_leaf_true denotesRight]
      exact (Bool.and_true _).symm
    split
    · rename_i same
      subst same
      refine known (sound.computes_left validLeft fun s t denotesLeft denotesRight σ => ?_)
      rw [denotesLeft.unique denotesRight]
      exact (Bool.and_self _).symm
    · exact stored
  | or =>
    rw [applyResolved]
    split
    · rename_i constant
      refine known (computes_constant denotes_true fun s t denotesLeft denotesRight σ => ?_)
      rcases constant with rfl | rfl
      · rw [eq_leaf_true denotesLeft]
        rfl
      · rw [eq_leaf_true denotesRight]
        exact (Bool.or_true _).symm
    split
    · rename_i same
      subst same
      refine known (sound.computes_right validRight fun s t denotesLeft _ σ => ?_)
      rw [eq_leaf_false denotesLeft]
      rfl
    split
    · rename_i same
      subst same
      refine known (sound.computes_left validLeft fun s t _ denotesRight σ => ?_)
      rw [eq_leaf_false denotesRight]
      exact (Bool.or_false _).symm
    split
    · rename_i same
      subst same
      refine known (sound.computes_left validLeft fun s t denotesLeft denotesRight σ => ?_)
      rw [denotesLeft.unique denotesRight]
      exact (Bool.or_self _).symm
    · exact stored
  | xor =>
    rw [applyResolved]
    split
    · rename_i same
      subst same
      refine known (sound.computes_right validRight fun s t denotesLeft _ σ => ?_)
      rw [eq_leaf_false denotesLeft]
      exact (Bool.false_xor _).symm
    split
    · rename_i same
      subst same
      refine known (sound.computes_left validLeft fun s t _ denotesRight σ => ?_)
      rw [eq_leaf_false denotesRight]
      exact (Bool.xor_false _).symm
    split
    · rename_i same
      subst same
      obtain ⟨result, m', eq, sound', later, computes⟩ := sound.not_spec validRight
      refine ⟨some result, m', by rw [eq]; rfl, sound', later, fun id same => ?_,
        fun none => (nomatch none)⟩
      obtain rfl := Option.some.inj same
      refine computes_negated computes fun s t denotesLeft denotesRight => ⟨t, denotesRight, ?_, ?_⟩
      · intro σ
        rw [eq_leaf_true denotesLeft]
        exact (Bool.true_xor _).symm
      · exact fun _ _ after => after
    split
    · rename_i same
      subst same
      obtain ⟨result, m', eq, sound', later, computes⟩ := sound.not_spec validLeft
      refine ⟨some result, m', by rw [eq]; rfl, sound', later, fun id same => ?_,
        fun none => (nomatch none)⟩
      obtain rfl := Option.some.inj same
      refine computes_negated computes fun s t denotesLeft denotesRight => ⟨s, denotesLeft, ?_, ?_⟩
      · intro σ
        rw [eq_leaf_true denotesRight]
        exact (Bool.xor_true _).symm
      · exact fun _ after _ => after
    split
    · rename_i same
      subst same
      refine known (computes_constant denotes_false fun s t denotesLeft denotesRight σ => ?_)
      rw [denotesLeft.unique denotesRight]
      exact (Bool.xor_self _).symm
    · exact stored

/-- Two different inner nodes: only the table of results knows more. -/
def Pending (left right : NodeId) : Prop := 2 ≤ left ∧ 2 ≤ right ∧ left ≠ right

theorem ne_constants {id : NodeId} (internal : 2 ≤ id) : id ≠ bddFalse ∧ id ≠ bddTrue := by
  refine ⟨fun same => ?_, fun same => ?_⟩
  · subst same
    exact absurd internal (by decide)
  · subst same
    exact absurd internal (by decide)

theorem applyResolved_of_pending {op : BddOp} (pending : Pending left right) :
    m.applyResolved (op, left, right) = some (m.opCache (op, left, right), m) := by
  obtain ⟨leftFalse, leftTrue⟩ := ne_constants pending.1
  obtain ⟨rightFalse, rightTrue⟩ := ne_constants pending.2.1
  cases op with
  | and => simp only [applyResolved, leftFalse, leftTrue, rightFalse, rightTrue, pending.2.2,
      or_self, if_false]
  | or => simp only [applyResolved, leftFalse, leftTrue, rightFalse, rightTrue, pending.2.2,
      or_self, if_false]
  | xor => simp only [applyResolved, leftFalse, leftTrue, rightFalse, rightTrue, pending.2.2,
      if_false]

theorem two_le_of_ne {id : NodeId} (notFalse : id ≠ bddFalse) (notTrue : id ≠ bddTrue) : 2 ≤ id := by
  by_contra small
  match id, not_le.mp small with
  | 0, _ => exact notFalse rfl
  | 1, _ => exact notTrue rfl

theorem pending_of_applyResolved {op : BddOp}
    (unknown : m.applyResolved (op, left, right) = some (none, m')) : Pending left right := by
  cases op with
  | and | or =>
    rw [applyResolved] at unknown
    split at unknown
    · cases unknown
    rename_i absorbing
    split at unknown
    · cases unknown
    rename_i leftNeutral
    split at unknown
    · cases unknown
    rename_i rightNeutral
    split at unknown
    · cases unknown
    rename_i distinct
    have leftOther := fun same => absorbing (.inl same)
    have rightOther := fun same => absorbing (.inr same)
    first
      | exact ⟨two_le_of_ne leftOther leftNeutral, two_le_of_ne rightOther rightNeutral, distinct⟩
      | exact ⟨two_le_of_ne leftNeutral leftOther, two_le_of_ne rightNeutral rightOther, distinct⟩
  | xor =>
    rw [applyResolved] at unknown
    split at unknown
    · cases unknown
    rename_i leftNeutral
    split at unknown
    · cases unknown
    rename_i rightNeutral
    split at unknown
    · obtain ⟨_, _, eq⟩ := Option.map_eq_some_iff.mp unknown
      cases eq
    rename_i leftOther
    split at unknown
    · obtain ⟨_, _, eq⟩ := Option.map_eq_some_iff.mp unknown
      cases eq
    rename_i rightOther
    split at unknown
    · cases unknown
    rename_i distinct
    exact ⟨two_le_of_ne leftNeutral leftOther, two_le_of_ne rightNeutral rightOther, distinct⟩

theorem Sound.applyResolved_known (sound : m.Sound) {op : BddOp}
    (validLeft : m.Valid left) (validRight : m.Valid right)
    (known : Pending left right → (m.opCache (op, left, right)).isSome) :
    ∃ r t, m.applyResolved (op, left, right) = some (some r, t) := by
  obtain ⟨result, m', eq, -⟩ := sound.applyResolved_spec op validLeft validRight
  cases result with
  | some r => exact ⟨r, m', eq⟩
  | none =>
    have pending := pending_of_applyResolved eq
    obtain ⟨r, stored⟩ := Option.isSome_iff_exists.mp (known pending)
    exact ⟨r, m, by rw [applyResolved_of_pending pending, stored]⟩

theorem applyCofactors_spec (op : BddOp) (canonical : m.Canonical)
    (pending : Pending left right) (validLeft : m.Valid left) (validRight : m.Valid right) :
    ∃ var lowLeft lowRight highLeft highRight, m.applyCofactors (op, left, right) =
        some (var, (op, lowLeft, lowRight), (op, highLeft, highRight)) ∧
      m.Splits var [left, right] [lowLeft, lowRight] [highLeft, highRight] ∧
      (m.Valid lowLeft ∧ m.Valid lowRight ∧ lowLeft + lowRight < left + right) ∧
      m.Valid highLeft ∧ m.Valid highRight ∧ highLeft + highRight < left + right := by
  obtain ⟨n, found⟩ : ∃ n, m.nodes[left]? = some n := ⟨_, getElem?_eq_getElem validLeft⟩
  obtain ⟨n', found'⟩ : ∃ n, m.nodes[right]? = some n := ⟨_, getElem?_eq_getElem validRight⟩
  obtain ⟨lowLess, highLess⟩ := canonical.earlier pending.1 found
  obtain ⟨lowLess', highLess'⟩ := canonical.earlier pending.2.1 found'
  have notBefore {var : VarId} (le : var ≤ n.var) (le' : var ≤ n'.var) :
      ∀ arg ∈ [left, right], m.NotBefore var arg := by
    refine forall_mem_cons.mpr ⟨fun n₁ _ found₁ => ?_,
      forall_mem_singleton.mpr fun n₁ _ found₁ => ?_⟩
    · rw [found] at found₁
      exact Option.some.inj found₁ ▸ le
    · rw [found'] at found₁
      exact Option.some.inj found₁ ▸ le'
  have topLeft : m.Top n.var left := ⟨pending.1, n, found, rfl⟩
  have topRight : m.Top n'.var right := ⟨pending.2.1, n', found', rfl⟩
  have cofactorLeft (value : Bool) : m.cofactor n.var value left = if value then n.high else n.low := by
    simp [NodeTable.cofactor, found, pending.1]
  have cofactorRight (value : Bool) :
      m.cofactor n'.var value right = if value then n'.high else n'.low := by
    simp [NodeTable.cofactor, found', pending.2.1]
  have lowValid := lt_trans lowLess validLeft
  have highValid := lt_trans highLess validLeft
  have lowValid' := lt_trans lowLess' validRight
  have highValid' := lt_trans highLess' validRight
  rw [applyCofactors, found, found']
  simp only
  rcases lt_trichotomy n.var n'.var with less | same | more
  · -- The left operand comes first.
    have kept (value : Bool) : m.cofactor n.var value right = right := by
      simp [NodeTable.cofactor, found', less.ne']
    rw [if_neg less.ne, if_pos less]
    refine ⟨_, _, _, _, _, rfl, ⟨⟨left, mem_cons_self, topLeft⟩,
      notBefore (le_refl _) less.le, ?_, ?_⟩,
      ⟨lowValid, validRight, Nat.add_lt_add_right lowLess right⟩, highValid, validRight,
      Nat.add_lt_add_right highLess right⟩
    · simp [cofactorLeft, kept]
    · simp [cofactorLeft, kept]
  · rw [if_pos same]
    refine ⟨_, _, _, _, _, rfl, ⟨⟨left, mem_cons_self, topLeft⟩,
      notBefore (le_refl _) same.le, ?_, ?_⟩,
      ⟨lowValid, lowValid', Nat.add_lt_add lowLess lowLess'⟩, highValid, highValid',
      Nat.add_lt_add highLess highLess'⟩
    · simp [cofactorLeft, same ▸ cofactorRight false]
    · simp [cofactorLeft, same ▸ cofactorRight true]
  · have kept (value : Bool) : m.cofactor n'.var value left = left := by
      simp [NodeTable.cofactor, found, more.ne']
    rw [if_neg more.ne', if_neg (not_lt.mpr more.le)]
    refine ⟨_, _, _, _, _, rfl, ⟨⟨right, mem_cons_of_mem _ mem_cons_self, topRight⟩,
      notBefore more.le (le_refl _), ?_, ?_⟩,
      ⟨validLeft, lowValid', Nat.add_lt_add_left lowLess' left⟩, validLeft, highValid',
      Nat.add_lt_add_left highLess' left⟩
    · simp [cofactorRight, kept]
    · simp [cofactorRight, kept]

theorem applySteps_lawful : applySteps.Lawful Sound
    (fun m key => m.Valid key.2.1 ∧ m.Valid key.2.2)
    (fun m key result => m.Computes [key.2.1, key.2.2] (opValue key.1) result) Later
    (fun key => key.2.1 + key.2.2) where
  refl := Later.refl
  trans := Later.trans
  valid later valid := ⟨later.grows.valid valid.1, later.grows.valid valid.2⟩
  good sound later valid good := good.mono sound.canonical.toWellFormed later.grows
    (forall_mem_cons.mpr ⟨valid.1, forall_mem_singleton.mpr valid.2⟩)
  resolved {m key} sound valid := sound.applyResolved_spec key.1 valid.1 valid.2
  keeps {m m' key r t} sound sound' later valid known := by
    refine sound'.applyResolved_known (later.grows.valid valid.1) (later.grows.valid valid.2)
      fun pending => later.op ?_
    have eq : some (m.opCache key, m) = some (some r, t) :=
      (applyResolved_of_pending pending).symm.trans known
    exact Option.isSome_iff_exists.mpr ⟨r, (Prod.mk.inj (Option.some.inj eq)).1⟩
  parts {m key} sound valid unknown := by
    obtain ⟨var, lowLeft, lowRight, highLeft, highRight, eq, -, ⟨validLow, validLow', less⟩,
      validHigh, validHigh', less'⟩ := applyCofactors_spec key.1 sound.canonical
        (pending_of_applyResolved unknown) valid.1 valid.2
    exact ⟨var, _, _, eq, ⟨validLow, validLow'⟩, ⟨validHigh, validHigh'⟩, less, less'⟩
  stored {m key} sound valid stored := sound.applyResolved_known valid.1 valid.2 fun _ => stored
  store {s m key var low high lowId highId} sound valid unknown parts sound' later good good' := by
    obtain ⟨op, left, right⟩ := key
    obtain ⟨var', lowLeft, lowRight, highLeft, highRight, eq, splits, -⟩ :=
      applyCofactors_spec op sound.canonical (pending_of_applyResolved unknown)
        valid.1 valid.2
    obtain ⟨rfl, rfl, rfl⟩ : var' = var ∧ (op, lowLeft, lowRight) = low ∧
        (op, highLeft, highRight) = high := by
      simpa only [Option.some.injEq, Prod.mk.injEq] using eq.symm.trans parts
    obtain ⟨sound₁, later₁, answers⟩ := later.combine sound'
      (forall_mem_cons.mpr ⟨valid.1, forall_mem_singleton.mpr valid.2⟩) splits good good'
    obtain ⟨sound₂, later₂⟩ := sound₁.storeOp answers
    have grows := (later.trans (later₁.trans later₂)).grows
    refine ⟨sound₂, later₁.trans later₂, sound₂.applyResolved_known (grows.valid valid.1)
      (grows.valid valid.2) fun _ => ?_⟩
    exact Option.isSome_iff_exists.mpr ⟨_, update_self _ _ _⟩

theorem Sound.apply_spec (sound : m.Sound) (op : BddOp) {left right : NodeId}
    (validLeft : m.Valid left) (validRight : m.Valid right) :
    ∃ result m', m.apply op left right = some (result, m') ∧ m'.Sound ∧ m.Later m' ∧
      m'.Computes [left, right] (opValue op) result :=
  applySteps_lawful.run_spec sound (op, left, right) ⟨validLeft, validRight⟩
    (le_refl _)

theorem Sound.computes_operand (sound : m.Sound) {id : NodeId} (valid : m.Valid id)
    (each : ∀ r s t, m.Denotes cond r → m.Denotes thenNode s → m.Denotes elseNode t →
      ∃ u, m.Denotes id u ∧ (∀ σ, u.eval σ = f [r.eval σ, s.eval σ, t.eval σ]) ∧
        (u = r ∨ u = s ∨ u = t)) : m.Computes [cond, thenNode, elseNode] f id := by
  obtain ⟨tree, denotes⟩ := sound.canonical.exists_denotes valid
  refine computes_three denotes fun r s t denotes₁ denotes₂ denotes₃ => ?_
  obtain ⟨u, denotes', eval, one⟩ := each r s t denotes₁ denotes₂ denotes₃
  obtain rfl := denotes.unique denotes'
  refine ⟨eval, fun var after₁ after₂ after₃ => ?_⟩
  rcases one with rfl | rfl | rfl
  · exact after₁
  · exact after₂
  · exact after₃

theorem Sound.iteResolved (sound : m.Sound)
    (validCond : m.Valid cond) (validThen : m.Valid thenNode) (validElse : m.Valid elseNode)
    (known : m.iteResolved (cond, thenNode, elseNode) = some result) :
    m.Computes [cond, thenNode, elseNode] iteValue result := by
  rw [BddManager.iteResolved] at known
  split at known
  · rename_i same
    subst same
    obtain rfl := Option.some.inj known
    refine sound.computes_operand validThen fun r s t denotes₁ denotes₂ _ =>
      ⟨s, denotes₂, fun σ => ?_, .inr (.inl rfl)⟩
    rw [eq_leaf_true denotes₁]
    rfl
  split at known
  · rename_i same
    subst same
    obtain rfl := Option.some.inj known
    refine sound.computes_operand validElse fun r s t denotes₁ _ denotes₃ =>
      ⟨t, denotes₃, fun σ => ?_, .inr (.inr rfl)⟩
    rw [eq_leaf_false denotes₁]
    rfl
  split at known
  · rename_i same
    subst same
    obtain rfl := Option.some.inj known
    refine sound.computes_operand validThen fun r s t _ denotes₂ denotes₃ =>
      ⟨s, denotes₂, fun σ => ?_, .inr (.inl rfl)⟩
    rw [denotes₂.unique denotes₃]
    exact (ite_self _).symm
  split at known
  · rename_i both
    obtain ⟨rfl, rfl⟩ := both
    obtain rfl := Option.some.inj known
    refine sound.computes_operand validCond fun r s t denotes₁ denotes₂ denotes₃ =>
      ⟨r, denotes₁, fun σ => ?_, .inl rfl⟩
    rw [eq_leaf_true denotes₂, eq_leaf_false denotes₃]
    show r.eval σ = if r.eval σ then true else false
    cases r.eval σ <;> rfl
  · exact (sound.ite known).2

theorem iteResolved_isSome {key : IteKey} (stored : (m.iteCache key).isSome) :
    (m.iteResolved key).isSome := by
  obtain ⟨cond, thenNode, elseNode⟩ := key
  rw [iteResolved]
  split
  · rfl
  split
  · rfl
  split
  · rfl
  split
  · rfl
  · exact stored

theorem Later.iteResolved (later : m.Later m') {key : IteKey}
    (known : (m.iteResolved key).isSome) : (m'.iteResolved key).isSome := by
  obtain ⟨cond, thenNode, elseNode⟩ := key
  rw [BddManager.iteResolved] at known ⊢
  split
  · rfl
  split
  · rfl
  split
  · rfl
  split
  · rfl
  · rename_i notTrue notFalse distinct other
    rw [if_neg notTrue, if_neg notFalse, if_neg distinct, if_neg other] at known
    exact later.ite known

theorem two_le_of_iteResolved (unknown : m.iteResolved (cond, thenNode, elseNode) = none) : 2 ≤ cond := by
  rw [iteResolved] at unknown
  split at unknown
  · cases unknown
  rename_i notTrue
  split at unknown
  · cases unknown
  rename_i notFalse
  exact two_le_of_ne notFalse notTrue

theorem inner_cases {id : NodeId} (valid : m.Valid id) :
    (id < 2 ∧ m.inner id = none) ∨ 2 ≤ id ∧ ∃ n, m.inner id = some n ∧ m.nodes[id]? = some n := by
  unfold inner
  split
  · rename_i small
    exact .inl ⟨lt_succ_of_le small, rfl⟩
  · rename_i large
    have found := getElem?_eq_getElem valid
    exact .inr ⟨not_le.mp large, _, found, found⟩

theorem firstVar_le (var : VarId) (node : Option BddNode) : firstVar var node ≤ var := by
  cases node with
  | none => exact le_refl _
  | some n =>
    rw [firstVar]
    split
    · rename_i less
      exact less.le
    · exact le_refl _

theorem firstVar_spec {id : NodeId} (valid : m.Valid id) (var : VarId) :
    m.NotBefore (firstVar var (m.inner id)) id ∧
      (firstVar var (m.inner id) = var ∨ m.Top (firstVar var (m.inner id)) id) := by
  rcases inner_cases valid with ⟨small, none⟩ | ⟨internal, n, some, found⟩
  · rw [none]
    exact ⟨fun _ internal => absurd internal (not_le.mpr small), .inl rfl⟩
  · rw [some, firstVar]
    split
    · refine ⟨fun n' _ found' => ?_, .inr ⟨internal, n, found, rfl⟩⟩
      rw [found] at found'
      rw [Option.some.inj found']
    · rename_i notLess
      refine ⟨fun n' _ found' => ?_, .inl rfl⟩
      rw [found] at found'
      exact Option.some.inj found' ▸ not_lt.mp notLess

theorem at_spec (canonical : m.Canonical) {id : NodeId} (valid : m.Valid id) (var : VarId) :
    (lowAt var id (m.inner id) = m.cofactor var false id ∧
      highAt var id (m.inner id) = m.cofactor var true id) ∧
    ∀ value, m.cofactor var value id ≤ id ∧ (m.Top var id → m.cofactor var value id < id) := by
  rcases inner_cases valid with ⟨small, none⟩ | ⟨internal, n, some, found⟩
  · have kept (value : Bool) : m.cofactor var value id = id := by
      rw [NodeTable.cofactor]
      split
      · exact if_neg fun both => absurd both.1 (not_le.mpr small)
      · rfl
    rw [none, kept, kept]
    refine ⟨⟨rfl, rfl⟩, fun value => ?_⟩
    rw [kept]
    exact ⟨le_refl _, fun top => absurd top.1 (not_le.mpr small)⟩
  · obtain ⟨less, less'⟩ := canonical.earlier internal found
    rw [some, lowAt, highAt]
    simp only [NodeTable.cofactor, found, internal, true_and]
    refine ⟨⟨by split <;> simp, by split <;> simp⟩, fun value => ?_⟩
    split
    · cases value
      · exact ⟨less.le, fun _ => less⟩
      · exact ⟨less'.le, fun _ => less'⟩
    · rename_i other
      refine ⟨le_refl _, ?_⟩
      rintro ⟨-, n', found', eq⟩
      rw [found] at found'
      exact absurd (Option.some.inj found' ▸ eq) other

theorem iteCofactors_spec (canonical : m.Canonical)
    (internal : 2 ≤ cond) (validCond : m.Valid cond) (validThen : m.Valid thenNode)
    (validElse : m.Valid elseNode) :
    ∃ var, m.iteCofactors (cond, thenNode, elseNode) =
        some (var, (m.cofactor var false cond, m.cofactor var false thenNode,
            m.cofactor var false elseNode),
          (m.cofactor var true cond, m.cofactor var true thenNode, m.cofactor var true elseNode)) ∧
      (∃ arg ∈ [cond, thenNode, elseNode], m.Top var arg) ∧
      ∀ arg ∈ [cond, thenNode, elseNode], m.NotBefore var arg := by
  obtain ⟨n, found⟩ : ∃ n, m.nodes[cond]? = some n := ⟨_, getElem?_eq_getElem validCond⟩
  have inner_cond : m.inner cond = some n := (if_neg (not_le.mpr internal)).trans found
  rw [iteCofactors, found]
  simp only
  generalize thenVar : firstVar n.var (m.inner thenNode) = var₁
  generalize elseVar : firstVar var₁ (m.inner elseNode) = var
  have le₁ : var₁ ≤ n.var := thenVar ▸ firstVar_le _ _
  have le : var ≤ var₁ := elseVar ▸ firstVar_le _ _
  obtain ⟨beforeThen, topThen⟩ := thenVar ▸ firstVar_spec validThen n.var
  obtain ⟨beforeElse, topElse⟩ := elseVar ▸ firstVar_spec validElse var₁
  refine ⟨var, ?_, ?_, ?_⟩
  · rw [← inner_cond, (at_spec canonical validCond var).1.1, (at_spec canonical validCond var).1.2,
      (at_spec canonical validThen var).1.1, (at_spec canonical validThen var).1.2,
      (at_spec canonical validElse var).1.1, (at_spec canonical validElse var).1.2]
  · rcases topElse with rfl | top
    · rcases topThen with rfl | top
      · exact ⟨cond, mem_cons_self, internal, _, found, rfl⟩
      · exact ⟨thenNode, mem_cons_of_mem _ mem_cons_self, top⟩
    · exact ⟨elseNode, mem_cons_of_mem _ (mem_cons_of_mem _ mem_cons_self), top⟩
  · refine forall_mem_cons.mpr ⟨fun n _ found' => ?_, forall_mem_cons.mpr ⟨?_,
      forall_mem_singleton.mpr beforeElse⟩⟩
    · rw [found] at found'
      exact Option.some.inj found' ▸ le.trans le₁
    · exact fun n two found' => le.trans (beforeThen n two found')

def iteArgs (key : IteKey) : List NodeId := [key.1, key.2.1, key.2.2]

theorem iteSteps_lawful : iteSteps.Lawful Sound
    (fun m key => ∀ arg ∈ iteArgs key, m.Valid arg)
    (fun m key result => m.Computes (iteArgs key) iteValue result) Later
    (fun key => key.1 + key.2.1 + key.2.2) where
  refl := Later.refl
  trans := Later.trans
  valid later valid arg mem := later.grows.valid (valid arg mem)
  good sound later valid good := good.mono sound.canonical.toWellFormed later.grows valid
  resolved {m key} sound valid := by
    obtain ⟨validCond, others⟩ := forall_mem_cons.mp valid
    obtain ⟨validThen, others⟩ := forall_mem_cons.mp others
    exact ⟨m.iteResolved key, m, rfl, sound, .refl m, fun _ known =>
      sound.iteResolved validCond validThen (forall_mem_singleton.mp others) known,
      fun _ => rfl⟩
  keeps {m m' key r t} _ _ later _ known := by
    have known : m.iteResolved key = some r := (Prod.mk.inj (Option.some.inj known)).1
    obtain ⟨r', eq⟩ := Option.isSome_iff_exists.mp
      (later.iteResolved (Option.isSome_iff_exists.mpr ⟨r, known⟩))
    exact ⟨r', m', congrArg (fun r => some (r, m')) eq⟩
  parts {m key} sound valid unknown := by
    obtain ⟨cond, thenNode, elseNode⟩ := key
    obtain ⟨validCond, others⟩ := forall_mem_cons.mp valid
    obtain ⟨validThen, others⟩ := forall_mem_cons.mp others
    have validElse := forall_mem_singleton.mp others
    have unknown : m.iteResolved (cond, thenNode, elseNode) = none :=
      (Prod.mk.inj (Option.some.inj unknown)).1
    obtain ⟨var, eq, top, -⟩ := iteCofactors_spec sound.canonical (two_le_of_iteResolved unknown)
      validCond validThen validElse
    have small (value : Bool) {arg : NodeId} (validArg : m.Valid arg) :=
      (at_spec sound.canonical validArg var).2 value
    have bound (value : Bool) {arg : NodeId} (validArg : m.Valid arg) :
        m.Valid (m.cofactor var value arg) := lt_of_le_of_lt (small value validArg).1 validArg
    -- One of the operands is taken apart, and no other one grows.
    have less (value : Bool) : m.cofactor var value cond + m.cofactor var value thenNode +
        m.cofactor var value elseNode < cond + thenNode + elseNode := by
      have le₁ := (small value validCond).1
      have le₂ := (small value validThen).1
      have le₃ := (small value validElse).1
      obtain ⟨arg, mem, top⟩ := top
      have lt := (small value (valid arg mem)).2 top
      simp only [mem_cons, not_mem_nil, or_false] at mem
      rcases mem with rfl | rfl | rfl
      · exact add_lt_add_of_lt_of_le (add_lt_add_of_lt_of_le lt le₂) le₃
      · exact add_lt_add_of_lt_of_le (add_lt_add_of_le_of_lt le₁ lt) le₃
      · exact Nat.add_lt_add_of_le_of_lt (Nat.add_le_add le₁ le₂) lt
    have each (value : Bool) : ∀ arg ∈ iteArgs (m.cofactor var value cond,
        m.cofactor var value thenNode, m.cofactor var value elseNode), m.Valid arg :=
      forall_mem_cons.mpr ⟨bound value validCond, forall_mem_cons.mpr
        ⟨bound value validThen, forall_mem_singleton.mpr (bound value validElse)⟩⟩
    exact ⟨var, _, _, eq, each false, each true, less false, less true⟩
  stored {m key} _ _ stored := by
    obtain ⟨r, eq⟩ := Option.isSome_iff_exists.mp (iteResolved_isSome stored)
    exact ⟨r, m, congrArg (fun r => some (r, m)) eq⟩
  store {s m key var low high lowId highId} sound valid unknown parts sound' later good good' := by
    obtain ⟨cond, thenNode, elseNode⟩ := key
    obtain ⟨validCond, others⟩ := forall_mem_cons.mp valid
    obtain ⟨validThen, others⟩ := forall_mem_cons.mp others
    have validElse := forall_mem_singleton.mp others
    have unknown : s.iteResolved (cond, thenNode, elseNode) = none :=
      (Prod.mk.inj (Option.some.inj unknown)).1
    obtain ⟨var', eq, top, notBefore⟩ := iteCofactors_spec sound.canonical
      (two_le_of_iteResolved unknown) validCond validThen validElse
    obtain ⟨rfl, rfl, rfl⟩ : var' = var ∧ (_, _, _) = low ∧ (_, _, _) = high := by
      simpa only [Option.some.injEq, Prod.mk.injEq] using eq.symm.trans parts
    obtain ⟨sound₁, later₁, answers⟩ := later.combine sound' valid ⟨top, notBefore, rfl, rfl⟩
      good good'
    obtain ⟨sound₂, later₂⟩ := sound₁.storeIte answers
    obtain ⟨r, eq⟩ := Option.isSome_iff_exists.mp (iteResolved_isSome
      (m := { (m.makeNode var' lowId highId).2 with
        iteCache := update _ (cond, thenNode, elseNode) _ })
      (Option.isSome_iff_exists.mpr ⟨_, update_self _ _ _⟩))
    exact ⟨sound₂, later₁.trans later₂, r, _, congrArg (fun r => some (r, _)) eq⟩

theorem Sound.ite_spec (sound : m.Sound) {cond thenNode elseNode : NodeId}
    (valid : ∀ arg ∈ [cond, thenNode, elseNode], m.Valid arg) :
    ∃ result m', m.ite cond thenNode elseNode = some (result, m') ∧ m'.Sound ∧ m.Later m' ∧
      m'.Computes [cond, thenNode, elseNode] iteValue result :=
  iteSteps_lawful.run_spec sound (cond, thenNode, elseNode) valid (le_refl _)

end BddManager

end Bdd

end Nixie
