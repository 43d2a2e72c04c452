import Nixie.Bdd.ManagerCorrect

/-! Whatever operations are performed, nodes are Boolean functions and the other way round. -/

namespace Nixie.Bdd.BddManager

open DecisionTree List

variable {m m' : BddManager}

theorem Sound.evalWithin_eq (sound : m.Sound) {id : NodeId} {tree : DecisionTree VarId}
    (denotes : m.Denotes id tree) (σ : VarId → Bool) {depth : Nat} (deep : id < depth) :
    m.evalWithin σ depth id = some (tree.eval σ) := by
  induction denotes generalizing depth with
  | ff =>
    obtain ⟨depth, rfl⟩ := Nat.exists_eq_add_one_of_ne_zero (Nat.ne_of_gt deep)
    rfl
  | tt =>
    obtain ⟨depth, rfl⟩ := Nat.exists_eq_add_one_of_ne_zero (Nat.ne_zero_of_lt deep)
    rfl
  | @node id low high var left right internal found _ _ ihLow ihHigh =>
    -- Both branches come before the node.
    obtain ⟨less, less'⟩ := sound.canonical.earlier internal found
    obtain ⟨notFalse, notTrue⟩ := ne_constants internal
    obtain ⟨depth, rfl⟩ := Nat.exists_eq_add_one_of_ne_zero (Nat.ne_zero_of_lt deep)
    rw [evalWithin, if_neg notFalse, if_neg notTrue, found]
    simp only
    rw [ihLow (Nat.lt_of_lt_of_le less (Nat.le_of_lt_succ deep)),
      ihHigh (Nat.lt_of_lt_of_le less' (Nat.le_of_lt_succ deep)), DecisionTree.eval, apply_ite some]

theorem Sound.eval_eq (sound : m.Sound) {id : NodeId} {tree : DecisionTree VarId}
    (denotes : m.Denotes id tree) (σ : VarId → Bool) : m.eval id σ = some (tree.eval σ) :=
  sound.evalWithin_eq denotes σ (Nat.lt_succ_self id)

/-- The value of a node, where a missing one is false. -/
def truth (m : BddManager) (σ : VarId → Bool) (id : NodeId) : Bool := (m.eval id σ).getD false

theorem Sound.eval_eq_truth (sound : m.Sound) {id : NodeId} (valid : m.Valid id)
    (σ : VarId → Bool) : m.eval id σ = some (m.truth σ id) := by
  obtain ⟨tree, denotes⟩ := sound.canonical.exists_denotes valid
  rw [truth, sound.eval_eq denotes]
  rfl

theorem Sound.eval_grows (sound : m.Sound) (sound' : m'.Sound) (grows : m.Grows m'.toNodeTable)
    {id : NodeId} (valid : m.Valid id) (σ : VarId → Bool) : m'.eval id σ = m.eval id σ := by
  obtain ⟨tree, denotes⟩ := sound.canonical.exists_denotes valid
  rw [sound.eval_eq denotes, sound'.eval_eq (denotes.mono grows)]

theorem Sound.truth_grows (sound : m.Sound) (sound' : m'.Sound) (grows : m.Grows m'.toNodeTable)
    {id : NodeId} (valid : m.Valid id) (σ : VarId → Bool) : m'.truth σ id = m.truth σ id := by
  rw [truth, truth, sound.eval_grows sound' grows valid]

theorem Sound.computes_spec (sound : m.Sound) {args : List NodeId}
    (valid : ∀ arg ∈ args, m.Valid arg) {f : List Bool → Bool} {id : NodeId}
    (computes : m.Computes args f id) :
    m.Valid id ∧ ∀ σ, m.truth σ id = f (args.map (m.truth σ)) := by
  obtain ⟨tree, denotes, each⟩ := computes
  refine ⟨sound.canonical.valid denotes, fun σ => ?_⟩
  -- The operands have the values of their trees.
  have exists_ : ∃ trees, List.Forall₂ m.Denotes args trees ∧
      args.map (m.truth σ) = trees.map fun t => t.eval σ := by
    clear each
    induction args with
    | nil => exact ⟨[], .nil, rfl⟩
    | cons arg rest ih =>
      obtain ⟨first, others⟩ := forall_mem_cons.mp valid
      obtain ⟨tree', denotes'⟩ := sound.canonical.exists_denotes first
      obtain ⟨trees, denotes'', same⟩ := ih others
      refine ⟨tree' :: trees, .cons denotes' denotes'', ?_⟩
      rw [map_cons, map_cons, same, truth, sound.eval_eq denotes', Option.getD_some]
  obtain ⟨trees, denotes', same⟩ := exists_
  rw [truth, sound.eval_eq denotes, Option.getD_some, (each trees denotes').1 σ, same]

def Operation.value (σ : VarId → Bool) : Operation → List Bool → Bool
  | .variable_ var, _ => σ var
  | .not _, [a] => !a
  | .and _ _, [a, b] => a && b
  | .or _ _, [a, b] => a || b
  | .xor _ _, [a, b] => a ^^ b
  | .implies _ _, [a, b] => !a || b
  | .iff _ _, [a, b] => a == b
  | .ite _ _ _, [c, a, b] => if c then a else b
  | _, _ => false

/-- An operation is performed: it returns a node of its function, and nothing is lost. -/
def Performs (m : BddManager) (op : Operation) : Prop :=
  ∃ result m', m.perform op = some (result, m') ∧ m'.Sound ∧ m.Grows m'.toNodeTable ∧
    (op ≠ .clearCache → result.isSome) ∧
    ∀ r, result = some r → m'.Valid r ∧ ∀ σ, m'.truth σ r = op.value σ (op.operands.map (m.truth σ))

theorem sound_new : Sound new :=
  ⟨NodeTable.canonical_new, fun stored => (nomatch stored), fun stored => (nomatch stored),
    fun stored => (nomatch stored)⟩

theorem performs_of_computes {op : Operation} (sound : m.Sound)
    (valid : ∀ arg ∈ op.operands, m.Valid arg) {r : NodeId} (f : List Bool → Bool)
    (performed : m.perform op = some (some r, m')) (sound' : m'.Sound)
    (grows : m.Grows m'.toNodeTable) (computes : m'.Computes op.operands f r)
    (same : ∀ σ, f (op.operands.map (m.truth σ)) = op.value σ (op.operands.map (m.truth σ))) :
    m.Performs op := by
  refine ⟨some r, m', performed, sound', grows, fun _ => rfl, fun r' eq => ?_⟩
  obtain rfl := Option.some.inj eq
  obtain ⟨validResult, truths⟩ := sound'.computes_spec
    (fun arg mem => grows.valid (valid arg mem)) computes
  refine ⟨validResult, fun σ => ?_⟩
  have kept : op.operands.map (m'.truth σ) = op.operands.map (m.truth σ) :=
    map_congr_left fun arg mem => sound.truth_grows sound' grows (valid arg mem) σ
  rw [truths, kept, same]

theorem Sound.performs_variable (sound : m.Sound) (var : VarId) : m.Performs (.variable_ var) := by
  obtain ⟨canonical, grows, denotes⟩ := makeNode_spec sound.canonical var
    denotes_false denotes_true trivial trivial
  obtain ⟨sound', -⟩ := sound.makeNode canonical grows
  refine ⟨some (m.variable_ var).1, (m.variable_ var).2, rfl, sound', grows, fun _ => rfl,
    fun r eq => ?_⟩
  obtain rfl := Option.some.inj eq
  refine ⟨canonical.valid denotes, fun σ => ?_⟩
  rw [truth]
  refine (congrArg (Option.getD · false) (sound'.eval_eq denotes σ)).trans ?_
  show (if σ var then true else false) = σ var
  cases σ var <;> rfl

theorem Sound.performs_not (sound : m.Sound) {node : NodeId} (valid : m.Valid node) :
    m.Performs (.not node) := by
  obtain ⟨r, m', eq, sound', later, computes⟩ := sound.not_spec valid
  exact performs_of_computes sound (forall_mem_singleton.mpr valid) notValue
    (congrArg (Option.map _) eq) sound' later.grows computes fun _ => rfl

theorem Sound.performs_apply (sound : m.Sound) {op : Operation} {binary : BddOp}
    {left right : NodeId} (operands : op.operands = [left, right])
    (performs : m.perform op = (m.apply binary left right).map fun (result, m) => (some result, m))
    (value : ∀ σ a b, op.value σ [a, b] = binary.value a b)
    (valid : ∀ arg ∈ op.operands, m.Valid arg) : m.Performs op := by
  obtain ⟨validLeft, validRight⟩ := forall_mem_cons.mp (operands ▸ valid)
  obtain ⟨r, m', eq, sound', later, computes⟩ := sound.apply_spec binary validLeft
    (forall_mem_singleton.mp validRight)
  refine performs_of_computes sound valid (opValue binary) ?_ sound' later.grows (operands ▸ computes)
    fun σ => ?_
  · rw [performs, eq]
    rfl
  · rw [operands]
    exact (value σ _ _).symm

theorem Sound.performs_implies (sound : m.Sound) {left right : NodeId} (validLeft : m.Valid left)
    (validRight : m.Valid right) : m.Performs (.implies left right) := by
  obtain ⟨r, m₁, eq, sound₁, later₁, computes⟩ := sound.not_spec validLeft
  obtain ⟨validNot, truths⟩ := sound₁.computes_spec
    (forall_mem_singleton.mpr (later₁.grows.valid validLeft)) computes
  obtain ⟨r', m₂, eq', sound₂, later₂, computes'⟩ := sound₁.apply_spec .or validNot
    (later₁.grows.valid validRight)
  have later := later₁.trans later₂
  obtain ⟨valid, truths'⟩ := sound₂.computes_spec (forall_mem_cons.mpr
    ⟨later₂.grows.valid validNot, forall_mem_singleton.mpr (later.grows.valid validRight)⟩)
    computes'
  refine ⟨some r', m₂, ?_, sound₂, later.grows, fun _ => rfl, fun r'' same => ?_⟩
  · show ((m.not left).bind fun (notLeft, m) => m.or notLeft right).map _ = _
    rw [eq, Option.bind_some]
    exact congrArg (Option.map _) eq'
  · obtain rfl := Option.some.inj same
    refine ⟨valid, fun σ => ?_⟩
    rw [truths' σ, map_cons, map_singleton, sound₁.truth_grows sound₂ later₂.grows validNot,
      truths σ, map_singleton, sound.truth_grows sound₁ later₁.grows validLeft,
      sound.truth_grows sound₂ later.grows validRight]
    rfl

theorem Sound.performs_iff (sound : m.Sound) {left right : NodeId} (validLeft : m.Valid left)
    (validRight : m.Valid right) : m.Performs (.iff left right) := by
  obtain ⟨r, m₁, eq, sound₁, later₁, computes⟩ := sound.apply_spec .xor validLeft validRight
  obtain ⟨validXor, truths⟩ := sound₁.computes_spec (forall_mem_cons.mpr
    ⟨later₁.grows.valid validLeft, forall_mem_singleton.mpr (later₁.grows.valid validRight)⟩)
    computes
  obtain ⟨r', m₂, eq', sound₂, later₂, computes'⟩ := sound₁.not_spec validXor
  obtain ⟨valid, truths'⟩ := sound₂.computes_spec
    (forall_mem_singleton.mpr (later₂.grows.valid validXor)) computes'
  refine ⟨some r', m₂, ?_, sound₂, (later₁.trans later₂).grows, fun _ => rfl, fun r'' same => ?_⟩
  · show ((m.xor left right).bind fun (notXor, m) => m.not notXor).map _ = _
    rw [xor, eq, Option.bind_some]
    exact congrArg (Option.map _) eq'
  · obtain rfl := Option.some.inj same
    refine ⟨valid, fun σ => ?_⟩
    rw [truths' σ, map_singleton, sound₁.truth_grows sound₂ later₂.grows validXor, truths σ,
      map_cons, map_singleton, sound.truth_grows sound₁ later₁.grows validLeft,
      sound.truth_grows sound₁ later₁.grows validRight]
    show (!(m.truth σ left ^^ m.truth σ right)) = (m.truth σ left == m.truth σ right)
    cases m.truth σ left <;> cases m.truth σ right <;> rfl

theorem Sound.performs_clearCache (sound : m.Sound) : m.Performs .clearCache :=
  ⟨none, m.clearCache, rfl, ⟨sound.canonical, fun stored => (nomatch stored),
    fun stored => (nomatch stored), fun stored => (nomatch stored)⟩, .refl _,
    fun other => absurd rfl other, fun _ eq => (nomatch eq)⟩

theorem Sound.performs (sound : m.Sound) (op : Operation)
    (valid : ∀ id ∈ op.operands, m.Valid id) : m.Performs op := by
  cases op with
  | variable_ var => exact sound.performs_variable var
  | not node => exact sound.performs_not (forall_mem_singleton.mp valid)
  | and left right => exact sound.performs_apply rfl rfl (fun _ _ _ => rfl) valid
  | or left right => exact sound.performs_apply rfl rfl (fun _ _ _ => rfl) valid
  | xor left right => exact sound.performs_apply rfl rfl (fun _ _ _ => rfl) valid
  | implies left right =>
    obtain ⟨validLeft, validRight⟩ := forall_mem_cons.mp valid
    exact sound.performs_implies validLeft (forall_mem_singleton.mp validRight)
  | iff left right =>
    obtain ⟨validLeft, validRight⟩ := forall_mem_cons.mp valid
    exact sound.performs_iff validLeft (forall_mem_singleton.mp validRight)
  | ite cond thenNode elseNode =>
    obtain ⟨r, m', eq, sound', later, computes⟩ := sound.ite_spec valid
    exact performs_of_computes sound valid iteValue (congrArg (Option.map _) eq) sound'
      later.grows computes fun _ => rfl
  | clearCache => exact sound.performs_clearCache

theorem Reachable.sound (reachable : m.Reachable) : m.Sound := by
  induction reachable with
  | new => exact sound_new
  | step _ valid performed ih =>
    obtain ⟨result, m', eq, sound, -⟩ := ih.performs _ valid
    rw [eq] at performed
    rw [← (Prod.mk.inj (Option.some.inj performed)).2]
    exact sound

/-- What a manager of decision diagrams promises. -/
structure Exact (m : BddManager) : Prop where
  ordered : ∀ {id node}, 2 ≤ id → m.nodes[id]? = some node → ∀ branch ∈ [node.low, node.high],
    2 ≤ branch → ∃ node', m.nodes[branch]? = some node' ∧ node.var < node'.var
  reduced : ∀ {id node}, 2 ≤ id → m.nodes[id]? = some node → node.low ≠ node.high
  unique : ∀ {id id' node}, 2 ≤ id → 2 ≤ id' → m.nodes[id]? = some node →
    m.nodes[id']? = some node → id = id'
  performs : ∀ op : Operation, (∀ id ∈ op.operands, m.Valid id) → ∃ result m',
    m.perform op = some (result, m') ∧
      (∀ id, m.Valid id → m'.Valid id ∧ ∀ σ, m'.eval id σ = m.eval id σ) ∧
      (op ≠ .clearCache → result.isSome) ∧
      ∀ r, result = some r → m'.Valid r ∧ ∀ σ, ∃ values,
        (op.operands.map fun id => m.eval id σ) = values.map some ∧
          m'.eval r σ = some (op.value σ values)
  canonical : ∀ {a b}, m.Valid a → m.Valid b → (a = b ↔ ∀ σ, m.eval a σ = m.eval b σ)

theorem Sound.eq_iff (sound : m.Sound) {a b : NodeId} (validLeft : m.Valid a)
    (validRight : m.Valid b) : a = b ↔ ∀ σ, m.eval a σ = m.eval b σ := by
  obtain ⟨s, denotes⟩ := sound.canonical.exists_denotes validLeft
  obtain ⟨t, denotes'⟩ := sound.canonical.exists_denotes validRight
  refine ⟨fun same σ => by rw [same], fun same => ?_⟩
  -- Trees of the same function are equal, and so are nodes of the same tree.
  have trees : s = t := (eq_iff_eval_eq (sound.canonical.ordered denotes)
    (sound.canonical.reduced denotes) (sound.canonical.ordered denotes')
    (sound.canonical.reduced denotes')).mpr fun σ => by
      have eq := same σ
      rw [sound.eval_eq denotes, sound.eval_eq denotes'] at eq
      exact Option.some.inj eq
  subst trees
  exact sound.canonical.denotes_injective denotes denotes'

/-- After any operations the manager keeps its promises. -/
theorem Reachable.manager_exact (reachable : m.Reachable) : m.Exact where
  ordered {id node} internal found branch member inner := by
    have sound := reachable.sound
    obtain ⟨tree, denotes⟩ := sound.canonical.exists_denotes
      (List.getElem?_eq_some_iff.mp found).1
    have ordered := sound.canonical.ordered denotes
    cases denotes with
    | ff | tt => exact absurd internal (by decide)
    | node _ found' left right =>
      rw [found] at found'
      obtain rfl := Option.some.inj found'
      obtain ⟨afterLow, afterHigh, -⟩ := ordered
      simp only [mem_cons, not_mem_nil, or_false] at member
      rcases member with rfl | rfl
      · cases left with
        | ff | tt => exact absurd inner (by decide)
        | node _ foundLow => exact ⟨_, foundLow, afterLow⟩
      · cases right with
        | ff | tt => exact absurd inner (by decide)
        | node _ foundHigh => exact ⟨_, foundHigh, afterHigh⟩
  reduced {id node} internal found := by
    have sound := reachable.sound
    obtain ⟨tree, denotes⟩ := sound.canonical.exists_denotes
      (List.getElem?_eq_some_iff.mp found).1
    have reduced := sound.canonical.reduced denotes
    cases denotes with
    | ff | tt => exact absurd internal (by decide)
    | node _ found' left right =>
      rw [found] at found'
      obtain rfl := Option.some.inj found'
      intro same
      dsimp only at same
      subst same
      exact reduced.1 (left.unique right)
  unique {id id' node} internal internal' found found' := by
    have canonical := reachable.sound.canonical
    have entry := canonical.unique.mpr ⟨internal, found⟩
    rw [canonical.unique.mpr ⟨internal', found'⟩] at entry
    exact (Option.some.inj entry).symm
  performs op valid := by
    have sound := reachable.sound
    obtain ⟨result, m', eq, sound', grows, returns, values⟩ := sound.performs op valid
    refine ⟨result, m', eq, fun id validId => ⟨grows.valid validId, fun σ =>
      sound.eval_grows sound' grows validId σ⟩, returns, fun r same => ?_⟩
    obtain ⟨validResult, value⟩ := values r same
    refine ⟨validResult, fun σ => ⟨op.operands.map (m.truth σ), ?_, ?_⟩⟩
    · rw [map_map]
      exact map_congr_left fun id member => sound.eval_eq_truth (valid id member) σ
    · rw [sound'.eval_eq_truth validResult, value]
  canonical validLeft validRight := reachable.sound.eq_iff validLeft validRight

/-- After creating a variable the manager keeps its promises. -/
theorem variable_exact : Exact (new.variable_ 0).2 :=
  Reachable.manager_exact (@Reachable.step _ _ (.variable_ 0) _ .new (fun _ member => nomatch member) rfl)

end Nixie.Bdd.BddManager
