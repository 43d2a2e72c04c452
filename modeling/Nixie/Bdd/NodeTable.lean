import Mathlib.Algebra.Group.Nat.Defs
import Nixie.Logic.DecisionTree

/-! Nodes of decision diagrams, which are interned, and the trees that they stand for. -/

namespace Nixie.Bdd

open Function Option List

abbrev VarId := Nat

abbrev NodeId := Nat

/-- The largest word of 32 bits, which is the variable of the two constant nodes. -/
def u32Max : VarId := 2 ^ 32 - 1

/-- A node: if the variable is true, the high node, and otherwise the low one. -/
structure BddNode where
  var : VarId
  low : NodeId
  high : NodeId
  deriving DecidableEq

/-- All nodes, and the table that keeps them unique. -/
structure NodeTable where
  nodes : List BddNode
  uniqueTable : VarId × NodeId × NodeId → Option NodeId

namespace NodeTable

/-- The two constants, whose nodes are never looked into. -/
def new : NodeTable := ⟨[⟨u32Max, 0, 0⟩, ⟨u32Max, 1, 1⟩], fun _ => none⟩

/-- The node of these parts, which is created unless it exists. -/
def intern (table : NodeTable) (var : VarId) (low high : NodeId) : NodeId × NodeTable :=
  match table.uniqueTable (var, low, high) with
  | some id => (id, table)
  | none => (table.nodes.length, ⟨table.nodes ++ [⟨var, low, high⟩],
      update table.uniqueTable (var, low, high) (some table.nodes.length)⟩)

def Valid (table : NodeTable) (id : NodeId) : Prop := id < table.nodes.length

instance (table : NodeTable) (id : NodeId) : Decidable (table.Valid id) :=
  inferInstanceAs (Decidable (id < table.nodes.length))

/-- The nodes of one table are still there in the other one. -/
def Grows (table table' : NodeTable) : Prop := table.nodes <+: table'.nodes

/--
Nodes only use nodes that were there before, and no two of them have the same parts.
-/
structure WellFormed (table : NodeTable) : Prop where
  constants : ∃ rest, table.nodes = [⟨u32Max, 0, 0⟩, ⟨u32Max, 1, 1⟩] ++ rest
  earlier : ∀ {id node}, 2 ≤ id → table.nodes[id]? = some node → node.low < id ∧ node.high < id
  unique : ∀ {var low high id}, table.uniqueTable (var, low, high) = some id ↔
    2 ≤ id ∧ table.nodes[id]? = some ⟨var, low, high⟩

inductive Denotes (table : NodeTable) : NodeId → DecisionTree VarId → Prop
  | ff : Denotes table 0 (.leaf false)
  | tt : Denotes table 1 (.leaf true)
  | node {id low high : NodeId} {var : VarId} {left right : DecisionTree VarId}
      (internal : 2 ≤ id) (found : table.nodes[id]? = some ⟨var, low, high⟩)
      (denotesLow : Denotes table low left) (denotesHigh : Denotes table high right) :
      Denotes table id (.branch var left right)

variable {table table' table'' : NodeTable}

theorem Grows.refl (table : NodeTable) : table.Grows table := prefix_refl _

theorem Grows.trans (first : table.Grows table') (second : table'.Grows table'') :
    table.Grows table'' := List.IsPrefix.trans first second

theorem Grows.getElem? (grows : table.Grows table') {id : NodeId} {node : BddNode}
    (found : table.nodes[id]? = some node) : table'.nodes[id]? = some node := by
  obtain ⟨rest, eq⟩ := grows
  rw [← eq, List.getElem?_append_left (List.getElem?_eq_some_iff.mp found).1]
  exact found

theorem Grows.valid (grows : table.Grows table') {id : NodeId} (valid : table.Valid id) :
    table'.Valid id := Nat.lt_of_lt_of_le valid grows.length_le

variable {tree : DecisionTree VarId}

theorem Denotes.mono (grows : table.Grows table') {id : NodeId}
    (denotes : table.Denotes id tree) : table'.Denotes id tree := by
  induction denotes with
  | ff => exact .ff
  | tt => exact .tt
  | node internal found _ _ ihLow ihHigh => exact .node internal (grows.getElem? found) ihLow ihHigh

theorem Denotes.unique {id : NodeId} {tree' : DecisionTree VarId}
    (denotes : table.Denotes id tree) (denotes' : table.Denotes id tree') : tree = tree' := by
  induction denotes generalizing tree' with
  | ff =>
    cases denotes' with
    | ff => rfl
    | node internal => exact absurd internal (by decide)
  | tt =>
    cases denotes' with
    | tt => rfl
    | node internal => exact absurd internal (by decide)
  | node internal found _ _ ihLow ihHigh =>
    cases denotes' with
    | ff => exact absurd internal (by decide)
    | tt => exact absurd internal (by decide)
    | node _ found' left' right' =>
      rw [found] at found'
      obtain ⟨rfl, rfl, rfl⟩ := BddNode.mk.inj (some.inj found')
      rw [ihLow left', ihHigh right']

theorem getElem?_concat_eq_some {β : Type*} {xs : List β} {x y : β} {n : Nat}
    (found : (xs ++ [x])[n]? = some y) : xs[n]? = some y ∨ n = xs.length ∧ y = x := by
  rcases Nat.lt_or_ge n xs.length with old | new
  · rw [getElem?_append_left old] at found
    exact .inl found
  · have bound := (List.getElem?_eq_some_iff.mp found).1
    rw [length_append, length_singleton] at bound
    obtain rfl := Nat.le_antisymm (Nat.le_of_lt_succ bound) new
    rw [getElem?_concat_length] at found
    exact .inr ⟨rfl, (some.inj found).symm⟩

theorem wellFormed_new : new.WellFormed := by
  refine ⟨⟨[], rfl⟩, fun {id node} internal found => ?_, fun {var low high id} => ?_⟩
  · -- There are only the two constants.
    have bound : id < 2 := (List.getElem?_eq_some_iff.mp found).1
    exact absurd internal (Nat.not_le.mpr bound)
  · refine ⟨fun eq => (nomatch eq), fun ⟨internal, found⟩ => ?_⟩
    have bound : id < 2 := (List.getElem?_eq_some_iff.mp found).1
    exact absurd internal (Nat.not_le.mpr bound)

namespace WellFormed

variable (wellFormed : table.WellFormed)
include wellFormed

theorem two_le : 2 ≤ table.nodes.length := by
  obtain ⟨rest, eq⟩ := wellFormed.constants
  rw [eq, length_append]
  exact Nat.le_add_right 2 _

theorem constant {id : NodeId} (small : id < 2) : table.nodes[id]? = some ⟨u32Max, id, id⟩ := by
  obtain ⟨rest, eq⟩ := wellFormed.constants
  rw [eq, getElem?_append_left small]
  match id, small with
  | 0, _ => rfl
  | 1, _ => rfl

theorem exists_denotes {id : NodeId} (valid : table.Valid id) : ∃ tree, table.Denotes id tree := by
  -- The parts of a node come before it.
  induction id using Nat.strong_induction_on with
  | _ id ih =>
    match id, ih, valid with
    | 0, _, _ => exact ⟨_, .ff⟩
    | 1, _, _ => exact ⟨_, .tt⟩
    | id + 2, ih, valid =>
      have found := getElem?_eq_getElem valid
      obtain ⟨left, right⟩ := wellFormed.earlier (Nat.le_add_left 2 id) found
      obtain ⟨low, denotesLow⟩ := ih _ left (left.trans valid)
      obtain ⟨high, denotesHigh⟩ := ih _ right (right.trans valid)
      exact ⟨_, .node (Nat.le_add_left 2 id) found denotesLow denotesHigh⟩

theorem valid {id : NodeId} (denotes : table.Denotes id tree) : table.Valid id := by
  cases denotes with
  | ff => exact Nat.lt_of_lt_of_le (by decide) wellFormed.two_le
  | tt => exact Nat.lt_of_lt_of_le (by decide) wellFormed.two_le
  | node _ found => exact (List.getElem?_eq_some_iff.mp found).1

theorem denotes_injective {id id' : NodeId}
    (denotes : table.Denotes id tree) (denotes' : table.Denotes id' tree) : id = id' := by
  induction denotes generalizing id' with
  | ff =>
    cases denotes'
    rfl
  | tt =>
    cases denotes'
    rfl
  | node internal found _ _ ihLow ihHigh =>
    cases denotes' with
    | node internal' found' left' right' =>
      -- The parts are the same, and the table has one entry for them.
      obtain rfl := ihLow left'
      obtain rfl := ihHigh right'
      have entry := wellFormed.unique.mpr ⟨internal, found⟩
      rw [wellFormed.unique.mpr ⟨internal', found'⟩] at entry
      exact (some.inj entry).symm

theorem intern_spec (var : VarId) {low high : NodeId} (validLow : table.Valid low)
    (validHigh : table.Valid high) :
    (table.intern var low high).2.WellFormed ∧ table.Grows (table.intern var low high).2 ∧
      (∀ id, (table.intern var low high).2.Valid id → table.Valid id ∨
        id = (table.intern var low high).1) ∧
      ∀ {left right}, table.Denotes low left → table.Denotes high right →
        (table.intern var low high).2.Denotes (table.intern var low high).1
          (.branch var left right) := by
  unfold intern
  split
  · rename_i id entry
    obtain ⟨internal, found⟩ := wellFormed.unique.mp entry
    exact ⟨wellFormed, .refl table, fun _ valid => .inl valid,
      fun left right => .node internal found left right⟩
  · rename_i fresh
    have grows : table.Grows ⟨table.nodes ++ [⟨var, low, high⟩],
        update table.uniqueTable (var, low, high) (some table.nodes.length)⟩ :=
      prefix_append _ _
    have internal : 2 ≤ table.nodes.length := wellFormed.two_le
    have last : (table.nodes ++ [⟨var, low, high⟩])[table.nodes.length]? =
        some ⟨var, low, high⟩ := getElem?_concat_length
    refine ⟨⟨?_, fun {id node} two found => ?_, fun {v l h id} => ?_⟩, grows, fun id valid => ?_,
      fun left right => .node internal last (left.mono grows) (right.mono grows)⟩
    · obtain ⟨rest, eq⟩ := wellFormed.constants
      exact ⟨rest ++ [⟨var, low, high⟩], by rw [eq, append_assoc]⟩
    · -- Only the last node is new, and its parts are older.
      rcases getElem?_concat_eq_some found with found | ⟨rfl, rfl⟩
      · exact wellFormed.earlier two found
      · exact ⟨validLow, validHigh⟩
    · dsimp only
      by_cases same : (v, l, h) = (var, low, high)
      · obtain ⟨rfl, rfl, rfl⟩ := by simpa only [Prod.mk.injEq] using same
        rw [update_self]
        constructor
        · intro eq
          obtain rfl := some.inj eq
          exact ⟨internal, last⟩
        · intro ⟨two, found⟩
          rcases getElem?_concat_eq_some found with found | ⟨rfl, -⟩
          · -- An older node of these parts would be in the table.
            rw [wellFormed.unique.mpr ⟨two, found⟩] at fresh
            cases fresh
          · rfl
      · rw [update_of_ne same, wellFormed.unique]
        refine and_congr_right fun two => ⟨grows.getElem?, fun found => ?_⟩
        rcases getElem?_concat_eq_some found with found | ⟨-, parts⟩
        · exact found
        · -- The last node has other parts.
          obtain ⟨rfl, rfl, rfl⟩ := BddNode.mk.inj parts
          exact absurd rfl same
    · have bound : id < (table.nodes ++ [BddNode.mk var low high]).length := valid
      rw [length_append, length_singleton] at bound
      rcases Nat.lt_or_ge id table.nodes.length with old | new
      · exact .inl old
      · exact .inr (Nat.le_antisymm (Nat.le_of_lt_succ bound) new)

end WellFormed

end NodeTable

end Nixie.Bdd
