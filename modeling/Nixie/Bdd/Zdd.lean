import Nixie.Bdd.NodeTable

/-! The manager of zero-suppressed decision diagrams, which are families of sets. -/

namespace Nixie.Bdd

def zddEmpty : NodeId := 0

def zddBase : NodeId := 1

inductive ZddOp where
  | union
  | intersection
  | difference
  deriving DecidableEq

/-- The nodes, and the table of results. -/
structure ZddManager extends NodeTable where
  opCache : ZddOp × NodeId × NodeId → Option NodeId

namespace ZddManager

def new : ZddManager := ⟨.new, fun _ => none⟩

def makeNode (m : ZddManager) (var : VarId) (low high : NodeId) : NodeId × ZddManager :=
  if high = zddEmpty then (low, m)
  else ((m.intern var low high).1, { m with toNodeTable := (m.intern var low high).2 })

def singleton (m : ZddManager) (var : VarId) : NodeId × ZddManager :=
  m.makeNode var zddEmpty zddBase

/-- The result of an operation where it is known without looking into the nodes. -/
def terminal : ZddOp → NodeId → NodeId → Option NodeId
  | .union, left, right =>
    if left = zddEmpty then some right
    else if right = zddEmpty then some left
    else if left = right then some left
    else none
  | .intersection, left, right =>
    if left = zddEmpty ∨ right = zddEmpty then some zddEmpty
    else if left = right then some left
    -- The other family is taken not to contain the empty set.
    else if left = zddBase ∨ right = zddBase then some zddEmpty
    else none
  | .difference, left, right =>
    if left = zddEmpty then some zddEmpty
    else if right = zddEmpty then some left
    else if left = right then some zddEmpty
    else none

/-- The first variable, the operands for the low branch, and the high branch or its operands. -/
def expand (op : ZddOp) (left right : NodeId) (leftNode rightNode : BddNode) :
    VarId × (NodeId × NodeId) × (NodeId ⊕ NodeId × NodeId) :=
  if leftNode.var = rightNode.var then
    (leftNode.var, (leftNode.low, rightNode.low), .inr (leftNode.high, rightNode.high))
  else if leftNode.var < rightNode.var then
    (leftNode.var, (leftNode.low, right), match op with
      | .intersection => .inr (leftNode.high, right)
      | .union | .difference => .inl leftNode.high)
  else (rightNode.var, (left, rightNode.low), match op with
      | .union => .inl rightNode.high
      | .intersection => .inr (left, rightNode.high)
      | .difference => .inl zddEmpty)

def keep (m : ZddManager) (key : ZddOp × NodeId × NodeId) (result : NodeId) : ZddManager :=
  { m with opCache := Function.update m.opCache key (some result) }

def applyWithin (op : ZddOp) : Nat → NodeId → NodeId → ZddManager → Option (NodeId × ZddManager)
  | 0, _, _, _ => none
  | depth + 1, left, right, m => match terminal op left right with
    | some result => some (result, m)
    | none => match m.opCache (op, left, right) with
      | some result => some (result, m)
      | none => do
        let leftNode ← m.nodes[left]?
        let rightNode ← m.nodes[right]?
        let (var, (lowLeft, lowRight), highPlan) := expand op left right leftNode rightNode
        let (low, m) ← applyWithin op depth lowLeft lowRight m
        let (high, m) ← match highPlan with
          | .inl high => some (high, m)
          | .inr (highLeft, highRight) => applyWithin op depth highLeft highRight m
        let (result, m) := m.makeNode var low high
        some (result, m.keep (op, left, right) result)

def apply (m : ZddManager) (op : ZddOp) (left right : NodeId) : Option (NodeId × ZddManager) :=
  applyWithin op (left + right + 1) left right m

def union (m : ZddManager) (left right : NodeId) : Option (NodeId × ZddManager) :=
  m.apply .union left right

def intersection (m : ZddManager) (left right : NodeId) : Option (NodeId × ZddManager) :=
  m.apply .intersection left right

def difference (m : ZddManager) (left right : NodeId) : Option (NodeId × ZddManager) :=
  m.apply .difference left right

def clearCache (m : ZddManager) : ZddManager := ⟨m.toNodeTable, fun _ => none⟩

/-- Counts the sets of a family, within a depth; a sum that is no word of 64 bits is an overflow. -/
def countRec (m : ZddManager) : Nat → NodeId → (NodeId → Option Nat) →
    Option (Nat × (NodeId → Option Nat))
  | 0, _, _ => none
  | depth + 1, node, cache =>
    if node = zddEmpty then some (0, cache)
    else if node = zddBase then some (1, cache)
    else match cache node with
      | some count => some (count, cache)
      | none => do
        let n ← m.nodes[node]?
        let (lowCount, cache) ← m.countRec depth n.low cache
        let (highCount, cache) ← m.countRec depth n.high cache
        if lowCount + highCount < 2 ^ 64 then
          some (lowCount + highCount, Function.update cache node (some (lowCount + highCount)))
        else none

def count (m : ZddManager) (node : NodeId) : Option Nat :=
  (m.countRec (node + 1) node fun _ => none).map Prod.fst

/-- The family of a node, within a depth: a skipped variable is in no set. -/
def familyWithin (m : ZddManager) : Nat → NodeId → Finset (Finset VarId)
  | 0, _ => ∅
  | depth + 1, node =>
    if node = zddEmpty then ∅
    else if node = zddBase then {∅}
    else match m.nodes[node]? with
      | none => ∅
      | some n => m.familyWithin depth n.low ∪ (m.familyWithin depth n.high).image (insert n.var)

def family (m : ZddManager) (node : NodeId) : Finset (Finset VarId) :=
  m.familyWithin (node + 1) node

/-- The managers that singletons, the operations on their own nodes and clearing lead to. -/
inductive Reachable : ZddManager → Prop
  | new : Reachable new
  | singleton {m : ZddManager} (before : Reachable m) {var : VarId} (word : var ≤ u32Max) :
    Reachable (m.singleton var).2
  | apply {m m' : ZddManager} (before : Reachable m) {op : ZddOp} {left right result : NodeId}
    (validLeft : m.Valid left) (validRight : m.Valid right)
    (performed : m.apply op left right = some (result, m')) : Reachable m'
  | clearCache {m : ZddManager} (before : Reachable m) : Reachable m.clearCache

end ZddManager

end Nixie.Bdd

/-! The families that are built from singletons: some single variables, and maybe the empty set. -/

namespace Nixie.Bdd

open List

/-- The single variables of a family in increasing order, and whether it has the empty set. -/
abbrev Row := List VarId × Bool

namespace Row

def Ordered (s : Row) : Prop := s.1.Pairwise (· < ·) ∧ ∀ v ∈ s.1, v ≤ u32Max

def rest (s : Row) : Row := (s.1.tail, s.2)

def first (s : Row) : VarId := s.1.headD u32Max

def chain (b : Bool) : List VarId → DecisionTree VarId
  | [] => .leaf b
  | v :: vs => .branch v (chain b vs) (.leaf true)

def tree (s : Row) : DecisionTree VarId := chain s.2 s.1

theorem chain_injective {b c : Bool} {vs ws : List VarId} (same : chain b vs = chain c ws) :
    vs = ws ∧ b = c := by
  induction vs generalizing ws with
  | nil =>
    cases ws with
    | nil => exact ⟨rfl, DecisionTree.leaf.inj same⟩
    | cons w ws => cases same
  | cons v vs ih =>
    cases ws with
    | nil => cases same
    | cons w ws =>
      obtain ⟨rfl, below, -⟩ := DecisionTree.branch.inj same
      obtain ⟨rfl, rfl⟩ := ih below
      exact ⟨rfl, rfl⟩

theorem tree_injective {s t : Row} (same : s.tree = t.tree) : s = t :=
  Prod.ext (chain_injective same).1 (chain_injective same).2

def family (s : Row) : Finset (Finset VarId) :=
  (s.1.map fun v => {v}).toFinset ∪ if s.2 then {∅} else ∅

theorem singleton_mem_family {s : Row} {v : VarId} : {v} ∈ s.family ↔ v ∈ s.1 := by
  obtain ⟨vs, b⟩ := s
  cases b <;> simp [family]

theorem empty_mem_family {s : Row} : ∅ ∈ s.family ↔ s.2 = true := by
  obtain ⟨vs, b⟩ := s
  cases b <;> simp [family]

theorem mem_family {s : Row} {x : Finset VarId} :
    x ∈ s.family ↔ (∃ v ∈ s.1, x = {v}) ∨ s.2 = true ∧ x = ∅ := by
  obtain ⟨vs, b⟩ := s
  cases b <;> simp [family, eq_comm, or_comm]

end Row

namespace ZddOp

def Keeps : ZddOp → Row → Row → VarId → Prop
  | .union, s, t, v => v ∈ s.1 ∨ v ∈ t.1
  | .intersection, s, t, v => v ∈ s.1 ∧ v ∈ t.1
  -- The largest word is lost where the other family has the empty set.
  | .difference, s, t, v => v ∈ s.1 ∧ v ∉ t.1 ∧ ¬(v = u32Max ∧ t.2 = true)

def keepsEmpty : ZddOp → Row → Row → Bool
  | .union, s, t => s.2 || t.2
  -- The empty set is only found in both families if they end with the same variable.
  | .intersection, s, t => s.2 && t.2 && decide (s.1.getLast? = t.1.getLast?)
  | .difference, s, t => s.2 && !t.2

/-- A row is what an operation makes of two others. -/
def Yields (op : ZddOp) (s t u : Row) : Prop :=
  (∀ v, v ∈ u.1 ↔ op.Keeps s t v) ∧ u.2 = op.keepsEmpty s t

end ZddOp

open ZddOp

section

variable {s t u : Row}

def Row.push (v : VarId) (s : Row) : Row := (v :: s.1, s.2)

theorem Row.Ordered.first_le {s : Row} (ordered : s.Ordered) {v : VarId} (mem : v ∈ s.1) :
    s.first ≤ v := by
  obtain ⟨_ | ⟨w, ws⟩, b⟩ := s
  · cases mem
  · rcases mem_cons.mp mem with rfl | mem
    · exact le_rfl
    · exact (rel_of_pairwise_cons ordered.1 mem).le

theorem Row.Ordered.first_lt {s : Row} (ordered : s.Ordered) {v : VarId}
    (mem : v ∈ s.rest.1) : s.first < v := by
  obtain ⟨_ | ⟨w, ws⟩, b⟩ := s
  · cases mem
  · exact rel_of_pairwise_cons ordered.1 mem

theorem Row.Ordered.first_le_max {s : Row} (ordered : s.Ordered) : s.first ≤ u32Max := by
  obtain ⟨_ | ⟨w, ws⟩, b⟩ := s
  · exact le_rfl
  · exact ordered.2 w mem_cons_self

theorem Row.Ordered.ne_nil_of_first_lt {s t : Row} (ordered : t.Ordered) (less : s.first < t.first) :
    s.1 ≠ [] := by
  obtain ⟨_ | ⟨w, ws⟩, b⟩ := s
  · exact absurd ordered.first_le_max (Nat.not_le.mpr less)
  · exact cons_ne_nil w ws

theorem getLast?_cons_eq_iff {v : VarId} {vs ws : List VarId} (later : ∀ w ∈ ws, v < w) :
    (v :: vs).getLast? = ws.getLast? ↔ vs ≠ [] ∧ vs.getLast? = ws.getLast? := by
  cases vs with
  | nil =>
    refine iff_of_false (fun same => ?_) fun both => both.1 rfl
    exact absurd (later v (mem_of_getLast? same.symm)) (Nat.lt_irrefl v)
  | cons v' vs =>
    rw [getLast?_cons_cons]
    exact ⟨fun same => ⟨cons_ne_nil _ _, same⟩, And.right⟩

theorem getLast?_cons_cons_iff {v : VarId} {vs ws : List VarId} (left : ∀ w ∈ vs, v < w)
    (right : ∀ w ∈ ws, v < w) :
    (v :: vs).getLast? = (v :: ws).getLast? ↔ vs.getLast? = ws.getLast? := by
  cases vs with
  | nil =>
    cases ws with
    | nil => exact iff_of_true rfl rfl
    | cons w ws =>
      rw [getLast?_cons_cons]
      refine iff_of_false (fun same => ?_) fun same => ?_
      · exact absurd (right v (mem_of_getLast? same.symm)) (Nat.lt_irrefl v)
      · rw [getLast?_nil, getLast?_cons] at same
        cases same
  | cons x vs =>
    cases ws with
    | nil =>
      rw [getLast?_cons_cons]
      refine iff_of_false (fun same => ?_) fun same => ?_
      · exact absurd (left v (mem_of_getLast? same)) (Nat.lt_irrefl v)
      · rw [getLast?_nil, getLast?_cons] at same
        cases same
    | cons w ws => rw [getLast?_cons_cons, getLast?_cons_cons]

theorem ZddOp.Yields.mem_or {op : ZddOp} (yields : op.Yields s t u) {v : VarId} (mem : v ∈ u.1) :
    v ∈ s.1 ∨ v ∈ t.1 := by
  have keeps := (yields.1 v).mp mem
  cases op with
  | union => exact keeps
  | intersection => exact .inl keeps.1
  | difference => exact .inl keeps.1

/-! #### Rows that start with the same variable -/

theorem union_same (same : s.first = t.first) (some_ : ¬(s.1 = [] ∧ t.1 = []))
    (yields : union.Yields s.rest t.rest u) : union.Yields s t (u.push s.first) := by
  obtain ⟨vs, b⟩ := s
  obtain ⟨ws, c⟩ := t
  obtain ⟨members, base⟩ := yields
  refine ⟨fun v => ?_, base⟩
  rw [Row.push, mem_cons, members]
  cases vs with
  | nil =>
    cases ws with
    | nil => exact absurd ⟨rfl, rfl⟩ some_
    | cons w ws =>
      obtain rfl : u32Max = w := same
      simp [Keeps, Row.rest, Row.first]
  | cons x vs =>
    cases ws with
    | nil => simp [Keeps, Row.rest, Row.first]
    | cons w ws =>
      obtain rfl : x = w := same
      simp only [Keeps, Row.rest, Row.first, headD_cons, tail_cons, mem_cons]
      exact or_or_distrib_left

theorem intersection_same (orderedLeft : s.Ordered) (orderedRight : t.Ordered)
    (same : s.first = t.first) (someLeft : s.1 ≠ []) (someRight : t.1 ≠ [])
    (yields : intersection.Yields s.rest t.rest u) :
    intersection.Yields s t (u.push s.first) := by
  obtain ⟨_ | ⟨x, vs⟩, b⟩ := s
  · exact absurd rfl someLeft
  obtain ⟨_ | ⟨w, ws⟩, c⟩ := t
  · exact absurd rfl someRight
  obtain rfl : x = w := same
  obtain ⟨members, base⟩ := yields
  have later : ∀ w ∈ vs, x < w := fun _ mem => rel_of_pairwise_cons orderedLeft.1 mem
  have later' : ∀ w ∈ ws, x < w := fun _ mem => rel_of_pairwise_cons orderedRight.1 mem
  refine ⟨fun v => ?_, ?_⟩
  · rw [Row.push, mem_cons, members]
    simp only [Keeps, Row.rest, Row.first, headD_cons, tail_cons, mem_cons]
    exact or_and_left
  · rw [Row.push, base]
    exact congrArg (b && c && ·) (decide_eq_decide.mpr (getLast?_cons_cons_iff later later').symm)

theorem difference_same (orderedLeft : s.Ordered) (orderedRight : t.Ordered)
    (same : s.first = t.first) (right : t.1 = [] → t.2 = true)
    (yields : difference.Yields s.rest t.rest u) : difference.Yields s t u := by
  obtain ⟨vs, b⟩ := s
  obtain ⟨ws, c⟩ := t
  obtain ⟨members, base⟩ := yields
  refine ⟨fun v => ?_, base⟩
  rw [members]
  cases vs with
  | nil => simp [Keeps, Row.rest]
  | cons x vs =>
    have later : ∀ w ∈ vs, x < w := fun _ mem => rel_of_pairwise_cons orderedLeft.1 mem
    cases ws with
    | nil =>
      -- Only the largest word starts like the constant, and it is lost.
      obtain rfl : x = u32Max := same
      obtain rfl : c = true := right rfl
      simp only [Keeps, Row.rest, tail_cons, tail_nil, mem_cons, and_true]
      constructor
      · exact fun ⟨mem, rest⟩ => ⟨.inr mem, rest⟩
      · intro ⟨mem, absent, other⟩
        exact ⟨mem.resolve_left other, absent, other⟩
    | cons w ws =>
      obtain rfl : x = w := same
      simp only [Keeps, Row.rest, tail_cons, mem_cons]
      constructor
      · intro ⟨mem, absent, other⟩
        refine ⟨.inr mem, ?_, other⟩
        rintro (rfl | lies)
        · exact Nat.lt_irrefl _ (later _ mem)
        · exact absent lies
      · intro ⟨mem, absent, other⟩
        refine ⟨mem.resolve_left fun eq => absent (.inl eq), fun lies => absent (.inr lies), other⟩

/-! #### A left row that starts first -/

theorem union_less (less : s.first < t.first) (some_ : s.1 ≠ [])
    (yields : union.Yields s.rest t u) : union.Yields s t (u.push s.first) := by
  obtain ⟨_ | ⟨x, vs⟩, b⟩ := s
  · exact absurd rfl some_
  obtain ⟨members, base⟩ := yields
  refine ⟨fun v => ?_, base⟩
  rw [Row.push, mem_cons, members]
  simp only [Keeps, Row.rest, Row.first, headD_cons, tail_cons, mem_cons]
  exact or_assoc.symm

theorem Row.Ordered.not_mem_of_first {t : Row} (ordered : t.Ordered) {x : VarId}
    (less : x < t.first) : ∀ v ∈ t.1, x < v :=
  fun _ mem => Nat.lt_of_lt_of_le less (ordered.first_le mem)

theorem intersection_less (orderedRight : t.Ordered) (less : s.first < t.first) (some_ : s.1 ≠ [])
    (someRight : t.1 ≠ []) (yields : intersection.Yields s.rest t u) :
    intersection.Yields s t u := by
  obtain ⟨_ | ⟨x, vs⟩, b⟩ := s
  · exact absurd rfl some_
  have later : ∀ v ∈ t.1, x < v := orderedRight.not_mem_of_first less
  obtain ⟨members, base⟩ := yields
  refine ⟨fun v => ?_, ?_⟩
  · rw [members]
    simp only [Keeps, Row.rest, tail_cons, mem_cons]
    constructor
    · exact fun both => ⟨.inr both.1, both.2⟩
    · refine fun both => ⟨both.1.resolve_left ?_, both.2⟩
      rintro rfl
      exact Nat.lt_irrefl _ (later _ both.2)
  · rw [base]
    have last : vs.getLast? = t.1.getLast? ↔ (x :: vs).getLast? = t.1.getLast? := by
      rw [getLast?_cons_eq_iff later]
      refine ⟨fun same => ⟨?_, same⟩, And.right⟩
      rintro rfl
      rw [getLast?_nil, eq_comm, getLast?_eq_none_iff] at same
      exact someRight same
    exact congrArg (b && t.2 && ·) (decide_eq_decide.mpr last)

theorem difference_less (orderedRight : t.Ordered) (less : s.first < t.first) (some_ : s.1 ≠ [])
    (yields : difference.Yields s.rest t u) : difference.Yields s t (u.push s.first) := by
  obtain ⟨_ | ⟨x, vs⟩, b⟩ := s
  · exact absurd rfl some_
  have later : ∀ v ∈ t.1, x < v := orderedRight.not_mem_of_first less
  have word : x < u32Max := Nat.lt_of_lt_of_le less orderedRight.first_le_max
  obtain ⟨members, base⟩ := yields
  refine ⟨fun v => ?_, base⟩
  rw [Row.push, mem_cons, members]
  simp only [Keeps, Row.rest, Row.first, headD_cons, tail_cons, mem_cons]
  constructor
  · rintro (rfl | ⟨mem, rest⟩)
    · exact ⟨.inl rfl, fun lies => Nat.lt_irrefl _ (later _ lies), fun both => word.ne both.1⟩
    · exact ⟨.inr mem, rest⟩
  · rintro ⟨rfl | mem, rest⟩
    · exact .inl rfl
    · exact .inr ⟨mem, rest⟩

/-! #### A right row that starts first -/

theorem ZddOp.Yields.symm_union (yields : union.Yields t s u) : union.Yields s t u :=
  ⟨fun v => (yields.1 v).trans or_comm, yields.2.trans (Bool.or_comm _ _)⟩

theorem ZddOp.Yields.symm_intersection (yields : intersection.Yields t s u) :
    intersection.Yields s t u := by
  refine ⟨fun v => (yields.1 v).trans and_comm, yields.2.trans ?_⟩
  rw [keepsEmpty, keepsEmpty, Bool.and_comm t.2]
  simp only [eq_comm]

theorem difference_more (orderedLeft : s.Ordered) (more : t.first < s.first) (some_ : t.1 ≠ [])
    (yields : difference.Yields s t.rest u) : difference.Yields s t u := by
  obtain ⟨_ | ⟨w, ws⟩, c⟩ := t
  · exact absurd rfl some_
  have later : ∀ v ∈ s.1, w < v := orderedLeft.not_mem_of_first more
  obtain ⟨members, base⟩ := yields
  refine ⟨fun v => ?_, base⟩
  rw [members]
  simp only [Keeps, Row.rest, tail_cons, mem_cons]
  refine and_congr_right fun mem => and_congr_left fun _ => not_congr ?_
  refine ⟨.inr, fun lies => lies.resolve_left ?_⟩
  rintro rfl
  exact Nat.lt_irrefl _ (later _ mem)

end

end Nixie.Bdd
