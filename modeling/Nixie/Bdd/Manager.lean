import Nixie.Bdd.NodeTable
import Nixie.Data.Worklist

/-! The manager of binary decision diagrams, whose operations run on explicit stacks. -/

namespace Nixie.Bdd

open Function

def bddFalse : NodeId := 0

def bddTrue : NodeId := 1

inductive BddOp where
  | and
  | or
  | xor
  deriving DecidableEq

abbrev ApplyKey := BddOp × NodeId × NodeId

/-- A condition, what holds if it is true, and what holds otherwise. -/
abbrev IteKey := NodeId × NodeId × NodeId

/-- The nodes, and a table of results for each kind of operation. -/
structure BddManager extends NodeTable where
  opCache : ApplyKey → Option NodeId
  notCache : NodeId → Option NodeId
  iteCache : IteKey → Option NodeId

namespace BddManager

def new : BddManager := ⟨.new, fun _ => none, fun _ => none, fun _ => none⟩

/-- A reduced node: without two different branches there is no decision. -/
def makeNode (m : BddManager) (var : VarId) (low high : NodeId) : NodeId × BddManager :=
  if low = high then (low, m)
  else ((m.intern var low high).1, { m with toNodeTable := (m.intern var low high).2 })

def variable_ (m : BddManager) (var : VarId) : NodeId × BddManager :=
  m.makeNode var bddFalse bddTrue

def negated (m : BddManager) (node : NodeId) : Option NodeId :=
  if node = bddFalse then some bddTrue
  else if node = bddTrue then some bddFalse
  else m.notCache node

def notSteps : Expansion BddManager NodeId VarId NodeId where
  resolved m id := some (m.negated id, m)
  parts m id := m.nodes[id]?.map fun n => (n.var, n.low, n.high)
  stored m id := (m.notCache id).isSome
  store m id var low high :=
    let (result, m) := m.makeNode var low high
    { m with notCache := update m.notCache id (some result) }
  skips := false

def not (m : BddManager) (node : NodeId) : Option (NodeId × BddManager) :=
  notSteps.run (4 ^ (node + 1)) m node

def applyResolved (m : BddManager) : ApplyKey → Option (Option NodeId × BddManager)
  | (.and, left, right) =>
    if left = bddFalse ∨ right = bddFalse then some (some bddFalse, m)
    else if left = bddTrue then some (some right, m)
    else if right = bddTrue then some (some left, m)
    else if left = right then some (some left, m)
    else some (m.opCache (.and, left, right), m)
  | (.or, left, right) =>
    if left = bddTrue ∨ right = bddTrue then some (some bddTrue, m)
    else if left = bddFalse then some (some right, m)
    else if right = bddFalse then some (some left, m)
    else if left = right then some (some left, m)
    else some (m.opCache (.or, left, right), m)
  | (.xor, left, right) =>
    if left = bddFalse then some (some right, m)
    else if right = bddFalse then some (some left, m)
    -- Against true this is a negation, which may create nodes.
    else if left = bddTrue then (m.not right).map fun (result, m) => (some result, m)
    else if right = bddTrue then (m.not left).map fun (result, m) => (some result, m)
    else if left = right then some (some bddFalse, m)
    else some (m.opCache (.xor, left, right), m)

def applyCofactors (m : BddManager) : ApplyKey → Option (VarId × ApplyKey × ApplyKey)
  | (op, left, right) => match m.nodes[left]?, m.nodes[right]? with
    | some leftNode, some rightNode =>
      if leftNode.var = rightNode.var then
        some (leftNode.var, (op, leftNode.low, rightNode.low), (op, leftNode.high, rightNode.high))
      else if leftNode.var < rightNode.var then
        some (leftNode.var, (op, leftNode.low, right), (op, leftNode.high, right))
      else some (rightNode.var, (op, left, rightNode.low), (op, left, rightNode.high))
    | _, _ => none

def applySteps : Expansion BddManager ApplyKey VarId NodeId where
  resolved := applyResolved
  parts := applyCofactors
  stored m key := (m.opCache key).isSome
  store m key var low high :=
    let (result, m) := m.makeNode var low high
    { m with opCache := update m.opCache key (some result) }
  skips := true

def apply (m : BddManager) (op : BddOp) (left right : NodeId) : Option (NodeId × BddManager) :=
  applySteps.run (4 ^ (left + right + 1)) m (op, left, right)

def and (m : BddManager) (left right : NodeId) : Option (NodeId × BddManager) :=
  m.apply .and left right

def or (m : BddManager) (left right : NodeId) : Option (NodeId × BddManager) :=
  m.apply .or left right

def xor (m : BddManager) (left right : NodeId) : Option (NodeId × BddManager) :=
  m.apply .xor left right

def implies (m : BddManager) (left right : NodeId) : Option (NodeId × BddManager) := do
  let (notLeft, m) ← m.not left
  m.or notLeft right

def iff (m : BddManager) (left right : NodeId) : Option (NodeId × BddManager) := do
  let (notXor, m) ← m.xor left right
  m.not notXor

def iteResolved (m : BddManager) : IteKey → Option NodeId
  | (cond, thenNode, elseNode) =>
    if cond = bddTrue then some thenNode
    else if cond = bddFalse then some elseNode
    else if thenNode = elseNode then some thenNode
    else if thenNode = bddTrue ∧ elseNode = bddFalse then some cond
    else m.iteCache (cond, thenNode, elseNode)

def inner (m : BddManager) (id : NodeId) : Option BddNode :=
  if id ≤ bddTrue then none else m.nodes[id]?

/-- The smaller one of a variable and that of a node. -/
def firstVar (var : VarId) : Option BddNode → VarId
  | some n => if n.var < var then n.var else var
  | none => var

/-- The low branch on a variable, which is the node itself unless it decides the variable. -/
def lowAt (var : VarId) (id : NodeId) : Option BddNode → NodeId
  | some n => if n.var = var then n.low else id
  | none => id

/-- The high branch on a variable, which is the node itself unless it decides the variable. -/
def highAt (var : VarId) (id : NodeId) : Option BddNode → NodeId
  | some n => if n.var = var then n.high else id
  | none => id

def iteCofactors (m : BddManager) : IteKey → Option (VarId × IteKey × IteKey)
  | (cond, thenNode, elseNode) => match m.nodes[cond]? with
    | none => none
    | some condNode =>
      let thenN := m.inner thenNode
      let elseN := m.inner elseNode
      let topVar := firstVar (firstVar condNode.var thenN) elseN
      some (topVar,
        (lowAt topVar cond condNode, lowAt topVar thenNode thenN, lowAt topVar elseNode elseN),
        (highAt topVar cond condNode, highAt topVar thenNode thenN, highAt topVar elseNode elseN))

def iteSteps : Expansion BddManager IteKey VarId NodeId where
  resolved m key := some (m.iteResolved key, m)
  parts := iteCofactors
  stored m key := (m.iteCache key).isSome
  store m key var low high :=
    let (result, m) := m.makeNode var low high
    { m with iteCache := update m.iteCache key (some result) }
  skips := true

def ite (m : BddManager) (cond thenNode elseNode : NodeId) : Option (NodeId × BddManager) :=
  iteSteps.run (4 ^ (cond + thenNode + elseNode + 1)) m (cond, thenNode, elseNode)

/-- The value of a node, within a number of decisions; variables without a value are false. -/
def evalWithin (m : BddManager) (assignment : VarId → Bool) : Nat → NodeId → Option Bool
  | 0, _ => none
  | depth + 1, node =>
    if node = bddFalse then some false
    else if node = bddTrue then some true
    else match m.nodes[node]? with
      | none => none
      | some n =>
        if assignment n.var then m.evalWithin assignment depth n.high
        else m.evalWithin assignment depth n.low

def eval (m : BddManager) (node : NodeId) (assignment : VarId → Bool) : Option Bool :=
  m.evalWithin assignment (node + 1) node

def clearCache (m : BddManager) : BddManager := ⟨m.toNodeTable, fun _ => none, fun _ => none,
  fun _ => none⟩

inductive Operation where
  | variable_ (var : VarId)
  | not (node : NodeId)
  | and (left right : NodeId)
  | or (left right : NodeId)
  | xor (left right : NodeId)
  | implies (left right : NodeId)
  | iff (left right : NodeId)
  | ite (cond thenNode elseNode : NodeId)
  | clearCache

def Operation.operands : Operation → List NodeId
  | .variable_ _ | .clearCache => []
  | .not node => [node]
  | .and left right | .or left right | .xor left right | .implies left right | .iff left right =>
    [left, right]
  | .ite cond thenNode elseNode => [cond, thenNode, elseNode]

/-- Perform an operation; it returns a node, unless it only clears. -/
def perform (m : BddManager) : Operation → Option (Option NodeId × BddManager)
  | .variable_ var => some (some (m.variable_ var).1, (m.variable_ var).2)
  | .not node => (m.not node).map fun (result, m) => (some result, m)
  | .and left right => (m.and left right).map fun (result, m) => (some result, m)
  | .or left right => (m.or left right).map fun (result, m) => (some result, m)
  | .xor left right => (m.xor left right).map fun (result, m) => (some result, m)
  | .implies left right => (m.implies left right).map fun (result, m) => (some result, m)
  | .iff left right => (m.iff left right).map fun (result, m) => (some result, m)
  | .ite cond thenNode elseNode =>
    (m.ite cond thenNode elseNode).map fun (result, m) => (some result, m)
  | .clearCache => some (none, m.clearCache)

/-- The managers that operations on their own nodes lead to. -/
inductive Reachable : BddManager → Prop
  | new : Reachable new
  | step {m m' : BddManager} {op : Operation} {result : Option NodeId} (before : Reachable m)
      (valid : ∀ id ∈ op.operands, m.Valid id) (performed : m.perform op = some (result, m')) :
      Reachable m'

end BddManager

end Nixie.Bdd
