import Nixie.Logic.Netlist

/-! The totalizer: a tree of outputs that count how many input literals hold. -/

namespace Nixie.Opt

open Netlist

/-- A node of the tree with its output literals, of which some are not encoded yet. -/
inductive Node where
  | empty
  | leaf (lit : Lit)
  | internal (outputs : List (Option Lit)) (left right : Node)
  deriving DecidableEq, Repr

namespace Node

def size : Node → Nat
  | empty => 0
  | leaf _ => 1
  | internal _ left right => left.size + right.size

/-- Entry `i` says that at least `i + 1` inputs hold. -/
def outputs : Node → List (Option Lit)
  | empty => []
  | leaf lit => [some lit]
  | internal outputs _ _ => outputs

def output (node : Node) (i : Nat) : Option Lit := node.outputs[i]?.join

def inputs : Node → List Lit
  | empty => []
  | leaf lit => [lit]
  | internal _ left right => left.inputs ++ right.inputs

def count (m : Assignment) (node : Node) : Nat := node.inputs.countP (Lit.value m)

end Node

/-- Join the nodes of one level in pairs; an odd one moves up. -/
def pairUp : List Node → List Node
  | left :: right :: rest =>
    .internal (List.replicate (left.size + right.size) none) left right :: pairUp rest
  | rest => rest

def pairLevels : Nat → List Node → List Node
  | 0, level => level
  | fuel + 1, level => if level.length > 1 then pairLevels fuel (pairUp level) else level

/-- The literals of a clause that are off where a node has so many inputs. -/
def share (node : Node) (j : Nat) : Clause :=
  ((if j = 0 then none else node.output (j - 1)).toList).map Lit.negate

/-- Clauses that force an output: so many inputs on the left and the rest on the right. -/
def sumClauses (left right : Node) (i : Nat) (out : Lit) : Cnf :=
  (List.range (i + 1)).filterMap fun j =>
    if j > left.size ∨ i - j > right.size then none
    else if (share left j ++ share right (i - j)).isEmpty then none
    else some (share left j ++ share right (i - j) ++ [out])

/-- Encode the outputs from a position on, up to the bound. -/
def encodeOutputs (left right : Node) (k : Nat) :
    Nat → List (Option Lit) → Build (List (Option Lit))
  | _, [] => return []
  | i, o :: os =>
    if i > k then return o :: os
    else
      match o with
      | some lit => do
        let rest ← encodeOutputs left right k (i + 1) os
        return some lit :: rest
      | none => do
        let var ← newVar
        (sumClauses left right i (.pos var)).forM addClause
        let rest ← encodeOutputs left right k (i + 1) os
        return some (.pos var) :: rest

def encodeNode (k : Nat) : Node → Build Node
  | .empty => return .empty
  | .leaf lit => return .leaf lit
  | .internal outputs left right => do
    let left ← encodeNode k left
    let right ← encodeNode k right
    let outputs ← encodeOutputs left right k 1 outputs
    return .internal outputs left right

/-- The tree, the clauses that were not taken yet, and how far it is encoded. -/
structure Totalizer where
  root : Node
  clauses : Cnf
  nextVar : Nat
  /-- The outputs up to this bound are encoded. -/
  encodedBound : Nat
  deriving Repr

namespace Totalizer

/-- A tree over the inputs, nothing of it encoded. -/
def new (inputs : List Lit) (nextVar : Nat) : Totalizer where
  root := (pairLevels inputs.length (inputs.map .leaf)).headD .empty
  clauses := []
  nextVar := nextVar
  encodedBound := 0

def size (t : Totalizer) : Nat := t.root.size

/-- Encode up to a bound, and return the literal that says that so many inputs hold. -/
def ensureBound (t : Totalizer) (k : Nat) : Option Lit × Totalizer :=
  if k = 0 ∨ k > t.size then (none, t)
  else
    let t :=
      if k > t.encodedBound then
        let (root, list) := (encodeNode k t.root).run ⟨t.nextVar, t.clauses⟩
        { root, clauses := list.clauses, nextVar := list.next, encodedBound := k }
      else t
    (t.root.output (k - 1), t)

/-- The literal that says that at least so many inputs hold, where it is encoded. -/
def atLeast (t : Totalizer) (k : Nat) : Option Lit :=
  if k = 0 ∨ k > t.size then none else t.root.output (k - 1)

/-- The literal that says that at most so many inputs hold. -/
def atMost (t : Totalizer) (k : Nat) : Option Lit :=
  if k ≥ t.size then none else (t.atLeast (k + 1)).map Lit.negate

def takeClauses (t : Totalizer) : Cnf × Totalizer := (t.clauses, { t with clauses := [] })

end Totalizer

/-- A totalizer with a bound that may be weakened. -/
structure IncrementalTotalizer where
  totalizer : Totalizer
  currentBound : Nat
  boundAssumption : Option Lit
  deriving Repr

namespace IncrementalTotalizer

def new (inputs : List Lit) (nextVar : Nat) : IncrementalTotalizer where
  totalizer := .new inputs nextVar
  currentBound := inputs.length
  boundAssumption := none

def nextVar (t : IncrementalTotalizer) : Nat := t.totalizer.nextVar

/-- Set the bound; the new clauses are returned with the literal to assume. -/
def setBound (t : IncrementalTotalizer) (k : Nat) : Option Lit × Cnf × IncrementalTotalizer :=
  let (assumption, totalizer) :=
    if k < t.totalizer.size then
      let totalizer := (t.totalizer.ensureBound (k + 1)).2
      (totalizer.atMost k, totalizer)
    else (none, t.totalizer)
  let (clauses, totalizer) := totalizer.takeClauses
  (assumption, clauses, { totalizer, currentBound := k, boundAssumption := assumption })

end IncrementalTotalizer

end Nixie.Opt

/-! The outputs of a totalizer count its inputs. -/

namespace Nixie.Opt

open List Option

namespace Node

variable {m : Assignment} {left right node : Node} {outputs : List (Option Lit)}

@[simp] theorem count_internal :
    (internal outputs left right).count m = left.count m + right.count m := by
  simp [count, inputs, countP_append]

@[simp] theorem size_internal : (internal outputs left right).size = left.size + right.size := rfl

theorem length_inputs (node : Node) : node.inputs.length = node.size := by
  induction node with
  | empty => rfl
  | leaf lit => rfl
  | internal outputs left right ihLeft ihRight =>
    rw [inputs, length_append, ihLeft, ihRight, size]

theorem count_le_size (m : Assignment) (node : Node) : node.count m ≤ node.size := by
  rw [← node.length_inputs]
  exact countP_le_length

end Node

theorem pairUp_inputs : ∀ level : List Node,
    (pairUp level).flatMap Node.inputs = level.flatMap Node.inputs
  | [] => rfl
  | [_] => rfl
  | left :: right :: rest => by
    rw [pairUp, flatMap_cons, pairUp_inputs rest, flatMap_cons, flatMap_cons,
      Node.inputs, append_assoc]

theorem pairUp_length : ∀ level : List Node, (pairUp level).length = (level.length + 1) / 2
  | [] => rfl
  | [_] => by simp [pairUp]
  | left :: right :: rest => by
    rw [pairUp, length_cons, pairUp_length rest, length_cons, length_cons]
    omega

theorem pairLevels_inputs (fuel : Nat) (level : List Node) :
    (pairLevels fuel level).flatMap Node.inputs = level.flatMap Node.inputs := by
  induction fuel generalizing level with
  | zero => rfl
  | succ fuel ih =>
    unfold pairLevels
    split
    · rw [ih, pairUp_inputs]
    · rfl

theorem pairLevels_length (fuel : Nat) (level : List Node) (enough : level.length ≤ fuel + 1)
    (nonempty : level ≠ []) : (pairLevels fuel level).length = 1 := by
  induction fuel generalizing level with
  | zero =>
    have pos := length_pos_iff.mpr nonempty
    show level.length = 1
    omega
  | succ fuel ih =>
    have pos := length_pos_iff.mpr nonempty
    unfold pairLevels
    split
    · -- A round about halves a level of two or more nodes.
      have half := pairUp_length level
      refine ih _ (by omega) fun none => ?_
      rw [none] at half
      simp only [length_nil] at half
      omega
    · omega

theorem Totalizer.inputs_new (inputs : List Lit) (nextVar : Nat) :
    (Totalizer.new inputs nextVar).root.inputs = inputs := by
  have kept := pairLevels_inputs inputs.length (inputs.map .leaf)
  have leaves : (inputs.map Node.leaf).flatMap Node.inputs = inputs := by
    rw [flatMap_map]
    exact flatMap_singleton' inputs
  rw [leaves] at kept
  show ((pairLevels inputs.length (inputs.map .leaf)).headD .empty).inputs = inputs
  cases inputs with
  | nil => rfl
  | cons lit rest =>
    have single := pairLevels_length (lit :: rest).length ((lit :: rest).map .leaf)
      (by rw [length_map]; omega) (by simp)
    obtain ⟨root, same⟩ := length_eq_one_iff.mp single
    rw [same] at kept ⊢
    simpa using kept

theorem Totalizer.size_new (inputs : List Lit) (nextVar : Nat) :
    (Totalizer.new inputs nextVar).size = inputs.length := by
  have same := inputs_new inputs nextVar
  rw [← congrArg length same]
  exact (Node.length_inputs _).symm

def MaxSatSolver.countTrue (m : Assignment) (lits : List Lit) : Nat := lits.countP (Lit.value m)

def Node.EncodedTo (node : Node) (k : Nat) : Prop :=
  ∀ i < min k node.size, ∃ lit, node.output i = some lit

section

variable {left right : Node} {i : Nat} {out : Lit}

theorem mem_sumClauses {clause : Clause} : clause ∈ sumClauses left right i out ↔
    ∃ j ≤ i, j ≤ left.size ∧ i - j ≤ right.size ∧ share left j ++ share right (i - j) ≠ [] ∧
      clause = share left j ++ share right (i - j) ++ [out] := by
  unfold sumClauses
  rw [mem_filterMap]
  constructor
  · rintro ⟨j, lies, found⟩
    have le : j ≤ i := Nat.lt_succ_iff.mp (mem_range.mp lies)
    split at found
    · cases found
    · split at found
      · cases found
      · next fits nonempty =>
        rw [List.isEmpty_iff] at nonempty
        exact ⟨j, le, by omega, by omega, nonempty, (some.inj found).symm⟩
  · rintro ⟨j, le, fitsLeft, fitsRight, nonempty, rfl⟩
    refine ⟨j, mem_range.mpr (by omega), ?_⟩
    rw [if_neg (by omega), if_neg (by rwa [List.isEmpty_iff])]

theorem share_cases {node : Node} {k j : Nat} (encoded : node.EncodedTo k) (le : j ≤ k)
    (fits : j ≤ node.size) : j = 0 ∧ share node j = [] ∨
      ∃ lit, node.output (j - 1) = some lit ∧ 0 < j ∧ share node j = [lit.negate] := by
  by_cases zero : j = 0
  · exact .inl ⟨zero, by rw [share, if_pos zero]; rfl⟩
  · obtain ⟨lit, found⟩ := encoded (j - 1) (by omega)
    exact .inr ⟨lit, found, by omega, by rw [share, if_neg zero, found]; rfl⟩

theorem models_sumClauses {m : Assignment} (encodedLeft : left.EncodedTo i)
    (encodedRight : right.EncodedTo i)
    (reachedLeft : ∀ j lit, left.output j = some lit → lit.Holds m → j < left.count m)
    (reachedRight : ∀ j lit, right.output j = some lit → lit.Holds m → j < right.count m)
    (holds : i ≤ left.count m + right.count m → out.Holds m) :
    Models m (sumClauses left right i out) := by
  intro clause mem
  obtain ⟨j, le, fitsLeft, fitsRight, -, rfl⟩ := mem_sumClauses.mp mem
  -- A share whose literal is on is reached.
  have reach {node : Node} {j : Nat} (encoded : node.EncodedTo i) (le : j ≤ i)
      (fits : j ≤ node.size)
      (reached : ∀ j lit, node.output j = some lit → lit.Holds m → j < node.count m)
      (off : ¬Satisfies m (share node j)) : j ≤ node.count m := by
    rcases share_cases encoded le fits with ⟨zero, -⟩ | ⟨lit, found, pos, same⟩
    · omega
    · rw [same, satisfies_cons, Lit.holds_negate, not_or, not_not] at off
      have := reached (j - 1) lit found off.1
      omega
  rw [satisfies_append, satisfies_append, satisfies_cons]
  by_contra off
  rw [not_or, not_or, not_or] at off
  obtain ⟨⟨offLeft, offRight⟩, offOut, -⟩ := off
  have left_le := reach encodedLeft le fitsLeft reachedLeft offLeft
  have right_le := reach encodedRight (Nat.sub_le i j) fitsRight reachedRight offRight
  exact offOut (holds (by omega))

theorem holds_of_sumClauses {m : Assignment} (pos : 0 < i) (encodedLeft : left.EncodedTo i)
    (encodedRight : right.EncodedTo i)
    (markedLeft : ∀ j lit, left.output j = some lit → j < left.count m → lit.Holds m)
    (markedRight : ∀ j lit, right.output j = some lit → j < right.count m → lit.Holds m)
    (models : Models m (sumClauses left right i out))
    (reached : i ≤ left.count m + right.count m) : out.Holds m := by
  -- As many as there are on the left, and the rest on the right.
  have leftSize := left.count_le_size m
  have rightSize := right.count_le_size m
  obtain ⟨j, le, fitsLeft, fitsRight⟩ : ∃ j ≤ i, j ≤ left.count m ∧ i - j ≤ right.count m :=
    ⟨min i (left.count m), by omega, by omega, by omega⟩
  have off {node : Node} {j : Nat} (encoded : node.EncodedTo i) (le : j ≤ i)
      (fits : j ≤ node.count m)
      (marked : ∀ j lit, node.output j = some lit → j < node.count m → lit.Holds m) :
      ¬Satisfies m (share node j) := by
    rcases share_cases encoded le (Nat.le_trans fits (node.count_le_size m)) with
      ⟨-, same⟩ | ⟨lit, found, pos, same⟩
    · rw [same]
      exact satisfies_nil
    · rw [same, satisfies_cons, Lit.holds_negate, not_or, not_not]
      exact ⟨marked _ lit found (by omega), satisfies_nil⟩
  have nonempty : share left j ++ share right (i - j) ≠ [] := by
    intro none
    obtain ⟨noLeft, noRight⟩ := append_eq_nil_iff.mp none
    rcases share_cases encodedLeft le (Nat.le_trans fitsLeft leftSize) with ⟨zero, -⟩ | ⟨_, _, _, same⟩
    · rcases share_cases encodedRight (Nat.sub_le i j) (Nat.le_trans fitsRight rightSize) with
        ⟨zero', -⟩ | ⟨_, _, _, same⟩
      · omega
      · rw [same] at noRight
        cases noRight
    · rw [same] at noLeft
      cases noLeft
  have clause := models _ (mem_sumClauses.mpr
    ⟨j, le, Nat.le_trans fitsLeft leftSize, Nat.le_trans fitsRight rightSize, nonempty, rfl⟩)
  rw [satisfies_append, satisfies_append, satisfies_cons] at clause
  rcases clause with (onLeft | onRight) | holds | nothing
  · exact absurd onLeft (off encodedLeft le fitsLeft markedLeft)
  · exact absurd onRight (off encodedRight (Nat.sub_le i j) fitsRight markedRight)
  · exact holds
  · exact absurd nothing satisfies_nil

end

theorem Node.EncodedTo.mono {node : Node} {small large : Nat} (encoded : node.EncodedTo large)
    (le : small ≤ large) : node.EncodedTo small := fun i within => encoded i (by omega)

end Nixie.Opt
