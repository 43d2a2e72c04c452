import Mathlib.Data.List.Range
import Nixie.Opt.Totalizer

/-! What a totalizer emits over all its calls: each output once, and what its clauses say. -/

namespace Nixie.Opt

open Netlist List

/-- Variables and clauses together with the definitions of the outputs. -/
structure Recording where
  list : Netlist
  /-- Each output with the literals it is defined by. -/
  definitions : List (Lit × List Lit)
  deriving DecidableEq, Repr

abbrev Record := StateM Recording

def Record.build {α : Type} (p : Build α) : Record α :=
  fun r => ((p.run r.list).1, { r with list := (p.run r.list).2 })

def Record.define (out : Lit) (definition : List Lit) : Record Unit :=
  fun r => ((), { r with definitions := r.definitions ++ [(out, definition)] })

/-- The output that stands for so many inputs of a node, where there is one. -/
def shareLits (node : Node) (j : Nat) : List Lit :=
  (if j = 0 then none else node.output (j - 1)).toList

def sumDefinition (left right : Node) (i : Nat) : List Lit :=
  (List.range (i + 1)).flatMap fun j =>
    if j > left.size ∨ i - j > right.size then [] else shareLits left j ++ shareLits right (i - j)

/-- Encode the outputs from a position on, up to the bound. -/
def recordOutputs (left right : Node) (k : Nat) :
    Nat → List (Option Lit) → Record (List (Option Lit))
  | _, [] => return []
  | i, o :: os =>
    if i > k then return o :: os
    else
      match o with
      | some lit => do
        let rest ← recordOutputs left right k (i + 1) os
        return some lit :: rest
      | none => do
        let var ← Record.build newVar
        Record.build ((sumClauses left right i (.pos var)).forM addClause)
        if !(sumDefinition left right i).isEmpty then
          Record.define (.pos var) (sumDefinition left right i)
        let rest ← recordOutputs left right k (i + 1) os
        return some (.pos var) :: rest

def recordNode (k : Nat) : Node → Record Node
  | .empty => return .empty
  | .leaf lit => return .leaf lit
  | .internal outputs left right => do
    let left ← recordNode k left
    let right ← recordNode k right
    let outputs ← recordOutputs left right k 1 outputs
    return .internal outputs left right

/-- An incremental totalizer with the definitions that were not taken yet. -/
structure RecordingTotalizer where
  /-- The totalizer, its bound and the literal for it. -/
  counter : IncrementalTotalizer
  definitions : List (Lit × List Lit)
  deriving Repr

namespace RecordingTotalizer

def new (inputs : List Lit) (nextVar : Nat) : RecordingTotalizer where
  counter := .new inputs nextVar
  definitions := []

/-- Encode up to a bound, and return the literal that says that so many inputs hold. -/
def ensureBound (t : RecordingTotalizer) (k : Nat) : Option Lit × RecordingTotalizer :=
  let inner := t.counter.totalizer
  if k = 0 ∨ k > inner.size then (none, t)
  else
    let t :=
      if k > inner.encodedBound then
        let (root, r) :=
          (recordNode k inner.root).run ⟨⟨inner.nextVar, inner.clauses⟩, t.definitions⟩
        { counter := { t.counter with totalizer := {
            root, clauses := r.list.clauses, nextVar := r.list.next, encodedBound := k } }
          definitions := r.definitions }
      else t
    (t.counter.totalizer.root.output (k - 1), t)

def takeClauses (t : RecordingTotalizer) : Cnf × RecordingTotalizer :=
  (t.counter.totalizer.clauses,
    { t with counter := { t.counter with totalizer := t.counter.totalizer.takeClauses.2 } })

def takeDefinitions (t : RecordingTotalizer) : List (Lit × List Lit) × RecordingTotalizer :=
  (t.definitions, { t with definitions := [] })

/-- Set the bound; the new clauses are returned with the literal to assume. -/
def setBound (t : RecordingTotalizer) (k : Nat) : Option Lit × Cnf × RecordingTotalizer :=
  let t :=
    if k < t.counter.totalizer.size then
      let t := (t.ensureBound (k + 1)).2
      { t with counter := { t.counter with
          currentBound := k, boundAssumption := t.counter.totalizer.atMost k } }
    else { t with counter := { t.counter with currentBound := k, boundAssumption := none } }
  let (clauses, t) := t.takeClauses
  (t.counter.boundAssumption, clauses, t)

def weaken (t : RecordingTotalizer) : Option Lit × Cnf × RecordingTotalizer :=
  t.setBound (t.counter.currentBound + 1)

end RecordingTotalizer

inductive TotalizerCall where
  | ensureBound (k : Nat)
  | setBound (k : Nat)
  | weaken
  | takeClauses
  | takeDefinitions
  deriving DecidableEq, Repr

/-- A totalizer together with all that was taken from it. -/
structure TotalizerSession where
  totalizer : RecordingTotalizer
  takenClauses : Cnf
  takenDefinitions : List (Lit × List Lit)
  deriving Repr

namespace TotalizerSession

def start (inputs : List Lit) (nextVar : Nat) : TotalizerSession := ⟨.new inputs nextVar, [], []⟩

def step (s : TotalizerSession) : TotalizerCall → TotalizerSession
  | .ensureBound k => { s with totalizer := (s.totalizer.ensureBound k).2 }
  | .setBound k =>
    let (_, clauses, totalizer) := s.totalizer.setBound k
    { s with totalizer, takenClauses := s.takenClauses ++ clauses }
  | .weaken =>
    let (_, clauses, totalizer) := s.totalizer.weaken
    { s with totalizer, takenClauses := s.takenClauses ++ clauses }
  | .takeClauses =>
    let (clauses, totalizer) := s.totalizer.takeClauses
    { s with totalizer, takenClauses := s.takenClauses ++ clauses }
  | .takeDefinitions =>
    let (definitions, totalizer) := s.totalizer.takeDefinitions
    { s with totalizer, takenDefinitions := s.takenDefinitions ++ definitions }

def run (s : TotalizerSession) (calls : List TotalizerCall) : TotalizerSession := calls.foldl step s

def root (s : TotalizerSession) : Node := s.totalizer.counter.totalizer.root

def emitted (s : TotalizerSession) : Cnf := s.takenClauses ++ s.totalizer.counter.totalizer.clauses

def defined (s : TotalizerSession) : List (Lit × List Lit) :=
  s.takenDefinitions ++ s.totalizer.definitions

def nextVar (s : TotalizerSession) : Nat := s.totalizer.counter.nextVar

end TotalizerSession

/-- One encoded output with all that was emitted for it. -/
structure Gate where
  lit : Lit
  inputs : List Lit
  bound : Nat
  clauses : Cnf
  definition : List Lit
  deriving DecidableEq, Repr

/-- The output has the value that is wanted for it. -/
def Gate.Exact (m : Assignment) (gate : Gate) : Prop :=
  gate.lit.Holds m ↔ gate.bound ≤ MaxSatSolver.countTrue m gate.inputs

def sumGate (left right : Node) (i : Nat) (lit : Lit) : Gate :=
  ⟨lit, left.inputs ++ right.inputs, i, sumClauses left right i lit, sumDefinition left right i⟩

def outputGates (left right : Node) : Nat → List (Option Lit) → List Gate
  | _, [] => []
  | i, none :: os => outputGates left right (i + 1) os
  | i, some lit :: os => sumGate left right i lit :: outputGates left right (i + 1) os

namespace Node

def gates : Node → List Gate
  | empty => []
  | leaf _ => []
  | internal outputs left right => left.gates ++ right.gates ++ outputGates left right 1 outputs

def nodes : Node → List Node
  | empty => [empty]
  | leaf lit => [leaf lit]
  | internal outputs left right => internal outputs left right :: (left.nodes ++ right.nodes)

/-- Throughout the tree exactly the outputs up to the bound are encoded. -/
def EncodedAt (b : Nat) : Node → Prop
  | empty => True
  | leaf _ => True
  | internal outputs left right => left.EncodedAt b ∧ right.EncodedAt b ∧
      outputs.length = left.size + right.size ∧
      ∀ i < outputs.length, (∃ lit, outputs[i]? = some (some lit)) ↔ i < b

/-- The other node has the same inputs and at least the same outputs. -/
structure Keeps (node node' : Node) : Prop where
  inputs_eq : node'.inputs = node.inputs
  output : ∀ i lit, node.output i = some lit → node'.output i = some lit

end Node

section

variable {node node' left left' right right' : Node} {i j b : Nat} {lit out : Lit}

theorem Node.Keeps.size (keeps : node.Keeps node') : node'.size = node.size := by
  -- The size is the number of inputs.
  rw [← length_inputs, keeps.inputs_eq, length_inputs]

theorem Node.EncodedAt.encodedTo (encoded : node.EncodedAt b) : node.EncodedTo b := by
  intro i within
  cases node with
  | empty =>
    -- There is no position below the size.
    simp [size] at within
  | leaf lit =>
    -- The only output of a leaf is its input.
    have zero : i = 0 := by
      simp only [size] at within
      omega
    subst zero
    exact ⟨lit, rfl⟩
  | internal outputs left right =>
    obtain ⟨_, _, length, encoded⟩ := encoded
    have lies : i < outputs.length := by
      rw [size_internal] at within
      omega
    obtain ⟨lit, found⟩ := (encoded i lies).mpr (by omega)
    exact ⟨lit, by simp [Node.output, Node.outputs, found]⟩

theorem shareLits_keeps (keeps : node.Keeps node') (encoded : node.EncodedTo j)
    (fits : j ≤ node.size) : shareLits node' j = shareLits node j := by
  by_cases zero : j = 0
  · simp [shareLits, zero]
  · -- The output is encoded, and it stays.
    obtain ⟨lit, found⟩ := encoded (j - 1) (by omega)
    simp [shareLits, zero, found, keeps.output _ _ found]

theorem share_eq (node : Node) (j : Nat) : share node j = (shareLits node j).map Lit.negate := rfl

theorem sumClauses_keeps (keepsLeft : left.Keeps left') (keepsRight : right.Keeps right')
    (encodedLeft : left.EncodedTo i) (encodedRight : right.EncodedTo i) :
    sumClauses left' right' i out = sumClauses left right i out := by
  -- Each share of a clause stays.
  unfold sumClauses
  refine filterMap_congr fun j lies => ?_
  have le : j ≤ i := Nat.lt_succ_iff.mp (mem_range.mp lies)
  rw [keepsLeft.size, keepsRight.size]
  split
  · rfl
  · rw [share_eq, share_eq, shareLits_keeps keepsLeft (encodedLeft.mono le) (by omega),
      shareLits_keeps keepsRight (encodedRight.mono (by omega)) (by omega), ← share_eq, ← share_eq]

theorem sumDefinition_keeps (keepsLeft : left.Keeps left') (keepsRight : right.Keeps right')
    (encodedLeft : left.EncodedTo i) (encodedRight : right.EncodedTo i) :
    sumDefinition left' right' i = sumDefinition left right i := by
  -- Each share of the definition stays.
  unfold sumDefinition
  refine flatMap_congr fun j lies => ?_
  have le : j ≤ i := Nat.lt_succ_iff.mp (mem_range.mp lies)
  rw [keepsLeft.size, keepsRight.size]
  split
  · rfl
  · rw [shareLits_keeps keepsLeft (encodedLeft.mono le) (by omega),
      shareLits_keeps keepsRight (encodedRight.mono (by omega)) (by omega)]

theorem sumGate_keeps (keepsLeft : left.Keeps left') (keepsRight : right.Keeps right')
    (encodedLeft : left.EncodedTo i) (encodedRight : right.EncodedTo i) :
    sumGate left' right' i lit = sumGate left right i lit := by
  simp only [sumGate, keepsLeft.inputs_eq, keepsRight.inputs_eq,
    sumClauses_keeps keepsLeft keepsRight encodedLeft encodedRight,
    sumDefinition_keeps keepsLeft keepsRight encodedLeft encodedRight]

theorem outputGates_keeps {os : List (Option Lit)} (keepsLeft : left.Keeps left')
    (keepsRight : right.Keeps right') (encodedLeft : left.EncodedTo b)
    (encodedRight : right.EncodedTo b) (within : ∀ j lit, os[j]? = some (some lit) → i + j ≤ b) :
    outputGates left' right' i os = outputGates left right i os := by
  induction os generalizing i with
  | nil => rfl
  | cons o os ih =>
    have rest := @ih (i + 1) fun j lit found => by
      have := within (j + 1) lit (by simpa using found)
      omega
    cases o with
    | none => simpa only [outputGates] using rest
    | some lit =>
      -- The first output is within the bound, so its shares are encoded.
      have le : i ≤ b := within 0 lit rfl
      simp only [outputGates, rest,
        sumGate_keeps keepsLeft keepsRight (encodedLeft.mono le) (encodedRight.mono le)]

theorem sumDefinition_ne_nil (pos : 0 < i) (fits : i ≤ left.size + right.size)
    (encodedLeft : left.EncodedTo i) (encodedRight : right.EncodedTo i) :
    sumDefinition left right i ≠ [] := by
  -- As many inputs as possible on the left, and the rest on the right.
  intro none
  have shares := flatMap_eq_nil_iff.mp none (min i left.size) (mem_range.mpr (by omega))
  rw [if_neg (by omega)] at shares
  obtain ⟨noLeft, noRight⟩ := append_eq_nil_iff.mp shares
  by_cases zero : min i left.size = 0
  · obtain ⟨lit, found⟩ := encodedRight (i - 1) (by omega)
    simp [shareLits, zero, found, Nat.pos_iff_ne_zero.mp pos] at noRight
  · obtain ⟨lit, found⟩ := encodedLeft (min i left.size - 1) (by omega)
    simp only [shareLits, if_neg zero, found] at noLeft
    simp at noLeft

end

/-- The recording gains these gates, whose outputs are the next fresh variables. -/
structure Records (r r' : Recording) (new : List Gate) : Prop where
  clauses : r'.list.clauses = r.list.clauses ++ new.flatMap Gate.clauses
  definitions : r'.definitions = r.definitions ++ new.map fun gate => (gate.lit, gate.definition)
  next : r'.list.next = r.list.next + new.length
  lits : new.map Gate.lit = (List.range' r.list.next new.length).map Lit.pos

namespace Records

variable {r r' r'' : Recording} {new new' : List Gate}

theorem refl (r : Recording) : Records r r [] := by
  constructor <;> simp

theorem trans (first : Records r r' new) (second : Records r' r'' new') :
    Records r r'' (new ++ new') where
  clauses := by rw [second.clauses, first.clauses, flatMap_append, append_assoc]
  definitions := by rw [second.definitions, first.definitions, map_append, append_assoc]
  next := by
    rw [second.next, first.next, length_append]
    omega
  lits := by
    -- The second variables start where the first ones stop.
    rw [map_append, first.lits, second.lits, first.next, length_append, ← map_append,
      range'_append_1]

end Records

theorem forM_addClause (formula : Cnf) (list : Netlist) :
    (formula.forM addClause).run list = ((), { list with clauses := list.clauses ++ formula }) := by
  induction formula generalizing list with
  | nil =>
    show ((), list) = _
    rw [append_nil]
  | cons clause rest ih =>
    -- The first clause is added, then the others.
    show (rest.forM addClause).run _ = _
    rw [ih]
    simp

theorem Record.run_bind {α β : Type} {p : Record α} {f : α → Record β} {r r' : Recording} {x : α}
    (first : p.run r = (x, r')) : (p >>= f).run r = (f x).run r' := by
  show (f (p.run r).1).run (p.run r).2 = _
  rw [first]

def Recording.extend (r : Recording) (left right : Node) (i : Nat) : Recording :=
  ⟨⟨r.list.next + 1, r.list.clauses ++ sumClauses left right i (.pos r.list.next)⟩,
    r.definitions ++ if (sumDefinition left right i).isEmpty then []
      else [(.pos r.list.next, sumDefinition left right i)]⟩

section

variable {node left right : Node} {b i k : Nat} {lit : Lit} {os : List (Option Lit)}

theorem Records.single (r : Recording) (nonempty : sumDefinition left right i ≠ []) :
    Records r (r.extend left right i) [sumGate left right i (.pos r.list.next)] := by
  constructor <;> simp [Recording.extend, sumGate, nonempty]

theorem recordOutputs_beyond (r : Recording) (beyond : i > k) :
    (recordOutputs left right k i os).run r = (os, r) := by
  cases os with
  | nil => rfl
  | cons o os =>
    unfold recordOutputs
    rw [if_pos beyond]
    rfl

theorem recordOutputs_some (r : Recording) (within : ¬ i > k) :
    (recordOutputs left right k i (some lit :: os)).run r =
      (some lit :: ((recordOutputs left right k (i + 1) os).run r).1,
        ((recordOutputs left right k (i + 1) os).run r).2) := by
  conv_lhs => unfold recordOutputs
  rw [if_neg within]
  rfl

theorem recordOutputs_none (r : Recording) (within : ¬ i > k) :
    (recordOutputs left right k i (none :: os)).run r = (some (.pos r.list.next) ::
          ((recordOutputs left right k (i + 1) os).run (r.extend left right i)).1,
        ((recordOutputs left right k (i + 1) os).run (r.extend left right i)).2) := by
  conv_lhs => unfold recordOutputs
  rw [if_neg within]
  -- The clauses are those of the sum, added after the variable was taken.
  have built : (Record.build ((sumClauses left right i (.pos r.list.next)).forM addClause)).run
      ⟨⟨r.list.next + 1, r.list.clauses⟩, r.definitions⟩ = ((), ⟨⟨r.list.next + 1,
        r.list.clauses ++ sumClauses left right i (.pos r.list.next)⟩, r.definitions⟩) := by
    show (_, (⟨((_ : Build Unit).run _).2, r.definitions⟩ : Recording)) = _
    rw [forM_addClause]
  refine (Record.run_bind rfl).trans ((Record.run_bind built).trans ?_)
  cases empty : (sumDefinition left right i).isEmpty with
  | true =>
    simp only [Bool.not_true, Bool.false_eq_true, if_false, Recording.extend, empty, if_true,
      append_nil]
    rfl
  | false =>
    simp only [Bool.not_false, if_true, Recording.extend, empty, Bool.false_eq_true, if_false]
    rfl

/-- Outputs are kept, and exactly those up to the bound are there in addition. -/
structure Filled (k i : Nat) (os os' : List (Option Lit)) : Prop where
  length : os'.length = os.length
  keeps : ∀ (j : Nat) (lit : Lit), os[j]? = some (some lit) → os'[j]? = some (some lit)
  full : ∀ j < os.length, (∃ lit : Lit, os'[j]? = some (some lit)) ↔
    i + j ≤ k ∨ ∃ lit : Lit, os[j]? = some (some lit)

theorem Filled.cons {o o' : Option Lit} {os' : List (Option Lit)}
    (kept : ∀ lit, o = some lit → o' = some lit) (there : ∃ lit, o' = some lit) (within : i ≤ k)
    (rest : Filled k (i + 1) os os') : Filled k i (o :: os) (o' :: os') where
  length := by simp [rest.length]
  keeps := by
    intro j lit found
    cases j with
    | zero => simpa using kept lit (by simpa using found)
    | succ j => simpa using rest.keeps j lit (by simpa using found)
  full := by
    intro j lies
    cases j with
    | zero => simpa [within] using there
    | succ j =>
      have := rest.full j (by simpa using lies)
      simpa [Nat.add_assoc, Nat.add_comm 1] using this

theorem recordOutputs_spec (encodedLeft : left.EncodedTo k) (encodedRight : right.EncodedTo k)
    (pos : 0 < i) (fits : i + os.length ≤ left.size + right.size + 1) (r : Recording) :
    ∃ new, Records r ((recordOutputs left right k i os).run r).2 new ∧
      (outputGates left right i ((recordOutputs left right k i os).run r).1).Perm
        (outputGates left right i os ++ new) ∧
      Filled k i os ((recordOutputs left right k i os).run r).1 := by
  induction os generalizing i r with
  | nil =>
    exact ⟨[], .refl r, .refl _, rfl, fun _ _ found => found, fun j lies => nomatch lies⟩
  | cons o os ih =>
    by_cases beyond : i > k
    · -- Nothing is added beyond the bound.
      rw [recordOutputs_beyond r beyond]
      refine ⟨[], .refl r, by simp, rfl, fun _ _ found => found, fun j _ => ?_⟩
      simp
      omega
    · simp only [length_cons] at fits
      cases o with
      | some lit =>
        rw [recordOutputs_some r beyond]
        obtain ⟨new, records, perm, filled⟩ := ih (Nat.succ_pos i) (by omega) r
        exact ⟨new, records, perm.cons _, .cons (fun _ same => same) ⟨lit, rfl⟩ (by omega) filled⟩
      | none =>
        -- A new gate comes first, then those of the outputs after it.
        have nonempty := sumDefinition_ne_nil pos (by omega)
          (encodedLeft.mono (by omega)) (encodedRight.mono (by omega))
        rw [recordOutputs_none r beyond]
        obtain ⟨new, records, perm, filled⟩ := ih (Nat.succ_pos i) (by omega)
          (r.extend left right i)
        refine ⟨_, (Records.single r nonempty).trans records, ?_,
          .cons (fun _ none => nomatch none) ⟨_, rfl⟩ (by omega) filled⟩
        exact (perm.cons _).trans perm_middle.symm

theorem recordNode_internal {left' right' : Node} {r r₁ r₂ : Recording}
    (first : (recordNode k left).run r = (left', r₁))
    (second : (recordNode k right).run r₁ = (right', r₂)) :
    (recordNode k (.internal os left right)).run r =
      (.internal ((recordOutputs left' right' k 1 os).run r₂).1 left' right',
        ((recordOutputs left' right' k 1 os).run r₂).2) :=
  (Record.run_bind first).trans ((Record.run_bind second).trans (Record.run_bind rfl))

theorem recordNode_spec (encoded : node.EncodedAt b) (le : b ≤ k) (r : Recording) :
    ∃ new, Records r ((recordNode k node).run r).2 new ∧
      ((recordNode k node).run r).1.gates.Perm (node.gates ++ new) ∧
      ((recordNode k node).run r).1.EncodedAt k ∧ node.Keeps ((recordNode k node).run r).1 := by
  induction node generalizing r with
  | empty => exact ⟨[], .refl r, .refl _, trivial, rfl, fun _ _ found => found⟩
  | leaf lit => exact ⟨[], .refl r, .refl _, trivial, rfl, fun _ _ found => found⟩
  | internal outputs left right ihLeft ihRight =>
    obtain ⟨encodedLeft, encodedRight, length, full⟩ := encoded
    rcases first : (recordNode k left).run r with ⟨left', r₁⟩
    rcases second : (recordNode k right).run r₁ with ⟨right', r₂⟩
    have leftSpec := ihLeft encodedLeft r
    have rightSpec := ihRight encodedRight r₁
    rw [first] at leftSpec
    rw [second] at rightSpec
    obtain ⟨newLeft, recordsLeft, permLeft, atLeft, keepsLeft⟩ := leftSpec
    obtain ⟨newRight, recordsRight, permRight, atRight, keepsRight⟩ := rightSpec
    rw [recordNode_internal first second]
    obtain ⟨new, records, perm, filled⟩ := @recordOutputs_spec left' right' 1 k outputs
      atLeft.encodedTo atRight.encodedTo Nat.one_pos
      (by rw [length, keepsLeft.size, keepsRight.size]; omega) r₂
    -- The gates that were there are over children that only gained outputs.
    have old : outputGates left' right' 1 outputs = outputGates left right 1 outputs := by
      refine outputGates_keeps keepsLeft keepsRight encodedLeft.encodedTo encodedRight.encodedTo
        fun j lit found => ?_
      have lies := (full j (List.getElem?_eq_some_iff.mp found).1).mp ⟨lit, found⟩
      omega
    rw [old] at perm
    refine ⟨newLeft ++ newRight ++ new, (recordsLeft.trans recordsRight).trans records, ?_,
      ⟨atLeft, atRight, ?_, fun j lies => ?_⟩, ?_, fun j lit found => ?_⟩
    · have all := (permLeft.append permRight).append perm
      refine all.trans (perm_iff_count.mpr fun gate => ?_)
      simp only [Node.gates, count_append]
      omega
    · rw [filled.length, length, keepsLeft.size, keepsRight.size]
    · rw [filled.length] at lies
      rw [filled.full j lies, full j lies]
      omega
    · simp only [Node.inputs]
      rw [keepsLeft.inputs_eq, keepsRight.inputs_eq]
    · have entry : outputs[j]? = some (some lit) := Option.join_eq_some_iff.mp found
      exact Option.join_eq_some_iff.mpr (filled.keeps j lit entry)

theorem recordOutputs_build (os : List (Option Lit)) (i : Nat) (r : Recording) :
    ((recordOutputs left right k i os).run r).1 = ((encodeOutputs left right k i os).run r.list).1 ∧
      ((recordOutputs left right k i os).run r).2.list =
        ((encodeOutputs left right k i os).run r.list).2 := by
  induction os generalizing i r with
  | nil => exact ⟨rfl, rfl⟩
  | cons o os ih =>
    by_cases beyond : i > k
    · rw [recordOutputs_beyond r beyond]
      unfold encodeOutputs
      rw [if_pos beyond]
      exact ⟨rfl, rfl⟩
    · cases o with
      | some lit =>
        rw [recordOutputs_some r beyond]
        unfold encodeOutputs
        rw [if_neg beyond]
        exact ⟨congrArg (some lit :: ·) (ih (i + 1) r).1, (ih (i + 1) r).2⟩
      | none =>
        -- Recording a definition leaves the clauses alone.
        have added := forM_addClause (sumClauses left right i (.pos r.list.next))
          ⟨r.list.next + 1, r.list.clauses⟩
        obtain ⟨same, list⟩ := ih (i + 1) (r.extend left right i)
        have next : (r.extend left right i).list = _ := (congrArg Prod.snd added).symm
        rw [next] at same list
        rw [recordOutputs_none r beyond]
        unfold encodeOutputs
        rw [if_neg beyond]
        exact ⟨congrArg (some (.pos r.list.next) :: ·) same, list⟩

theorem recordNode_build (k : Nat) : ∀ (node : Node) (r : Recording),
    ((recordNode k node).run r).1 = ((encodeNode k node).run r.list).1 ∧
      ((recordNode k node).run r).2.list = ((encodeNode k node).run r.list).2
  | .empty, _ => ⟨rfl, rfl⟩
  | .leaf _, _ => ⟨rfl, rfl⟩
  | .internal outputs left right, r => by
    rcases first : (recordNode k left).run r with ⟨left', r₁⟩
    rcases second : (recordNode k right).run r₁ with ⟨right', r₂⟩
    obtain ⟨sameLeft, listLeft⟩ := recordNode_build k left r
    obtain ⟨sameRight, listRight⟩ := recordNode_build k right r₁
    obtain ⟨same, list⟩ := @recordOutputs_build left' right' k outputs 1 r₂
    rw [recordNode_internal first second]
    rw [first] at sameLeft listLeft
    rw [second] at sameRight listRight
    have encoded : (encodeNode k (.internal outputs left right)).run r.list =
        (.internal ((encodeOutputs left' right' k 1 outputs).run r₂.list).1 left' right',
          ((encodeOutputs left' right' k 1 outputs).run r₂.list).2) := by
      dsimp only at sameLeft listLeft sameRight listRight
      subst sameLeft sameRight
      rw [listRight, listLeft]
      rfl
    rw [encoded]
    exact ⟨congrArg (Node.internal · left' right') same, list⟩
end

theorem pairUp_unencoded : ∀ level : List Node,
    (∀ node ∈ level, node.EncodedAt 0 ∧ node.gates = []) →
      ∀ node ∈ pairUp level, node.EncodedAt 0 ∧ node.gates = []
  | [], _ => fun _ mem => nomatch mem
  | [_], all => all
  | left :: right :: rest, all => by
    intro node mem
    rcases mem_cons.mp mem with rfl | mem
    · obtain ⟨atLeft, noLeft⟩ := all left (by simp)
      obtain ⟨atRight, noRight⟩ := all right (by simp)
      -- Every entry of the new node is missing.
      have none : ∀ n i, outputGates left right i (replicate n none) = [] := by
        intro n
        induction n with
        | zero => exact fun _ => rfl
        | succ n ih => exact fun i => ih (i + 1)
      refine ⟨⟨atLeft, atRight, length_replicate, fun i lies => ?_⟩, ?_⟩
      · rw [length_replicate] at lies
        simp [lies]
      · simp [Node.gates, noLeft, noRight, none]
    · exact pairUp_unencoded rest (fun other lies => all other (by simp [lies])) node mem

theorem pairLevels_unencoded (fuel : Nat) (level : List Node)
    (all : ∀ node ∈ level, node.EncodedAt 0 ∧ node.gates = []) :
    ∀ node ∈ pairLevels fuel level, node.EncodedAt 0 ∧ node.gates = [] := by
  induction fuel generalizing level with
  | zero => exact all
  | succ fuel ih =>
    unfold pairLevels
    split
    · exact ih _ (pairUp_unencoded level all)
    · exact all

theorem Totalizer.unencoded_new (inputs : List Lit) (nextVar : Nat) :
    (Totalizer.new inputs nextVar).root.EncodedAt 0 ∧
      (Totalizer.new inputs nextVar).root.gates = [] := by
  have all := pairLevels_unencoded inputs.length (inputs.map .leaf)
    (by simp [Node.EncodedAt, Node.gates])
  show ((pairLevels inputs.length (inputs.map .leaf)).headD .empty).EncodedAt 0 ∧ _ = []
  cases found : pairLevels inputs.length (inputs.map .leaf) with
  | nil => exact ⟨trivial, by simp [Totalizer.new, found, Node.gates]⟩
  | cons root rest =>
    simpa [Totalizer.new, found] using all root (by simp [found])

/-- What was emitted are the gates of the tree, one fresh variable each. -/
structure Totalizer.Emitted (t : Totalizer) (taken : Cnf) (inputs : List Lit) (base : Nat)
    (gates : List Gate) : Prop where
  clauses : taken ++ t.clauses = gates.flatMap Gate.clauses
  next : t.nextVar = base + gates.length
  lits : gates.map Gate.lit = (List.range' base gates.length).map Lit.pos
  perm : t.root.gates.Perm gates
  encoded : t.root.EncodedAt t.encodedBound
  inputs_eq : t.root.inputs = inputs

section

variable {taken : Cnf} {inputs : List Lit} {base k : Nat} {gates : List Gate}

theorem Totalizer.emitted_new (inputs : List Lit) (base : Nat) :
    (Totalizer.new inputs base).Emitted [] inputs base [] := by
  obtain ⟨encoded, none⟩ := Totalizer.unencoded_new inputs base
  refine ⟨rfl, rfl, rfl, ?_, encoded, Totalizer.inputs_new inputs base⟩
  rw [none]

theorem Totalizer.Emitted.take {t : Totalizer} (emitted : t.Emitted taken inputs base gates) :
    t.takeClauses.2.Emitted (taken ++ t.takeClauses.1) inputs base gates :=
  { emitted with clauses := by simpa [takeClauses] using emitted.clauses }

theorem Totalizer.Emitted.ensureBound {t : RecordingTotalizer} (k : Nat)
    (emitted : t.counter.totalizer.Emitted taken inputs base gates) :
    ∃ new, (t.ensureBound k).2.counter.totalizer.Emitted taken inputs base (gates ++ new) ∧
      (t.ensureBound k).2.definitions =
        t.definitions ++ new.map fun gate => (gate.lit, gate.definition) := by
  have same : ∃ new, t.counter.totalizer.Emitted taken inputs base (gates ++ new) ∧
      t.definitions = t.definitions ++ new.map fun gate => (gate.lit, gate.definition) :=
    ⟨[], by simpa using emitted, by simp⟩
  by_cases out : k = 0 ∨ k > t.counter.totalizer.size
  · simpa only [RecordingTotalizer.ensureBound, out, if_true] using same
  · by_cases further : k > t.counter.totalizer.encodedBound
    · obtain ⟨clauses, next, lits, perm, encoded, inputs_eq⟩ := emitted
      obtain ⟨new, records, permNew, atNew, keeps⟩ := recordNode_spec encoded
        (Nat.le_of_lt further) ⟨⟨t.counter.totalizer.nextVar, t.counter.totalizer.clauses⟩,
          t.definitions⟩
      -- The new gates follow those that were emitted before.
      simp only [RecordingTotalizer.ensureBound, out, if_false, further, if_true]
      refine ⟨new, ⟨?_, ?_, ?_, ?_, atNew, keeps.inputs_eq.trans inputs_eq⟩, records.definitions⟩
      · rw [flatMap_append, ← clauses, append_assoc]
        exact congrArg _ records.clauses
      · rw [length_append, ← Nat.add_assoc, ← next]
        exact records.next
      · rw [map_append, lits, length_append, ← range'_append_1, map_append, ← next]
        exact congrArg _ records.lits
      · exact permNew.trans (perm.append_right new)
    · simpa only [RecordingTotalizer.ensureBound, out, if_false, further] using same

theorem RecordingTotalizer.ensureBound_build (t : RecordingTotalizer) (k : Nat) :
    (t.ensureBound k).2.counter.totalizer = (t.counter.totalizer.ensureBound k).2 := by
  obtain ⟨node, list⟩ := recordNode_build k t.counter.totalizer.root
    ⟨⟨t.counter.totalizer.nextVar, t.counter.totalizer.clauses⟩, t.definitions⟩
  have same : (encodeNode k t.counter.totalizer.root).run
      ⟨t.counter.totalizer.nextVar, t.counter.totalizer.clauses⟩ = (_, _) :=
    Prod.ext node.symm list.symm
  unfold ensureBound Totalizer.ensureBound
  dsimp only
  split
  · rfl
  · split
    · rw [same]
      rfl
    · rfl

theorem Totalizer.Emitted.encode {t : Totalizer} (k : Nat)
    (emitted : t.Emitted taken inputs base gates) :
    ∃ new, (t.ensureBound k).2.Emitted taken inputs base (gates ++ new) ∧
      (k ≤ t.size → (t.ensureBound k).2.root.EncodedTo k) := by
  obtain ⟨new, emitted', -⟩ := @Totalizer.Emitted.ensureBound _ _ _ _ ⟨⟨t, 0, none⟩, []⟩ k emitted
  rw [RecordingTotalizer.ensureBound_build] at emitted'
  refine ⟨new, emitted', fun fits => ?_⟩
  have encoded := emitted'.encoded.encodedTo
  by_cases zero : k = 0
  · exact fun i within => by omega
  · -- Afterwards the encoded bound is no less than the one that was asked for.
    refine encoded.mono ?_
    simp only [Totalizer.ensureBound, zero, false_or, Nat.not_lt.mpr fits, if_false]
    split
    · exact Nat.le_refl k
    · omega

end

namespace TotalizerSession

variable {s s' : TotalizerSession} {inputs : List Lit} {base : Nat} {gates : List Gate}

/-- The totalizer emitted these gates, and their definitions were recorded. -/
def Tracks (s : TotalizerSession) (inputs : List Lit) (base : Nat) (gates : List Gate) : Prop :=
  s.totalizer.counter.totalizer.Emitted s.takenClauses inputs base gates ∧
    s.defined = gates.map fun gate => (gate.lit, gate.definition)

theorem Tracks.ensureBound (tracks : s.Tracks inputs base gates) (k : Nat) :
    ∃ gates', (s.step (.ensureBound k)).Tracks inputs base gates' := by
  obtain ⟨new, emitted, definitions⟩ := tracks.1.ensureBound k
  refine ⟨gates ++ new, emitted, ?_⟩
  rw [map_append, ← tracks.2, defined, defined, append_assoc]
  exact congrArg _ definitions

theorem Tracks.takeClauses (tracks : s.Tracks inputs base gates) :
    (s.step .takeClauses).Tracks inputs base gates := ⟨tracks.1.take, tracks.2⟩

theorem Tracks.step (tracks : s.Tracks inputs base gates) (call : TotalizerCall) :
    ∃ gates', (s.step call).Tracks inputs base gates' := by
  -- Setting a bound encodes, takes the clauses and sets fields that are not tracked.
  have setBound : ∀ k, ∃ gates', (s.step (.setBound k)).Tracks inputs base gates' := by
    intro k
    by_cases small : k < s.totalizer.counter.totalizer.size
    · obtain ⟨gates', tracks'⟩ := tracks.ensureBound (k + 1)
      refine ⟨gates', ?_⟩
      simp only [TotalizerSession.step, RecordingTotalizer.setBound, small, if_true]
      exact { tracks'.takeClauses with }
    · refine ⟨gates, ?_⟩
      simp only [TotalizerSession.step, RecordingTotalizer.setBound, small, if_false]
      exact { tracks.takeClauses with }
  cases call with
  | ensureBound k => exact tracks.ensureBound k
  | setBound k => exact setBound k
  | weaken => exact setBound _
  | takeClauses => exact ⟨gates, tracks.takeClauses⟩
  | takeDefinitions =>
    refine ⟨gates, tracks.1, ?_⟩
    simpa [TotalizerSession.step, defined, RecordingTotalizer.takeDefinitions] using tracks.2

theorem exists_tracks (inputs : List Lit) (base : Nat) (calls : List TotalizerCall) :
    ∃ gates, ((start inputs base).run calls).Tracks inputs base gates := by
  have all : ∀ s gates, Tracks s inputs base gates →
      ∃ gates', (s.run calls).Tracks inputs base gates' := by
    induction calls with
    | nil => exact fun s gates tracks => ⟨gates, tracks⟩
    | cons call calls ih =>
      intro s gates tracks
      obtain ⟨gates', tracks'⟩ := tracks.step call
      exact ih _ gates' tracks'
  exact all _ _ ⟨Totalizer.emitted_new inputs base, rfl⟩

end TotalizerSession

section

variable {m m' : Assignment} {node root left right : Node} {i b base : Nat}

/-- The encoded outputs of the node say how many of its inputs hold. -/
def Node.Exact (m : Assignment) (node : Node) : Prop :=
  ∀ i lit, node.output i = some lit → (lit.Holds m ↔ i < node.count m)

theorem mem_outputGates {gate : Gate} {os : List (Option Lit)} :
    gate ∈ outputGates left right i os ↔
      ∃ (j : Nat) (lit : Lit), os[j]? = some (some lit) ∧ gate = sumGate left right (i + j) lit := by
  induction os generalizing i with
  | nil => simp [outputGates]
  | cons o os ih =>
    -- The gate belongs to the first output or to one of the others.
    have split := @Nat.or_exists_add_one fun j => ∃ lit, (o :: os)[j]? = some (some lit) ∧
      gate = sumGate left right (i + j) lit
    have shift : ∀ j, i + 1 + j = i + (j + 1) := by omega
    rw [← split]
    cases o with
    | none => simp [outputGates, ih, shift]
    | some own => simp [outputGates, ih, shift]

theorem Node.self_mem_nodes (node : Node) : node ∈ node.nodes := by
  cases node <;> simp [nodes]

theorem Node.of_mem_nodes (mem : node ∈ root.nodes) :
    (root.EncodedAt b → node.EncodedAt b) ∧ ∀ gate ∈ node.gates, gate ∈ root.gates := by
  induction root with
  | empty => simp_all [nodes]
  | leaf lit => simp_all [nodes]
  | internal outputs left right ihLeft ihRight =>
    simp only [nodes, mem_cons, mem_append] at mem
    rcases mem with rfl | inLeft | inRight
    · exact ⟨id, fun _ => id⟩
    · obtain ⟨encoded, own⟩ := ihLeft inLeft
      exact ⟨fun all => encoded all.1, fun gate lies => by simp [gates, own gate lies]⟩
    · obtain ⟨encoded, own⟩ := ihRight inRight
      exact ⟨fun all => encoded all.2.1, fun gate lies => by simp [gates, own gate lies]⟩

theorem Node.exact_leaf (m : Assignment) (lit : Lit) : (leaf lit).Exact m := by
  -- The only output is the input itself.
  intro i out found
  have holds : lit.Holds m ↔ 0 < (leaf lit).count m := by
    rw [Lit.holds_iff_value, count, inputs, countP_singleton]
    cases lit.value m <;> simp
  cases i with
  | zero =>
    obtain rfl := Option.some.inj found
    exact holds
  | succ i => cases found

theorem Node.forced (encoded : node.EncodedAt b)
    (models : ∀ gate ∈ node.gates, Models m gate.clauses) :
    ∀ i lit, node.output i = some lit → i < node.count m → lit.Holds m := by
  induction node with
  | empty => exact fun _ _ found => nomatch found
  | leaf own => exact fun i lit found => (exact_leaf m own i lit found).mpr
  | internal outputs left right ihLeft ihRight =>
    obtain ⟨encodedLeft, encodedRight, length, full⟩ := encoded
    intro i lit found reached
    have entry : outputs[i]? = some (some lit) := Option.join_eq_some_iff.mp found
    have small : i < b := (full i (List.getElem?_eq_some_iff.mp entry).1).mp ⟨lit, entry⟩
    -- The outputs of the children are forced, and the clauses of the sum pass that on.
    have own := models (sumGate left right (1 + i) lit)
      (mem_append_right _ (mem_outputGates.mpr ⟨i, lit, entry, rfl⟩))
    rw [count_internal] at reached
    refine holds_of_sumClauses (by omega) (encodedLeft.encodedTo.mono (by omega))
      (encodedRight.encodedTo.mono (by omega)) (ihLeft encodedLeft fun gate lies => ?_)
      (ihRight encodedRight fun gate lies => ?_) own (by omega)
    · exact models gate (by simp [gates, lies])
    · exact models gate (by simp [gates, lies])

theorem Node.models_of_exact (encoded : node.EncodedAt b)
    (exact_ : ∀ node' ∈ node.nodes, node'.Exact m) : ∀ gate ∈ node.gates, Models m gate.clauses := by
  induction node with
  | empty => exact fun _ none => nomatch none
  | leaf own => exact fun _ none => nomatch none
  | internal outputs left right ihLeft ihRight =>
    obtain ⟨encodedLeft, encodedRight, length, full⟩ := encoded
    have exactLeft : ∀ node' ∈ left.nodes, node'.Exact m :=
      fun node' lies => exact_ node' (by simp [nodes, lies])
    have exactRight : ∀ node' ∈ right.nodes, node'.Exact m :=
      fun node' lies => exact_ node' (by simp [nodes, lies])
    intro gate mem
    simp only [gates, mem_append, mem_outputGates] at mem
    rcases mem with (inLeft | inRight) | ⟨i, lit, entry, rfl⟩
    · exact ihLeft encodedLeft exactLeft gate inLeft
    · exact ihRight encodedRight exactRight gate inRight
    · have small : i < b := (full i (List.getElem?_eq_some_iff.mp entry).1).mp ⟨lit, entry⟩
      -- Outputs of the children that are on are reached.
      refine models_sumClauses (encodedLeft.encodedTo.mono (by omega))
        (encodedRight.encodedTo.mono (by omega))
        (fun j lit found => (exactLeft left (self_mem_nodes left) j lit found).mp)
        (fun j lit found => (exactRight right (self_mem_nodes right) j lit found).mp) fun reached => ?_
      refine (exact_ _ (self_mem_nodes _) i lit (Option.join_eq_some_iff.mpr entry)).mpr ?_
      rw [count_internal]
      omega

theorem Node.inputs_of_gate : ∀ gate ∈ node.gates, ∀ lit ∈ gate.inputs, lit ∈ node.inputs := by
  induction node with
  | empty => exact fun _ none => nomatch none
  | leaf own => exact fun _ none => nomatch none
  | internal outputs left right ihLeft ihRight =>
    intro gate mem lit lies
    simp only [gates, mem_append, mem_outputGates] at mem
    rcases mem with (inLeft | inRight) | ⟨_, _, _, rfl⟩
    · exact mem_append_left _ (ihLeft gate inLeft lit lies)
    · exact mem_append_right _ (ihRight gate inRight lit lies)
    · exact lies

theorem Node.exact_of_gates (mem : node ∈ root.nodes)
    (exact_ : ∀ gate ∈ root.gates, gate.Exact m) : node.Exact m := by
  obtain ⟨-, own⟩ := @of_mem_nodes node root 0 mem
  cases node with
  | empty => exact fun _ _ found => nomatch found
  | leaf lit => exact exact_leaf m lit
  | internal outputs left right =>
    -- The value of the gate is the one that the node wants for its output.
    intro i lit found
    have gate := exact_ _ (own (sumGate left right (1 + i) lit)
      (mem_append_right _ (mem_outputGates.mpr ⟨i, lit, Option.join_eq_some_iff.mp found, rfl⟩)))
    rw [count, inputs]
    simpa [Gate.Exact, sumGate, MaxSatSolver.countTrue, Nat.add_comm 1, Nat.succ_le_iff] using gate

theorem exists_exact_gates {gates : List Gate} (m : Assignment)
    (lits : gates.map Gate.lit = (List.range' base gates.length).map Lit.pos)
    (below : ∀ gate ∈ gates, ∀ lit ∈ gate.inputs, lit.var < base) :
    ∃ m', AgreeBelow base m m' ∧ ∀ gate ∈ gates, gate.Exact m' := by
  let value (var : Nat) : Bool := (gates[var - base]?).any fun gate =>
    decide (gate.bound ≤ MaxSatSolver.countTrue m gate.inputs)
  let m' : Assignment := fun var => if var < base then m var else value var
  have agree : AgreeBelow base m m' := fun var within => if_pos within
  refine ⟨m', agree, fun gate mem => ?_⟩
  -- The output of a gate is the variable at its place.
  obtain ⟨j, lies, rfl⟩ := mem_iff_getElem.mp mem
  have own : gates[j].lit = .pos (base + j) := by
    have entry := congrArg (·[j]?) lits
    simpa [lies, getElem?_range'] using entry
  have same : MaxSatSolver.countTrue m' gates[j].inputs =
      MaxSatSolver.countTrue m gates[j].inputs := by
    refine countP_congr fun lit own => ?_
    rw [Lit.value, Lit.value, agree _ (below _ mem lit own)]
  simp [Gate.Exact, own, same, m', value, lies]

end

namespace Totalizer.Emitted

variable {t : Totalizer} {taken : Cnf} {inputs : List Lit} {base : Nat} {gates : List Gate}

theorem models_iff (emitted : t.Emitted taken inputs base gates) (m : Assignment) :
    Models m (taken ++ t.clauses) ↔ ∀ gate ∈ t.root.gates, Models m gate.clauses := by
  rw [emitted.clauses]
  simp only [Models, mem_flatMap]
  constructor
  · exact fun all gate lies clause mem => all clause ⟨gate, emitted.perm.mem_iff.mp lies, mem⟩
  · rintro all clause ⟨gate, lies, mem⟩
    exact all gate (emitted.perm.mem_iff.mpr lies) clause mem

theorem exists_exact (emitted : t.Emitted taken inputs base gates)
    (below : ∀ lit ∈ inputs, lit.var < base) (m : Assignment) :
    ∃ m', AgreeBelow base m m' ∧ ∀ node ∈ t.root.nodes, node.Exact m' := by
  obtain ⟨m', agree, all⟩ := exists_exact_gates m emitted.lits fun gate lies lit mem =>
    below lit (emitted.inputs_eq ▸
      Node.inputs_of_gate gate (emitted.perm.mem_iff.mpr lies) lit mem)
  exact ⟨m', agree, fun node mem => Node.exact_of_gates mem fun gate lies =>
    all gate (emitted.perm.mem_iff.mp lies)⟩

end Totalizer.Emitted

/--
All that a totalizer emits over any calls.

The clauses force each encoded output where so many inputs hold, and they hold where each says just that.
Each output is a variable of its own, defined once.
-/
theorem TotalizerSession.outputs_exact {inputs : List Lit} {base : Nat}
    (below : ∀ lit ∈ inputs, lit.var < base) (calls : List TotalizerCall) :
    let s := (start inputs base).run calls
    s.root.inputs = inputs ∧ s.root.EncodedTo s.totalizer.counter.totalizer.encodedBound ∧
    (∀ m, Models m s.emitted → ∀ node ∈ s.root.nodes, ∀ i lit, node.output i = some lit →
      i < node.count m → lit.Holds m) ∧
    (∀ m, (∀ node ∈ s.root.nodes, node.Exact m) → Models m s.emitted) ∧
    (∀ m, ∃ m', AgreeBelow base m m' ∧ ∀ node ∈ s.root.nodes, node.Exact m') ∧
    (s.root.gates.map Gate.lit).Perm ((List.range' base (s.nextVar - base)).map Lit.pos) ∧
    s.emitted.Perm (s.root.gates.flatMap Gate.clauses) ∧
    s.defined.Perm (s.root.gates.map fun gate => (gate.lit, gate.definition)) := by
  intro s
  obtain ⟨gates, tracked, definitions⟩ := exists_tracks inputs base calls
  have next : s.nextVar = base + gates.length := tracked.next
  have clauses : s.emitted = gates.flatMap Gate.clauses := tracked.clauses
  have models_iff : ∀ m, Models m s.emitted ↔ _ := tracked.models_iff
  refine ⟨tracked.inputs_eq, tracked.encoded.encodedTo, fun m models node member => ?_,
    fun m exact_ => ?_, tracked.exists_exact below, ?_, ?_, ?_⟩
  · obtain ⟨atNode, own⟩ := Node.of_mem_nodes member
    exact Node.forced (atNode tracked.encoded) fun gate inside =>
      (models_iff m).mp models gate (own gate inside)
  · exact (models_iff m).mpr (Node.models_of_exact tracked.encoded exact_)
  · rw [next, Nat.add_sub_cancel_left, ← tracked.lits]
    exact tracked.perm.map _
  · rw [clauses]
    exact tracked.perm.symm.flatMap_right _
  · rw [show s.defined = _ from definitions]
    exact tracked.perm.symm.map _

/-- Three inputs, of which none may hold and then one. -/
theorem TotalizerSession.threeInputs_outputs :
    (((start [.pos 0, .pos 1, .pos 2] 3).run [.setBound 0, .weaken]).root.gates.map Gate.lit).Perm
      [.pos 3, .pos 4, .pos 5, .pos 6] := by
  obtain ⟨-, -, -, -, -, outputs, -⟩ := @TotalizerSession.outputs_exact
    [.pos 0, .pos 1, .pos 2] 3 (by decide) [.setBound 0, .weaken]
  have next : ((start [.pos 0, .pos 1, .pos 2] 3).run [.setBound 0, .weaken]).nextVar = 7 := by
    decide
  rwa [next] at outputs

end Nixie.Opt
