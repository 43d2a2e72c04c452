import Mathlib.Algebra.GroupWithZero.Nat
import Mathlib.Data.Char
import Mathlib.Data.Finset.Sort
import Mathlib.Data.Finset.Union
import Mathlib.Data.List.AList

/-! Nondeterministic and deterministic automata over characters, and what is built of them. -/

namespace Nixie.Strings

open List

abbrev StateId := Nat

/-- The order in which a hash table hands out what it holds. -/
structure HashOrder where
  visit : ∀ {α : Type}, List α → List α
  perm : ∀ {α : Type} (items : List α), (visit items).Perm items

/-- The elements of a hash set in that order. -/
def HashOrder.elements {α : Type} [LinearOrder α] (order : HashOrder) (set : Finset α) : List α :=
  order.visit set.sort

inductive Label where
  | char (c : Char)
  | range (lo hi : Char)
  | any
  | epsilon
  deriving DecidableEq

def Label.matches_ (label : Label) (c : Char) : Bool :=
  match label with
  | .char ch => ch == c
  | .range lo hi => lo ≤ c && c ≤ hi
  | .any => true
  | .epsilon => false

structure Transition where
  from_ : StateId
  to_ : StateId
  label : Label

structure Nfa where
  initial : StateId := 0
  accepting : Finset StateId := ∅
  transitions : AList (fun _ : StateId => List Transition) := ∅
  numStates : StateId := 1

namespace Nfa

def new : Nfa := {}

def transitionsFrom (self : Nfa) (state : StateId) : List Transition :=
  (self.transitions.lookup state).getD []

def addTransition (self : Nfa) (from_ to_ : StateId) (label : Label) : Nfa :=
  { self with transitions :=
      self.transitions.insert from_ (self.transitionsFrom from_ ++ [⟨from_, to_, label⟩]) }

/-- One transition from the initial to the accepting state. -/
def single (label : Label) : Nfa :=
  { ({ new with numStates := 2 } : Nfa).addTransition 0 1 label with accepting := {1} }

def char (c : Char) : Nfa := single (.char c)

def targets (self : Nfa) : Finset StateId :=
  (self.transitions.entries.flatMap fun entry => entry.2.map Transition.to_).toFinset

/-- Adds the target of an empty transition that was not seen yet, and remembers to visit it. -/
def pushEpsilon (seen : Finset StateId × List StateId) (trans : Transition) :
    Finset StateId × List StateId :=
  if trans.label = .epsilon ∧ trans.to_ ∉ seen.1 then (insert trans.to_ seen.1, trans.to_ :: seen.2)
  else seen

/-- What is still to be visited, and what may still be found. -/
def closureMeasure (self : Nfa) (seen : Finset StateId × List StateId) : Nat :=
  (self.targets \ seen.1).card + seen.2.length

theorem to_mem_targets {self : Nfa} {state : StateId} {trans : Transition}
    (found : trans ∈ self.transitionsFrom state) : trans.to_ ∈ self.targets := by
  rw [transitionsFrom] at found
  cases looked : self.transitions.lookup state with
  | none =>
    rw [looked] at found
    exact absurd found not_mem_nil
  | some row =>
    rw [looked, Option.getD_some] at found
    rw [targets, mem_toFinset, mem_flatMap]
    exact ⟨⟨state, row⟩, AList.mem_lookup_iff.mp looked, mem_map_of_mem found⟩

theorem closureMeasure_foldl {self : Nfa} {row : List Transition}
    (lies : ∀ trans ∈ row, trans.to_ ∈ self.targets) (seen : Finset StateId × List StateId) :
    self.closureMeasure (row.foldl pushEpsilon seen) = self.closureMeasure seen := by
  induction row generalizing seen with
  | nil => rfl
  | cons trans row ih =>
    obtain ⟨target, rest⟩ := forall_mem_cons.mp lies
    rw [foldl_cons, ih rest, pushEpsilon]
    split
    · rename_i new
      have erased : self.targets \ insert trans.to_ seen.1 =
          (self.targets \ seen.1).erase trans.to_ := Finset.sdiff_insert ..
      have found := Finset.mem_sdiff.mpr ⟨target, new.2⟩
      have pos := Finset.card_pos.mpr ⟨_, found⟩
      rw [closureMeasure, closureMeasure, erased, Finset.card_erase_of_mem found, length_cons]
      omega
    · rfl

/-- Visits states until no empty transition leads to a new one. -/
def closureLoop (self : Nfa) (closure : Finset StateId) (worklist : List StateId) :
    Finset StateId :=
  match worklist with
  | [] => closure
  | state :: worklist =>
    let seen := (self.transitionsFrom state).foldl pushEpsilon (closure, worklist)
    self.closureLoop seen.1 seen.2
termination_by self.closureMeasure (closure, worklist)
decreasing_by
  rw [Prod.mk.eta, closureMeasure_foldl fun _ found => to_mem_targets found]
  exact Nat.lt_succ_self _

def epsilonClosure (self : Nfa) (states : Finset StateId) : Finset StateId :=
  self.closureLoop states states.sort

def nextSet (self : Nfa) (current : Finset StateId) (c : Char) : Finset StateId :=
  current.biUnion fun state =>
    (((self.transitionsFrom state).filter fun t => t.label.matches_ c).map Transition.to_).toFinset

def acceptsFrom (self : Nfa) (current : Finset StateId) : List Char → Bool
  | [] => decide (∃ state ∈ current, state ∈ self.accepting)
  | c :: cs => self.acceptsFrom (self.epsilonClosure (self.nextSet current c)) cs

def accepts (self : Nfa) (s : String) : Bool :=
  self.acceptsFrom (self.epsilonClosure {self.initial}) s.toList

end Nfa

structure Dfa where
  initial : StateId := 0
  accepting : Finset StateId := ∅
  transitions : AList (fun _ : StateId × Char => StateId) := ∅
  /-- Transitions for the characters without one of their own. -/
  defaultTrans : AList (fun _ : StateId => StateId) := ∅
  numStates : StateId := 1

namespace Dfa

def new : Dfa := {}

def addTransition (self : Dfa) (from_ : StateId) (c : Char) (to_ : StateId) : Dfa :=
  { self with transitions := self.transitions.insert (from_, c) to_ }

def nextState (self : Dfa) (state : StateId) (c : Char) : Option StateId :=
  (self.transitions.lookup (state, c)).or (self.defaultTrans.lookup state)

def acceptsFrom (self : Dfa) (state : StateId) : List Char → Bool
  | [] => decide (state ∈ self.accepting)
  | c :: cs =>
    match self.nextState state c with
    | some next => self.acceptsFrom next cs
    | none => false

def accepts (self : Dfa) (s : String) : Bool := self.acceptsFrom self.initial s.toList

end Dfa

/-- An automaton under construction, whose states stand for keys. -/
structure Construction (κ : Type) where
  dfa : Dfa
  stateMap : AList (fun _ : κ => StateId)
  /-- Keys whose transitions are still to be added, the next one first. -/
  worklist : List κ

namespace Construction

variable {κ : Type} [DecidableEq κ] (final : κ → Bool) (next : κ → Char → Option κ)

def start (initial : κ) : Construction κ where
  dfa := { Dfa.new with accepting := if final initial then {0} else ∅ }
  stateMap := (∅ : AList fun _ : κ => StateId).insert initial 0
  worklist := [initial]

/-- The state of a key, added where there is none. -/
def findOrAdd (s : Construction κ) (key : κ) : Construction κ × StateId :=
  match s.stateMap.lookup key with
  | some id => (s, id)
  | none =>
    let id := s.dfa.numStates
    ({  dfa := { s.dfa with
          numStates := id + 1
          accepting := if final key then insert id s.dfa.accepting else s.dfa.accepting }
        stateMap := s.stateMap.insert key id
        worklist := s.worklist ++ [key] }, id)

def visitChar (current : κ) (state : StateId) (s : Construction κ) (c : Char) : Construction κ :=
  match next current c with
  | none => s
  | some key =>
    let (s, id) := s.findOrAdd final key
    { s with dfa := s.dfa.addTransition state c id }

/-- Works off the keys; no answer where the turns do not suffice. -/
def run (alphabet : List Char) : Nat → Construction κ → Option Dfa
  | turns, s =>
    match s.worklist, turns with
    | [], _ => some s.dfa
    | _ :: _, 0 => none
    | current :: worklist, turns + 1 =>
      run alphabet turns (alphabet.foldl
        (visitChar final next current ((s.stateMap.lookup current).getD 0))
        { s with worklist })

end Construction

namespace Nfa

/-- Adds characters from a code point on, and stops with more than 256 characters. -/
def insertRange (point : Nat) : Nat → Finset Char → Finset Char
  | 0, alphabet => alphabet
  | count + 1, alphabet =>
    if valid : point.isValidChar then
      let alphabet := insert (Char.ofNatAux point valid) alphabet
      if 256 < alphabet.card then alphabet else insertRange (point + 1) count alphabet
    else insertRange (point + 1) count alphabet

def insertLabel (alphabet : Finset Char) : Label → Finset Char
  | .char c => insert c alphabet
  | .range lo hi => insertRange lo.toNat (hi.toNat + 1 - lo.toNat) alphabet
  | _ => alphabet

def alphabet (order : HashOrder) (self : Nfa) : Finset Char :=
  let named := (order.visit self.transitions.entries).foldl
    (fun alphabet entry => entry.2.foldl (fun alphabet t => insertLabel alphabet t.label) alphabet) ∅
  if named = ∅ then {'a'} else named

end Nfa

/-- The product of two automata that accept in common. -/
structure ProductAutomaton where
  dfa1 : Dfa
  dfa2 : Dfa
  product : Dfa

namespace ProductAutomaton

/-- The characters with a transition of their own in either automaton. -/
def alphabet (dfa1 dfa2 : Dfa) : Finset Char :=
  let named := ((dfa1.transitions.keys ++ dfa2.transitions.keys).map Prod.snd).toFinset
  if named = ∅ then {'a'} else named

def finalPair (dfa1 dfa2 : Dfa) (states : StateId × StateId) : Bool :=
  decide (states.1 ∈ dfa1.accepting) && decide (states.2 ∈ dfa2.accepting)

def nextPair (dfa1 dfa2 : Dfa) (states : StateId × StateId) (c : Char) :
    Option (StateId × StateId) :=
  match dfa1.nextState states.1 c, dfa2.nextState states.2 c with
  | some n1, some n2 => some (n1, n2)
  | _, _ => none

end ProductAutomaton

def Dfa.targets (self : Dfa) : Finset StateId :=
  insert self.initial
    (self.transitions.entries.map Sigma.snd ++ self.defaultTrans.entries.map Sigma.snd).toFinset

namespace ProductAutomaton

def intersection (order : HashOrder) (dfa1 dfa2 : Dfa) : Option ProductAutomaton := do
  let product ← Construction.run (finalPair dfa1 dfa2) (nextPair dfa1 dfa2)
    (order.elements (alphabet dfa1 dfa2)) (dfa1.targets.card * dfa2.targets.card)
    (Construction.start (finalPair dfa1 dfa2) (dfa1.initial, dfa2.initial))
  some ⟨dfa1, dfa2, product⟩

def isEmpty (self : ProductAutomaton) : Bool := decide (self.product.accepting = ∅)

def accepts (self : ProductAutomaton) (s : String) : Bool := self.product.accepts s

end ProductAutomaton

namespace Dfa

def charsOf (self : Dfa) (state : StateId) : List Char :=
  self.transitions.keys.filterMap fun key => if key.1 = state then some key.2 else none

/-- Whether the characters of either state lead both to the same part. -/
def sameBehavior (self : Dfa) (s1 s2 : StateId) (partitions : List (Finset StateId)) : Bool :=
  (self.charsOf s1 ++ self.charsOf s2).all fun c =>
    match self.nextState s1 c, self.nextState s2 c with
    | none, none => true
    | some n1, some n2 => partitions.any fun p => decide (n1 ∈ p) && decide (n2 ∈ p)
    | _, _ => false

/-- Splits a part by what behaves like its first state. -/
def splitPartition (self : Dfa) (order : HashOrder) (partitions : List (Finset StateId))
    (partition : Finset StateId) : List (Finset StateId) :=
  match order.elements partition with
  | [] | [_] => [partition]
  | first :: _ =>
    let same := partition.filter fun state =>
      state = first ∨ self.sameBehavior first state partitions
    let different := partition \ same
    if different = ∅ then [partition] else [same, different]

theorem mem_elements {order : HashOrder} {set : Finset StateId} {state : StateId} :
    state ∈ order.elements set ↔ state ∈ set := by
  rw [HashOrder.elements, (order.perm _).mem_iff, Finset.mem_sort]

def splitMeasure (partitions : List (Finset StateId)) : Nat :=
  (partitions.map fun p => p.card - 1).sum

theorem splitPartition_spec (self : Dfa) (order : HashOrder) (partitions : List (Finset StateId))
    (partition : Finset StateId) :
    self.splitPartition order partitions partition = [partition] ∨
      ∃ same ne : Finset StateId, same.Nonempty ∧ ne.Nonempty ∧
        Disjoint same ne ∧ same ∪ ne = partition ∧
        self.splitPartition order partitions partition = [same, ne] := by
  rw [splitPartition]
  split
  · exact .inl rfl
  · exact .inl rfl
  · rename_i first rest _ eq
    dsimp only
    split
    · exact .inl rfl
    · rename_i ne
      have lies : first ∈ partition := mem_elements.mp (eq ▸ mem_cons_self)
      refine .inr ⟨_, _, ⟨first, ?_⟩, Finset.nonempty_of_ne_empty ne,
        Finset.disjoint_sdiff, ?_, rfl⟩
      · exact Finset.mem_filter.mpr ⟨lies, .inl rfl⟩
      · exact Finset.union_sdiff_of_subset (Finset.filter_subset _ _)

theorem splitMeasure_append (ps qs : List (Finset StateId)) :
    splitMeasure (ps ++ qs) = splitMeasure ps + splitMeasure qs := by
  rw [splitMeasure, map_append, sum_append]
  rfl

theorem splitMeasure_splitPartition (self : Dfa) (order : HashOrder)
    (partitions : List (Finset StateId)) (partition : Finset StateId) :
    splitMeasure (self.splitPartition order partitions partition) +
      ((self.splitPartition order partitions partition).length - 1) ≤ partition.card - 1 := by
  rcases self.splitPartition_spec order partitions partition with
    kept | ⟨same, ne, someSame, someDifferent, apart, rfl, split⟩
  · rw [kept]
    exact Nat.le_refl _
  · have first := someSame.card_pos
    have second := someDifferent.card_pos
    rw [split, Finset.card_union_of_disjoint apart]
    change (same.card - 1 + (ne.card - 1 + 0)) + 1 ≤ _
    omega

theorem splitMeasure_flatMap_le (self : Dfa) (order : HashOrder)
    (partitions ps : List (Finset StateId)) :
    splitMeasure (ps.flatMap (self.splitPartition order partitions)) ≤ splitMeasure ps := by
  induction ps with
  | nil => exact Nat.le_refl _
  | cons p ps ih =>
    have less := self.splitMeasure_splitPartition order partitions p
    have sum : splitMeasure (p :: ps) = p.card - 1 + splitMeasure ps := rfl
    rw [flatMap_cons, splitMeasure_append, sum]
    omega

theorem splitMeasure_flatMap_lt {self : Dfa} {order : HashOrder}
    {partitions ps : List (Finset StateId)}
    (changed : ∃ p ∈ ps, 1 < (self.splitPartition order partitions p).length) :
    splitMeasure (ps.flatMap (self.splitPartition order partitions)) < splitMeasure ps := by
  induction ps with
  | nil =>
    obtain ⟨p, mem, -⟩ := changed
    exact absurd mem not_mem_nil
  | cons p ps ih =>
    have less := self.splitMeasure_splitPartition order partitions p
    have sum : splitMeasure (p :: ps) = p.card - 1 + splitMeasure ps := rfl
    rw [flatMap_cons, splitMeasure_append, sum]
    obtain ⟨q, mem, longer⟩ := changed
    rcases mem_cons.mp mem with rfl | later
    · have rest := self.splitMeasure_flatMap_le order partitions ps
      omega
    · have rest := ih ⟨q, later, longer⟩
      omega

def splitAll (self : Dfa) (order : HashOrder) (partitions : List (Finset StateId)) :
    List (Finset StateId) :=
  partitions.flatMap (self.splitPartition order partitions)

def refinePartitions (self : Dfa) (order : HashOrder) (partitions : List (Finset StateId)) :
    List (Finset StateId) :=
  if _changed : ∃ p ∈ partitions, 1 < (self.splitPartition order partitions p).length then
    self.refinePartitions order (self.splitAll order partitions)
  else self.splitAll order partitions
termination_by splitMeasure partitions
decreasing_by exact splitMeasure_flatMap_lt _changed

def stateToPartition (partitions : List (Finset StateId)) : AList (fun _ : StateId => StateId) :=
  partitions.zipIdx.foldl (fun map part =>
    part.1.sort.foldl (fun map state => map.insert state part.2) map) ∅

end Dfa

end Nixie.Strings
