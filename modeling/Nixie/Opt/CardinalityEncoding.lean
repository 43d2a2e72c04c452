import Mathlib.Data.List.Nodup
import Nixie.Opt.SearchLaws

/-! The encodings of at most so many inputs, and which of them say so. -/

namespace Nixie.Opt

open Netlist

inductive CardinalityEncoding where
  | pairwise
  | sequential
  | totalizer
  | sorted
  | cardinalityNetwork
  deriving DecidableEq, Repr

def encodeAtMostOnePairwise : List Lit → Cnf
  | [] => []
  | lit :: rest =>
    rest.map (fun other => [lit.negate, other.negate]) ++ encodeAtMostOnePairwise rest

/-- A totalizer up to the bound, with the literal of the bound. -/
def encodeTotalizer (inputs : List Lit) (k nextVar : Nat) : Cnf × Option Lit × Nat :=
  let totalizer := ((Totalizer.new inputs nextVar).ensureBound (k + 1)).2
  let (clauses, totalizer) := totalizer.takeClauses
  (clauses, totalizer.atMost k, totalizer.nextVar)

def newRow : Nat → Build (List Lit)
  | 0 => return []
  | bound + 1 => do
    let var ← newVar
    let row ← newRow bound
    return .pos var :: row

/-- The rows of so many inputs, from a position on. -/
def newRows (k : Nat) : Nat → Nat → Build (List (List Lit))
  | _, 0 => return []
  | i, n + 1 => do
    let row ← newRow (min (i + 1) (k + 1))
    let rows ← newRows k (i + 1) n
    return row :: rows

/-- Clauses of one entry: what the row before forces with and without the input. -/
def entryClauses (input : Lit) (prev : List Lit) (j : Nat) (curr : Lit) : Cnf :=
  (prev[j]?.toList.map fun same => [same.negate, curr]) ++
    if j = 0 then [[input.negate, curr]]
    else prev[j - 1]?.toList.map fun less => [input.negate, less.negate, curr]

def laterClauses : List Lit → List Lit → List (List Lit) → Cnf
  | input :: inputs, prev, row :: rows =>
    (row.zipIdx.flatMap fun entry => entryClauses input prev entry.2 entry.1) ++
      laterClauses inputs row rows
  | _, _, _ => []

def counterClauses : List Lit → List (List Lit) → Cnf
  | input :: inputs, (first :: row) :: rows =>
    [first.negate, input] :: [input.negate, first] :: laterClauses inputs (first :: row) rows
  | _, _ => []

/-- The rows, their clauses, and the literal that the last row does not exceed the bound. -/
def sequentialCounter (inputs : List Lit) (k : Nat) : Build (Option Lit) := do
  let rows ← newRows k 0 inputs.length
  (counterClauses inputs rows).forM addClause
  return if k < min inputs.length (k + 1) then
    (rows.getLast?.bind fun row => row[k]?).map Lit.negate
  else none

/-- Nothing is encoded where the bound is no restriction. -/
def encodeRestricted (p : Build (Option Lit)) (inputs : List Lit) (k nextVar : Nat) :
    Cnf × Option Lit × Nat :=
  if inputs.isEmpty ∨ k ≥ inputs.length then ([], none, nextVar)
  else
    let (assumption, list) := p.run ⟨nextVar, []⟩
    (list.clauses, assumption, list.next)

def encodeSequentialCounter (inputs : List Lit) (k nextVar : Nat) : Cnf × Option Lit × Nat :=
  encodeRestricted (sequentialCounter inputs k) inputs k nextVar

/--
The clauses of the larger and the smaller of two literals.

In the clause for both inputs the smaller output is negated, like in the two after it.
-/
def comparatorClauses (a b : Lit) (maxVar minVar : Nat) : Cnf :=
  [[.neg maxVar, a, b], [a.negate, .pos maxVar], [b.negate, .pos maxVar],
    [a.negate, b.negate, .neg minVar], [.neg minVar, a], [.neg minVar, b]]

def comparator (a b : Lit) : Build (List Lit) := do
  let maxVar ← newVar
  let minVar ← newVar
  (comparatorClauses a b maxVar minVar).forM addClause
  return [.pos maxVar, .pos minVar]

def everyOther {α : Type} : List α → List α
  | [] => []
  | [x] => [x]
  | x :: _ :: rest => x :: everyOther rest

theorem everyOther_length {α : Type} : ∀ l : List α, (everyOther l).length = (l.length + 1) / 2
  | [] => by simp [everyOther]
  | [_] => by simp [everyOther]
  | _ :: _ :: rest => by
    rw [everyOther, List.length_cons, everyOther_length rest, List.length_cons, List.length_cons]
    omega

/-- Compare the element of one half with its neighbour in the other. -/
def compareAt (odd even : List Lit) (maxPairs i : Nat) : Build (List Lit) :=
  match even[i]?, odd[i + 1]? with
  | some a, some b => do
    let compared ← comparator a b
    return if i + 1 < maxPairs then compared else compared.take 1
  | some a, none => return [a]
  | none, some b => return [b]
  | none, none => return []

def oddEvenMerge (left right : List Lit) : Build (List Lit) :=
  if left.length + right.length ≤ 2 then
    match left, right with
    | [a], [b] => comparator a b
    | left, right => return left ++ right
  else do
    let odd ← oddEvenMerge (everyOther left) (everyOther right)
    let even ← oddEvenMerge (everyOther left.tail) (everyOther right.tail)
    let maxPairs := max odd.length even.length
    let compared ← (List.range maxPairs).mapM (compareAt odd even maxPairs)
    return (odd.take 1 ++ compared.flatten).take (left.length + right.length)
  termination_by left.length + right.length
  decreasing_by
    all_goals
      simp only [everyOther_length, List.length_tail]
      omega

def buildSortingNetwork (inputs : List Lit) : Build (List Lit) :=
  if inputs.length ≤ 1 then return inputs
  else do
    let left ← buildSortingNetwork (inputs.take (inputs.length / 2))
    let right ← buildSortingNetwork (inputs.drop (inputs.length / 2))
    oddEvenMerge left right
  termination_by inputs.length
  decreasing_by
    · rw [List.length_take]
      omega
    · rw [List.length_drop]
      omega

def encodeSorted (inputs : List Lit) (k nextVar : Nat) : Cnf × Option Lit × Nat :=
  encodeRestricted (do
    let outputs ← buildSortingNetwork inputs
    return outputs[k]?.map Lit.negate) inputs k nextVar

def encodeAtMostK (inputs : List Lit) (k : Nat) (encoding : CardinalityEncoding) (nextVar : Nat) :
    Cnf × Option Lit × Nat :=
  match encoding with
  | .pairwise =>
    if k = 1 then (encodeAtMostOnePairwise inputs, none, nextVar)
    else encodeTotalizer inputs k nextVar
  | .totalizer => encodeTotalizer inputs k nextVar
  | .sequential => encodeSequentialCounter inputs k nextVar
  | .sorted | .cardinalityNetwork => encodeSorted inputs k nextVar

open List MaxSatSolver

/-- The fresh variables can be chosen so that the clauses and the literal hold. -/
def Extendable (encoded : Cnf × Option Lit × Nat) (base : Nat) (m : Assignment) : Prop :=
  ∃ m', AgreeBelow base m m' ∧ Models m' encoded.1 ∧ ∀ lit ∈ encoded.2.1, lit.Holds m'

section

variable {aimed : Prop} {known : Assignment → Prop} {s s' : Stage aimed known}
  {inputs out left right : List Lit} {k base : Nat} {m : Assignment}

theorem agree_holds {bound : Nat} {m m' : Assignment} (agree : AgreeBelow bound m m')
    {lit : Lit} (within : lit.var < bound) : lit.Holds m' ↔ lit.Holds m := by
  rw [Lit.Holds, Lit.Holds, agree lit.var within]

theorem agree_countTrue {bound : Nat} {m m' : Assignment} (agree : AgreeBelow bound m m')
    (below : ∀ lit ∈ inputs, lit.var < bound) : countTrue m' inputs = countTrue m inputs := by
  refine countP_congr fun lit mem => ?_
  rw [← Lit.holds_iff_value, ← Lit.holds_iff_value]
  exact agree_holds agree (below lit mem)

/-- A stage at which nothing was added. -/
def Stage.start (aimed : Prop) (next : Nat) : Stage aimed fun _ => True where
  list := ⟨next, []⟩
  before := []
  added := []
  split := rfl
  aim := fun _ => True
  below := fun _ member => nomatch member
  aimLocal := fun _ _ _ => rfl
  knownLocal := fun _ _ _ => rfl

theorem extendable_iff {clauses : Cnf} {lit : Lit} {next : Nat}
    (below : ∀ lit ∈ inputs, lit.var < base)
    (forced : ∀ m, Models m clauses → k < countTrue m inputs → lit.Holds m)
    (exact : ∀ m, ∃ m', AgreeBelow base m m' ∧ Models m' clauses ∧
      (lit.Holds m' → k < countTrue m' inputs)) (m : Assignment) :
    Extendable (clauses, some lit.negate, next) base m ↔ countTrue m inputs ≤ k := by
  constructor
  · rintro ⟨m', agree, models, holds⟩
    by_contra more
    rw [← agree_countTrue agree below] at more
    exact Lit.holds_negate.mp (holds _ rfl) (forced m' models (Nat.lt_of_not_le more))
  · intro few
    obtain ⟨m', agree, models, counted⟩ := exact m
    refine ⟨m', agree, models, fun other same => ?_⟩
    obtain rfl := Option.some.inj same
    rw [Lit.holds_negate]
    intro on
    have more := counted on
    rw [agree_countTrue agree below] at more
    omega

theorem extendable_trivial {next : Nat} (fits : inputs.length ≤ k) (m : Assignment) :
    Extendable ([], none, next) base m ↔ countTrue m inputs ≤ k := by
  refine iff_of_true ⟨m, .refl m, models_nil, fun _ none => nomatch none⟩ ?_
  exact countP_le_length.trans fits

theorem encodeRestricted_eq (p : Build (Option Lit)) {inputs : List Lit}
    (within : k < inputs.length) : encodeRestricted p inputs k base =
      ((p.run ⟨base, []⟩).2.clauses, (p.run ⟨base, []⟩).1, (p.run ⟨base, []⟩).2.next) := by
  refine if_neg ?_
  rw [List.isEmpty_iff, ← length_eq_zero_iff]
  omega

theorem restricted_exact {p : Build (Option Lit)} (below : ∀ lit ∈ inputs, lit.var < base)
    (within : k < inputs.length) (built : ∀ aimed, Builds (Stage.start aimed base) p fun x s' =>
      ∃ lit : Lit, x = some lit.negate ∧ s'.Entails fun m =>
        (k < countTrue m inputs → lit.Holds m) ∧ (aimed → lit.Holds m → k < countTrue m inputs))
    (m : Assignment) :
    Extendable (encodeRestricted p inputs k base) base m ↔ countTrue m inputs ≤ k := by
  obtain ⟨s', -, added, -, lit, found, forced⟩ := (built False).emits
  have found : (p.run ⟨base, []⟩).1 = some lit.negate := found
  have added : (p.run ⟨base, []⟩).2.clauses = s'.added := added
  rw [encodeRestricted_eq p within, found]
  refine extendable_iff below (fun m models => ?_) (fun m => ?_) m
  · rw [added] at models
    exact (forced m ⟨trivial, models, False.elim⟩).1
  · obtain ⟨s', -, added, step, lit', found', exact⟩ := (built True).emits
    have added : (p.run ⟨base, []⟩).2.clauses = s'.added := added
    have same := Option.some.inj (found.symm.trans found')
    obtain rfl : lit = lit' := by rw [← lit.negate_negate, same, lit'.negate_negate]
    obtain ⟨m', agree, live⟩ := step.widens trivial m ⟨trivial, models_nil, fun _ => trivial⟩
    rw [added]
    exact ⟨m', agree, live.2.1, (exact m' live).2 trivial⟩

theorem models_atMostOnePairwise :
    ∀ inputs : List Lit, Models m (encodeAtMostOnePairwise inputs) ↔ countTrue m inputs ≤ 1
  | [] => iff_of_true models_nil (Nat.zero_le 1)
  | lit :: rest => by
    have none : (∀ other ∈ rest, ¬other.Holds m) ↔ MaxSatSolver.countTrue m rest = 0 := by
      simp only [MaxSatSolver.countTrue, countP_eq_zero, Lit.holds_iff_value]
    rw [encodeAtMostOnePairwise, models_append, models_atMostOnePairwise rest]
    simp only [Models, forall_mem_map, satisfies_cons, satisfies_nil, Lit.holds_negate, or_false]
    unfold MaxSatSolver.countTrue at none ⊢
    by_cases on : lit.Holds m
    · rw [countP_cons_of_pos (Lit.holds_iff_value.mp on)]
      simp only [on, not_true_eq_false, false_or, none]
      omega
    · rw [countP_cons_of_neg (Lit.holds_iff_value.not.mp on)]
      simp only [on, not_false_eq_true, true_or, implies_true, true_and]

theorem pairwise_below {bound : Nat} : ∀ {inputs : List Lit},
    (∀ lit ∈ inputs, lit.var < bound) → VarsBelow bound (encodeAtMostOnePairwise inputs)
  | [], _ => fun _ mem => nomatch mem
  | lit :: rest, below => by
    obtain ⟨first, later⟩ := forall_mem_cons.mp below
    rw [encodeAtMostOnePairwise, VarsBelow, forall_mem_append, forall_mem_map]
    exact ⟨fun other mem => by simpa using ⟨first, later other mem⟩, pairwise_below later⟩

theorem totalizer_exact (below : ∀ lit ∈ inputs, lit.var < base) (k : Nat) (m : Assignment) :
    Extendable (encodeTotalizer inputs k base) base m ↔ countTrue m inputs ≤ k := by
  by_cases within : k < inputs.length
  · obtain ⟨-, lit, found, forced, exact⟩ := Search.bound_spec (Search.counting_new below) within
    have same : encodeTotalizer inputs k base = (((⟨Totalizer.new inputs base, []⟩ :
      Search).bound k).2.clauses, some lit.negate, (encodeTotalizer inputs k base).2.2) := by
      rw [← found]
      rfl
    rw [same]
    exact extendable_iff below forced exact m
  · -- More than all inputs are not counted, and no literal is returned.
    have size := Totalizer.size_new inputs base
    have same : encodeTotalizer inputs k base = ([], none, base) := by
      have skipped : (Totalizer.new inputs base).ensureBound (k + 1) =
          (none, Totalizer.new inputs base) := if_pos (.inr (by omega))
      unfold encodeTotalizer
      rw [skipped]
      show ([], Totalizer.atMost _ k, base) = _
      rw [Totalizer.atMost, if_pos]
      show k ≥ (Totalizer.new inputs base).size
      omega
    rw [same]
    exact extendable_trivial (Nat.le_of_not_lt within) m

/-- Each row meets the condition on its number and the number of inputs up to it that hold. -/
def Rows (m : Assignment) (meets : Nat → Nat → List Lit → Prop) :
    Nat → Nat → List Lit → List (List Lit) → Prop
  | _, _, [], [] => True
  | i, c, input :: inputs, row :: rows =>
    meets (i + 1) (c + (input.value m).toNat) row ∧
      Rows m meets (i + 1) (c + (input.value m).toNat) inputs rows
  | _, _, _, _ => False

/-- The row has the length of its number, as far as the bound needs it. -/
def Fits (k i _c : Nat) (row : List Lit) : Prop := row.length = min i (k + 1)

/-- The entries say which counts are reached. -/
def Marks (m : Assignment) (_i c : Nat) (row : List Lit) : Prop :=
  ∀ j lit, row[j]? = some lit → (lit.Holds m ↔ j < c)

/-- The entries of reached counts hold. -/
def Reached (m : Assignment) (_i c : Nat) (row : List Lit) : Prop :=
  ∀ j lit, row[j]? = some lit → j < c → lit.Holds m

theorem countTrue_cons (m : Assignment) (lit : Lit) (rest : List Lit) :
    countTrue m (lit :: rest) = (lit.value m).toNat + countTrue m rest := by
  unfold countTrue
  rw [countP_cons]
  cases lit.value m
  · simp
  · simp [Nat.add_comm]

theorem Rows.last {meets : Nat → Nat → List Lit → Prop} {inputs : List Lit}
    {rows : List (List Lit)} {row : List Lit} {i c : Nat} (all : Rows m meets i c inputs rows)
    (last : rows.getLast? = some row) :
    meets (i + inputs.length) (c + countTrue m inputs) row := by
  induction rows generalizing inputs i c with
  | nil => cases last
  | cons first rows ih =>
    match inputs, all with
    | input :: inputs, ⟨here, all⟩ =>
      rw [countTrue_cons, length_cons, ← Nat.add_assoc c]
      cases rows with
      | nil =>
        -- The counts up to the only row are all counts.
        obtain rfl := Option.some.inj last
        match inputs, all with
        | [], _ => exact here
      | cons second rows =>
        have rest := ih all (by rwa [getLast?_cons_cons] at last)
        rwa [Nat.add_right_comm, Nat.add_assoc i] at rest

theorem models_entry {input curr : Lit} {prev : List Lit} {j : Nat} :
    Models m (entryClauses input prev j curr) ↔
      (∀ same, prev[j]? = some same → same.Holds m → curr.Holds m) ∧
        (input.Holds m → (j = 0 ∨ ∃ less, prev[j - 1]? = some less ∧ less.Holds m) →
          curr.Holds m) := by
  unfold entryClauses
  rw [models_append]
  refine and_congr ?_ ?_
  · simp only [Models, forall_mem_map, Option.mem_toList, satisfies_cons, satisfies_nil, or_false,
      Lit.holds_negate, ← imp_iff_not_or]
  split
  · next zero => simp [zero, imp_iff_not_or]
  · next pos =>
    simp only [Models, forall_mem_map, Option.mem_toList, satisfies_cons, satisfies_nil, or_false,
      Lit.holds_negate, ← imp_iff_not_or, pos, false_or]
    constructor
    · rintro all on ⟨less, known, reached⟩
      exact all less known on reached
    · exact fun all less known on reached => all on ⟨less, known, reached⟩

theorem entry_models {input curr : Lit} {prev row : List Lit} {i c j : Nat}
    (before : Marks m i c prev) (here : Marks m (i + 1) (c + (input.value m).toNat) row)
    (found : row[j]? = some curr) : Models m (entryClauses input prev j curr) := by
  refine models_entry.mpr ⟨fun same known on => ?_, fun on lower => ?_⟩
  · have reached := (before j same known).mp on
    exact (here j curr found).mpr (by omega)
  · rw [here j curr found, Lit.holds_iff_value.mp on, Bool.toNat_true]
    rcases lower with rfl | ⟨less, known, reached⟩
    · exact Nat.succ_pos c
    · have under := (before (j - 1) less known).mp reached
      omega

theorem later_models {inputs : List Lit} {rows : List (List Lit)} {prev : List Lit} {i c : Nat}
    (before : Marks m i c prev) (all : Rows m (Marks m) i c inputs rows) :
    Models m (laterClauses inputs prev rows) := by
  induction inputs generalizing rows prev i c with
  | nil =>
    unfold laterClauses
    exact models_nil
  | cons input inputs ih =>
    match rows, all with
    | row :: rows, ⟨here, all⟩ =>
      rw [laterClauses, models_append]
      refine ⟨fun clause mem => ?_, ih here all⟩
      obtain ⟨⟨curr, j⟩, lies, own⟩ := mem_flatMap.mp mem
      exact entry_models before here (mk_mem_zipIdx_iff_getElem?.mp lies) clause own

theorem entry_reached {input curr : Lit} {prev row : List Lit} {i c j : Nat} (few : c ≤ i)
    (length : Fits k i c prev) (length' : Fits k (i + 1) (c + (input.value m).toNat) row)
    (before : Reached m i c prev) (found : row[j]? = some curr)
    (models : Models m (entryClauses input prev j curr))
    (reached : j < c + (input.value m).toNat) : curr.Holds m := by
  obtain ⟨within, -⟩ := List.getElem?_eq_some_iff.mp found
  unfold Fits at length length'
  obtain ⟨carry, step⟩ := models_entry.mp models
  -- An entry of the row before that is reached passes it on.
  have prior (j' : Nat) (lies : j' < prev.length) (under : j' < c) :
      ∃ lit, prev[j']? = some lit ∧ lit.Holds m :=
    ⟨_, getElem?_eq_getElem lies, before j' _ (getElem?_eq_getElem lies) under⟩
  by_cases old : j < c
  · obtain ⟨same, known, on⟩ := prior j (by omega) old
    exact carry same known on
  · cases value : input.value m with
    | false =>
      rw [value] at reached
      exact absurd reached old
    | true =>
      rw [value, Bool.toNat_true] at reached
      refine step (Lit.holds_iff_value.mpr value) ?_
      by_cases zero : j = 0
      · exact .inl zero
      · exact .inr (prior (j - 1) (by omega) (by omega))

theorem later_reached {inputs : List Lit} {rows : List (List Lit)} {prev : List Lit} {i c : Nat}
    (few : c ≤ i) (length : Fits k i c prev) (before : Reached m i c prev)
    (lengths : Rows m (Fits k) i c inputs rows)
    (models : Models m (laterClauses inputs prev rows)) :
    Rows m (Reached m) i c inputs rows := by
  induction inputs generalizing rows prev i c with
  | nil =>
    match rows, lengths with
    | [], _ => trivial
  | cons input inputs ih =>
    match rows, lengths with
    | row :: rows, ⟨length', lengths⟩ =>
      rw [laterClauses, models_append] at models
      have here : Reached m (i + 1) (c + (input.value m).toNat) row := by
        refine fun j curr found => entry_reached few length length' before found
          fun clause own => ?_
        exact models.1 clause (mem_flatMap.mpr
          ⟨(curr, j), mk_mem_zipIdx_iff_getElem?.mpr found, own⟩)
      have := (input.value m).toNat_le
      exact ⟨here, ih (by omega) length' here lengths models.2⟩

theorem newRow_builds (count : Assignment → Nat) (isLocal : Local s.list.next count)
    (bound j₀ : Nat) : Builds s (newRow bound) fun row s' => row.length = bound ∧
      (∀ lit ∈ row, lit.var < s'.list.next) ∧ s'.Aims fun m =>
        ∀ j lit, row[j]? = some lit → (lit.Holds m ↔ j₀ + j < count m) := by
  induction bound generalizing s j₀ with
  | zero => exact .ret ⟨rfl, by simp, fun _ _ _ => by simp⟩
  | succ bound ih =>
    refine (newVar_builds (fun m => decide (j₀ < count m))
      (fun m m' agree => by simp only [isLocal agree])).bind fun var s₁ step ⟨_, within, aim⟩ => ?_
    have isLocal₁ : Local s₁.list.next count :=
      fun m m' agree => isLocal (agree.mono step.next_le)
    refine (ih isLocal₁ (j₀ + 1)).bind fun row s₂ step₂ ⟨length, below, aims⟩ =>
      .ret ⟨by rw [length_cons, length], ?_, fun h m live j lit found => ?_⟩
    · exact forall_mem_cons.mpr ⟨step₂.lt within, below⟩
    · cases j with
      | zero =>
        obtain rfl := Option.some.inj found
        rw [Lit.holds_pos, aim.later step₂ h m live, decide_eq_true_iff, Nat.add_zero]
      | succ j =>
        rw [aims h m live j lit found]
        omega

theorem newRows_builds {inputs : List Lit} (below : ∀ lit ∈ inputs, lit.var < s.list.next)
    (count : Assignment → Nat) (isLocal : Local s.list.next count) (i : Nat) :
    Builds s (newRows k i inputs.length) fun rows s' =>
      ((∀ m c, Rows m (Fits k) i c inputs rows) ∧ ∀ row ∈ rows, ∀ lit ∈ row, lit.var < s'.list.next) ∧
        s'.Aims fun m => Rows m (Marks m) i (count m) inputs rows := by
  induction inputs generalizing s count i with
  | nil => exact .ret ⟨⟨fun _ _ => trivial, by simp⟩, fun _ _ _ => trivial⟩
  | cons input inputs ih =>
    obtain ⟨first, rest⟩ := forall_mem_cons.mp below
    have isLocal' : Local s.list.next fun m => count m + (input.value m).toNat := by
      intro m m' agree
      simp only [isLocal agree, Lit.value, agree input.var first]
    refine (newRow_builds _ isLocal' _ 0).bind fun row s₁ step built => ?_
    obtain ⟨length, lies, aim⟩ := built
    refine (ih (fun lit mem => step.lt (rest lit mem)) _
      (fun m m' agree => isLocal' (agree.mono step.next_le)) (i + 1)).bind
      fun rows s₂ step₂ built => ?_
    obtain ⟨⟨lengths, insides⟩, aims⟩ := built
    refine .ret ⟨⟨fun m c => ⟨length, lengths m _⟩, ?_⟩, ?_⟩
    · exact forall_mem_cons.mpr ⟨fun lit mem => step₂.lt (lies lit mem), insides⟩
    · refine fun h m live => ⟨fun j lit found => ?_, aims h m live⟩
      rw [aim.later step₂ h m live j lit found, Nat.zero_add]

theorem later_below {bound : Nat} {inputs prev : List Lit} {rows : List (List Lit)}
    (below : ∀ lit ∈ inputs, lit.var < bound) (before : ∀ lit ∈ prev, lit.var < bound)
    (fresh : ∀ row ∈ rows, ∀ lit ∈ row, lit.var < bound) :
    VarsBelow bound (laterClauses inputs prev rows) := by
  induction inputs generalizing rows prev with
  | nil =>
    unfold laterClauses
    exact fun _ mem => nomatch mem
  | cons input inputs ih =>
    cases rows with
    | nil =>
      unfold laterClauses
      exact fun _ mem => nomatch mem
    | cons row rows =>
      obtain ⟨first, rest⟩ := forall_mem_cons.mp below
      obtain ⟨here, later⟩ := forall_mem_cons.mp fresh
      rw [laterClauses, VarsBelow, forall_mem_append]
      refine ⟨fun clause mem => ?_, ih rest here later⟩
      obtain ⟨⟨curr, j⟩, lies, own⟩ := mem_flatMap.mp mem
      have known := here curr (fst_mem_of_mem_zipIdx lies)
      have prior {j : Nat} {lit : Lit} (found : prev[j]? = some lit) : lit.var < bound :=
        before lit (mem_of_getElem? found)
      unfold entryClauses at own
      split at own
      · simp only [mem_append, mem_map, Option.mem_toList, mem_singleton] at own
        rcases own with ⟨same, found, rfl⟩ | rfl
        · simpa using ⟨prior found, known⟩
        · simpa using ⟨first, known⟩
      · simp only [mem_append, mem_map, Option.mem_toList] at own
        rcases own with ⟨same, found, rfl⟩ | ⟨less, found, rfl⟩
        · simpa using ⟨prior found, known⟩
        · simpa using ⟨first, prior found, known⟩

theorem sequentialCounter_exact {inputs : List Lit} (below : ∀ lit ∈ inputs, lit.var < base)
    (within : k < inputs.length) (m : Assignment) :
    Extendable (encodeSequentialCounter inputs k base) base m ↔ countTrue m inputs ≤ k := by
  refine restricted_exact below within (fun aimed => ?_) m
  refine (newRows_builds below (fun _ => 0) (fun _ _ _ => rfl) 0).bind
    fun rows s₁ step ⟨⟨lengths, fresh⟩, aim⟩ => ?_
  obtain ⟨input, inputs, rfl⟩ := exists_cons_of_length_pos (Nat.zero_lt_of_lt within)
  -- The first row has one entry.
  obtain ⟨first, rows, rfl⟩ : ∃ first rest, rows = [first] :: rest := by
    match rows, lengths m 0 with
    | row :: rows, ⟨length, _⟩ =>
      obtain ⟨first, rfl⟩ := length_eq_one_iff.mp (by simpa [Fits] using length)
      exact ⟨first, rows, rfl⟩
  have clauses (m : Assignment) : Models m (counterClauses (input :: inputs) ([first] :: rows)) ↔
      (first.Holds m → input.Holds m) ∧
        Models m (laterClauses (input :: inputs) [] ([first] :: rows)) := by
    simp [counterClauses, laterClauses, entryClauses, imp_iff_not_or]
  have lies : VarsBelow s₁.list.next (counterClauses (input :: inputs) ([first] :: rows)) := by
    have all := later_below (fun lit mem => step.lt (below lit mem))
      (fun _ none => absurd none not_mem_nil) fresh
    obtain ⟨firstFresh, -⟩ := forall_mem_cons.mp fresh
    have inputBelow := step.lt (below input mem_cons_self)
    rw [counterClauses, VarsBelow, forall_mem_cons]
    refine ⟨by simpa using ⟨firstFresh first mem_cons_self, inputBelow⟩, ?_⟩
    simpa [VarsBelow, laterClauses, entryClauses] using all
  refine (Asserts.clauses lies fun h m live => ?_).bind fun _ s₂ step₂ models => ?_
  · have marks := aim h m live
    refine (clauses m).mpr ⟨fun on => ?_, later_models (fun _ _ found => by simp at found) marks⟩
    have reached := (marks.1 0 first rfl).mp on
    rw [Lit.holds_iff_value]
    by_contra off
    rw [Bool.not_eq_true] at off
    simp only [off] at reached
    cases reached
  · -- The last row counts all inputs.
    obtain ⟨last, isLast⟩ : ∃ last, ([first] :: rows).getLast? = some last := ⟨_, getLast?_cons⟩
    have length := (lengths m 0).last isLast
    unfold Fits at length
    obtain ⟨lit, entry⟩ : ∃ lit, last[k]? = some lit :=
      ⟨_, getElem?_eq_getElem (show k < last.length by omega)⟩
    have value : (if k < min (input :: inputs).length (k + 1) then
        (([first] :: rows).getLast?.bind fun row => row[k]?).map Lit.negate else none) =
          some lit.negate := by
      rw [if_pos (by omega), isLast, Option.bind_some, entry]
      rfl
    refine .ret ⟨lit, value, fun m live => ?_⟩
    have reached := later_reached (Nat.le_refl 0) (by simp [Fits])
      (fun _ _ found => by simp at found) (lengths m 0) ((clauses m).mp (models m live)).2
    have forced := reached.last isLast k lit entry
    rw [Nat.zero_add] at forced
    refine ⟨forced, fun h on => ?_⟩
    have marks := ((aim.later step₂ h m live).last isLast k lit entry).mp on
    rwa [Nat.zero_add] at marks

/-- The literal is never on. -/
def Off (s : Stage aimed known) (lit : Lit) : Prop :=
  lit.var < s.list.next ∧ s.Entails fun m => ¬lit.Holds m

theorem Off.later {lit : Lit} (off : Off s lit) (step : Extends s s') : Off s' lit :=
  ⟨step.lt off.1, off.2.later step⟩

/-- All literals but the first are off. -/
structure HeadOnly (s : Stage aimed known) (lits : List Lit) : Prop where
  below : ∀ lit ∈ lits, lit.var < s.list.next
  off : ∀ lit ∈ lits.tail, Off s lit

theorem HeadOnly.later {lits : List Lit} (only : HeadOnly s lits) (step : Extends s s') :
    HeadOnly s' lits where
  below := fun lit mem => step.lt (only.below lit mem)
  off := fun lit mem => (only.off lit mem).later step

theorem HeadOnly.of_off {lits : List Lit} (off : ∀ lit ∈ lits, Off s lit) : HeadOnly s lits where
  below := fun lit mem => (off lit mem).1
  off := fun lit mem => off lit (mem_of_mem_tail mem)

theorem HeadOnly.satisfies_iff {lits : List Lit} (only : HeadOnly s lits) (live : s.Live m) :
    Satisfies m lits ↔ ∃ lit ∈ lits.head?, lit.Holds m := by
  cases lits with
  | nil => simp
  | cons first rest =>
    have none : ¬Satisfies m rest := fun ⟨lit, mem, on⟩ => (only.off lit mem).2 m live on
    simp [none]

/-- The first output says whether an input holds, and the others are off. -/
structure Collapsed (s : Stage aimed known) (inputs out : List Lit) : Prop where
  only : HeadOnly s out
  nonempty : inputs ≠ [] → out ≠ []
  any : s.Entails fun m => Satisfies m out ↔ Satisfies m inputs

theorem Collapsed.later (collapsed : Collapsed s inputs out) (step : Extends s s') :
    Collapsed s' inputs out where
  only := collapsed.only.later step
  nonempty := collapsed.nonempty
  any := collapsed.any.later step

theorem Collapsed.off_of_off (collapsed : Collapsed s inputs out)
    (off : ∀ lit ∈ inputs, Off s lit) : ∀ lit ∈ out, Off s lit := by
  refine fun lit mem => ⟨collapsed.only.below lit mem, fun m live on => ?_⟩
  obtain ⟨input, lies, on'⟩ := (collapsed.any m live).mp ⟨lit, mem, on⟩
  exact (off input lies).2 m live on'

theorem models_comparator {a b : Lit} {maxVar minVar : Nat} :
    Models m (comparatorClauses a b maxVar minVar) ↔
      m maxVar = (a.value m || b.value m) ∧ m minVar = false := by
  simp only [comparatorClauses, models_cons, models_nil, satisfies_cons, satisfies_nil,
    Lit.holds_iff_value, Lit.value_negate, Lit.value_pos, ← Lit.negate_pos]
  cases a.value m <;> cases b.value m <;> cases m maxVar <;> cases m minVar <;> decide

theorem comparator_builds {a b : Lit} (belowA : a.var < s.list.next)
    (belowB : b.var < s.list.next) :
    Builds s (comparator a b) fun out s' => Collapsed s' [a, b] out := by
  have isLocal : Local s.list.next fun m => a.value m || b.value m := by
    intro m m' agree
    simp only [Lit.value, agree a.var belowA, agree b.var belowB]
  refine (newVar_builds _ isLocal).bind fun maxVar s₁ step₁ first => ?_
  obtain ⟨-, within₁, aim₁⟩ := first
  refine (newVar_builds (fun _ => false) fun _ _ _ => rfl).bind fun minVar s₂ step₂ second => ?_
  obtain ⟨-, within₂, aim₂⟩ := second
  have belowA₂ := step₂.lt (step₁.lt belowA)
  have belowB₂ := step₂.lt (step₁.lt belowB)
  have within₁₂ := step₂.lt within₁
  refine (Asserts.clauses ?_ fun h m live => models_comparator.mpr
    ⟨aim₁.later step₂ h m live, aim₂ h m live⟩).bind fun _ s₃ step₃ models => .ret ?_
  · simp [comparatorClauses, VarsBelow, belowA₂, belowB₂, within₁₂, within₂]
  · have values (m : Assignment) (live : s₃.Live m) := models_comparator.mp (models m live)
    refine ⟨⟨?_, ?_⟩, fun _ => cons_ne_nil _ _, fun m live => ?_⟩
    · simpa using ⟨step₃.lt within₁₂, step₃.lt within₂⟩
    · simpa [Off, Stage.Entails] using ⟨step₃.lt within₂, fun m live => (values m live).2⟩
    · simp [values m live, Lit.holds_iff_value]

theorem mem_of_everyOther {α : Type} {x : α} : ∀ {l : List α}, x ∈ everyOther l → x ∈ l
  | [_], mem => by simpa [everyOther] using mem
  | first :: second :: rest, mem => by
    rw [everyOther] at mem
    rcases mem_cons.mp mem with rfl | mem
    · exact mem_cons_self
    · exact mem_cons_of_mem _ (mem_cons_of_mem _ (mem_of_everyOther mem))

theorem mem_tail_of_everyOther {α : Type} {x : α} :
    ∀ {l : List α}, x ∈ (everyOther l).tail → x ∈ l.tail
  | first :: second :: rest, mem => by
    rw [everyOther] at mem
    exact mem_cons_of_mem _ (mem_of_everyOther mem)

theorem head?_everyOther {α : Type} : ∀ l : List α, (everyOther l).head? = l.head?
  | [] => by simp [everyOther]
  | [_] => by simp [everyOther]
  | _ :: _ :: _ => by simp [everyOther]

theorem HeadOnly.everyOther {lits : List Lit} (only : HeadOnly s lits) :
    HeadOnly s (everyOther lits) where
  below := fun lit mem => only.below lit (mem_of_everyOther mem)
  off := fun lit mem => only.off lit (mem_tail_of_everyOther mem)

theorem HeadOnly.satisfies_everyOther {lits : List Lit} (only : HeadOnly s lits)
    (live : s.Live m) : Satisfies m (Opt.everyOther lits) ↔ Satisfies m lits := by
  rw [only.satisfies_iff live, only.everyOther.satisfies_iff live, head?_everyOther]

theorem compareAt_builds {odd even : List Lit} {maxPairs i : Nat}
    (offOdd : ∀ lit ∈ odd.tail, Off s lit) (offEven : ∀ lit ∈ even, Off s lit) :
    Builds s (compareAt odd even maxPairs i) fun out s' => ∀ lit ∈ out, Off s' lit := by
  have neighbour {b : Lit} (found : odd[i + 1]? = some b) : Off s b :=
    offOdd b (mem_of_getElem? (by rwa [getElem?_tail]))
  unfold compareAt
  split
  · next a b foundA foundB =>
    have offA := offEven a (mem_of_getElem? foundA)
    have offB := neighbour foundB
    refine (comparator_builds offA.1 offB.1).bind fun compared s₁ step collapsed => .ret ?_
    have all := collapsed.off_of_off (by simpa using ⟨offA.later step, offB.later step⟩)
    split
    · exact all
    · exact fun lit mem => all lit (mem_of_mem_take mem)
  · next a foundA _ => exact .ret (by simpa using offEven a (mem_of_getElem? foundA))
  · next b _ foundB => exact .ret (by simpa using neighbour foundB)
  · exact .ret (by simp)

theorem compareAll_builds {odd even : List Lit} {maxPairs : Nat} (places : List Nat)
    (offOdd : ∀ lit ∈ odd.tail, Off s lit) (offEven : ∀ lit ∈ even, Off s lit) :
    Builds s (places.mapM (compareAt odd even maxPairs)) fun out s' =>
      ∀ lit ∈ out.flatten, Off s' lit := by
  induction places generalizing s with
  | nil => exact .ret (by simp)
  | cons i places ih =>
    rw [mapM_cons]
    refine (compareAt_builds offOdd offEven).bind fun first s₁ step₁ off₁ => ?_
    refine (ih (fun lit mem => (offOdd lit mem).later step₁)
      fun lit mem => (offEven lit mem).later step₁).bind fun rest s₂ step₂ off₂ => .ret ?_
    rw [flatten_cons, forall_mem_append]
    exact ⟨fun lit mem => (off₁ lit mem).later step₂, off₂⟩

theorem oddEvenMerge_builds {left right : List Lit} (onlyLeft : HeadOnly s left)
    (onlyRight : HeadOnly s right) :
    Builds s (oddEvenMerge left right) fun out s' => Collapsed s' (left ++ right) out := by
  induction size : left.length + right.length using Nat.strong_induction_on
    generalizing left right s with
  | _ size ih =>
    subst size
    unfold oddEvenMerge
    split
    · next small =>
      split
      · next a b => exact comparator_builds (onlyLeft.below a (by simp)) (onlyRight.below b (by simp))
      · next unlike =>
        refine .ret ⟨⟨forall_mem_append.mpr ⟨onlyLeft.below, onlyRight.below⟩, ?_⟩, id, fun _ _ => .rfl⟩
        -- One side is empty, so the tail is the one of the other.
        cases left with
        | nil => exact onlyRight.off
        | cons a left =>
          cases right with
          | nil => simpa using onlyLeft.off
          | cons b right =>
            simp only [length_cons] at small
            obtain rfl := length_eq_zero_iff.mp (show left.length = 0 by omega)
            obtain rfl := length_eq_zero_iff.mp (show right.length = 0 by omega)
            exact absurd rfl (unlike a b rfl)
    · next large =>
      -- The elements at even positions keep the first one, the others are off.
      refine (ih _ (by rw [everyOther_length, everyOther_length]; omega)
        onlyLeft.everyOther onlyRight.everyOther rfl).bind fun odd s₁ step₁ odds => ?_
      have rest {lits : List Lit} (only : HeadOnly s lits) :
          ∀ lit ∈ everyOther lits.tail, Off s₁ lit :=
        fun lit mem => (only.off lit (mem_of_everyOther mem)).later step₁
      refine (ih _ (by rw [everyOther_length, everyOther_length, length_tail, length_tail]; omega)
        (.of_off (rest onlyLeft)) (.of_off (rest onlyRight)) rfl).bind fun even s₂ step₂ evens => ?_
      have offEven := evens.off_of_off (forall_mem_append.mpr
        ⟨fun lit mem => (rest onlyLeft lit mem).later step₂,
          fun lit mem => (rest onlyRight lit mem).later step₂⟩)
      have odds := odds.later step₂
      obtain ⟨first, odd, rfl⟩ := exists_cons_of_ne_nil (odds.nonempty fun none => by
        have := congrArg length none
        rw [length_append, everyOther_length, everyOther_length, length_nil] at this
        omega)
      refine (compareAll_builds _ odds.only.off offEven).bind fun compared s₃ step₃ off => .ret ?_
      have odds := odds.later step₃
      obtain ⟨n, same⟩ : ∃ n, left.length + right.length = n + 1 :=
        ⟨_, (Nat.sub_add_cancel (by omega)).symm⟩
      rw [same, take_one, head?_cons, Option.toList_some, singleton_append, take_succ_cons]
      have merged : HeadOnly s₃ (first :: compared.flatten.take n) := by
        have off (lit : Lit) (mem : lit ∈ compared.flatten.take n) := off lit (mem_of_mem_take mem)
        exact ⟨forall_mem_cons.mpr ⟨odds.only.below first mem_cons_self, fun lit mem =>
          (off lit mem).1⟩, off⟩
      refine ⟨merged, fun _ => cons_ne_nil _ _, fun m live => ?_⟩
      have live' := step₁.narrows m (step₂.narrows m (step₃.narrows m live))
      have sides := odds.any m live
      simp only [satisfies_append, onlyLeft.satisfies_everyOther live',
        onlyRight.satisfies_everyOther live'] at sides
      show Satisfies m (first :: _) ↔ Satisfies m (left ++ right)
      rw [satisfies_append, ← sides, merged.satisfies_iff live, odds.only.satisfies_iff live]
      rfl

theorem buildSortingNetwork_builds {inputs : List Lit}
    (below : ∀ lit ∈ inputs, lit.var < s.list.next) :
    Builds s (buildSortingNetwork inputs) fun out s' => Collapsed s' inputs out := by
  induction size : inputs.length using Nat.strong_induction_on generalizing inputs s with
  | _ size ih =>
    subst size
    unfold buildSortingNetwork
    split
    · next small =>
      refine .ret ⟨⟨below, fun lit mem => ?_⟩, id, fun _ _ => .rfl⟩
      have := length_pos_of_mem mem
      rw [length_tail] at this
      omega
    · next large =>
      refine (ih _ (by rw [length_take]; omega)
        (fun lit mem => below lit (mem_of_mem_take mem)) rfl).bind
        fun left s₁ step₁ lefts => ?_
      refine (ih _ (by rw [length_drop]; omega)
        (fun lit mem => step₁.lt (below lit (mem_of_mem_drop mem))) rfl).bind
        fun right s₂ step₂ rights => ?_
      have lefts := lefts.later step₂
      refine (oddEvenMerge_builds lefts.only rights.only).imp fun out s₃ step₃ merged =>
        ⟨merged.only, fun _ => merged.nonempty fun none => ?_, fun m live => ?_⟩
      · refine lefts.nonempty (fun empty => ?_) (append_eq_nil_iff.mp none).1
        have := congrArg length empty
        rw [length_take, length_nil] at this
        omega
      · have live' := step₃.narrows m live
        have halves := or_congr (lefts.any m live') (rights.any m live')
        rw [← satisfies_append, ← satisfies_append, take_append_drop] at halves
        exact (merged.any m live).trans halves

theorem satisfies_iff_countTrue {lits : Clause} : Satisfies m lits ↔ 0 < countTrue m lits := by
  rw [countTrue, countP_pos_iff]
  simp only [Satisfies, Lit.holds_iff_value]

theorem sorted_exact {inputs : List Lit} (below : ∀ lit ∈ inputs, lit.var < base)
    (nonempty : 0 < inputs.length) (m : Assignment) :
    Extendable (encodeSorted inputs 0 base) base m ↔ countTrue m inputs ≤ 0 := by
  refine restricted_exact below nonempty (fun aimed => ?_) m
  refine (buildSortingNetwork_builds below).bind fun outputs s' step collapsed => ?_
  obtain ⟨first, rest, rfl⟩ := exists_cons_of_ne_nil
    (collapsed.nonempty (ne_nil_of_length_pos nonempty))
  refine .ret ⟨first, rfl, fun m live => ?_⟩
  have any := (satisfies_iff_countTrue.symm.trans (collapsed.any m live).symm).trans
    (collapsed.only.satisfies_iff live)
  simp only [head?_cons, Option.mem_some_iff, exists_eq_left'] at any
  exact ⟨any.mp, fun _ => any.mpr⟩

theorem sorted_unrestricted {inputs : List Lit} (below : ∀ lit ∈ inputs, lit.var < base)
    (pos : 0 < k) (m : Assignment) : Extendable (encodeSorted inputs k base) base m := by
  by_cases within : k < inputs.length
  · have built : Builds (Stage.start True base) (do
        let outputs ← buildSortingNetwork inputs
        return outputs[k]?.map Lit.negate) fun x s' => s'.Entails fun m =>
          ∀ lit ∈ x, lit.Holds m := by
      refine (buildSortingNetwork_builds below).bind fun outputs s' step collapsed =>
        .ret fun m live lit same => ?_
      obtain ⟨output, found, rfl⟩ := Option.map_eq_some_iff.mp same
      rw [Lit.holds_negate]
      refine (collapsed.only.off output (mem_of_getElem? (i := k - 1) ?_)).2 m live
      rwa [getElem?_tail, Nat.sub_add_cancel pos]
    obtain ⟨s', -, added, step, holds⟩ := built.emits
    obtain ⟨m', agree, live⟩ := step.widens trivial m ⟨trivial, models_nil, fun _ => trivial⟩
    rw [encodeSorted, encodeRestricted_eq _ within]
    refine ⟨m', agree, ?_, holds m' live⟩
    exact (congrArg (Models m') added).mpr live.2.1
  · rw [encodeSorted, encodeRestricted, if_pos (.inr (Nat.le_of_not_lt within))]
    exact ⟨m, .refl m, models_nil, fun _ none => nomatch none⟩

theorem countTrue_all {inputs : List Lit} (distinct : (inputs.map Lit.var).Nodup) :
    countTrue (fun var => decide (Lit.pos var ∈ inputs)) inputs = inputs.length := by
  refine countP_eq_length.mpr fun lit mem => Lit.holds_iff_value.mp ?_
  cases sign : lit.isNeg with
  | false =>
    have same : Lit.pos lit.var = lit := by rw [Lit.pos, ← sign]
    simp [Lit.Holds, sign, same, mem]
  | true =>
    -- The opposite literal is over the same variable, so it is no input.
    have other : Lit.pos lit.var ∉ inputs := fun lies => by
      have same := inj_on_of_nodup_map distinct lies mem rfl
      rw [← same] at sign
      cases sign
    simp [Lit.Holds, sign, other]

/--
Which encodings say that at most so many inputs hold.

A network of comparators says it only where the bound is zero or no restriction.
-/
theorem encodeAtMostK_exact_iff {inputs : List Lit} {k nextVar : Nat}
    {encoding : CardinalityEncoding} (distinct : (inputs.map Lit.var).Nodup)
    (below : ∀ lit ∈ inputs, lit.var < nextVar) :
    (∀ m, Extendable (encodeAtMostK inputs k encoding nextVar) nextVar m ↔ countTrue m inputs ≤ k) ↔
      encoding ≠ .sorted ∧ encoding ≠ .cardinalityNetwork ∨ k = 0 ∨ inputs.length ≤ k := by
  have network : (∀ m, Extendable (encodeSorted inputs k nextVar) nextVar m ↔
      countTrue m inputs ≤ k) ↔ k = 0 ∨ inputs.length ≤ k := by
    constructor
    · intro exact
      by_contra restricted
      obtain ⟨positive, within⟩ := not_or.mp restricted
      have all := (exact _).mp (sorted_unrestricted below (Nat.pos_of_ne_zero positive)
        fun var => decide (Lit.pos var ∈ inputs))
      rw [countTrue_all distinct] at all
      exact within all
    · intro unrestricted m
      by_cases fits : inputs.length ≤ k
      · rw [encodeSorted, encodeRestricted, if_pos (.inr fits)]
        exact extendable_trivial fits m
      · obtain rfl := unrestricted.resolve_right fits
        exact sorted_exact below (Nat.pos_of_ne_zero fun none => fits (Nat.le_of_eq none)) m
  cases encoding with
  | sorted | cardinalityNetwork => exact network.trans (by simp)
  | totalizer => exact iff_of_true (totalizer_exact below k) (by simp)
  | pairwise =>
    refine iff_of_true (fun m => ?_) (by simp)
    rw [encodeAtMostK]
    split
    · next one =>
      rw [one, ← models_atMostOnePairwise]
      have inside : VarsBelow nextVar (encodeAtMostOnePairwise inputs) := pairwise_below below
      refine ⟨fun ⟨m', agree, models, _⟩ => ?_, fun models =>
        ⟨m, .refl m, models, fun _ none => nomatch none⟩⟩
      have back : AgreeBelow nextVar m' m := fun var within => (agree var within).symm
      exact back.models inside models
    · exact totalizer_exact below k m
  | sequential =>
    refine iff_of_true (fun m => ?_) (by simp)
    by_cases within : k < inputs.length
    · exact sequentialCounter_exact below within m
    · rw [encodeAtMostK, encodeSequentialCounter, encodeRestricted,
        if_pos (.inr (Nat.le_of_not_lt within))]
      exact extendable_trivial (Nat.le_of_not_lt within) m

theorem three_sequential :
    ¬Extendable (encodeAtMostK [.pos 0, .neg 1, .pos 2] 1 .sequential 3) 3 fun _ => true :=
  ((encodeAtMostK_exact_iff (by decide) (by decide)).mpr (by decide) _).not.mpr (by decide)

theorem two_sorted : ¬∀ m, Extendable (encodeAtMostK [.pos 0, .pos 1] 1 .sorted 2) 2 m ↔
    countTrue m [.pos 0, .pos 1] ≤ 1 := by
  intro exact
  have few := (exact fun _ => true).mp (sorted_unrestricted (by decide) Nat.one_pos _)
  exact absurd few (by decide)

end

end Nixie.Opt
