import Mathlib.Data.List.Sort
import Mathlib.Data.Nat.Bitwise
import Nixie.Sat.State

/-! Congruent gates of the clause database, and the implications between their outputs. -/

namespace Nixie.Sat

open List Option

abbrev SignedUf := List Nat

namespace SignedUf

def new (codes : Nat) : SignedUf := List.range codes

def findFrom (uf : SignedUf) : Nat → Nat → Nat
  | 0, code => code
  | fuel + 1, code =>
      let parent := uf.getD code code
      if parent = code then code else findFrom uf fuel parent

/-- The root of a code; shortening the chains on the way would change no root. -/
def find (uf : SignedUf) (code : Nat) : Nat := findFrom uf uf.length code

def union (uf : SignedUf) (left right : Nat) : SignedUf × Bool :=
  if uf.find left = uf.find right then (uf, false)
  else
    let joined : SignedUf := uf.set (uf.find left) (uf.find right)
    let negLeft := joined.find (left ^^^ 1)
    let negRight := joined.find (right ^^^ 1)
    (if negLeft = negRight then joined else joined.set negLeft negRight, true)

end SignedUf

inductive GateType where
  | and
  | xor
  deriving DecidableEq, Repr

/-- A literal defined by two others. -/
structure Gate where
  kind : GateType
  in1 : Lit
  in2 : Lit
  out : Lit
  deriving DecidableEq, Repr

def binaryEdges (formula : Cnf) : List (Lit × Lit) :=
  formula.flatMap fun clause =>
    match clause with
    | [left, right] => [(left.negate, right), (right.negate, left)]
    | _ => []

def hasBinaryImplication (formula : Cnf) (premise conclusion : Lit) : Bool :=
  (binaryEdges formula).any fun edge => edge = (premise, conclusion)

abbrev Triple := Lit × Lit × Lit

def ternaryClauses (formula : Cnf) : List Triple :=
  formula.filterMap fun clause =>
    match clause with
    | [first, second, third] => some (first, second, third)
    | _ => none

/-- Each literal of a triple in front of the other two. -/
def rotations (triple : Triple) : List Triple :=
  match triple with
  | (first, second, third) =>
      [(first, second, third), (second, third, first), (third, first, second)]

def distinctVars (triple : Triple) : Bool :=
  triple.2.1.var ≠ triple.1.var ∧ triple.2.2.var ≠ triple.1.var ∧ triple.2.1.var ≠ triple.2.2.var

/-- Read a ternary clause as the closing clause of a conjunction with its first literal as output. -/
def andGate (formula : Cnf) (triple : Triple) : Option Gate :=
  let in1 := triple.2.1.negate
  let in2 := triple.2.2.negate
  if distinctVars triple ∧ hasBinaryImplication formula triple.1 in1 ∧
      hasBinaryImplication formula triple.1 in2 then
    some { kind := .and, in1 := in1, in2 := in2, out := triple.1 }
  else none

def sortedCodes (triple : Triple) : List Nat :=
  [triple.1.code, triple.2.1.code, triple.2.2.code].insertionSort (· ≤ ·)

/-- Whether the three literals form a ternary clause in some order. -/
def hasTernary (formula : Cnf) (triple : Triple) : Bool :=
  (ternaryClauses formula).any fun clause => sortedCodes clause = sortedCodes triple

/-- Read a ternary clause as part of an exclusive disjunction with its first literal as output. -/
def xorGate (formula : Cnf) (triple : Triple) : Option Gate :=
  match triple with
  | (out, in1, in2) =>
      if distinctVars triple ∧ [(out.negate, in1, in2), (out.negate, in1.negate, in2.negate),
            (out, in1.negate, in2), (out, in1, in2.negate)].all (hasTernary formula) then
        some { kind := .xor, in1 := in1, in2 := in2, out := out }
      else none

/-- Conjunctions and exclusive disjunctions among the clauses, one of each kind per clause. -/
def detectGates (formula : Cnf) : List Gate :=
  (ternaryClauses formula).filterMap (fun triple => (rotations triple).findSome? (andGate formula)) ++
    (ternaryClauses formula).filterMap (fun triple => (rotations triple).findSome? (xorGate formula))

abbrev Signature := GateType × Nat × Nat

def signature (uf : SignedUf) (gate : Gate) : Signature :=
  let in1 := uf.find gate.in1.code
  let in2 := uf.find gate.in2.code
  if in1 ≤ in2 then (gate.kind, in1, in2) else (gate.kind, in2, in1)

/-- Progress of one pass over the gates. -/
structure Pass where
  uf : SignedUf
  first : List (Signature × Nat)
  merged : Bool

/-- Join the output of a gate with the first output of the same signature. -/
def mergeGate (pass : Pass) (gate : Gate) : Pass :=
  match pass.first.lookup (signature pass.uf gate) with
  | some prev =>
      if pass.uf.find prev ≠ pass.uf.find gate.out.code then
        let (joined, changed) := pass.uf.union prev gate.out.code
        { pass with uf := joined, merged := pass.merged || changed }
      else pass
  | none => { pass with first := (signature pass.uf gate, gate.out.code) :: pass.first }

def closeGates (gates : List Gate) : Nat → SignedUf → SignedUf
  -- Every pass that joins removes a root, so the number of codes is enough fuel.
  | 0, uf => uf
  | fuel + 1, uf =>
      let pass := gates.foldl mergeGate { uf := uf, first := [], merged := false }
      if pass.merged then closeGates gates fuel pass.uf else pass.uf

def outputClasses (uf : SignedUf) (gates : List Gate) : List (List Nat) :=
  (gates.map fun gate => uf.find gate.out.code).dedup.map fun root =>
    (gates.filter fun gate => uf.find gate.out.code = root).map fun gate => gate.out.code

def equivalenceEdges (left right : Lit) : List (Lit × Lit) :=
  if left.var = right.var then []
  else
    [(left, right), (right, left), (left.negate, right.negate), (right.negate, left.negate)]

def congruenceEdges (numVars : Nat) (formula : Cnf) : List (Lit × Lit) :=
  let gates := detectGates formula
  if numVars = 0 ∨ gates.length < 2 then []
  else
    let uf := closeGates gates (2 * numVars) (SignedUf.new (2 * numVars))
    -- The edges of a class do not depend on the place of the class among the others.
    (outputClasses uf gates).flatMap fun members =>
      (members.zip members.tail).flatMap fun pair =>
        equivalenceEdges (Lit.fromCode pair.1) (Lit.fromCode pair.2)

def codeValue (assignment : Assignment) (code : Nat) : Bool := (Lit.fromCode code).value assignment

@[simp] theorem codeValue_code {m : Assignment} {lit : Lit} :
    codeValue m lit.code = lit.value m := by
  simp [codeValue]

theorem fromCode_flip (code : Nat) : Lit.fromCode (code ^^^ 1) = (Lit.fromCode code).negate := by
  have half : (code ^^^ 1) / 2 = code / 2 := by simp [Nat.xor_div_two]
  have low : (code ^^^ 1) % 2 = (code + 1) % 2 := by
    rw [Nat.xor_mod_two_eq]
  unfold Lit.fromCode Lit.negate
  rcases Nat.mod_two_eq_zero_or_one code with even | odd
  · rw [half, low]
    simp [even, Nat.add_mod]
  · rw [half, low]
    simp [odd, Nat.add_mod]

@[simp] theorem codeValue_flip {m : Assignment} {code : Nat} :
    codeValue m (code ^^^ 1) = !codeValue m code := by
  rw [codeValue, fromCode_flip, Lit.value_negate, codeValue]

namespace SignedUf

/-- Every code has the value of its parent. -/
def Respects (assignment : Assignment) (uf : SignedUf) : Prop :=
  ∀ code, codeValue assignment (uf.getD code code) = codeValue assignment code

variable {m : Assignment} {uf : SignedUf}

theorem respects_new (codes : Nat) : Respects m (new codes) := by
  intro code
  have self : (range codes).getD code code = code := by
    rw [getD_eq_getElem?_getD]
    by_cases lies : code < codes
    · simp [lies]
    · rw [getElem?_eq_none (by simpa using lies), getD_none]
  rw [new, self]

theorem Respects.find (respects : Respects m uf) (code : Nat) :
    codeValue m (uf.find code) = codeValue m code := by
  -- Every link of the chain keeps the value.
  have chain : ∀ fuel code, codeValue m (uf.findFrom fuel code) =
      codeValue m code := by
    intro fuel
    induction fuel with
    | zero => exact fun _ => rfl
    | succ fuel ih =>
      intro code
      unfold findFrom
      by_cases root : uf.getD code code = code
      · simp only [root, if_true]
      · simp only [root, if_false]
        rw [ih, respects code]
  exact chain uf.length code

theorem Respects.link (respects : Respects m uf) {child parent : Nat}
    (same : codeValue m child = codeValue m parent) :
    Respects m (uf.set child parent) := by
  intro code
  have old := respects code
  rw [getD_eq_getElem?_getD] at old ⊢
  rw [getElem?_set]
  by_cases moved : child = code
  · subst moved
    by_cases lies : child < uf.length
    · simpa [lies] using same.symm
    · simp [lies]
  · simpa [moved] using old

theorem Respects.union (respects : Respects m uf) {left right : Nat}
    (same : codeValue m left = codeValue m right) :
    Respects m (uf.union left right).1 := by
  unfold SignedUf.union
  by_cases joined : uf.find left = uf.find right
  · simpa only [joined, if_true] using respects
  · simp only [joined, if_false]
    -- The roots have the values of the joined codes, so the first link is between equals.
    have linked := @Respects.link _ _ respects (uf.find left) (uf.find right)
      (by rw [respects.find, respects.find, same])
    split
    · exact linked
    · refine linked.link ?_
      rw [linked.find, linked.find, codeValue_flip, codeValue_flip, same]

end SignedUf

def GateType.eval : GateType → Bool → Bool → Bool
  | .and, left, right => left && right
  | .xor, left, right => left ^^ right

theorem GateType.eval_comm (kind : GateType) (left right : Bool) :
    kind.eval left right = kind.eval right left := by
  cases kind
  · exact Bool.and_comm left right
  · exact Bool.xor_comm left right

/-- The output of the gate has the value of its function. -/
def Gate.Sound (assignment : Assignment) (gate : Gate) : Prop :=
  gate.out.value assignment = gate.kind.eval (gate.in1.value assignment) (gate.in2.value assignment)

section

variable {m : Assignment} {formula : Cnf}

variable {premise : Lit}

variable {conclusion : Lit}

theorem binaryEdges_holds (models : Models m formula)
    (edge : (premise, conclusion) ∈ binaryEdges formula) (holds : premise.Holds m) :
    conclusion.Holds m := by
  obtain ⟨clause, mem, found⟩ := mem_flatMap.mp edge
  have satisfied := models clause mem
  -- Only binary clauses give edges, one from the negation of each literal.
  match clause, found, satisfied with
  | [left, right], found, satisfied =>
    simp only [mem_cons, Prod.mk.injEq, not_mem_nil, or_false] at found
    simp only [satisfies_cons, satisfies_nil, or_false] at satisfied
    rcases found with ⟨rfl, rfl⟩ | ⟨rfl, rfl⟩
    · exact satisfied.resolve_left (Lit.holds_negate.mp holds)
    · exact satisfied.resolve_right (Lit.holds_negate.mp holds)

theorem hasBinaryImplication_holds (models : Models m formula)
    (stated : hasBinaryImplication formula premise conclusion = true)
    (holds : premise.Holds m) : conclusion.Holds m := by
  obtain ⟨edge, mem, same⟩ := any_eq_true.mp stated
  have edge_eq : edge = (premise, conclusion) := by simpa using same
  exact binaryEdges_holds models (edge_eq ▸ mem) holds

/-- One literal of a triple is true. -/
def TripleHolds (assignment : Assignment) (triple : Triple) : Prop :=
  Satisfies assignment [triple.1, triple.2.1, triple.2.2]

theorem tripleHolds_sortedCodes {left right : Triple} (same : sortedCodes left = sortedCodes right)
    (holds : TripleHolds m left) : TripleHolds m right := by
  obtain ⟨lit, mem, true_⟩ := holds
  -- Sorting permutes the codes, and a code names its literal.
  have sorted : lit.code ∈ sortedCodes left := by
    rw [sortedCodes, mem_insertionSort]
    exact mem_map_of_mem (f := Lit.code) mem
  rw [same, sortedCodes, mem_insertionSort] at sorted
  have mapped : lit.code ∈ [right.1, right.2.1, right.2.2].map Lit.code := sorted
  obtain ⟨other, lies, codes⟩ := mem_map.mp mapped
  exact ⟨other, lies, Lit.code_injective codes ▸ true_⟩

variable {triple : Triple}

theorem mem_ternaryClauses (mem : triple ∈ ternaryClauses formula) :
    [triple.1, triple.2.1, triple.2.2] ∈ formula := by
  obtain ⟨clause, lies, found⟩ := mem_filterMap.mp mem
  match clause, found with
  | [first, second, third], found =>
    cases some.inj found
    exact lies

theorem hasTernary_holds (models : Models m formula)
    (found : hasTernary formula triple = true) : TripleHolds m triple := by
  obtain ⟨clause, mem, same⟩ := any_eq_true.mp found
  exact tripleHolds_sortedCodes (by simpa using same) (models _ (mem_ternaryClauses mem))

theorem mem_rotations {rotated : Triple} (mem : rotated ∈ rotations triple) {lit : Lit} :
    lit ∈ [rotated.1, rotated.2.1, rotated.2.2] ↔ lit ∈ [triple.1, triple.2.1, triple.2.2] := by
  obtain ⟨first, second, third⟩ := triple
  simp only [rotations, mem_cons, not_mem_nil, or_false] at mem
  rcases mem with rfl | rfl | rfl <;> simp only [mem_cons, not_mem_nil, or_false]
  · tauto
  · tauto

variable {gate : Gate}

theorem andGate_sound (models : Models m formula) (closing : TripleHolds m triple)
    (found : andGate formula triple = some gate) : gate.Sound m := by
  unfold andGate at found
  dsimp only at found
  split at found
  · rename_i stated
    cases some.inj found
    obtain ⟨-, first, second⟩ := stated
    have left := hasBinaryImplication_holds models first
    have right := hasBinaryImplication_holds models second
    simp only [TripleHolds, satisfies_cons, satisfies_nil, or_false, Lit.holds_iff_value] at closing
    simp only [Lit.holds_iff_value, Lit.value_negate, Bool.not_eq_true'] at left right
    simp only [Gate.Sound, GateType.eval, Lit.value_negate]
    -- The closing clause bounds the output from below, the implications from above.
    cases out : triple.1.value m <;>
      cases in1 : triple.2.1.value m <;>
        cases in2 : triple.2.2.value m <;> simp_all
  · cases found

theorem xorGate_sound (models : Models m formula)
    (found : xorGate formula triple = some gate) : gate.Sound m := by
  obtain ⟨out, in1, in2⟩ := triple
  unfold xorGate at found
  dsimp only at found
  split at found
  · rename_i stated
    cases some.inj found
    have clauses := fun form mem =>
      hasTernary_holds models (all_eq_true.mp stated.2 form mem)
    have lower := clauses _ (.head _)
    have upper := clauses _ (.tail _ (.head _))
    have first := clauses _ (.tail _ (.tail _ (.head _)))
    have second := clauses _ (.tail _ (.tail _ (.tail _ (.head _))))
    simp only [TripleHolds, satisfies_cons, satisfies_nil, or_false, Lit.holds_iff_value,
      Lit.value_negate, Bool.not_eq_true'] at lower upper first second
    simp only [Gate.Sound, GateType.eval]
    -- Each of the four clauses excludes one wrong row of the table.
    cases outValue : out.value m <;>
      cases firstValue : in1.value m <;>
        cases secondValue : in2.value m <;> simp_all
  · cases found

theorem mem_detectGates (mem : gate ∈ detectGates formula) :
    ∃ triple ∈ ternaryClauses formula, ∃ rotated ∈ rotations triple,
      andGate formula rotated = some gate ∨ xorGate formula rotated = some gate := by
  rcases mem_append.mp mem with conjunction | exclusive
  · obtain ⟨triple, lies, found⟩ := mem_filterMap.mp conjunction
    obtain ⟨rotated, rotation, gate_⟩ := exists_of_findSome?_eq_some found
    exact ⟨triple, lies, rotated, rotation, .inl gate_⟩
  · obtain ⟨triple, lies, found⟩ := mem_filterMap.mp exclusive
    obtain ⟨rotated, rotation, gate_⟩ := exists_of_findSome?_eq_some found
    exact ⟨triple, lies, rotated, rotation, .inr gate_⟩

theorem detectGates_sound (models : Models m formula)
    (mem : gate ∈ detectGates formula) : gate.Sound m := by
  obtain ⟨triple, lies, rotated, rotation, conjunction | exclusive⟩ := mem_detectGates mem
  · obtain ⟨lit, literal, holds⟩ := models _ (mem_ternaryClauses lies)
    exact andGate_sound models ⟨lit, (mem_rotations rotation).mpr literal, holds⟩ conjunction
  · exact xorGate_sound models exclusive

theorem detectGates_out (mem : gate ∈ detectGates formula) :
    ∃ clause ∈ formula, gate.out ∈ clause := by
  obtain ⟨triple, lies, rotated, rotation, conjunction | exclusive⟩ := mem_detectGates mem
  · refine ⟨_, mem_ternaryClauses lies, (mem_rotations rotation).mp ?_⟩
    unfold andGate at conjunction
    dsimp only at conjunction
    split at conjunction
    · cases some.inj conjunction
      exact .head _
    · cases conjunction
  · refine ⟨_, mem_ternaryClauses lies, (mem_rotations rotation).mp ?_⟩
    obtain ⟨out, in1, in2⟩ := rotated
    unfold xorGate at exclusive
    dsimp only at exclusive
    split at exclusive
    · cases some.inj exclusive
      exact .head _
    · cases exclusive

end

section

variable {m : Assignment}

/-- What a pass knows holds under the assignment. -/
structure Pass.Sound (assignment : Assignment) (pass : Pass) : Prop where
  respects : pass.uf.Respects assignment
  computes : ∀ entry ∈ pass.first, codeValue assignment entry.2 =
    entry.1.1.eval (codeValue assignment entry.1.2.1) (codeValue assignment entry.1.2.2)

theorem signature_sound {uf : SignedUf} (respects : uf.Respects m)
    (sound : gate.Sound m) :
    codeValue m gate.out.code = (signature uf gate).1.eval (codeValue m (signature uf gate).2.1)
        (codeValue m (signature uf gate).2.2) := by
  -- Canonical inputs have the values of the inputs, and their order does not matter.
  unfold signature
  rw [codeValue_code, sound]
  dsimp only
  split
  · rw [respects.find, respects.find, codeValue_code, codeValue_code]
  · rw [respects.find, respects.find, codeValue_code, codeValue_code, GateType.eval_comm]

theorem mergeGate_sound {pass : Pass} (inv : pass.Sound m)
    (sound : gate.Sound m) : (mergeGate pass gate).Sound m := by
  have computes := signature_sound inv.respects sound
  unfold mergeGate
  cases found : pass.first.lookup (signature pass.uf gate) with
  | none =>
    refine ⟨inv.respects, fun entry mem => ?_⟩
    rcases mem_cons.mp mem with rfl | old
    · exact computes
    · exact inv.computes entry old
  | some prev =>
    dsimp only
    split
    · obtain ⟨before, after, split_, -⟩ := lookup_eq_some_iff.mp found
      have recorded := inv.computes (signature pass.uf gate, prev) (by rw [split_]; simp)
      exact ⟨inv.respects.union (recorded.trans computes.symm), inv.computes⟩
    · exact inv

theorem mergeAll_sound {gates : List Gate} (sound : ∀ gate ∈ gates, gate.Sound m) :
    ∀ {pass : Pass}, pass.Sound m → (gates.foldl mergeGate pass).Sound m := by
  induction gates with
  | nil => exact fun inv => inv
  | cons gate rest ih =>
    intro pass inv
    exact ih (fun other mem => sound other (.tail _ mem))
      (mergeGate_sound inv (sound gate (.head _)))

theorem closeGates_respects {gates : List Gate} (sound : ∀ gate ∈ gates, gate.Sound m) :
    ∀ {fuel : Nat} {uf : SignedUf}, uf.Respects m →
      (closeGates gates fuel uf).Respects m := by
  intro fuel
  induction fuel with
  | zero => exact fun respects => respects
  | succ fuel ih =>
    intro uf respects
    have pass := @mergeAll_sound _ _ sound { uf := uf, first := [], merged := false }
      ⟨respects, fun _ mem => nomatch mem⟩
    unfold closeGates
    dsimp only
    split
    · exact ih pass.respects
    · exact pass.respects

theorem mem_outputClasses {uf : SignedUf} {gates : List Gate} {members : List Nat}
    (class_ : members ∈ outputClasses uf gates) :
    ∃ root, ∀ code ∈ members, uf.find code = root ∧ ∃ gate ∈ gates, code = gate.out.code := by
  obtain ⟨root, -, rfl⟩ := mem_map.mp class_
  refine ⟨root, fun code mem => ?_⟩
  obtain ⟨gate, kept, rfl⟩ := mem_map.mp mem
  obtain ⟨lies, same⟩ := mem_filter.mp kept
  exact ⟨by simpa using same, gate, lies, rfl⟩

end

theorem equivalenceEdges_skew {left right : Lit}
    (edge : (premise, conclusion) ∈ equivalenceEdges left right) :
    (conclusion.negate, premise.negate) ∈ equivalenceEdges left right := by
  unfold equivalenceEdges at edge ⊢
  split
  · simp_all
  · rename_i distinct
    simp only [distinct, if_false, mem_cons, Prod.mk.injEq, not_mem_nil, or_false]
      at edge ⊢
    rcases edge with ⟨rfl, rfl⟩ | ⟨rfl, rfl⟩ | ⟨rfl, rfl⟩ | ⟨rfl, rfl⟩ <;> simp

theorem mem_equivalenceEdges {left right : Lit}
    (edge : (premise, conclusion) ∈ equivalenceEdges left right) :
    (premise = left ∧ conclusion = right) ∨ (premise = right ∧ conclusion = left) ∨
      (premise = left.negate ∧ conclusion = right.negate) ∨
        (premise = right.negate ∧ conclusion = left.negate) := by
  unfold equivalenceEdges at edge
  split at edge
  · cases edge
  · simpa using edge

theorem mem_congruenceEdges {numVars : Nat} {formula : Cnf} {edge : Lit × Lit}
    (mem : edge ∈ congruenceEdges numVars formula) :
    ∃ members ∈ outputClasses
        (closeGates (detectGates formula) (2 * numVars) (SignedUf.new (2 * numVars)))
        (detectGates formula),
      ∃ pair ∈ members.zip members.tail,
        edge ∈ equivalenceEdges (Lit.fromCode pair.1) (Lit.fromCode pair.2) := by
  unfold congruenceEdges at mem
  dsimp only at mem
  split at mem
  · cases mem
  · obtain ⟨members, class_, lies⟩ := mem_flatMap.mp mem
    obtain ⟨pair, consecutive, edge_⟩ := mem_flatMap.mp lies
    exact ⟨members, class_, pair, consecutive, edge_⟩

theorem congruenceEdges_holds {m : Assignment} {numVars : Nat} {formula : Cnf}
    (models : Models m formula)
    (edge : (premise, conclusion) ∈ congruenceEdges numVars formula) :
    premise.value m = conclusion.value m := by
  obtain ⟨members, class_, pair, consecutive, edge⟩ := mem_congruenceEdges edge
  have respects := @closeGates_respects _ (detectGates formula) (fun gate => detectGates_sound models)
    (2 * numVars) _ (SignedUf.respects_new (2 * numVars))
  -- Both ends of a pair have the root of the class, so they have its value.
  obtain ⟨root, same⟩ := mem_outputClasses class_
  obtain ⟨left, right⟩ := of_mem_zip consecutive
  have values : codeValue m pair.1 = codeValue m pair.2 := by
    rw [← respects.find pair.1, ← respects.find pair.2, (same _ left).1,
      (same _ (mem_of_mem_tail right)).1]
  unfold codeValue at values
  rcases mem_equivalenceEdges edge with ⟨rfl, rfl⟩ | ⟨rfl, rfl⟩ | ⟨rfl, rfl⟩ | ⟨rfl, rfl⟩
  · exact values
  · exact values.symm
  · rw [Lit.value_negate, Lit.value_negate, values]
  · rw [Lit.value_negate, Lit.value_negate, values]

theorem congruenceEdges_vars {P : Nat → Prop} {numVars : Nat} {formula : Cnf}
    (occurring : ∀ clause ∈ formula, ∀ lit ∈ clause, P lit.var)
    (edge : (premise, conclusion) ∈ congruenceEdges numVars formula) :
    P premise.var ∧ P conclusion.var := by
  obtain ⟨members, class_, pair, consecutive, edge⟩ := mem_congruenceEdges edge
  obtain ⟨root, outputs⟩ := mem_outputClasses class_
  have output : ∀ code ∈ members, P (Lit.fromCode code).var := by
    intro code mem
    obtain ⟨gate, detected, rfl⟩ := (outputs code mem).2
    obtain ⟨clause, lies, literal⟩ := detectGates_out detected
    rw [Lit.fromCode_code]
    exact occurring clause lies gate.out literal
  obtain ⟨left, right⟩ := of_mem_zip consecutive
  have first := output _ left
  have second := output _ (mem_of_mem_tail right)
  -- Negating a literal keeps its variable.
  rcases mem_equivalenceEdges edge with ⟨rfl, rfl⟩ | ⟨rfl, rfl⟩ | ⟨rfl, rfl⟩ | ⟨rfl, rfl⟩
  · exact ⟨first, second⟩
  · exact ⟨second, first⟩
  · exact ⟨first, second⟩
  · exact ⟨second, first⟩

theorem congruenceEdges_skew {numVars : Nat} {formula : Cnf}
    (edge : (premise, conclusion) ∈ congruenceEdges numVars formula) :
    (conclusion.negate, premise.negate) ∈ congruenceEdges numVars formula := by
  unfold congruenceEdges at edge ⊢
  dsimp only at edge ⊢
  by_cases few : numVars = 0 ∨ (detectGates formula).length < 2
  · rw [if_pos few] at edge
    simp at edge
  · rw [if_neg few] at edge ⊢
    obtain ⟨members, class_, lies⟩ := mem_flatMap.mp edge
    obtain ⟨pair, consecutive, edge_⟩ := mem_flatMap.mp lies
    exact mem_flatMap.mpr ⟨members, class_,
      mem_flatMap.mpr ⟨pair, consecutive, equivalenceEdges_skew edge_⟩⟩

end Nixie.Sat
