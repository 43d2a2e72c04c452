import Mathlib.Data.List.Basic

/-! Propositional literals, clauses, and the assignments that satisfy them. -/

namespace Nixie

/-- A propositional variable together with the polarity of its occurrence. -/
structure Lit where
  var : Nat
  isNeg : Bool
  deriving DecidableEq, Repr

namespace Lit

def pos (var : Nat) : Lit := ⟨var, false⟩

def neg (var : Nat) : Lit := ⟨var, true⟩

def negate (lit : Lit) : Lit := ⟨lit.var, !lit.isNeg⟩

/-- The packed integer form: twice the variable plus the sign. -/
def code (lit : Lit) : Nat := 2 * lit.var + lit.isNeg.toNat

def fromCode (code : Nat) : Lit := ⟨code / 2, code % 2 == 1⟩

@[simp] theorem pos_var (var : Nat) : (pos var).var = var := rfl
@[simp] theorem neg_var (var : Nat) : (neg var).var = var := rfl
@[simp] theorem pos_isNeg (var : Nat) : (pos var).isNeg = false := rfl
@[simp] theorem neg_isNeg (var : Nat) : (neg var).isNeg = true := rfl
@[simp] theorem negate_var (lit : Lit) : lit.negate.var = lit.var := rfl
@[simp] theorem negate_isNeg (lit : Lit) : lit.negate.isNeg = !lit.isNeg := rfl
@[simp] theorem negate_negate (lit : Lit) : lit.negate.negate = lit := by simp [negate]
@[simp] theorem negate_pos (var : Nat) : (pos var).negate = neg var := rfl
@[simp] theorem negate_neg (var : Nat) : (neg var).negate = pos var := rfl

@[simp] theorem negate_ne (lit : Lit) : lit.negate ≠ lit := by
  -- The two literals differ in their sign.
  intro same
  have signs := congrArg isNeg same
  simp at signs

@[simp] theorem fromCode_code (lit : Lit) : fromCode lit.code = lit := by
  -- The low bit holds the sign and the remaining bits hold the variable.
  rcases lit with ⟨var, sign⟩
  cases sign
  · simp [fromCode, code]
  · simp [fromCode, code]
    omega

@[simp] theorem code_fromCode (packed : Nat) : (fromCode packed).code = packed := by
  -- Division and remainder by two recombine to the original number.
  rcases Nat.mod_two_eq_zero_or_one packed with even | odd
  · simp [fromCode, code, even]
    omega
  · simp [fromCode, code, odd]
    omega

theorem code_injective : Function.Injective code := by
  -- Unpacking is a left inverse.
  intro left right same
  rw [← fromCode_code left, same, fromCode_code]

theorem eq_or_negate {left right : Lit} (var : left.var = right.var) :
    left = right ∨ left = right.negate := by
  obtain ⟨index, sign⟩ := left
  obtain ⟨index', sign'⟩ := right
  cases sign <;> cases sign' <;> simp_all [negate]

end Lit

abbrev Assignment := Nat → Bool

abbrev Clause := List Lit

abbrev Cnf := List Clause

/-- The literal is true under the assignment. -/
def Lit.Holds (assignment : Assignment) (lit : Lit) : Prop :=
  -- A negative occurrence flips the value of its variable.
  assignment lit.var = !lit.isNeg

instance (assignment : Assignment) (lit : Lit) : Decidable (lit.Holds assignment) :=
  inferInstanceAs (Decidable (_ = _))

/-- Some literal of the clause is true under the assignment. -/
def Satisfies (assignment : Assignment) (clause : Clause) : Prop :=
  ∃ lit ∈ clause, lit.Holds assignment

instance (assignment : Assignment) (clause : Clause) : Decidable (Satisfies assignment clause) :=
  inferInstanceAs (Decidable (∃ lit ∈ clause, lit.Holds assignment))

/-- Every clause of the formula is satisfied. -/
def Models (assignment : Assignment) (formula : Cnf) : Prop :=
  ∀ clause ∈ formula, Satisfies assignment clause

instance (assignment : Assignment) (formula : Cnf) : Decidable (Models assignment formula) :=
  inferInstanceAs (Decidable (∀ clause ∈ formula, Satisfies assignment clause))

def Satisfiable (formula : Cnf) : Prop := ∃ assignment, Models assignment formula

/-- Every variable of the formula is below the bound. -/
def VarsBelow (bound : Nat) (formula : Cnf) : Prop :=
  ∀ clause ∈ formula, ∀ lit ∈ clause, lit.var < bound

@[simp] theorem Lit.holds_pos {m : Assignment} {var : Nat} :
    (Lit.pos var).Holds m ↔ m var = true := by
  simp [Lit.Holds]

@[simp] theorem Lit.holds_neg {m : Assignment} {var : Nat} :
    (Lit.neg var).Holds m ↔ m var = false := by
  simp [Lit.Holds]

@[simp] theorem Lit.holds_negate {m : Assignment} {lit : Lit} :
    lit.negate.Holds m ↔ ¬ lit.Holds m := by
  -- Flipping the sign flips the required value.
  rcases lit with ⟨var, sign⟩
  cases sign <;> simp [Lit.Holds, Lit.negate]

def Lit.value (assignment : Assignment) (lit : Lit) : Bool := assignment lit.var == !lit.isNeg

theorem Lit.holds_iff_value {m : Assignment} {lit : Lit} : lit.Holds m ↔ lit.value m = true := by
  -- Both compare the variable's value with the sign.
  simp [Lit.Holds, value]

@[simp] theorem Lit.value_pos {m : Assignment} {var : Nat} : (Lit.pos var).value m = m var := by
  simp [Lit.value]

@[simp] theorem Lit.value_negate {m : Assignment} {lit : Lit} :
    lit.negate.value m = !lit.value m := by
  -- Flipping the sign flips the comparison.
  rcases lit with ⟨var, sign⟩
  cases sign <;> simp [Lit.value, Lit.negate]

@[simp] theorem satisfies_nil {m : Assignment} : ¬ Satisfies m [] := by
  simp [Satisfies]

@[simp] theorem satisfies_cons {m : Assignment} {lit : Lit} {clause : Clause} :
    Satisfies m (lit :: clause) ↔
      lit.Holds m ∨ Satisfies m clause := by
  simp [Satisfies]

@[simp] theorem satisfies_append {m : Assignment} {left right : Clause} :
    Satisfies m (left ++ right) ↔
      Satisfies m left ∨ Satisfies m right := by
  simp [Satisfies, or_and_right, exists_or]

@[simp] theorem models_nil {m : Assignment} : Models m [] := by
  simp [Models]

@[simp] theorem models_cons {m : Assignment} {clause : Clause} {formula : Cnf} :
    Models m (clause :: formula) ↔
      Satisfies m clause ∧ Models m formula := by
  simp [Models]

@[simp] theorem models_append {m : Assignment} {left right : Cnf} :
    Models m (left ++ right) ↔ Models m left ∧ Models m right := by
  simp [Models, or_imp, forall_and]

theorem satisfies_congr {first second : Assignment} {clause : Clause}
    (agree : ∀ lit ∈ clause, first lit.var = second lit.var) :
    Satisfies first clause ↔ Satisfies second clause := by
  -- Each literal has the same value on both sides.
  constructor
  · rintro ⟨lit, mem, holds⟩
    exact ⟨lit, mem, by rw [Lit.Holds, ← agree lit mem]; exact holds⟩
  · rintro ⟨lit, mem, holds⟩
    exact ⟨lit, mem, by rw [Lit.Holds, agree lit mem]; exact holds⟩

theorem models_congr {first second : Assignment} {bound : Nat} {formula : Cnf}
    (below : VarsBelow bound formula) (agree : ∀ var < bound, first var = second var) :
    Models first formula ↔ Models second formula := by
  -- Agreement on the bounded variables carries every clause across.
  have same : ∀ clause ∈ formula, (Satisfies first clause ↔ Satisfies second clause) :=
    fun clause mem => satisfies_congr fun lit lies =>
      agree lit.var (below clause mem lit lies)
  exact forall₂_congr same

end Nixie

/-! Entailment of clauses, and the resolution rule. -/

namespace Nixie

/-- Every model of the formula satisfies the clause. -/
def Entails (formula : Cnf) (clause : Clause) : Prop :=
  ∀ assignment, Models assignment formula → Satisfies assignment clause

/-- Resolve a clause that holds the negation of a literal with one that holds the literal. -/
def resolve (pivot : Lit) (left right : Clause) : Clause :=
  left.filter (· ≠ pivot.negate) ++ right.filter (· ≠ pivot)

section

variable {formula : Cnf} {left right : Clause} {pivot : Lit}

@[simp] theorem mem_resolve {lit : Lit} : lit ∈ resolve pivot left right ↔
    (lit ∈ left ∧ lit ≠ pivot.negate) ∨ (lit ∈ right ∧ lit ≠ pivot) := by
  simp [resolve]

theorem satisfies_resolve {m : Assignment} (first : Satisfies m left)
    (second : Satisfies m right) : Satisfies m (resolve pivot left right) := by
  obtain ⟨lit, mem, holds⟩ := first
  obtain ⟨lit', mem', holds'⟩ := second
  -- If both witnesses are the pivot pair, one of them is false.
  by_cases here : lit = pivot.negate
  · refine ⟨lit', mem_resolve.mpr (.inr ⟨mem', fun same => ?_⟩), holds'⟩
    rw [here, Lit.holds_negate] at holds
    exact holds (same ▸ holds')
  · exact ⟨lit, mem_resolve.mpr (.inl ⟨mem, here⟩), holds⟩

theorem Entails.append (entails : Entails formula left) (more : Cnf) :
    Entails (formula ++ more) left :=
  fun m models => entails m (models_append.mp models).1

theorem Entails.weaken (entails : Entails formula left) (sub : left ⊆ right) :
    Entails formula right := by
  intro m models
  obtain ⟨lit, mem, holds⟩ := entails m models
  exact ⟨lit, sub mem, holds⟩

theorem Entails.resolve (first : Entails formula left) (second : Entails formula right) :
    Entails formula (Nixie.resolve pivot left right) :=
  fun m models => satisfies_resolve (first m models) (second m models)

theorem Entails.strengthen (entails : Entails formula left)
    (drop : ∀ lit ∈ left, lit ∈ right ∨ Entails formula [lit.negate]) : Entails formula right := by
  intro m models
  obtain ⟨lit, mem, holds⟩ := entails m models
  rcases drop lit mem with kept | false_
  · exact ⟨lit, kept, holds⟩
  · obtain ⟨other, single, flipped⟩ := false_ m models
    rw [List.mem_singleton.mp single, Lit.holds_negate] at flipped
    exact absurd holds flipped

theorem entails_nil : Entails formula [] ↔ ¬ Satisfiable formula := by
  constructor
  · rintro entails ⟨m, models⟩
    exact satisfies_nil (entails m models)
  · exact fun unsat m models => absurd ⟨m, models⟩ unsat

end

end Nixie
