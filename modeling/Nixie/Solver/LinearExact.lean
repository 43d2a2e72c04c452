import Mathlib.Tactic.FieldSimp
import Mathlib.Tactic.Linarith
import Mathlib.Tactic.Ring
import Nixie.Solver.LinearDescent

/-! A parsed comparison holds exactly where the comparison of the two terms does. -/

namespace Nixie.Linear

section

variable (ν : Nat → ℚ)

mutual

/-- The value of a term, where opaque terms have the given values. -/
def ArithTerm.value : ArithTerm → ℚ
  | .intConst n => n
  | .realConst r => r.value
  | .bitVecConst n => n
  | .var id | .apply id _ | .select id _ | .dtSelector id _ | .mod id _ | .div id _ | .ite id _
  | .other id => ν id
  | .add args => sumValues args
  | .sub lhs rhs => lhs.value - rhs.value
  | .neg arg => -arg.value
  | .mul args => prodValues args

def sumValues : List ArithTerm → ℚ
  | [] => 0
  | term :: rest => term.value + sumValues rest

def prodValues : List ArithTerm → ℚ
  | [] => 1
  | term :: rest => term.value * prodValues rest

end

def sumTerms (terms : List (Nat × ℚ)) : ℚ := (terms.map fun term => term.2 * ν term.1).sum

@[simp] theorem sumTerms_nil : sumTerms ν [] = 0 := rfl

@[simp] theorem sumTerms_cons (term : Nat × ℚ) (rest : List (Nat × ℚ)) :
    sumTerms ν (term :: rest) = term.2 * ν term.1 + sumTerms ν rest := by
  rw [sumTerms, List.map_cons, List.sum_cons, sumTerms]

@[simp] theorem sumTerms_append (terms rest : List (Nat × ℚ)) :
    sumTerms ν (terms ++ rest) = sumTerms ν terms + sumTerms ν rest := by
  rw [sumTerms, List.map_append, List.sum_append, sumTerms, sumTerms]

def Level.value (cur : Level) : ℚ := sumTerms ν cur.terms + cur.constant

@[simp] theorem Level.value_new : Level.new.value ν = 0 := by
  rw [Level.value, Level.new, sumTerms_nil, add_zero]

@[simp] theorem Level.value_push (cur : Level) (id : Nat) (coef : ℚ) :
    (cur.push id coef).value ν = cur.value ν + coef * ν id := by
  simp only [Level.value, Level.push, sumTerms_append, sumTerms_cons, sumTerms_nil]
  ring

/-- The value of a factor, which is one where there is none. -/
def factorValue : Option Level → ℚ
  | none => 1
  | some level => level.value ν

/-- The constraint holds where opaque terms have the given values. -/
def ParsedArithConstraint.Holds (c : ParsedArithConstraint) : Prop :=
  c.constraintType.Compares (sumTerms ν c.terms) c.constant

end

section

variable {ν : Nat → ℚ} {cur cur' : Level}

theorem exact_step {s : Step} {r : ℚ} (done : (Ops.exact.step s).result = some r) : s.value = r :=
  Traced.step_result.mp done

theorem addConstant_value {n : ℚ} (done : (cur.addConstant .exact n).result = some cur') :
    cur'.value ν = cur.value ν + n := by
  obtain ⟨c, sum, done⟩ := Traced.bind_result.mp done
  obtain rfl := Traced.pure_result.mp done
  rw [← exact_step sum]
  simp only [Level.value, Step.value]
  ring

theorem addProduct_value {a b : ℚ} (done : (cur.addProduct .exact a b).result = some cur') :
    cur'.value ν = cur.value ν + a * b := by
  obtain ⟨p, product, done⟩ := Traced.bind_result.mp done
  rw [addConstant_value done, ← exact_step product, Step.value]

theorem pushScaled_value {c : ℚ} {terms : List (Nat × ℚ)}
    (done : (Level.pushScaled .exact c terms cur).result = some cur') :
    cur'.value ν = cur.value ν + c * sumTerms ν terms := by
  induction terms generalizing cur with
  | nil =>
    obtain rfl := Traced.pure_result.mp done
    rw [sumTerms_nil, mul_zero, add_zero]
  | cons term rest ih =>
    obtain ⟨p, product, done⟩ := Traced.bind_result.mp done
    rw [ih done, Level.value_push, ← exact_step product, Step.value, sumTerms_cons]
    ring

theorem classify_value {constProduct : ℚ} {nonConst : Option Level} {factor : ℚ × Option Level}
    (done : (cur.classify .exact constProduct nonConst).result = some factor) :
    factor.1 * factorValue ν factor.2 = constProduct * factorValue ν nonConst * cur.value ν := by
  unfold Level.classify at done
  split at done
  · next constant =>
    -- Without terms the value is the constant.
    obtain ⟨p, product, done⟩ := Traced.bind_result.mp done
    obtain rfl := Traced.pure_result.mp done
    rw [← exact_step product, Level.value, List.isEmpty_iff.mp constant, sumTerms_nil, Step.value]
    ring
  · split at done
    · cases done
    · next single =>
      obtain rfl := Traced.pure_result.mp done
      obtain rfl : nonConst = none := by simpa using single
      simp only [factorValue]
      ring

theorem finish_value {scale constProduct : ℚ} {nonConst : Option Level}
    (done : (Level.finish .exact scale constProduct nonConst cur).result = some cur') :
    cur'.value ν = cur.value ν + scale * (constProduct * factorValue ν nonConst) := by
  obtain ⟨c, product, done⟩ := Traced.bind_result.mp done
  cases nonConst with
  | none =>
    rw [addConstant_value done, ← exact_step product, Step.value, factorValue, mul_one]
  | some level =>
    obtain ⟨pushed, terms, done⟩ := Traced.bind_result.mp done
    have levelValue : level.value ν = sumTerms ν level.terms + level.constant := rfl
    rw [addProduct_value done, pushScaled_value terms, ← exact_step product, Step.value,
      factorValue, levelValue]
    ring

theorem read_value {isRead : Bool} {id : Nat} {sc : ℚ}
    (done : (if isRead then pure (cur.push id sc) else Traced.giveUp : Traced Step Level).result =
      some cur') : cur'.value ν = cur.value ν + sc * ν id := by
  cases isRead with
  | false => cases done
  | true =>
    obtain rfl := Traced.pure_result.mp done
    exact Level.value_push ν cur id sc

theorem literal_value {inRange : Bool} {n sc : ℚ}
    (done : (if inRange then cur.addProduct .exact sc n else Traced.giveUp).result = some cur') :
    cur'.value ν = cur.value ν + sc * n := by
  cases inRange with
  | false => cases done
  | true => exact addProduct_value done

/-- The descent adds the value of the term at its scale. -/
def Descends (ν : Nat → ℚ) (term : ArithTerm) : Prop :=
  ∀ sc cur cur', (descend term sc cur).result = some cur' →
    cur'.value ν = cur.value ν + sc * term.value ν

/-- Terms are added at a scale, and factors are multiplied. -/
structure AllDescend (ν : Nat → ℚ) (args : List ArithTerm) : Prop where
  sum : ∀ sc cur cur', (descendAll args sc cur).result = some cur' →
    cur'.value ν = cur.value ν + sc * sumValues ν args
  product : ∀ constProduct nonConst factor,
    (factors args constProduct nonConst).result = some factor →
      factor.1 * factorValue ν factor.2 = constProduct * factorValue ν nonConst * prodValues ν args

theorem allDescend_nil : AllDescend ν [] where
  sum sc cur cur' done := by
    rw [descendAll] at done
    obtain rfl := Traced.pure_result.mp done
    rw [sumValues, mul_zero, add_zero]
  product constProduct nonConst factor done := by
    rw [factors] at done
    obtain rfl := Traced.pure_result.mp done
    rw [prodValues, mul_one]

theorem allDescend_cons {term : ArithTerm} {rest : List ArithTerm} (first : Descends ν term)
    (others : AllDescend ν rest) : AllDescend ν (term :: rest) where
  sum sc cur cur' done := by
    rw [descendAll] at done
    obtain ⟨next, now, later⟩ := Traced.bind_result.mp done
    rw [others.sum _ _ _ later, first _ _ _ now, sumValues]
    ring
  product constProduct nonConst factor done := by
    rw [factors] at done
    obtain ⟨level, now, done⟩ := Traced.bind_result.mp done
    obtain ⟨next, classified, later⟩ := Traced.bind_result.mp done
    rw [others.product _ _ _ later, classify_value classified, first _ _ _ now, Level.value_new,
      prodValues]
    ring

theorem descends_sub {lhs rhs : ArithTerm} (left : Descends ν lhs) (right : Descends ν rhs) :
    Descends ν (.sub lhs rhs) := by
  intro sc cur cur' done
  rw [descend] at done
  obtain ⟨n, negated, done⟩ := Traced.bind_result.mp done
  obtain ⟨next, first, second⟩ := Traced.bind_result.mp done
  rw [right _ _ _ second, left _ _ _ first, ← exact_step negated, Step.value, ArithTerm.value]
  ring

theorem descends_neg {arg : ArithTerm} (descends : Descends ν arg) : Descends ν (.neg arg) := by
  intro sc cur cur' done
  rw [descend] at done
  obtain ⟨n, negated, done⟩ := Traced.bind_result.mp done
  rw [descends _ _ _ done, ← exact_step negated, Step.value, ArithTerm.value]
  ring

theorem descends_mul {args : List ArithTerm} (all : AllDescend ν args) :
    Descends ν (.mul args) := by
  intro sc cur cur' done
  rw [descend] at done
  obtain ⟨factor, evaluated, done⟩ := Traced.bind_result.mp done
  rw [finish_value done, all.product _ _ _ evaluated, ArithTerm.value, factorValue]
  ring

theorem descends (term : ArithTerm) : Descends ν term := by
  -- The induction is on terms and lists of terms together.
  refine @ArithTerm.rec (Descends ν) (AllDescend ν) (fun n => ?intConst) (fun r => ?realConst)
    (fun n => ?bitVecConst) (fun id => ?var) (fun id numeric => ?apply) (fun id numeric => ?select)
    (fun id numeric => ?dtSelector) (fun id isInt => ?mod) (fun id isInt => ?div)
    (fun id numeric => ?ite) (fun args all => ?add) (fun lhs rhs => descends_sub)
    (fun arg => descends_neg) (fun args => descends_mul) (fun id => ?other) allDescend_nil
    (fun term rest => allDescend_cons) term
  case intConst =>
    intro sc cur cur' done
    rw [descend] at done
    rw [ArithTerm.value]
    exact literal_value done
  case realConst =>
    intro sc cur cur' done
    rw [descend] at done
    rw [ArithTerm.value]
    exact addProduct_value done
  case bitVecConst =>
    intro sc cur cur' done
    rw [descend] at done
    rw [ArithTerm.value]
    exact literal_value done
  case var =>
    intro sc cur cur' done
    rw [descend] at done
    obtain rfl := Traced.pure_result.mp done
    rw [Level.value_push, ArithTerm.value]
  case apply | select | dtSelector | mod | div | ite =>
    intro sc cur cur' done
    rw [descend] at done
    rw [ArithTerm.value]
    exact read_value done
  case add =>
    intro sc cur cur' done
    rw [descend] at done
    rw [all.sum _ _ _ done, ArithTerm.value]
  case other =>
    intro sc cur cur' done
    rw [descend] at done
    cases done

end

end Nixie.Linear
