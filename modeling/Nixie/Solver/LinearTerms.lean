import Mathlib.Algebra.Order.Field.Rat
import Nixie.Data.Traced

/-! Comparisons of arithmetic terms, read as a sum of opaque terms compared with a constant. -/

namespace Nixie.Linear

def inI64 (n : Int) : Bool := decide (-2 ^ 63 ≤ n ∧ n < 2 ^ 63)

/-- A rational whose numerator and denominator are machine words. -/
structure Rational64 where
  value : ℚ
  inRange : inI64 value.num = true ∧ inI64 value.den = true
  deriving DecidableEq

/--
Arithmetic terms, as the walk distinguishes them.

An opaque term carries the identity under which it was interned and whether its sort is numeric.
-/
inductive ArithTerm where
  | intConst (value : Int)
  | realConst (value : Rational64)
  | bitVecConst (value : Nat)
  | var (id : Nat)
  | apply (id : Nat) (numeric : Bool)
  | select (id : Nat) (numeric : Bool)
  | dtSelector (id : Nat) (numeric : Bool)
  /-- A remainder; it is read where its sort is that of integers. -/
  | mod (id : Nat) (isInt : Bool)
  /-- A quotient; it is read where its sort is that of integers. -/
  | div (id : Nat) (isInt : Bool)
  | ite (id : Nat) (numeric : Bool)
  | add (args : List ArithTerm)
  | sub (lhs rhs : ArithTerm)
  | neg (arg : ArithTerm)
  | mul (args : List ArithTerm)
  | other (id : Nat)

inductive Step where
  | add (a b : ℚ)
  | mul (a b : ℚ)
  | neg (a : ℚ)
  deriving DecidableEq

def Step.value : Step → ℚ
  | add a b => a + b
  | mul a b => a * b
  | neg a => -a

/-- How operations and rejections are done. -/
structure Ops (m : Type → Type) where
  step : Step → m ℚ
  reject : {α : Type} → m α

/-- Operations on machine words, which stop where the result is missing. -/
def Ops.checked (compute : Step → Option ℚ) : Ops (Except Stop) where
  step s :=
    match compute s with
    | some r => .ok r
    | none => .error .overflow
  reject := .error .givenUp

def Ops.exact : Ops (Traced Step) where
  step := Traced.step Step.value
  reject := Traced.giveUp

/-- Terms with their coefficients, and a constant. -/
structure Level where
  terms : List (Nat × ℚ)
  constant : ℚ
  deriving DecidableEq

namespace Level

def new : Level := ⟨[], 0⟩

def push (cur : Level) (id : Nat) (coef : ℚ) : Level :=
  { cur with terms := cur.terms ++ [(id, coef)] }

section

variable {m : Type → Type} [Monad m] (o : Ops m)

def addConstant (cur : Level) (n : ℚ) : m Level := do
  let c ← o.step (.add cur.constant n)
  return { cur with constant := c }

def addProduct (cur : Level) (a b : ℚ) : m Level := do
  let p ← o.step (.mul a b)
  cur.addConstant o p

def pushScaled (c : ℚ) : List (Nat × ℚ) → Level → m Level
  | [], cur => return cur
  | (id, coef) :: rest, cur => do
    let p ← o.step (.mul c coef)
    pushScaled c rest (cur.push id p)

/-- A finished factor is absorbed by the constant product, or is the one that is not constant. -/
def classify (cur : Level) (constProduct : ℚ) (nonConst : Option Level) : m (ℚ × Option Level) :=
  if cur.terms.isEmpty then do
    let p ← o.step (.mul constProduct cur.constant)
    return (p, nonConst)
  else if nonConst.isSome then o.reject
  else return (constProduct, some cur)

def finish (scale constProduct : ℚ) (nonConst : Option Level) (parent : Level) : m Level := do
  let c ← o.step (.mul scale constProduct)
  match nonConst with
  | none => parent.addConstant o c
  | some level => do
    let cur ← pushScaled o c level.terms parent
    cur.addProduct o c level.constant

end

end Level

/-- A product whose factors are being evaluated. -/
structure MulFrame where
  args : List ArithTerm
  /-- The next factor to evaluate; the one before is in the current level. -/
  next : Nat
  constProduct : ℚ
  nonConst : Option Level
  scale : ℚ
  parent : Level

/-- Classify the factor that just finished, where one was evaluated. -/
def MulFrame.classify {m : Type → Type} [Monad m] (o : Ops m) (frame : MulFrame) (cur : Level) :
    m (ℚ × Option Level) :=
  if frame.next > 0 then cur.classify o frame.constProduct frame.nonConst
  else return (frame.constProduct, frame.nonConst)

inductive Work where
  | visit (term : ArithTerm) (scale : ℚ)
  | mul (frame : MulFrame)

section

variable (compute : Step → Option ℚ)

/-- Fold a term into the current level; what is left is pushed. -/
def visit (term : ArithTerm) (sc : ℚ) (cur : Level) (work : List Work) :
    Except Stop (List Work × Level) :=
  let o := Ops.checked compute
  match term with
  | .intConst n =>
    if inI64 n then return (work, ← cur.addProduct o sc n) else o.reject
  | .realConst r => return (work, ← cur.addProduct o sc r.value)
  | .bitVecConst n =>
    if inI64 n then return (work, ← cur.addProduct o sc n) else o.reject
  | .var id => return (work, cur.push id sc)
  | .apply id numeric | .select id numeric | .dtSelector id numeric | .ite id numeric =>
    if numeric then return (work, cur.push id sc) else o.reject
  | .mod id isInt | .div id isInt =>
    if isInt then return (work, cur.push id sc) else o.reject
  | .add args => return (args.map (.visit · sc) ++ work, cur)
  | .sub lhs rhs => do
    let n ← o.step (.neg sc)
    return (.visit lhs sc :: .visit rhs n :: work, cur)
  | .neg arg => do
    let n ← o.step (.neg sc)
    return (.visit arg n :: work, cur)
  | .mul args => return (.mul ⟨args, 0, 1, none, sc, cur⟩ :: work, .new)
  | .other _ => o.reject

/-- Classify the factor that just finished, and go on with the next or finish the product. -/
def mulStep (frame : MulFrame) (cur : Level) (work : List Work) :
    Except Stop (List Work × Level) := do
  let o := Ops.checked compute
  let (constProduct, nonConst) ← frame.classify o cur
  match frame.args[frame.next]? with
  | some arg =>
    return (.visit arg 1 :: .mul { frame with next := frame.next + 1, constProduct, nonConst } ::
      work, .new)
  | none => return (work, ← Level.finish o frame.scale constProduct nonConst frame.parent)

def run : Nat → List Work → Level → Except Stop Level
  | _, [], cur => .ok cur
  | 0, _ :: _, _ => .error .givenUp
  | fuel + 1, item :: work, cur => do
    let (work, cur) ← match item with
      | .visit term sc => visit compute term sc cur work
      | .mul frame => mulStep compute frame cur work
    run fuel work cur

mutual

def rounds : ArithTerm → Nat
  | .add args => 1 + roundsAll args
  | .sub lhs rhs => 1 + rounds lhs + rounds rhs
  | .neg arg => 1 + rounds arg
  | .mul args => 2 + roundsAll args + args.length
  | _ => 1

def roundsAll : List ArithTerm → Nat
  | [] => 0
  | term :: rest => rounds term + roundsAll rest

end

def extractLinearTerms (term : ArithTerm) (scale : ℚ) : Except Stop Level :=
  run compute (rounds term) [.visit term scale] .new

end

inductive ArithConstraintType where
  | lt
  | le
  | gt
  | ge
  deriving DecidableEq, Repr

def ArithConstraintType.Compares : ArithConstraintType → ℚ → ℚ → Prop
  | lt, a, b => a < b
  | le, a, b => a ≤ b
  | gt, a, b => a > b
  | ge, a, b => a ≥ b

/-- A sum of terms with coefficients, compared with a constant. -/
structure ParsedArithConstraint where
  terms : List (Nat × ℚ)
  constant : ℚ
  constraintType : ArithConstraintType
  reasonTerm : Nat
  deriving DecidableEq

section

variable {m : Type → Type} [Monad m] (o : Ops m)

/-- Add to the coefficient of a term, which starts from zero. -/
def addTerm (id : Nat) (coef : ℚ) : List (Nat × ℚ) → m (List (Nat × ℚ))
  | [] => do
    let c ← o.step (.add 0 coef)
    return [(id, c)]
  | (id', c') :: rest =>
    if id' = id then do
      let c ← o.step (.add c' coef)
      return (id', c) :: rest
    else do
      let rest ← addTerm id coef rest
      return (id', c') :: rest

def combine : List (Nat × ℚ) → List (Nat × ℚ) → m (List (Nat × ℚ))
  | [], combined => return combined
  | (id, coef) :: rest, combined => do
    let combined ← addTerm o id coef combined
    combine rest combined

/-- Subtract the sides, and move the constant to the right. -/
def compareSides (walk : ArithTerm → ℚ → m Level) (lhs rhs : ArithTerm)
    (constraintType : ArithConstraintType) (reason : Nat) : m ParsedArithConstraint := do
  let left ← walk lhs 1
  let constant ← o.step (.add 0 left.constant)
  let minusOne ← o.step (.neg 1)
  let right ← walk rhs minusOne
  let constant ← o.step (.add constant right.constant)
  let combined ← combine o (left.terms ++ right.terms) []
  let constant ← o.step (.neg constant)
  return ⟨combined.filter fun term => term.2 ≠ 0, constant, constraintType, reason⟩

end

abbrev ParseCache := Nat → Option (Option ParsedArithConstraint)

/-- Parse a comparison, or return what is cached for it; none where an operation overflows. -/
def parseArithComparison (compute : Step → Option ℚ) (cache : ParseCache) (lhs rhs : ArithTerm)
    (constraintType : ArithConstraintType) (reason : Nat) :
    Option (Option ParsedArithConstraint × ParseCache) :=
  match cache reason with
  | some cached => some (cached, cache)
  | none =>
    match compareSides (.checked compute) (extractLinearTerms compute) lhs rhs constraintType
      reason with
    | .ok parsed => some (some parsed, Function.update cache reason (some (some parsed)))
    | .error .givenUp => some (none, Function.update cache reason (some none))
    | .error .overflow => none

end Nixie.Linear
