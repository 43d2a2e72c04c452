import Mathlib.Algebra.Order.Archimedean.Real.Basic
import Nixie.Ast.Builder

/-! What terms mean, and when one term may stand for another. -/

namespace Nixie.Ast

inductive Value (U : Type) where
  | bool (p : Prop)
  | num (x : ℝ)
  | bits (width value : Nat)
  | other (u : U)

namespace Value

variable {U : Type}

def holds : Value U → Prop
  | .bool p => p
  | _ => False

def toReal : Value U → ℝ
  | .num x => x
  | _ => 0

@[simp] theorem holds_bool (p : Prop) : (Value.bool p : Value U).holds = p := rfl

@[simp] theorem toReal_num (x : ℝ) : (Value.num x : Value U).toReal = x := rfl

end Value

/--
An interpretation of the uninterpreted sorts and of all symbols.

It says which fields a pattern finds in a value, and what a term is worth that no case matches.
Division and remainder by zero are left to it.
-/
structure Interp where
  U : Type
  carrier : Nat → Set U
  func : Name → SortKind → List (Value U) → Value U
  constructor : Constructor → List (Value U) → Value U
  other : Nat → SortKind → List (Value U) → Value U
  fields : Option Name → Value U → Option (List (Value U))
  noMatch : SortKind → Value U
  intDivZero : ℤ → ℤ
  intModZero : ℤ → ℤ
  realDivZero : ℝ → ℝ

namespace Interp

variable (I : Interp)

def HasSort : SortKind → Value I.U → Prop
  | .bool, v => ∃ p, v = .bool p
  | .int, v => ∃ n : ℤ, v = .num n
  | .real, v => ∃ x, v = .num x
  | .bitVec width, v => ∃ n < 2 ^ width, v = .bits width n
  | .uninterpreted name, v => ∃ u ∈ I.carrier name, v = .other u

/-- The values of a list have the sorts of another list. -/
abbrev HasSorts (sorts : List SortKind) (vs : List (Value I.U)) : Prop :=
  List.Forall₂ I.HasSort sorts vs

/-- Sorts have members, symbols have values of their sorts, and constructors are free. -/
structure Lawful : Prop where
  inhabited : ∀ sort, ∃ v, I.HasSort sort v
  func : ∀ name sort vs, I.HasSort sort (I.func name sort vs)
  other : ∀ tag sort vs, I.HasSort sort (I.other tag sort vs)
  noMatch : ∀ sort, I.HasSort sort (I.noMatch sort)
  constructor : ∀ c vs, I.HasSorts c.fields vs →
    I.HasSort (.uninterpreted c.data) (I.constructor c vs)
  free : ∀ c c' vs vs', c.data = c'.data → I.HasSorts c.fields vs → I.HasSorts c'.fields vs' →
    I.constructor c vs = I.constructor c' vs' → c = c' ∧ vs = vs'

abbrev Assignment := Var → Value I.U

/-- Every variable has a value of its sort. -/
def Respects (ν : I.Assignment) : Prop := ∀ x, I.HasSort x.2 (ν x)

def assign : List Var → List (Value I.U) → I.Assignment → I.Assignment
  | x :: xs, v :: vs, ν => assign xs vs (Function.update ν x v)
  | _, _, ν => ν

open Classical
/-- The value of a kind from the sorts and the values of its arguments. -/
noncomputable def kind : Kind → List SortKind → List (Value I.U) → Value I.U
  | .tru, _, _ => .bool True
  | .fls, _, _ => .bool False
  | .intConst value, _, _ => .num value
  | .realConst value, _, _ => .num value
  | .bitVecConst value width, _, _ => .bits width (value % 2 ^ width).toNat
  | .not, _, [a] => .bool ¬a.holds
  | .and, _, vs => .bool (∀ v ∈ vs, v.holds)
  | .or, _, vs => .bool (∃ v ∈ vs, v.holds)
  | .xor, _, [a, b] => .bool ¬(a.holds ↔ b.holds)
  | .implies, _, [a, b] => .bool (a.holds → b.holds)
  | .ite, _, [c, a, b] => if c.holds then a else b
  | .eq, _, [a, b] => .bool (a = b)
  | .distinct, _, vs => .bool (vs.Pairwise (· ≠ ·))
  | .neg, _, [a] => .num (-a.toReal)
  | .add, _, vs => .num (vs.map Value.toReal).sum
  | .sub, _, [a, b] => .num (a.toReal - b.toReal)
  | .mul, _, vs => .num (vs.map Value.toReal).prod
  | .div, sorts, [a, b] =>
    if sorts.headD .int = .int then
      .num ((if ⌊b.toReal⌋ = 0 then I.intDivZero ⌊a.toReal⌋
        else ⌊a.toReal⌋ / ⌊b.toReal⌋ : ℤ) : ℝ)
    else .num (if b.toReal = 0 then I.realDivZero a.toReal else a.toReal / b.toReal)
  | .mod, _, [a, b] => .num ((if ⌊b.toReal⌋ = 0 then I.intModZero ⌊a.toReal⌋
      else ⌊a.toReal⌋ % ⌊b.toReal⌋ : ℤ) : ℝ)
  | .lt, _, [a, b] => .bool (a.toReal < b.toReal)
  | .le, _, [a, b] => .bool (a.toReal ≤ b.toReal)
  | .gt, _, [a, b] => .bool (a.toReal > b.toReal)
  | .ge, _, [a, b] => .bool (a.toReal ≥ b.toReal)
  | .apply func sort, _, vs => I.func func sort vs
  | .dtConstructor c, _, vs => I.constructor c vs
  | .other tag sort, _, vs => I.other tag sort vs
  | _, _, _ => .bool False

/-- What an argument of a binding term means under any assignment. -/
abbrev Meaning := I.Assignment → Value I.U

open Classical
/-- The value of the first case that matches. -/
noncomputable def firstCase (sort : SortKind) (v : Value I.U) (ν : I.Assignment) :
    List (Option Name) → List (List Var) → List I.Meaning → Value I.U
  | constructor :: constructors, vars :: scopes, body :: bodies =>
    match I.fields constructor v with
    | some fields =>
      if I.HasSorts (vars.map Prod.snd) fields then body (I.assign vars fields ν)
      else I.noMatch sort
    | none => firstCase sort v ν constructors scopes bodies
  | _, _, _ => I.noMatch sort

/-- The value of a binding term from the meanings of its arguments. -/
noncomputable def binder (binder : Binder) (scopes : List (List Var)) (args : List I.Meaning)
    (ν : I.Assignment) : Value I.U :=
  match binder, scopes, args with
  | .forallQ, [vars], [body] => .bool (∀ vs, I.HasSorts (vars.map Prod.snd) vs →
      (body (I.assign vars vs ν)).holds)
  | .existsQ, [vars], [body] => .bool (∃ vs, I.HasSorts (vars.map Prod.snd) vs ∧
      (body (I.assign vars vs ν)).holds)
  | .letIn, scopes, args =>
    match scopes.getLast?, args.getLast? with
    | some names, some body => body (I.assign names (args.dropLast.map fun value => value ν) ν)
    | _, _ => .bool False
  | .matchOn constructors sort, _ :: scopes, scrutinee :: bodies =>
    I.firstCase sort (scrutinee ν) ν constructors scopes bodies
  | _, _, _ => .bool False

end Interp

namespace Term

variable (I : Interp)

mutual

/-- The value of a term under an assignment. -/
noncomputable def eval : Term → I.Assignment → Value I.U
  | .var name sort => fun ν => ν (name, sort)
  | .node kind args => fun ν => I.kind kind (args.map Term.sort) (evalAll args ν)
  | .bind binder scopes args => I.binder binder scopes (meanings args)

/-- The values of arguments under an assignment. -/
noncomputable def evalAll : List Term → I.Assignment → List (Value I.U)
  | [], _ => []
  | term :: rest, ν => eval term ν :: evalAll rest ν

/-- The meanings of arguments. -/
noncomputable def meanings : List Term → List I.Meaning
  | [] => []
  | term :: rest => eval term :: meanings rest

end

end Term

end Nixie.Ast

/-! An interpretation over finite trees, which shows that the laws of interpretations can be met. -/

namespace Nixie.Ast

inductive Tree where
  | leaf
  | node (constructor : Constructor) (fields : List (Value Tree))

namespace Interp

def treeDefault : SortKind → Value Tree
  | .bool => .bool False
  | .int | .real => .num 0
  | .bitVec width => .bits width 0
  | .uninterpreted _ => .other .leaf

/-- Constructors build trees, and every other symbol has the same value everywhere. -/
def trees : Interp where
  U := Tree
  carrier _ := Set.univ
  func _ sort _ := treeDefault sort
  constructor c vs := .other (.node c vs)
  other _ sort _ := treeDefault sort
  fields _ _ := none
  noMatch := treeDefault
  intDivZero _ := 0
  intModZero _ := 0
  realDivZero _ := 0

theorem treeDefault_hasSort (sort : SortKind) : trees.HasSort sort (treeDefault sort) := by
  cases sort with
  | bool => exact ⟨False, rfl⟩
  | int => exact ⟨0, congrArg Value.num Int.cast_zero.symm⟩
  | real => exact ⟨0, rfl⟩
  | bitVec width => exact ⟨0, Nat.two_pow_pos width, rfl⟩
  | uninterpreted name => exact ⟨.leaf, trivial, rfl⟩

theorem trees_lawful : trees.Lawful where
  inhabited sort := ⟨_, treeDefault_hasSort sort⟩
  func _ sort _ := treeDefault_hasSort sort
  other _ sort _ := treeDefault_hasSort sort
  noMatch := treeDefault_hasSort
  constructor c vs _ := ⟨.node c vs, trivial, rfl⟩
  free _ _ _ _ _ _ _ same := Tree.node.inj (Value.other.inj same)

def treeAssignment : trees.Assignment := fun x => treeDefault x.2

theorem treeAssignment_respects : trees.Respects treeAssignment :=
  fun x => treeDefault_hasSort x.2

end Interp

end Nixie.Ast
