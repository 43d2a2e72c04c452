import Mathlib.Algebra.Group.Int.Defs
import Mathlib.Data.Rat.Init
import Nixie.Core.Term

/-! Terms of all sorts; what the passes do not look into is kept generic. -/

namespace Nixie.Ast

abbrev Name := String

abbrev Var := Name × SortKind

instance : LawfulBEq Var := inferInstance

/-- A constructor of a datatype is identified by its declaration. -/
structure Constructor where
  name : Name
  fields : List SortKind
  data : Nat
  deriving DecidableEq

/-- The kinds of terms without binders, up to their arguments. -/
inductive Kind where
  | tru
  | fls
  | intConst (value : Int)
  | realConst (value : ℚ)
  | bitVecConst (value : Int) (width : Nat)
  | not
  | and
  | or
  | xor
  | implies
  | ite
  | eq
  | distinct
  | neg
  | add
  | sub
  | mul
  | div
  | mod
  | lt
  | le
  | gt
  | ge
  | apply (func : Name) (sort : SortKind)
  | dtConstructor (constructor : Constructor)
  -- All other kinds: arrays, strings, floating point, operations on bit vectors.
  | other (tag : Nat) (sort : SortKind)
  deriving DecidableEq

/-- The kinds of terms that bind variables in some of their arguments. -/
inductive Binder where
  | forallQ
  | existsQ
  -- The values come first, and the body is last.
  | letIn
  -- The scrutinee comes first, and a case for each constructor, or for all of them, follows.
  | matchOn (constructors : List (Option Name)) (sort : SortKind)
  deriving DecidableEq

inductive Term where
  | var (name : Name) (sort : SortKind)
  | node (kind : Kind) (args : List Term)
  | bind (binder : Binder) (scopes : List (List Var)) (args : List Term)

namespace Term

theorem induct {P : Term → Prop} (var : ∀ name sort, P (.var name sort))
    (node : ∀ kind args, (∀ arg ∈ args, P arg) → P (.node kind args))
    (bind : ∀ binder scopes args, (∀ arg ∈ args, P arg) → P (.bind binder scopes args))
    (t : Term) : P t := by
  refine @rec P (fun args => ∀ arg ∈ args, P arg) var node bind
    (fun _ mem => nomatch mem) ?_ t
  intro term rest head tail other mem
  rcases List.mem_cons.mp mem with rfl | mem
  · exact head
  · exact tail other mem

mutual

def same : Term → Term → Bool
  | .var name sort, .var name' sort' => name == name' && sort == sort'
  | .node kind args, .node kind' args' => kind == kind' && sameAll args args'
  | .bind binder scopes args, .bind binder' scopes' args' =>
    binder == binder' && scopes == scopes' && sameAll args args'
  | _, _ => false

def sameAll : List Term → List Term → Bool
  | [], [] => true
  | term :: rest, term' :: rest' => same term term' && sameAll rest rest'
  | _, _ => false

end

mutual

theorem same_iff : ∀ left right : Term, same left right = true ↔ left = right
  | .var _ _, right => by cases right <;> simp [same]
  | .node _ args, right => by cases right <;> simp [same, sameAll_iff args]
  | .bind _ _ args, right => by cases right <;> simp [same, sameAll_iff args, and_assoc]

theorem sameAll_iff : ∀ left right : List Term, sameAll left right = true ↔ left = right
  | [], right => by cases right <;> simp [sameAll]
  | term :: rest, right => by cases right <;> simp [sameAll, same_iff term, sameAll_iff rest]

end

instance : DecidableEq Term := fun left right =>
  decidable_of_iff (same left right = true) (same_iff left right)

end Term

/-- The sort of a term from the sorts of its arguments; arithmetic takes that of the first. -/
def Kind.sort : Kind → List SortKind → SortKind
  | .intConst _, _ => .int
  | .realConst _, _ => .real
  | .bitVecConst _ width, _ => .bitVec width
  | .ite, [_, sort, _] => sort
  | .neg, sorts | .add, sorts | .sub, sorts | .mul, sorts | .div, sorts | .mod, sorts =>
    sorts.headD .int
  | .apply _ sort, _ | .other _ sort, _ => sort
  | .dtConstructor constructor, _ => .uninterpreted constructor.data
  | _, _ => .bool

/-- The sort of a binding term from the sorts of its arguments. -/
def Binder.sort : Binder → List SortKind → SortKind
  | .forallQ, _ | .existsQ, _ => .bool
  | .letIn, sorts => sorts.getLastD .bool
  | .matchOn _ sort, _ => sort

namespace Term

mutual

def sort : Term → SortKind
  | .var _ sort => sort
  | .node kind args => kind.sort (sorts args)
  | .bind binder _ args => binder.sort (sorts args)

def sorts : List Term → List SortKind
  | [] => []
  | term :: rest => sort term :: sorts rest

end

theorem sorts_eq_map (args : List Term) : sorts args = args.map sort := by
  -- The second function only spells out the map.
  induction args with
  | nil => rfl
  | cons term rest ih => exact congrArg (sort term :: ·) ih

end Term

def Numeric (sort : SortKind) : Prop := sort = .int ∨ sort = .real

def Kind.Takes : Kind → List SortKind → Prop
  | .tru, sorts | .fls, sorts | .intConst _, sorts | .realConst _, sorts => sorts = []
  -- Constants are kept reduced.
  | .bitVecConst value width, sorts => sorts = [] ∧ 0 ≤ value ∧ value < 2 ^ width
  | .not, sorts => sorts = [.bool]
  | .and, sorts | .or, sorts => ∀ sort ∈ sorts, sort = .bool
  | .xor, sorts | .implies, sorts => sorts = [.bool, .bool]
  | .ite, sorts => ∃ sort, sorts = [.bool, sort, sort]
  | .eq, sorts => ∃ sort, sorts = [sort, sort]
  | .distinct, sorts => ∃ sort, ∀ other ∈ sorts, other = sort
  | .neg, sorts => ∃ sort, Numeric sort ∧ sorts = [sort]
  | .add, sorts | .mul, sorts =>
    sorts ≠ [] ∧ ∃ sort, Numeric sort ∧ ∀ other ∈ sorts, other = sort
  | .sub, sorts | .div, sorts | .lt, sorts | .le, sorts | .gt, sorts | .ge, sorts =>
    ∃ sort, Numeric sort ∧ sorts = [sort, sort]
  | .mod, sorts => sorts = [.int, .int]
  | .dtConstructor constructor, sorts => sorts = constructor.fields
  | .apply _ _, _ | .other _ _, _ => True

def Binder.Takes : Binder → List (List Var) → List SortKind → Prop
  | .forallQ, scopes, sorts | .existsQ, scopes, sorts => (∃ vars, scopes = [vars]) ∧ sorts = [.bool]
  | .letIn, scopes, sorts => ∃ names values body, sorts = values ++ [body] ∧
    scopes = values.map (fun _ => []) ++ [names] ∧ names.map Prod.snd = values
  | .matchOn constructors sort, scopes, sorts => ∃ scrutinee vars, scopes = [] :: vars ∧
    vars.length = constructors.length ∧ sorts = scrutinee :: vars.map fun _ => sort

/-- Terms whose arguments have the sorts that their kinds take. -/
inductive Term.WellSorted : Term → Prop
  | var (name : Name) (sort : SortKind) : WellSorted (.var name sort)
  | node {kind : Kind} {args : List Term} (takes : kind.Takes (args.map Term.sort))
      (each : ∀ arg ∈ args, WellSorted arg) : WellSorted (.node kind args)
  | bind {binder : Binder} {scopes : List (List Var)} {args : List Term}
      (takes : binder.Takes scopes (args.map Term.sort))
      (each : ∀ arg ∈ args, WellSorted arg) : WellSorted (.bind binder scopes args)

end Nixie.Ast
