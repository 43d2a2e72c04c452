import Mathlib.Data.List.Basic

/-! The term language of the solver front end, with hash-consed identity as structural equality. -/

namespace Nixie

inductive SortKind where
  | bool
  | int
  | real
  | bitVec (width : Nat)
  | uninterpreted (name : Nat)
  deriving DecidableEq, Repr

/-- Terms; a leaf or function symbol carries the identity under which it was interned. -/
inductive Term where
  | tru
  | fls
  | var (id : Nat) (sort : SortKind)
  | intConst (value : Int)
  | not (arg : Term)
  | and (args : List Term)
  | or (args : List Term)
  | xor (lhs rhs : Term)
  | implies (lhs rhs : Term)
  | ite (cond thenBr elseBr : Term)
  | eq (lhs rhs : Term)
  | distinct (args : List Term)
  | le (lhs rhs : Term)
  | lt (lhs rhs : Term)
  | ge (lhs rhs : Term)
  | gt (lhs rhs : Term)
  | add (args : List Term)
  | mul (args : List Term)
  | sub (lhs rhs : Term)
  | neg (arg : Term)
  | apply (func : Nat) (args : List Term) (sort : SortKind)
  | forallQ (vars : List (Nat × SortKind)) (body : Term)
  | existsQ (vars : List (Nat × SortKind)) (body : Term)
  deriving Repr

namespace Term

mutual

def same : Term → Term → Bool
  -- Interning makes identity of terms the same as identity of their trees.
  | .tru, .tru => true
  | .fls, .fls => true
  | .var id sort, .var id' sort' => id == id' && sort == sort'
  | .intConst value, .intConst value' => value == value'
  | .not arg, .not arg' => same arg arg'
  | .and args, .and args' => sameAll args args'
  | .or args, .or args' => sameAll args args'
  | .xor lhs rhs, .xor lhs' rhs' => same lhs lhs' && same rhs rhs'
  | .implies lhs rhs, .implies lhs' rhs' => same lhs lhs' && same rhs rhs'
  | .ite cond thenBr elseBr, .ite cond' thenBr' elseBr' =>
      same cond cond' && same thenBr thenBr' && same elseBr elseBr'
  | .eq lhs rhs, .eq lhs' rhs' => same lhs lhs' && same rhs rhs'
  | .distinct args, .distinct args' => sameAll args args'
  | .le lhs rhs, .le lhs' rhs' => same lhs lhs' && same rhs rhs'
  | .lt lhs rhs, .lt lhs' rhs' => same lhs lhs' && same rhs rhs'
  | .ge lhs rhs, .ge lhs' rhs' => same lhs lhs' && same rhs rhs'
  | .gt lhs rhs, .gt lhs' rhs' => same lhs lhs' && same rhs rhs'
  | .add args, .add args' => sameAll args args'
  | .mul args, .mul args' => sameAll args args'
  | .sub lhs rhs, .sub lhs' rhs' => same lhs lhs' && same rhs rhs'
  | .neg arg, .neg arg' => same arg arg'
  | .apply func args sort, .apply func' args' sort' =>
      func == func' && sameAll args args' && sort == sort'
  | .forallQ vars body, .forallQ vars' body' => vars == vars' && same body body'
  | .existsQ vars body, .existsQ vars' body' => vars == vars' && same body body'
  | _, _ => false

def sameAll : List Term → List Term → Bool
  | [], [] => true
  | term :: rest, term' :: rest' => same term term' && sameAll rest rest'
  | _, _ => false

end

mutual

theorem same_iff : ∀ left right : Term, same left right = true ↔ left = right
  -- One case for each constructor; the mixed cases compare different constructors.
  | .tru, right => by cases right <;> simp [same]
  | .fls, right => by cases right <;> simp [same]
  | .var _ _, right => by cases right <;> simp [same]
  | .intConst _, right => by cases right <;> simp [same]
  | .not arg, right => by cases right <;> simp [same, same_iff arg]
  | .and args, right => by cases right <;> simp [same, sameAll_iff args]
  | .or args, right => by cases right <;> simp [same, sameAll_iff args]
  | .xor lhs rhs, right => by cases right <;> simp [same, same_iff lhs, same_iff rhs]
  | .implies lhs rhs, right => by cases right <;> simp [same, same_iff lhs, same_iff rhs]
  | .ite cond thenBr elseBr, right => by
      cases right <;> simp [same, same_iff cond, same_iff thenBr, same_iff elseBr, and_assoc]
  | .eq lhs rhs, right => by cases right <;> simp [same, same_iff lhs, same_iff rhs]
  | .distinct args, right => by cases right <;> simp [same, sameAll_iff args]
  | .le lhs rhs, right => by cases right <;> simp [same, same_iff lhs, same_iff rhs]
  | .lt lhs rhs, right => by cases right <;> simp [same, same_iff lhs, same_iff rhs]
  | .ge lhs rhs, right => by cases right <;> simp [same, same_iff lhs, same_iff rhs]
  | .gt lhs rhs, right => by cases right <;> simp [same, same_iff lhs, same_iff rhs]
  | .add args, right => by cases right <;> simp [same, sameAll_iff args]
  | .mul args, right => by cases right <;> simp [same, sameAll_iff args]
  | .sub lhs rhs, right => by cases right <;> simp [same, same_iff lhs, same_iff rhs]
  | .neg arg, right => by cases right <;> simp [same, same_iff arg]
  | .apply _ args _, right => by cases right <;> simp [same, sameAll_iff args, and_assoc]
  | .forallQ _ body, right => by cases right <;> simp [same, same_iff body]
  | .existsQ _ body, right => by cases right <;> simp [same, same_iff body]

theorem sameAll_iff : ∀ left right : List Term, sameAll left right = true ↔ left = right
  | [], right => by cases right <;> simp [sameAll]
  | term :: rest, right => by cases right <;> simp [sameAll, same_iff term, sameAll_iff rest]

end

instance : DecidableEq Term := fun left right =>
  decidable_of_iff (same left right = true) (same_iff left right)

mutual

/-- Sort of a term; arithmetic takes the sort of its first operand. -/
def sort : Term → SortKind
  | .var _ sort => sort
  | .intConst _ => .int
  | .ite _ thenBr _ => thenBr.sort
  | .add args => headSort args
  | .mul args => headSort args
  | .sub lhs _ => lhs.sort
  | .neg arg => arg.sort
  | .apply _ _ sort => sort
  | _ => .bool

/-- Sort of the first operand; an empty sum or product is an integer. -/
def headSort : List Term → SortKind
  | [] => .int
  | term :: _ => term.sort

end

end Term

end Nixie
