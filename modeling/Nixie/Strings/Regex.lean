import Mathlib.Algebra.GroupWithZero.Nat
import Mathlib.Data.List.Basic

/-! Regular expressions: how they are built, compared, and what is left of them after a letter. -/

namespace Nixie.Strings

open Option

mutual

/-- An operation of regular expressions; no constructor builds a class of letters by category. -/
inductive RegexOp where
  | epsilon
  | none
  | all
  | allChar
  | char (c : Char)
  | range (lo hi : Char)
  | concat (parts : List Regex)
  | union (parts : List Regex)
  | inter (parts : List Regex)
  | complement (r : Regex)
  | star (r : Regex)
  | plus (r : Regex)
  | option (r : Regex)
  | loop (r : Regex) (min : Nat) (max : Option Nat)

/-- An operation, and whether it is known to have the empty word. -/
inductive Regex where
  | make (op : RegexOp) (nullable : Bool)

end

namespace Regex

def op : Regex → RegexOp
  | make op _ => op

/-- Whether the empty word is accepted, which is kept with the operation. -/
def nullable : Regex → Bool
  | make _ nullable => nullable

end Regex

mutual

/-- The size of an operation; bounds of a loop count as well. -/
def RegexOp.size : RegexOp → Nat
  | .concat parts => sizes parts + 1
  | .union parts => sizes parts + 1
  | .inter parts => sizes parts + 1
  | .complement r => r.size + 1
  | .star r => r.size + 1
  | .plus r => r.size + 1
  | .option r => r.size + 1
  | .loop r _ _ => r.size + 2
  | _ => 1

def Regex.size : Regex → Nat
  | .make op _ => op.size

def sizes : List Regex → Nat
  | [] => 0
  | r :: rs => r.size + sizes rs

end

theorem Regex.size_op (r : Regex) : r.op.size = r.size := by
  cases r
  rfl

def opRank : RegexOp → Nat
  | .epsilon => 0
  | .none => 1
  | .all => 2
  | .allChar => 3
  | .char _ => 4
  | .range _ _ => 5
  | .concat _ => 7
  | .union _ => 8
  | .inter _ => 9
  | .complement _ => 10
  | .star _ => 11
  | .plus _ => 12
  | .option _ => 13
  | .loop _ _ _ => 14

/-- Operands that are still to be compared, one by one. -/
def pairs : List Regex → List Regex → List (RegexOp × RegexOp)
  | x :: xs, y :: ys => (x.op, y.op) :: pairs xs ys
  | _, _ => []

/-- What is left to compare of two operations of one rank, if they are not known to differ. -/
def equalParts : RegexOp → RegexOp → Option (List (RegexOp × RegexOp))
  | .epsilon, _ | .none, _ | .all, _ | .allChar, _ => some []
  | .char x, .char y => if x ≠ y then none else some []
  | .range x1 x2, .range y1 y2 => if (x1, x2) ≠ (y1, y2) then none else some []
  | .concat x, .concat y | .union x, .union y | .inter x, .inter y =>
    if x.length ≠ y.length then none else some (pairs x y)
  | .complement x, .complement y | .star x, .star y | .plus x, .plus y | .option x, .option y =>
    some [(x.op, y.op)]
  | .loop x xlo xhi, .loop y ylo yhi =>
    if (xlo, xhi) ≠ (ylo, yhi) then none else some [(x.op, y.op)]
  | _, _ => none

def pairsSize (stack : List (RegexOp × RegexOp)) : Nat := (stack.map fun p => p.1.size).sum

theorem pairsSize_append (stack stack' : List (RegexOp × RegexOp)) :
    pairsSize (stack ++ stack') = pairsSize stack + pairsSize stack' := by
  rw [pairsSize, List.map_append, List.sum_append]
  rfl

theorem pairsSize_pairs (xs ys : List Regex) : pairsSize (pairs xs ys) ≤ sizes xs := by
  induction xs generalizing ys with
  | nil => exact Nat.le_refl 0
  | cons x xs ih =>
    cases ys with
    | nil => exact Nat.zero_le _
    | cons y ys =>
      have rest := ih ys
      rw [pairs, pairsSize, List.map_cons, List.sum_cons, Regex.size_op, sizes]
      exact Nat.add_le_add_left rest _

theorem pairsSize_singleton (x y : Regex) : pairsSize [(x.op, y.op)] = x.size := x.size_op

theorem pairsSize_equalParts {x y : RegexOp} {more : List (RegexOp × RegexOp)}
    (eq : equalParts x y = some more) : pairsSize more < x.size := by
  unfold equalParts at eq
  split at eq
  -- Letters and constants have no operands.
  case h_1 | h_2 | h_3 | h_4 =>
    obtain rfl := some.inj eq
    exact Nat.zero_lt_one
  case h_5 | h_6 =>
    split at eq
    · cases eq
    · obtain rfl := some.inj eq
      exact Nat.zero_lt_one
  case h_7 | h_8 | h_9 =>
    split at eq
    · cases eq
    · obtain rfl := some.inj eq
      exact Nat.lt_succ_of_le (pairsSize_pairs _ _)
  case h_10 | h_11 | h_12 | h_13 =>
    obtain rfl := some.inj eq
    rw [pairsSize_singleton]
    exact Nat.lt_succ_self _
  case h_14 =>
    split at eq
    · cases eq
    · obtain rfl := some.inj eq
      rw [pairsSize_singleton]
      exact Nat.lt_add_of_pos_right Nat.zero_lt_two
  case h_15 => cases eq

/-- Compares pending operations; all of them have to be the same. -/
def eqLoop (stack : List (RegexOp × RegexOp)) : Bool :=
  match stack with
  | [] => true
  | (a, b) :: stack =>
    if opRank a ≠ opRank b then false
    else match _eq : equalParts a b with
      | none => false
      -- What is pushed last is compared first.
      | some more => eqLoop (more.reverse ++ stack)
termination_by pairsSize stack
decreasing_by
  have less := pairsSize_equalParts _eq
  have reverse : pairsSize more.reverse = pairsSize more := by
    rw [pairsSize, List.map_reverse, List.sum_reverse, pairsSize]
  rw [pairsSize_append, reverse]
  exact Nat.add_lt_add_right less _

/-- Two expressions are the same; hashes only make this faster. -/
def Regex.eq (r other : Regex) : Bool := eqLoop [(r.op, other.op)]

/-- A step of a comparison: two operations, or an answer that counts if all before are equal. -/
inductive CmpStep where
  | pair (x y : RegexOp)
  | fixed (ord : Ordering)

/-- Compares upper bounds; no bound is less than any. -/
def cmpMax : Option Nat → Option Nat → Ordering
  | none, none => .eq
  | none, some _ => .lt
  | some _, none => .gt
  | some x, some y => compare x y

/-- How two operations of one rank compare by themselves, and what is left to compare. -/
def cmpParts : RegexOp → RegexOp → Ordering × List CmpStep
  | .epsilon, _ | .none, _ | .all, _ | .allChar, _ => (.eq, [])
  | .char p, .char q => (compare p q, [])
  | .range p1 p2, .range q1 q2 => ((compare p1 q1).then (compare p2 q2), [])
  | .concat p, .concat q | .union p, .union q | .inter p, .inter q =>
    (compare p.length q.length, (pairs p q).map fun step => .pair step.1 step.2)
  | .complement p, .complement q | .star p, .star q | .plus p, .plus q | .option p, .option q =>
    (.eq, [.pair p.op q.op])
  -- Bounds only count if the bodies are equal.
  | .loop p plo phi, .loop q qlo qhi =>
    (.eq, [.pair p.op q.op, .fixed ((compare plo qlo).then (cmpMax phi qhi))])
  | _, _ => (.eq, [])

def CmpStep.size : CmpStep → Nat
  | pair x _ => x.size
  | fixed _ => 1

def stepsSize (stack : List CmpStep) : Nat := (stack.map CmpStep.size).sum

theorem stepsSize_append (stack stack' : List CmpStep) :
    stepsSize (stack ++ stack') = stepsSize stack + stepsSize stack' := by
  rw [stepsSize, List.map_append, List.sum_append]
  rfl

theorem stepsSize_map_pair (stack : List (RegexOp × RegexOp)) :
    stepsSize (stack.map fun step => .pair step.1 step.2) = pairsSize stack := by
  rw [stepsSize, List.map_map]
  rfl

theorem stepsSize_cmpParts (x y : RegexOp) : stepsSize (cmpParts x y).2 < x.size := by
  unfold cmpParts
  split
  case h_1 | h_2 | h_3 | h_4 | h_5 | h_6 => exact Nat.zero_lt_one
  case h_7 | h_8 | h_9 =>
    rw [stepsSize_map_pair]
    exact Nat.lt_succ_of_le (pairsSize_pairs _ _)
  case h_10 | h_11 | h_12 | h_13 =>
    exact Nat.lt_succ_of_le (Nat.le_of_eq (Regex.size_op _))
  case h_14 p plo phi q qlo qhi =>
    have steps : stepsSize [.pair p.op q.op, .fixed ((compare plo qlo).then (cmpMax phi qhi))] =
        p.op.size + 1 := rfl
    rw [steps, p.size_op]
    exact Nat.lt_succ_self _
  case h_15 =>
    cases x <;> exact Nat.succ_pos _

def cmpLoop (stack : List CmpStep) : Ordering :=
  match stack with
  | [] => .eq
  | .fixed ord :: stack => if ord = .eq then cmpLoop stack else ord
  | .pair x y :: stack =>
    if opRank x ≠ opRank y then compare (opRank x) (opRank y)
    else if (cmpParts x y).1 ≠ .eq then (cmpParts x y).1
    else cmpLoop ((cmpParts x y).2 ++ stack)
termination_by stepsSize stack
decreasing_by
  · exact Nat.lt_add_of_pos_left Nat.zero_lt_one
  · rw [stepsSize_append]
    exact Nat.add_lt_add_right (stepsSize_cmpParts x y) _

def regexOpCmp (a b : RegexOp) : Ordering := cmpLoop [.pair a b]

def regexCmp (a b : Regex) : Ordering := regexOpCmp a.op b.op

/-- Drops what is the same as the entry that was kept last. -/
def dedupFrom (last : Regex) : List Regex → List Regex
  | [] => []
  | r :: rs => if r.eq last then dedupFrom last rs else r :: dedupFrom r rs

def dedup : List Regex → List Regex
  | [] => []
  | r :: rs => r :: dedupFrom r rs

/-- Brings operands into one order, each of them once. -/
def canonical (flat : List Regex) : List Regex :=
  dedup (flat.mergeSort fun a b => regexCmp a b != .gt)

namespace Regex

def epsilon : Regex := make .epsilon true

def none : Regex := make .none false

def all : Regex := make .all true

def allChar : Regex := make .allChar false

def char (c : Char) : Regex := make (.char c) false

def range (lo hi : Char) : Regex := if hi < lo then none else make (.range lo hi) false

/-- What becomes of an operand when the operands of an operation are flattened. -/
inductive Role where
  | skip
  | absorb
  | splice (inner : List Regex)
  | keep

def flatten (role : RegexOp → Role) : List Regex → Option (List Regex)
  | [] => some []
  | p :: rest => match role p.op with
    | .skip => flatten role rest
    | .absorb => Option.none
    | .splice inner => (flatten role rest).map (inner ++ ·)
    | .keep => (flatten role rest).map (p :: ·)

def concatRole : RegexOp → Role
  | .epsilon => .skip
  | .none => .absorb
  | .concat inner => .splice inner
  | _ => .keep

def concat (parts : List Regex) : Regex :=
  match flatten concatRole parts with
  | Option.none => none
  | some [r] => r
  | some [] => epsilon
  | some flat => make (.concat flat) (flat.all nullable)

def literal (s : String) : Regex :=
  if s.toList.isEmpty then epsilon else concat (s.toList.map char)

def unionRole : RegexOp → Role
  | .none => .skip
  | .all => .absorb
  | .union inner => .splice inner
  | _ => .keep

def union (parts : List Regex) : Regex :=
  match flatten unionRole parts with
  | Option.none => all
  | some [r] => r
  | some [] => none
  | some flat => make (.union (canonical flat)) ((canonical flat).any nullable)

def interRole : RegexOp → Role
  | .all => .skip
  | .none => .absorb
  | .inter inner => .splice inner
  | _ => .keep

def inter (parts : List Regex) : Regex :=
  match flatten interRole parts with
  | Option.none => none
  | some [r] => r
  | some [] => all
  | some flat => make (.inter (canonical flat)) ((canonical flat).all nullable)

def complement (r : Regex) : Regex :=
  match r.op with
  | .none => all
  | .all => none
  | .complement inner => inner
  | _ => make (.complement r) (!r.nullable)

def star (r : Regex) : Regex :=
  match r.op with
  | .epsilon | .none => epsilon
  | .star _ | .all => r
  | _ => make (.star r) true

def plus (r : Regex) : Regex :=
  match r.op with
  | .epsilon => epsilon
  | .none => none
  | .star _ | .plus _ => r
  | _ => make (.plus r) r.nullable

def option (r : Regex) : Regex :=
  if r.nullable then r
  else match r.op with
    | .none => epsilon
    | _ => make (.option r) true

def isEmpty (r : Regex) : Bool :=
  match r.op with
  | .none => true
  | _ => false

def loopBounded (r : Regex) (min : Nat) (max : Option Nat) : Regex :=
  if min = 0 ∧ max = some 0 then epsilon
  else if ∃ m ∈ max, m < min then none
  else if r.isEmpty ∧ 0 < min then none
  else match r.op with
    | .epsilon => epsilon
    | _ => make (.loop r min max) (min = 0 || r.nullable)

end Regex

end Nixie.Strings

/-! What is left of an expression after a letter, by an explicit stack of frames. -/

namespace Nixie.Strings

open Nat

/-- How a result is built from those of the operands. -/
inductive DerivBuild where
  | concat (parts : List Regex) (taken : List Nat)
  | union
  | inter
  | complement
  | suffix (rest : Regex)

/-- An expression whose operands are worked off. -/
structure DerivFrame where
  build : DerivBuild
  /-- What is left to do, the next one first. -/
  pending : List Regex
  done : List Regex

/-- The result for an expression all of whose operands are done. -/
def DerivFrame.finish (frame : DerivFrame) : Regex :=
  match frame.build with
  | .concat parts taken => .union <| (frame.done.zip taken).filterMap fun (d, i) =>
      if d.isEmpty then none else some (.concat (d :: parts.drop (i + 1)))
  | .union => .union frame.done
  | .inter => .inter frame.done
  | .complement => .complement (.union frame.done)
  | .suffix rest => .concat (frame.done ++ [rest])

/-- The positions up to the first operand without the empty word. -/
def takenFrom (i : Nat) : List Regex → List Nat
  | [] => []
  | part :: parts => i :: if part.nullable then takenFrom (i + 1) parts else []

def unwrapOption (node : Regex) : Regex :=
  match node with
  | .make (.option inner) _ => unwrapOption inner
  | node => node
termination_by node.size
decreasing_by exact lt_succ_self _

/-- The answer for an expression, or a frame for its operands. -/
def openNode (node : Regex) (c : Char) : Regex ⊕ DerivFrame :=
  match node.op with
  | .epsilon | .none => .inl .none
  | .all => .inl .all
  | .allChar => .inl .epsilon
  | .char ch => .inl (if ch = c then .epsilon else .none)
  | .range lo hi => .inl (if lo ≤ c ∧ c ≤ hi then .epsilon else .none)
  | .concat parts => .inr ⟨.concat parts (takenFrom 0 parts),
      (takenFrom 0 parts).filterMap (parts[·]?), []⟩
  | .union parts => .inr ⟨.union, parts, []⟩
  | .inter parts => .inr ⟨.inter, parts, []⟩
  | .complement inner => .inr ⟨.complement, [inner], []⟩
  | .star inner => .inr ⟨.suffix node, [inner], []⟩
  | .plus inner => .inr ⟨.suffix inner.star, [inner], []⟩
  | .loop inner min max =>
    .inr ⟨.suffix (inner.loopBounded (min - 1) (max.map (· - 1))), [inner], []⟩
  -- Options are unwrapped before.
  | .option inner => .inr ⟨.union, [inner], []⟩

/-- What an expression needs: an answer at once, or its operands. -/
def openDerivative (node : Regex) (c : Char) : Regex ⊕ DerivFrame := openNode (unwrapOption node) c

theorem size_unwrapOption_le (node : Regex) : (unwrapOption node).size ≤ node.size := by
  fun_induction unwrapOption node with
  | case1 inner nullable ih => exact le_succ_of_le ih
  | case2 node other => exact Nat.le_refl _

/-- The operands up to the first one without the empty word. -/
def leading : List Regex → List Regex
  | [] => []
  | part :: parts => part :: if part.nullable then leading parts else []

theorem filterMap_takenFrom (before parts : List Regex) :
    (takenFrom before.length parts).filterMap ((before ++ parts)[·]?) = leading parts := by
  induction parts generalizing before with
  | nil => rfl
  | cons part parts ih =>
    have found : (before ++ part :: parts)[before.length]? = some part := by
      rw [List.getElem?_append_right (Nat.le_refl _), Nat.sub_self]
      rfl
    rw [takenFrom, leading, List.filterMap_cons]
    simp only [found]
    split
    · have rest := ih (before ++ [part])
      rw [List.length_append, List.length_singleton, List.append_assoc, List.singleton_append] at rest
      rw [rest]
    · rfl

theorem sizes_leading_le (parts : List Regex) : sizes (leading parts) ≤ sizes parts := by
  induction parts with
  | nil => exact Nat.le_refl _
  | cons part parts ih =>
    rw [leading, sizes, sizes]
    refine Nat.add_le_add_left ?_ _
    split
    · exact ih
    · exact zero_le _

theorem sizes_pending_lt {node : Regex} {c : Char} {frame : DerivFrame}
    (eq : openNode node c = .inr frame) : sizes frame.pending < node.size := by
  rw [← node.size_op]
  unfold openNode at eq
  split at eq
  case h_1 | h_2 | h_3 | h_4 | h_5 | h_6 => cases eq
  case h_7 parts same =>
    obtain rfl := Sum.inr.inj eq
    have taken := filterMap_takenFrom [] parts
    rw [same, RegexOp.size]
    exact lt_succ_of_le (taken ▸ sizes_leading_le parts)
  case h_8 parts same | h_9 parts same =>
    obtain rfl := Sum.inr.inj eq
    rw [same]
    exact lt_succ_self _
  case h_10 inner same | h_11 inner same | h_12 inner same | h_14 inner same =>
    obtain rfl := Sum.inr.inj eq
    rw [same]
    exact lt_succ_self _
  case h_13 inner min max same =>
    obtain rfl := Sum.inr.inj eq
    rw [same]
    exact Nat.lt_add_of_pos_right Nat.zero_lt_two

theorem sizes_pending_lt_of_openDerivative {node : Regex} {c : Char} {frame : DerivFrame}
    (eq : openDerivative node c = .inr frame) : sizes frame.pending < node.size :=
  Nat.lt_of_lt_of_le (sizes_pending_lt eq) (size_unwrapOption_le node)

/-- The steps that open frames take: one to open and one to finish each of their operands. -/
def framesSize (frames : List DerivFrame) : Nat :=
  (frames.map fun frame => 2 * sizes frame.pending + 1).sum

theorem framesSize_cons (frame : DerivFrame) (frames : List DerivFrame) :
    framesSize (frame :: frames) = 2 * sizes frame.pending + 1 + framesSize frames := by
  rw [framesSize, List.map_cons, List.sum_cons]
  rfl

theorem Regex.size_pos (r : Regex) : 0 < r.size := by
  rw [← r.size_op]
  cases r.op <;> exact succ_pos _

/-- A result goes to the frame that asked for it. -/
def DerivFrame.receive (frame : DerivFrame) : Option Regex → DerivFrame
  | none => frame
  | some d => { frame with done := frame.done ++ [d] }

@[simp] theorem DerivFrame.pending_receive (frame : DerivFrame) (carry : Option Regex) :
    (frame.receive carry).pending = frame.pending := by
  cases carry <;> rfl

/-- Works off frames; the last result is handed back. -/
def driver (c : Char) (frames : List DerivFrame) (carry : Option Regex) : Regex :=
  match frames with
  | [] => carry.getD .none
  | ⟨build, [], done⟩ :: frames =>
    driver c frames (some (DerivFrame.receive ⟨build, [], done⟩ carry).finish)
  | ⟨build, child :: pending, done⟩ :: frames =>
    match _eq : openDerivative child c with
    | .inl r => driver c (DerivFrame.receive ⟨build, pending, done⟩ carry :: frames) (some r)
    | .inr frame => driver c (frame :: DerivFrame.receive ⟨build, pending, done⟩ carry :: frames) none
termination_by framesSize frames
decreasing_by
  · rw [framesSize_cons]
    exact Nat.lt_add_of_pos_left (succ_pos _)
  · have positive := child.size_pos
    rw [framesSize_cons, framesSize_cons, DerivFrame.pending_receive, sizes]
    dsimp only
    omega
  · have less := sizes_pending_lt_of_openDerivative _eq
    rw [framesSize_cons, framesSize_cons, framesSize_cons, DerivFrame.pending_receive, sizes]
    dsimp only
    omega

/-- What is left of an expression after a letter. -/
def Regex.derivative (r : Regex) (c : Char) : Regex :=
  match openDerivative r c with
  | .inl r => r
  | .inr frame => driver c [frame] Option.none

/-- Whether what is left after all letters has the empty word. -/
def matchesFrom (current : Regex) : List Char → Bool
  | [] => current.nullable
  | c :: cs => if (current.derivative c).isEmpty then false else matchesFrom (current.derivative c) cs

def Regex.matches_ (r : Regex) (s : String) : Bool := matchesFrom r s.toList

end Nixie.Strings
