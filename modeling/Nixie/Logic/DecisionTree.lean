import Mathlib.Data.Finset.Card

/-! Trees that decide variables in increasing order, as Boolean functions and as families of sets. -/

namespace Nixie

open Function

/-- A leaf is a truth value, and a branch goes on in one of two trees. -/
inductive DecisionTree (α : Type*) where
  | leaf (value : Bool)
  | branch (var : α) (low high : DecisionTree α)
  deriving DecidableEq

namespace DecisionTree

variable {α : Type*}

def eval (σ : α → Bool) : DecisionTree α → Bool
  | leaf value => value
  | branch var low high => if σ var then high.eval σ else low.eval σ

section

variable [LinearOrder α]

/-- The first variable of a tree comes after the given one. -/
def After (var : α) : DecisionTree α → Prop
  | leaf _ => True
  | branch first _ _ => var < first

def Ordered : DecisionTree α → Prop
  | leaf _ => True
  | branch var low high => low.After var ∧ high.After var ∧ low.Ordered ∧ high.Ordered

def Reduced : DecisionTree α → Prop
  | leaf _ => True
  | branch _ low high => low ≠ high ∧ low.Reduced ∧ high.Reduced

theorem After.of_le {var var' : α} {t : DecisionTree α} (after : t.After var) (le : var' ≤ var) :
    t.After var' := by
  cases t with
  | leaf value => exact trivial
  | branch first low high => exact le.trans_lt after

theorem Ordered.eval_congr {var : α} {t : DecisionTree α} (ordered : t.Ordered)
    (after : t.After var) {σ σ' : α → Bool} (agree : ∀ other, var < other → σ other = σ' other) :
    t.eval σ = t.eval σ' := by
  induction t generalizing var with
  | leaf value => rfl
  | branch first low high ihLow ihHigh =>
    obtain ⟨afterLow, afterHigh, orderedLow, orderedHigh⟩ := ordered
    have less : var < first := after
    have agree' : ∀ other, first < other → σ other = σ' other :=
      fun other more => agree other (less.trans more)
    rw [eval, eval, agree first less, ihLow orderedLow afterLow agree',
      ihHigh orderedHigh afterHigh agree']

theorem Ordered.eval_update {var : α} {t : DecisionTree α} (ordered : t.Ordered)
    (after : t.After var) (σ : α → Bool) (value : Bool) :
    t.eval (update σ var value) = t.eval σ := by
  refine ordered.eval_congr after fun other more => ?_
  exact update_of_ne more.ne' _ _

theorem eval_branch_update {var : α} {low high : DecisionTree α}
    (ordered : (branch var low high).Ordered) (σ : α → Bool) (value : Bool) :
    (branch var low high).eval (update σ var value) =
      if value then high.eval σ else low.eval σ := by
  obtain ⟨afterLow, afterHigh, orderedLow, orderedHigh⟩ := ordered
  rw [eval, update_self, orderedLow.eval_update afterLow, orderedHigh.eval_update afterHigh]

theorem eval_ne_of_after {var : α} {low high t : DecisionTree α}
    (ordered : (branch var low high).Ordered) (effect : ∃ σ, low.eval σ ≠ high.eval σ)
    (orderedLater : t.Ordered) (after : t.After var) :
    ∃ σ, (branch var low high).eval σ ≠ t.eval σ := by
  by_contra same
  push Not at same
  obtain ⟨σ, differ⟩ := effect
  refine differ ?_
  -- Both sides of the decision are the later tree.
  have left := same (update σ var false)
  have right := same (update σ var true)
  rw [eval_branch_update ordered, orderedLater.eval_update after] at left right
  exact left.trans right.symm

def decisions : DecisionTree α → Nat
  | leaf _ => 0
  | branch _ low high => low.decisions + high.decisions + 1

theorem exists_eval_ne {s t : DecisionTree α} (orderedLeft : s.Ordered) (reducedLeft : s.Reduced)
    (orderedRight : t.Ordered) (reducedRight : t.Reduced) (distinct : s ≠ t) :
    ∃ σ, s.eval σ ≠ t.eval σ := by
  -- The sides of one tree are compared too, so the induction is on the decisions of both.
  induction total : s.decisions + t.decisions using Nat.strong_induction_on generalizing s t with
  | _ n ih =>
    have effect {var : α} {low high : DecisionTree α} (ordered : (branch var low high).Ordered)
        (reduced : (branch var low high).Reduced) (less : low.decisions + high.decisions < n) :
        ∃ σ, low.eval σ ≠ high.eval σ :=
      ih _ less ordered.2.2.1 reduced.2.1 ordered.2.2.2 reduced.2.2 reduced.1 rfl
    match s, t with
    | leaf value, leaf value' => exact ⟨fun _ => false, fun eq => distinct (congrArg leaf eq)⟩
    | branch var low high, leaf value =>
      simp only [decisions] at total
      exact eval_ne_of_after orderedLeft (effect orderedLeft reducedLeft (by omega)) trivial trivial
    | leaf value, branch var low high =>
      simp only [decisions] at total
      obtain ⟨σ, differ⟩ := eval_ne_of_after (t := leaf value) orderedRight
        (effect orderedRight reducedRight (by omega)) trivial trivial
      exact ⟨σ, differ.symm⟩
    | branch var low high, branch var' low' high' =>
      simp only [decisions] at total
      rcases lt_trichotomy var var' with less | rfl | more
      · exact eval_ne_of_after orderedLeft (effect orderedLeft reducedLeft (by omega)) orderedRight
          less
      · -- The same decision: one of the two sides is different.
        by_cases lows : low = low'
        · have highs : high ≠ high' := fun eq => distinct (by rw [lows, eq])
          obtain ⟨σ, differ⟩ := ih (high.decisions + high'.decisions) (by omega) orderedLeft.2.2.2
            reducedLeft.2.2 orderedRight.2.2.2 reducedRight.2.2 highs rfl
          refine ⟨update σ var true, ?_⟩
          rwa [eval_branch_update orderedLeft, eval_branch_update orderedRight]
        · obtain ⟨σ, differ⟩ := ih (low.decisions + low'.decisions) (by omega) orderedLeft.2.2.1
            reducedLeft.2.1 orderedRight.2.2.1 reducedRight.2.1 lows rfl
          refine ⟨update σ var false, ?_⟩
          rwa [eval_branch_update orderedLeft, eval_branch_update orderedRight]
      · obtain ⟨σ, differ⟩ := eval_ne_of_after orderedRight
          (effect orderedRight reducedRight (by omega)) orderedLeft more
        exact ⟨σ, differ.symm⟩

theorem eq_iff_eval_eq {s t : DecisionTree α} (orderedLeft : s.Ordered) (reducedLeft : s.Reduced)
    (orderedRight : t.Ordered) (reducedRight : t.Reduced) :
    s = t ↔ ∀ σ, s.eval σ = t.eval σ := by
  refine ⟨fun same σ => by rw [same], fun same => ?_⟩
  by_contra distinct
  obtain ⟨σ, differ⟩ := exists_eval_ne orderedLeft reducedLeft orderedRight reducedRight distinct
  exact differ (same σ)

end

end DecisionTree

end Nixie
