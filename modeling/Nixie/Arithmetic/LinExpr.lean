import Mathlib.Algebra.BigOperators.Ring.List
import Mathlib.Data.List.Sort
import Mathlib.Tactic.Ring

/-! Linear expressions, with exact coefficients. -/

namespace Nixie.Arithmetic

open List

abbrev VarId := Nat

abbrev LinTerm := VarId × ℚ

/-- The value of a sum of terms at numbers that include the rationals. -/
def total {K : Type*} [Field K] (terms : List LinTerm) (x : VarId → K) : K :=
  (terms.map fun t => t.2 * x t.1).sum

/-- A linear expression. -/
structure LinExpr where
  terms : List LinTerm
  constant : ℚ
  deriving DecidableEq

def LinExpr.value {K : Type*} [Field K] (expr : LinExpr) (x : VarId → K) : K :=
  total expr.terms x + expr.constant

def vars (terms : List LinTerm) : List VarId := terms.map Prod.fst

variable {K : Type*} [Field K] {terms others : List LinTerm} {x y : VarId → K}

@[simp] theorem total_nil (x : VarId → K) : total [] x = 0 := rfl

@[simp] theorem total_cons (t : LinTerm) (terms : List LinTerm) (x : VarId → K) :
    total (t :: terms) x = t.2 * x t.1 + total terms x := rfl

theorem total_perm (perm : terms.Perm others) (x : VarId → K) : total terms x = total others x :=
  (perm.map _).sum_eq

theorem total_map_mul [CharZero K] (factor : ℚ) (terms : List LinTerm) (x : VarId → K) :
    total (terms.map fun t => (t.1, t.2 * factor)) x = total terms x * factor := by
  induction terms with
  | nil => exact (zero_mul _).symm
  | cons t terms ih =>
    rw [map_cons, total_cons, total_cons, ih, Rat.cast_mul]
    ring

theorem total_filter (terms : List LinTerm) (x : VarId → K) :
    total (terms.filter (·.2 ≠ 0)) x = total terms x := by
  induction terms with
  | nil => rfl
  | cons t terms ih =>
    rw [total_cons, filter_cons]
    split
    · rw [total_cons, ih]
    · rename_i zero
      have coefficient : t.2 = 0 := by simpa using zero
      rw [ih, coefficient, Rat.cast_zero, zero_mul, zero_add]

theorem total_congr (agree : ∀ v ∈ vars terms, x v = y v) : total terms x = total terms y := by
  induction terms with
  | nil => rfl
  | cons t terms ih =>
    rw [total_cons, total_cons, agree t.1 (.head _), ih fun v mem => agree v (.tail _ mem)]

def sortTerms (terms : List LinTerm) : List LinTerm := terms.insertionSort fun s t => s.1 ≤ t.1

theorem sortTerms_perm (terms : List LinTerm) : (sortTerms terms).Perm terms :=
  perm_insertionSort _ terms

/-- Adds to the coefficient of the first term of a variable. -/
def addToFirst (var : VarId) (coef : ℚ) : List LinTerm → List LinTerm
  | [] => []
  | t :: terms => if t.1 = var then (t.1, t.2 + coef) :: terms else t :: addToFirst var coef terms

def addTerm (terms : List LinTerm) (var : VarId) (coef : ℚ) : List LinTerm :=
  if coef = 0 then terms
  else match terms.find? (·.1 = var) with
    | some t => if t.2 + coef = 0 then terms.filter (·.1 ≠ var) else addToFirst var coef terms
    | none => terms ++ [(var, coef)]

theorem vars_filter (terms : List LinTerm) (v : VarId) :
    vars (terms.filter (·.1 ≠ v)) = (vars terms).filter (· ≠ v) := by
  rw [vars, vars, filter_map]
  rfl

theorem total_split {v : VarId} (nodup : (vars terms).Nodup) {t : LinTerm}
    (found : terms.find? (·.1 = v) = some t) (x : VarId → K) :
    total terms x = t.2 * x v + total (terms.filter (·.1 ≠ v)) x := by
  induction terms with
  | nil => cases found
  | cons s terms ih =>
    obtain ⟨fresh, nodup⟩ := nodup_cons.mp nodup
    rw [total_cons]
    by_cases first : s.1 = v
    · -- No other term has the variable.
      rw [find?_cons_of_pos (by simpa using first)] at found
      obtain rfl := Option.some.inj found
      have others : terms.filter (·.1 ≠ v) = terms := filter_eq_self.mpr fun u mem => by
        have ne : u.1 ≠ v := fun same => fresh (first.trans same.symm ▸ mem_map_of_mem mem)
        simpa using ne
      rw [filter_cons_of_neg (by simpa using first), others, first]
    · rw [find?_cons_of_neg (by simpa using first)] at found
      rw [ih nodup found, filter_cons_of_pos (by simpa using first), total_cons]
      ring

end Nixie.Arithmetic
