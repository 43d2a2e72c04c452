import Mathlib.Tactic.FieldSimp
import Mathlib.Tactic.Linarith
import Mathlib.Tactic.LinearCombination
import Nixie.Arithmetic.LinExpr

/-! Systems of linear equations are simplified by Gaussian elimination. -/

namespace Nixie.Arithmetic

open List Function

/-- A linear equation: the sum of the terms is the right-hand side. -/
structure LinearEquation where
  terms : List LinTerm
  rhs : ℚ
  deriving DecidableEq

def insertTerm (map : List LinTerm) (t : LinTerm) : List LinTerm := map.filter (·.1 ≠ t.1) ++ [t]

/-- Subtracts multiples of coefficients, and adds the terms that are left in the map. -/
def subtractTerms (factor : ℚ) : List LinTerm → List LinTerm → List LinTerm
  | [], map => (map.map fun t => (t.1, -factor * t.2)).filter (·.2 ≠ 0)
  | (v, c) :: terms, map =>
    match map.find? (·.1 = v) with
    | some other =>
      let rest := subtractTerms factor terms (map.filter (·.1 ≠ v))
      if c - factor * other.2 ≠ 0 then (v, c - factor * other.2) :: rest else rest
    | none => (v, c) :: subtractTerms factor terms map

namespace LinearEquation

def normalize (eq : LinearEquation) : LinearEquation :=
  match eq.terms.head? with
  | some (_, first) =>
    if first ≠ 0 ∧ first ≠ 1 then
      ⟨eq.terms.map fun t => (t.1, t.2 * (1 / first)), eq.rhs * (1 / first)⟩
    else eq
  | none => eq

def leadingVar (eq : LinearEquation) : Option VarId := (eq.terms.find? (·.2 ≠ 0)).map Prod.fst

def coef (eq : LinearEquation) (var : VarId) : ℚ :=
  ((eq.terms.find? (·.1 = var)).map Prod.snd).getD 0

/-- Subtracts the multiple of another equation that cancels a variable. -/
def eliminate (eq : LinearEquation) (var : VarId) (other : LinearEquation) : LinearEquation :=
  if other.coef var = 0 then eq
  else
    let factor := eq.coef var / other.coef var
    let otherMap := other.terms.foldl insertTerm []
    ⟨sortTerms (subtractTerms factor eq.terms otherMap), eq.rhs - factor * other.rhs⟩

def solve (eq : LinearEquation) (pivot : VarId) : LinearEquation :=
  ⟨(eq.terms.filter (·.1 ≠ pivot)).map fun t => (t.1, -t.2 / eq.coef pivot), eq.rhs / eq.coef pivot⟩

/-- Equations without variables come first, and others in the order of their leading variables. -/
def leadingLe (a b : LinearEquation) : Bool :=
  match a.leadingVar, b.leadingVar with
  | none, _ => true
  | some _, none => false
  | some v, some w => v ≤ w

end LinearEquation

/-- The system and the expressions that variables are replaced by. -/
structure GaussianElimination where
  equations : List LinearEquation
  /-- Variables and what they are equal to, latest first. -/
  substitutions : List (VarId × LinearEquation)
  deriving DecidableEq

namespace GaussianElimination

def new : GaussianElimination := ⟨[], []⟩

/-- Cancels leading variables in the equations below, drops equations without variables, and
records what the variables are equal to; nothing if the system is inconsistent. -/
def forwardElimination :
    Nat → List LinearEquation → Option (List LinearEquation × List (VarId × LinearEquation))
  | 0, _ => some ([], [])
  | _, [] => some ([], [])
  | fuel + 1, eq :: below =>
    match eq.leadingVar with
    | some pivot => (forwardElimination fuel (below.map (·.eliminate pivot eq))).map
      fun (rows, eliminated) => (eq :: rows, eliminated ++ [(pivot, eq.solve pivot)])
    | none => if eq.rhs ≠ 0 then none else forwardElimination fuel below

/-- Cancels leading variables in the equations above; the last equation comes first. -/
def backSubstitution : Nat → List LinearEquation → List LinearEquation
  | 0, _ => []
  | _, [] => []
  | fuel + 1, eq :: above =>
    eq :: backSubstitution fuel (match eq.leadingVar with
      | some pivot => above.map (·.eliminate pivot eq)
      | none => above)

/-- Simplifies the system: the state afterwards, and the equations and substitutions returned. -/
def eliminate (ge : GaussianElimination) :
    GaussianElimination × List LinearEquation × List (VarId × LinearEquation) :=
  if ge.equations.isEmpty then (ge, [], [])
  else
    let equations := (ge.equations.map LinearEquation.normalize).insertionSort
      fun a b => a.leadingLe b = true
    match forwardElimination equations.length equations with
    -- An inconsistent system is cleared.
    | none => ({ ge with equations := [] }, [], [])
    | some (rows, eliminated) =>
      let rows := (backSubstitution rows.length rows.reverse).reverse
      (⟨rows, eliminated⟩, rows, eliminated)

end GaussianElimination

namespace LinearEquation

def Holds {K : Type*} [Field K] (eq : LinearEquation) (x : VarId → K) : Prop :=
  total eq.terms x = eq.rhs

def Distinct (eq : LinearEquation) : Prop := (vars eq.terms).Nodup

end LinearEquation

section

variable {K : Type*} [Field K] [CharZero K] {terms map : List LinTerm} {v : VarId} {factor : ℚ}

theorem foldl_insertTerm (nodup : (vars terms).Nodup) : terms.foldl insertTerm [] = terms := by
  have prefix_ : ∀ done : List LinTerm, (vars (done ++ terms)).Nodup →
      terms.foldl insertTerm done = done ++ terms := by
    clear nodup
    induction terms with
    | nil => exact fun done _ => (append_nil done).symm
    | cons t terms ih =>
      intro done nodup
      have fresh : done.filter (·.1 ≠ t.1) = done := filter_eq_self.mpr fun s mem => by
        have nodup' := nodup
        rw [vars, map_append, map_cons] at nodup'
        have ne := (nodup_append.mp nodup').2.2 s.1 (mem_map_of_mem mem) t.1
          (.head _)
        simpa using ne
      rw [foldl_cons, insertTerm, fresh, ih _ (by simpa using nodup), append_assoc]
      rfl
  exact prefix_ [] nodup

theorem total_scaled (factor : ℚ) (terms : List LinTerm) (x : VarId → K) :
    total (terms.map fun t => (t.1, factor * t.2)) x = factor * total terms x := by
  simp only [mul_comm factor]
  rw [total_map_mul, mul_comm]

theorem total_subtractTerms (nodup : (vars map).Nodup) (x : VarId → K) :
    total (subtractTerms factor terms map) x = total terms x - factor * total map x := by
  induction terms generalizing map with
  | nil =>
    rw [subtractTerms, total_filter, total_scaled, total_nil, Rat.cast_neg]
    ring
  | cons t terms ih =>
    obtain ⟨v, c⟩ := t
    rw [subtractTerms, total_cons]
    split
    · rename_i other found
      have nodup' : (vars (map.filter (·.1 ≠ v))).Nodup := vars_filter map v ▸ nodup.filter _
      rw [total_split nodup found]
      dsimp only
      split
      · rw [total_cons, ih nodup', Rat.cast_sub, Rat.cast_mul]
        ring
      · -- A coefficient of zero is left out.
        rename_i cancelled
        have coefficient : c = factor * other.2 := sub_eq_zero.mp (not_not.mp cancelled)
        rw [ih nodup', coefficient, Rat.cast_mul]
        ring
    · rw [total_cons, ih nodup]
      ring

end

namespace LinearEquation

variable {K : Type*} [Field K] [CharZero K] {eq other : LinearEquation} {x : VarId → K}
  {v pivot : VarId}

omit [CharZero K] in
theorem total_eq_coef (distinct : eq.Distinct) (v : VarId) (x : VarId → K) :
    total eq.terms x = eq.coef v * x v + total (eq.terms.filter (·.1 ≠ v)) x := by
  unfold coef
  cases found : eq.terms.find? (·.1 = v) with
  | some t => exact total_split distinct found x
  | none =>
    have others : eq.terms.filter (·.1 ≠ v) = eq.terms := filter_eq_self.mpr fun t mem => by
      simpa using find?_eq_none.mp found t mem
    rw [others, Option.map_none, Option.getD_none, Rat.cast_zero, zero_mul, zero_add]

theorem coef_ne_zero (distinct : eq.Distinct) (leading : eq.leadingVar = some pivot) :
    eq.coef pivot ≠ 0 := by
  obtain ⟨t, found, rfl⟩ := Option.map_eq_some_iff.mp leading
  have mem := mem_of_find?_eq_some found
  have nonzero : t.2 ≠ 0 := by simpa using find?_some found
  have same : eq.terms.find? (·.1 = t.1) = some t := by
    have present : (eq.terms.find? (·.1 = t.1)).isSome = true :=
      find?_isSome.mpr ⟨t, mem, by simp⟩
    obtain ⟨s, found'⟩ := Option.isSome_iff_exists.mp present
    have equal : s.1 = t.1 := by simpa using find?_some found'
    rw [found', inj_on_of_nodup_map distinct (mem_of_find?_eq_some found') mem equal]
  rw [coef, same]
  exact nonzero

theorem eliminate_eq (distinct : other.Distinct) (nonzero : other.coef v ≠ 0) :
    (eq.eliminate v other).rhs = eq.rhs - eq.coef v / other.coef v * other.rhs ∧
    ∀ x : VarId → K, total (eq.eliminate v other).terms x =
      total eq.terms x - (eq.coef v / other.coef v : ℚ) * total other.terms x := by
  rw [eliminate, if_neg nonzero]
  refine ⟨rfl, fun x => ?_⟩
  dsimp only
  rw [total_perm (sortTerms_perm _), foldl_insertTerm distinct, total_subtractTerms distinct]

theorem eliminate_holds (distinct : other.Distinct) (holds : other.Holds x) :
    (eq.eliminate v other).Holds x ↔ eq.Holds x := by
  by_cases zero : other.coef v = 0
  · rw [eliminate, if_pos zero]
  · obtain ⟨rhs, terms⟩ := @eliminate_eq K _ _ eq other v distinct zero
    have same : total other.terms x = other.rhs := holds
    rw [Holds, Holds, rhs, terms, same, Rat.cast_sub, Rat.cast_mul]
    exact sub_left_inj

theorem eliminate_update (distinct : eq.Distinct) (distinct' : other.Distinct)
    (nonzero : other.coef v ≠ 0) (a : K) :
    (eq.eliminate v other).Holds (update x v a) ↔ (eq.eliminate v other).Holds x := by
  have others (terms : List LinTerm) : total (terms.filter (·.1 ≠ v)) (update x v a) =
      total (terms.filter (·.1 ≠ v)) x := by
    refine total_congr fun w mem => update_of_ne ?_ a x
    rw [vars_filter] at mem
    simpa using (mem_filter.mp mem).2
  have same : total (eq.eliminate v other).terms (update x v a) =
      total (eq.eliminate v other).terms x := by
    obtain ⟨-, terms⟩ := @eliminate_eq K _ _ eq other v distinct' nonzero
    rw [terms, terms, total_eq_coef distinct v, total_eq_coef distinct v x,
      total_eq_coef distinct' v, total_eq_coef distinct' v x, others, others,
      update_self, Rat.cast_div]
    have nonzero' : (other.coef v : K) ≠ 0 := Rat.cast_ne_zero.mpr nonzero
    field_simp
    ring
  rw [Holds, Holds, same]

theorem holds_iff_solve (distinct : eq.Distinct) (nonzero : eq.coef pivot ≠ 0) :
    eq.Holds x ↔ x pivot = total (eq.solve pivot).terms x + (eq.solve pivot).rhs := by
  have others : total (eq.solve pivot).terms x =
      -total (eq.terms.filter (·.1 ≠ pivot)) x / eq.coef pivot := by
    have scaled := total_map_mul (-1 / eq.coef pivot) (eq.terms.filter (·.1 ≠ pivot)) x
    have factor (c : ℚ) : -c / eq.coef pivot = c * (-1 / eq.coef pivot) := by ring
    rw [solve, funext fun t : LinTerm => congrArg (Prod.mk t.1) (factor t.2), scaled]
    push_cast
    ring
  have nonzero' : (eq.coef pivot : K) ≠ 0 := Rat.cast_ne_zero.mpr nonzero
  rw [Holds, total_eq_coef distinct pivot, others, solve, Rat.cast_div, ← add_div,
    eq_div_iff nonzero']
  constructor <;> intro same <;> linear_combination same

theorem holds_update (distinct : eq.Distinct) (nonzero : eq.coef pivot ≠ 0) (x : VarId → K) :
    ∃ a, eq.Holds (update x pivot a) := by
  have others (a : K) : total (eq.terms.filter (·.1 ≠ pivot)) (update x pivot a) =
      total (eq.terms.filter (·.1 ≠ pivot)) x := by
    refine total_congr fun w mem => update_of_ne ?_ a x
    rw [vars_filter] at mem
    simpa using (mem_filter.mp mem).2
  refine ⟨(eq.rhs - total (eq.terms.filter (·.1 ≠ pivot)) x) / eq.coef pivot, ?_⟩
  rw [Holds, total_eq_coef distinct pivot, others, update_self, mul_div_cancel₀ _ (Rat.cast_ne_zero.mpr nonzero),
    sub_add_cancel]

end LinearEquation

def AllHold {K : Type*} [Field K] (rows : List LinearEquation) (x : VarId → K) : Prop :=
  ∀ eq ∈ rows, eq.Holds x

namespace GaussianElimination

variable {K : Type*} [Field K] [CharZero K] {eq : LinearEquation}
  {rows below : List LinearEquation} {x : VarId → K} {pivot : VarId}

omit [CharZero K] in
theorem allHold_cons : AllHold (eq :: rows) x ↔ eq.Holds x ∧ AllHold rows x := forall_mem_cons

theorem allHold_eliminate (distinct : eq.Distinct) :
    eq.Holds x ∧ AllHold (rows.map (·.eliminate pivot eq)) x ↔ eq.Holds x ∧ AllHold rows x := by
  refine and_congr_right fun holds => ?_
  rw [AllHold, forall_mem_map]
  exact forall₂_congr fun _ _ => LinearEquation.eliminate_holds distinct holds

/-- The result of a consistent system. -/
structure Simplifies (K : Type*) [Field K] (rows result : List LinearEquation)
    (eliminated : List (VarId × LinearEquation)) : Prop where
  consistent : ∃ x : VarId → K, AllHold rows x
  distincts : ∀ row ∈ result, row.Distinct
  same (x : VarId → K) : AllHold result x ↔ AllHold rows x
  solves (x : VarId → K) : AllHold rows x →
    ∀ entry ∈ eliminated, x entry.1 = total entry.2.terms x + entry.2.rhs

theorem Simplifies.cons {result : List LinearEquation} {eliminated : List (VarId × LinearEquation)}
    (distinct : eq.Distinct) (distincts : ∀ row ∈ below, row.Distinct)
    (leading : eq.leadingVar = some pivot)
    (simplifies : Simplifies K (below.map (·.eliminate pivot eq)) result eliminated) :
    Simplifies K (eq :: below) (eq :: result) (eliminated ++ [(pivot, eq.solve pivot)]) := by
  have nonzero := LinearEquation.coef_ne_zero distinct leading
  have both (x : VarId → K) : AllHold (eq :: below) x ↔
      eq.Holds x ∧ AllHold (below.map (·.eliminate pivot eq)) x := by
    rw [allHold_cons, allHold_eliminate distinct]
  constructor
  · -- The pivot is chosen last, since the other equations do not depend on it.
    obtain ⟨x, holds⟩ := simplifies.consistent
    obtain ⟨a, holds'⟩ := LinearEquation.holds_update distinct nonzero x
    refine ⟨update x pivot a, (both _).mpr ⟨holds', forall_mem_map.mpr ?_⟩⟩
    intro row mem
    rw [LinearEquation.eliminate_update (distincts row mem) distinct nonzero]
    exact holds _ (mem_map_of_mem mem)
  · exact forall_mem_cons.mpr ⟨distinct, simplifies.distincts⟩
  · intro x
    rw [allHold_cons, both, simplifies.same]
  · intro x holds entry mem
    obtain ⟨first, others⟩ := (both x).mp holds
    rcases mem_append.mp mem with later | last
    · exact simplifies.solves x others entry later
    · obtain rfl := mem_singleton.mp last
      exact (LinearEquation.holds_iff_solve distinct nonzero).mp first

end GaussianElimination

end Nixie.Arithmetic
