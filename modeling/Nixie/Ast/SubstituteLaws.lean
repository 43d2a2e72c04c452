import Mathlib.Data.List.Nodup
import Mathlib.Data.List.Perm.Subperm
import Nixie.Ast.FreeVars
import Nixie.Ast.StandsFor
import Nixie.Ast.Substitute

/-! What a term means after substitution. -/

namespace Nixie.Ast

open List Function

namespace Subst

/-- Variables are mapped to terms of their sorts. -/
def Fits (subst : Subst) : Prop := ∀ entry ∈ subst, entry.2.WellSorted ∧ entry.2.sort = entry.1.2

variable {I : Interp} {ν : I.Assignment} {subst : Subst}

/-- The assignment of the values of the replacements. -/
noncomputable def apply (subst : Subst) (ν : I.Assignment) : I.Assignment := fun x =>
  match subst.lookup x with
  | some term => term.eval I ν
  | none => ν x

variable {x : Var}

theorem apply_some {term : Term} (found : subst.lookup x = some term) :
    subst.apply ν x = term.eval I ν := by
  rw [apply, found]

theorem apply_none (missing : subst.lookup x = none) : subst.apply ν x = ν x := by
  rw [apply, missing]

theorem apply_singleton (x : Var) (term : Term) (ν : I.Assignment) :
    Subst.apply [(x, term)] ν = update ν x (term.eval I ν) := by
  funext y
  by_cases same : y = x
  · subst same
    rw [update_self]
    exact apply_some (by simp)
  · rw [update_of_ne same]
    have differ : (y == x) = false := by simpa using same
    exact apply_none (by rw [lookup_cons, differ, lookup_nil])

theorem mem_of_lookup {term : Term} (found : subst.lookup x = some term) : (x, term) ∈ subst := by
  obtain ⟨before, after, split, -⟩ := lookup_eq_some_iff.mp found
  rw [split]
  simp

theorem apply_respects (fits : subst.Fits) (lawful : I.Lawful) (respects : I.Respects ν) :
    I.Respects (subst.apply ν) := by
  intro x
  cases found : subst.lookup x with
  | none => rw [apply_none found]; exact respects x
  | some term =>
    obtain ⟨sorted, sort⟩ := fits _ (mem_of_lookup found)
    rw [apply_some found, ← sort]
    exact Interp.eval_hasSort lawful sorted ν respects

theorem lookup_filter {subst : Subst} (keep : Var → Prop) [DecidablePred keep] (x : Var) :
    List.lookup x (subst.filter fun entry => keep entry.1) =
      if keep x then subst.lookup x else none := by
  induction subst with
  | nil => simp
  | cons entry rest ih =>
    obtain ⟨y, term⟩ := entry
    by_cases same : x = y
    · subst same
      by_cases kept : keep x
      · simp [kept]
      · simp only [kept, filter_cons, decide_false, Bool.false_eq_true, if_false] at ih ⊢
        exact ih
    · have differ : (x == y) = false := by simpa using same
      by_cases kept : keep y
      · simp only [filter_cons, kept, decide_true, if_true, lookup_cons, differ]
        exact ih
      · simp only [filter_cons, kept, decide_false, Bool.false_eq_true, if_false,
          lookup_cons, differ]
        exact ih

theorem lookup_insert (subst : Subst) (x y : Var) (term : Term) :
    (subst.insert x term).lookup y = if y = x then some term else subst.lookup y := by
  rw [insert, lookup_cons]
  by_cases same : y = x
  · simp [same]
  · have differ : (y == x) = false := by simpa using same
    rw [differ, if_neg same]
    exact (lookup_filter (fun z => z ≠ x) y).trans (if_pos same)

theorem mem_insert {term : Term} {entry : Var × Term}
    (mem : entry ∈ subst.insert x term) : entry = (x, term) ∨ entry ∈ subst := by
  rcases mem_cons.mp mem with same | mem
  · exact .inl same
  · exact .inr (mem_of_mem_filter mem)

end Subst

/-- The sort found for a variable is its own, or no such variable is free in the body. -/
def CaseFound (body : Term) (x : Var) : Prop :=
  body.findVarSort x.1 = some x.2 ∨
    x ∉ body.freeVars ∧ (x.1, (body.findVarSort x.1).getD .bool) ∉ body.freeVars

/-- The sorts of the variables of all cases are found. -/
inductive Term.SortsFound : Term → Prop
  | var (name : Name) (sort : SortKind) : SortsFound (.var name sort)
  | node {kind : Kind} {args : List Term} (each : ∀ arg ∈ args, SortsFound arg) :
      SortsFound (.node kind args)
  | bind {binder : Binder} {scopes : List (List Var)} {args : List Term}
      (each : ∀ arg ∈ args, SortsFound arg)
      (cases_ : binder.storesNames = true → ∀ vars arg, (vars, arg) ∈ scopes.zip args →
        ∀ x ∈ vars, CaseFound arg x) : SortsFound (.bind binder scopes args)

/-- The bound variables as they are seen, and as they are. -/
def Seen (body : Term) (bound vars : List Var) : Prop :=
  List.Forall₂ (fun y x => y.1 = x.1 ∧ (y = x ∨ y ∉ body.freeVars ∧ x ∉ body.freeVars)) bound vars

variable {vars : List Var}

variable {body : Term}

namespace Seen

variable {body : Term} {bound vars : List Var}

theorem mem_iff (seen : Seen body bound vars) (free : x ∈ body.freeVars) :
    x ∈ bound ↔ x ∈ vars := by
  induction seen with
  | nil => rfl
  | cons head _ ih =>
    rw [mem_cons, mem_cons, ih]
    rcases head.2 with rfl | ⟨absent, absent'⟩
    · rfl
    · have first := ne_of_mem_of_not_mem free absent
      have second := ne_of_mem_of_not_mem free absent'
      simp only [first, second]

end Seen

namespace Subst

/-- Replacements fit, and the variables of their cases are found. -/
structure Admissible (subst : Subst) : Prop where
  fits : subst.Fits
  found : ∀ entry ∈ subst, entry.2.SortsFound

theorem Admissible.insert {subst : Subst} (admissible : subst.Admissible) (x : Var)
    (name : Name) : (subst.insert x (.var name x.2)).Admissible := by
  constructor
  · intro entry mem
    rcases mem_insert mem with rfl | mem
    · exact ⟨.var _ _, Term.sort_var _ _⟩
    · exact admissible.fits entry mem
  · intro entry mem
    rcases mem_insert mem with rfl | mem
    · exact .var _ _
    · exact admissible.found entry mem

theorem Admissible.filter {subst : Subst} (admissible : subst.Admissible)
    (keep : Var × Term → Bool) : Subst.Admissible (subst.filter keep) :=
  ⟨fun entry mem => admissible.fits entry (mem_of_mem_filter mem),
    fun entry mem => admissible.found entry (mem_of_mem_filter mem)⟩

end Subst

variable {bound : List Var}

section

variable {rebuild : Kind → List Term → Term}

/-- A term after substitution: it has its sort, and the value under the values of replacements. -/
def Substituted (subst : Subst) (term term' : Term) : Prop :=
  term'.WellSorted ∧ term'.sort = term.sort ∧ ∀ I : Interp, I.Lawful → ∀ ν, I.Respects ν →
    term'.eval I ν = term.eval I (subst.apply ν)

end

end Nixie.Ast
