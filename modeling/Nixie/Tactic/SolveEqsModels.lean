import Nixie.Tactic.SolveEqsCorrect

/-! Models of what is left after elimination are models of the goal again. -/

namespace Nixie.Ast.Tactic.SolveEqs

open Nixie.Logic List Function

section

variable {substitute : Subst → Term → Term} {simplify : Term → Term}

/-- A model gives the variables of a set constant values, which are those of an assignment. -/
structure Represents (I : Interp) (model : Subst) (D : Set Var) (ν : I.Assignment) : Prop where
  fits : model.Fits
  total : ∀ x ∈ D, ∃ value, model.lookup x = some value
  values : ∀ x value, model.lookup x = some value → ∀ ν', I.Respects ν' → value.eval I ν' = ν x

theorem Represents.eqOn {I : Interp} {model : Subst} {D : Set Var} {ν : I.Assignment}
    (represents : Represents I model D ν) {ν' : I.Assignment} (respects : I.Respects ν') :
    Set.EqOn (model.apply ν') ν D := by
  intro x mem
  obtain ⟨value, found⟩ := represents.total x mem
  rw [Subst.apply_some found]
  exact represents.values x value found ν' respects

theorem Represents.insert (preserving : Preserving substitute simplify) {I : Interp}
    (lawful : I.Lawful) {model : Subst} {D : Set Var} {x : Var} {ν : I.Assignment}
    (respects : I.Respects ν) (represents : Represents I model (D \ {x}) ν) {expr : Term}
    (sorted : expr.WellSorted) (sort : expr.sort = x.2)
    (depends : DependsWithin (respecting I) (D \ {x}) (expr.eval I)) :
    Represents I (model.insert x (simplify (substitute model expr))) D
      (update ν x (expr.eval I ν)) := by
  obtain ⟨sorted', sort', eval⟩ := preserving.both represents.fits sorted
  refine ⟨fun entry mem => ?_, fun y mem => ?_, fun y value found ν' respects' => ?_⟩
  · rcases Subst.mem_insert mem with rfl | mem
    · exact ⟨sorted', sort'.trans sort⟩
    · exact represents.fits entry mem
  · rw [Subst.lookup_insert]
    split
    · exact ⟨_, rfl⟩
    · rename_i differ
      exact represents.total y ⟨mem, differ⟩
  · rw [Subst.lookup_insert] at found
    split at found
    · -- The expression depends on variables only whose values are known.
      rename_i same
      obtain rfl := Option.some.inj found
      rw [same, update_self, eval I lawful ν' respects']
      exact depends _ (Subst.apply_respects represents.fits lawful respects') _ respects
        (represents.eqOn respects')
    · rename_i differ
      rw [update_of_ne differ]
      exact represents.values y value found ν' respects'

/-- A model of a goal: constant values under which all assertions hold. -/
structure IsModel (I : Interp) (model : Subst) (goal : Goal) : Prop where
  fits : model.Fits
  constant : ∀ x value, model.lookup x = some value → ∀ ν, I.Respects ν → ∀ ν', I.Respects ν' →
    value.eval I ν = value.eval I ν'
  holds : ∀ ν, I.Respects ν → goal.Holds (model.apply ν)

def variablesOf (goal : Goal) : Set Var := {x | ∃ assertion ∈ goal.assertions, x ∈ assertion.freeVars}

def Meets (substitute : Subst → Term → Term) (simplify : Term → Term) (goal : Goal) :
    TacticResult × Option (List (Var × Term)) → Prop
  | (.solved .sat, _) => goal.Satisfiable
  | (.solved .unsat, _) => ¬goal.Satisfiable
  | (.subGoals goals, converter) => ∃ sub eliminations, goals = [sub] ∧
      converter = some eliminations ∧ (sub.Satisfiable ↔ goal.Satisfiable) ∧
      ∀ I : Interp, I.Lawful → ∀ model, IsModel I model sub →
        (∀ x ∈ variablesOf goal, x ∈ eliminations.map Prod.fst ∨ (model.lookup x).isSome) →
          IsModel I (convert substitute simplify eliminations model) goal ∧ ∀ x ∈ variablesOf goal,
              ((convert substitute simplify eliminations model).lookup x).isSome
  | (.notApplicable, _) => True
  | _ => False

end

mutual

def bindsNothing : Term → Bool
  | .var _ _ => true
  | .node _ args => eachBindsNothing args
  | .bind _ _ _ => false

def eachBindsNothing : List Term → Bool
  | [] => true
  | arg :: rest => bindsNothing arg && eachBindsNothing rest

end

end Nixie.Ast.Tactic.SolveEqs
