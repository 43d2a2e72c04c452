import Nixie.Ast.BuilderLaws
import Nixie.Ast.SubstituteLaws
import Nixie.Logic.Elimination
import Nixie.Tactic.SolveEqs

/-! Eliminating defined variables keeps satisfiability, and models are found again. -/

namespace Nixie.Ast

open List Function

namespace Term

variable {args : List Term}

theorem containsTermAny_of_mem {needle arg : Term} (mem : arg ∈ args)
    (lies : arg.containsTerm needle) : containsTermAny args needle := by
  induction args with
  | nil => cases mem
  | cons first rest ih =>
    rw [containsTermAny, Bool.or_eq_true]
    rcases mem_cons.mp mem with rfl | mem
    · exact .inl lies
    · exact .inr (ih mem)

theorem exists_of_mem_freeVarsIn {x : Var} {scopes : List (List Var)}
    (free : x ∈ freeVarsIn scopes args) : ∃ arg ∈ args, x ∈ arg.freeVars := by
  induction args generalizing scopes with
  | nil => simp [freeVarsIn] at free
  | cons arg rest ih =>
    have cases_ : x ∈ arg.freeVars ∨ ∃ scopes, x ∈ freeVarsIn scopes rest := by
      cases scopes with
      | nil =>
        rw [freeVarsIn, mem_append] at free
        exact free.imp_right fun free => ⟨[], free⟩
      | cons vars scopes =>
        exact (mem_freeVarsIn_cons.mp free).imp And.left fun free => ⟨scopes, free⟩
    rcases cases_ with free | ⟨scopes, free⟩
    · exact ⟨arg, mem_cons_self, free⟩
    · obtain ⟨other, mem, free⟩ := ih free
      exact ⟨other, mem_cons_of_mem _ mem, free⟩

theorem containsTerm_of_free {x : Var} {term : Term} (free : x ∈ term.freeVars) :
    term.containsTerm (.var x.1 x.2) := by
  induction term using induct with
  | var name sort =>
    obtain rfl := mem_singleton.mp (freeVars_var name sort ▸ free)
    simp [containsTerm]
  | node kind args ih =>
    obtain ⟨arg, mem, free⟩ := mem_freeVars_node.mp free
    rw [containsTerm, Bool.or_eq_true]
    exact .inr (containsTermAny_of_mem mem (ih arg mem free))
  | bind binder scopes args ih =>
    rw [freeVars] at free
    obtain ⟨arg, mem, free⟩ := exists_of_mem_freeVarsIn free
    rw [containsTerm, Bool.or_eq_true]
    exact .inr (containsTermAny_of_mem mem (ih arg mem free))

end Term

namespace Tactic.SolveEqs

open Nixie.Logic

theorem not_free_of_varOccursIn {x : Var} {term : Term} (absent : ¬varOccursIn x term) :
    x ∉ term.freeVars :=
  fun free => absent (Term.containsTerm_of_free free)

/-- The assertion says that the variable has the value of a term in which it is not free. -/
structure Defines (solution : Var × Term) (assertion : Term) : Prop where
  sorted : solution.2.WellSorted
  sort : solution.2.sort = solution.1.2
  free : solution.1 ∉ solution.2.freeVars
  iff : ∀ I : Interp, I.Lawful → ∀ ν, I.Respects ν →
    ((assertion.eval I ν).holds ↔ ν solution.1 = solution.2.eval I ν)

variable {solution : Var × Term}

variable {rhs : Term}

theorem solveVar_defines {lhs : Term}
    (solved : solveVar lhs rhs = some solution) (sorted : rhs.WellSorted)
    (same : lhs.sort = rhs.sort) : Defines solution (.node .eq [lhs, rhs]) := by
  unfold solveVar at solved
  split at solved
  · split at solved
    · cases solved
    · rename_i absent
      obtain rfl := Option.some.inj solved
      refine ⟨sorted, same.symm, not_free_of_varOccursIn absent, fun I _ ν _ => ?_⟩
      rw [holds_eq, Term.eval_var]
  · cases solved

theorem Defines.symm {lhs : Term} (defines : Defines solution (.node .eq [lhs, rhs])) :
    Defines solution (.node .eq [rhs, lhs]) := by
  refine ⟨defines.sorted, defines.sort, defines.free, fun I lawful ν respects => ?_⟩
  rw [← defines.iff I lawful ν respects, holds_eq, holds_eq]
  exact eq_comm

variable {others : List Term}

theorem subtractAll_spec (sorted : rhs.WellSorted) (numeric : Numeric rhs.sort)
    (each : ∀ other ∈ others, other.WellSorted ∧ other.sort = rhs.sort) :
    (subtractAll rhs others).WellSorted ∧ (subtractAll rhs others).sort = rhs.sort ∧
      (∀ x ∈ (subtractAll rhs others).freeVars,
        x ∈ rhs.freeVars ∨ ∃ other ∈ others, x ∈ other.freeVars) ∧
      ∀ I : Interp, I.Lawful → ∀ ν, I.Respects ν → (subtractAll rhs others).eval I ν =
        .num ((rhs.eval I ν).toReal - (others.map fun other => (other.eval I ν).toReal).sum) := by
  match others with
  | [] =>
    refine ⟨sorted, rfl, fun x free => .inl free, fun I lawful ν respects => ?_⟩
    rw [map_nil, sum_nil, sub_zero, subtractAll]
    exact (Interp.eval_hasSort lawful sorted ν respects).eq_num numeric
  | [other] =>
    obtain ⟨sorted', same⟩ := each other mem_cons_self
    refine ⟨.node ⟨rhs.sort, numeric, by rw [map_cons, map_cons, same]; rfl⟩ ?_, rfl, ?_,
      fun I lawful ν respects => ?_⟩
    · exact forall_mem_cons.mpr ⟨sorted, forall_mem_singleton.mpr sorted'⟩
    · intro x free
      simpa [subtractAll, mkSub] using free
    · rw [subtractAll, mkSub, Term.eval_node]
      simp [Interp.kind]
  | first :: second :: rest =>
    have sum : (Term.node .add (first :: second :: rest)).WellSorted := by
      refine .node ⟨cons_ne_nil _ _, rhs.sort, numeric, ?_⟩ fun other mem =>
        (each other mem).1
      exact forall_mem_map.mpr fun other mem => (each other mem).2
    have sort : (Term.node .add (first :: second :: rest)).sort = rhs.sort := by
      rw [Term.sort_node]
      exact (each first mem_cons_self).2
    refine ⟨.node ⟨rhs.sort, numeric, ?_⟩ ?_, rfl, ?_, fun I lawful ν respects => ?_⟩
    · rw [map_cons, map_cons, map_nil, mkAdd, sort]
      all_goals simp
    · exact forall_mem_cons.mpr ⟨sorted, forall_mem_singleton.mpr sum⟩
    · intro x free
      simpa [subtractAll, mkSub, mkAdd] using free
    · rw [subtractAll, mkSub, mkAdd, Term.eval_node]
      · simp only [Interp.kind, map_cons, map_nil, Term.eval_node, Value.toReal_num,
          map_map, Function.comp_def]
      all_goals simp

theorem sum_sorts (sum : (Term.node .add args).WellSorted) : Numeric (Term.node .add args).sort ∧
      ∀ arg ∈ args, arg.WellSorted ∧ arg.sort = (Term.node .add args).sort := by
  obtain ⟨⟨nonempty, sort, numeric, each⟩, sorted⟩ := wellSorted_node.mp sum
  have own : (Term.node .add args).sort = sort := by
    obtain ⟨first, rest, rfl⟩ := exists_cons_of_ne_nil (mt (map_eq_nil_iff.mpr ·) nonempty)
    rw [Term.sort_node]
    exact each _ mem_cons_self
  rw [own]
  exact ⟨numeric, fun arg mem => ⟨sorted arg mem, each _ (mem_map_of_mem mem)⟩⟩

theorem summand_defines {passed rest : List Term} {name : Name} {sort : SortKind}
    (sum : (Term.node .add (passed ++ .var name sort :: rest)).WellSorted) (sorted : rhs.WellSorted)
    (same : (Term.node .add (passed ++ .var name sort :: rest)).sort = rhs.sort)
    (absent : ∀ other ∈ passed ++ rest, (name, sort) ∉ other.freeVars)
    (absent' : (name, sort) ∉ rhs.freeVars) :
    Defines ((name, sort), subtractAll rhs (passed ++ rest))
      (.node .eq [.node .add (passed ++ .var name sort :: rest), rhs]) := by
  obtain ⟨numeric, each⟩ := sum_sorts sum
  rw [same] at numeric each
  have own : sort = rhs.sort := (each (.var name sort) (by simp)).2
  have others (other : Term) (mem : other ∈ passed ++ rest) :=
    each other (mem_append.mpr ((mem_append.mp mem).imp_right
      (mem_cons_of_mem _)))
  obtain ⟨sorted', sort', free, eval⟩ := subtractAll_spec sorted numeric others
  refine ⟨sorted', sort'.trans own.symm, fun lies => ?_, fun I lawful ν respects => ?_⟩
  · rcases free _ lies with lies | ⟨other, mem, lies⟩
    · exact absent' lies
    · exact absent other mem lies
  · -- All values are numbers, and the summands may be moved.
    have right := (Interp.eval_hasSort lawful sorted ν respects).eq_num numeric
    have value := (respects (name, sort)).eq_num (own ▸ numeric : Numeric sort)
    rw [holds_eq, eval I lawful ν respects, Term.eval_node, right, value]
    simp only [Interp.kind, map_append, map_cons, map_map, sum_append,
      sum_cons, Function.comp_def, Term.eval_var, Value.num.injEq, Value.toReal_num]
    constructor
    · intro eq
      linarith
    · intro eq
      linarith

theorem solveLinearAdd_defines {passed : List Term}
    (solved : solveLinearAdd rhs passed args = some solution)
    (sum : (Term.node .add (passed ++ args)).WellSorted) (sorted : rhs.WellSorted)
    (same : (Term.node .add (passed ++ args)).sort = rhs.sort) :
    Defines solution (.node .eq [.node .add (passed ++ args), rhs]) := by
  induction args generalizing passed with
  | nil => cases solved
  | cons arg rest ih =>
    have again (later : solveLinearAdd rhs (passed ++ [arg]) rest = some solution) :
        Defines solution (.node .eq [.node .add (passed ++ arg :: rest), rhs]) := by
      rw [append_cons] at sum same ⊢
      exact ih later sum same
    unfold solveLinearAdd at solved
    split at solved
    · cases solved
    · rename_i name sort rest' eq
      obtain ⟨rfl, rfl⟩ := cons.inj eq
      dsimp only at solved
      split at solved
      · exact again solved
      · rename_i absent
        obtain rfl := Option.some.inj solved
        rw [Bool.or_eq_true, any_eq_true, not_or, not_exists] at absent
        exact summand_defines sum sorted same (fun other mem => not_free_of_varOccursIn fun occurs =>
          absent.1 other ⟨mem, occurs⟩) (not_free_of_varOccursIn absent.2)
    · rename_i rest' _ eq
      obtain ⟨rfl, rfl⟩ := cons.inj eq
      exact again solved

theorem solveLinearSub_defines {minuend subtrahend : Term}
    (solved : solveLinearSub minuend subtrahend rhs = some solution)
    (difference : (Term.node .sub [minuend, subtrahend]).WellSorted) (sorted : rhs.WellSorted)
    (same : (Term.node .sub [minuend, subtrahend]).sort = rhs.sort) :
    Defines solution (.node .eq [.node .sub [minuend, subtrahend], rhs]) := by
  unfold solveLinearSub at solved
  split at solved
  · split at solved
    · cases solved
    · rename_i name sort absent
      obtain rfl := Option.some.inj solved
      rw [Bool.or_eq_true, not_or] at absent
      obtain ⟨⟨sort', numeric, sorts⟩, each⟩ := wellSorted_node.mp difference
      obtain ⟨rfl, rest⟩ := cons.inj sorts
      have other : subtrahend.sort = sort := (cons.inj rest).1
      have right : rhs.sort = sort := same.symm
      have sorted' := each subtrahend (by simp)
      refine ⟨.node ⟨by simp, sort, numeric, ?_⟩ ?_, ?_, ?_, fun I lawful ν respects => ?_⟩
      · simp [other, right]
      · exact forall_mem_cons.mpr ⟨sorted, forall_mem_singleton.mpr sorted'⟩
      · rw [mkAdd, Term.sort_node]
        · exact right
        all_goals simp
      · have first := not_free_of_varOccursIn absent.1
        have second := not_free_of_varOccursIn absent.2
        simp [mkAdd, first, second]
      · have value := (Interp.eval_hasSort lawful sorted ν respects).eq_num (right ▸ numeric)
        have own := (respects (name, sort)).eq_num numeric
        rw [holds_eq, Term.eval_node, value, own]
        simp only [mkAdd, Term.eval_node, Interp.kind, map_cons, map_nil, sum_cons,
          sum_nil, Term.eval_var, Value.num.injEq]
        constructor
        · intro eq
          linarith
        · intro eq
          linarith
  · cases solved

theorem trySolveEquality_defines {assertion : Term}
    (solved : trySolveEquality assertion = some solution) (formula : assertion.IsFormula) :
    Defines solution assertion := by
  unfold trySolveEquality at solved
  split at solved
  · rename_i lhs rhs
    obtain ⟨left, right, same⟩ := isFormula_eq.mp formula
    rw [Option.or_eq_some_iff, Option.or_eq_some_iff] at solved
    rcases solved with (direct | ⟨-, swapped⟩) | ⟨-, linear⟩
    · exact solveVar_defines direct right same
    · exact (solveVar_defines swapped left same.symm).symm
    · split at linear
      · exact solveLinearAdd_defines linear left right same
      · exact solveLinearSub_defines linear left right same
      · cases linear
  · cases solved

theorem solveFirst_spec {assertions : List Term}
    (solved : solveFirst assertions = some (solution, others)) :
    ∃ assertion, trySolveEquality assertion = some solution ∧
      ∀ P : Term → Prop, (∀ term ∈ assertions, P term) ↔ P assertion ∧ ∀ term ∈ others, P term := by
  induction assertions generalizing others with
  | nil => cases solved
  | cons first rest ih =>
    unfold solveFirst at solved
    split at solved
    · rename_i solution' eq
      obtain ⟨rfl, rfl⟩ := Prod.mk.inj (Option.some.inj solved)
      exact ⟨first, eq, fun P => forall_mem_cons⟩
    · obtain ⟨⟨solution', others'⟩, eq, same⟩ := Option.map_eq_some_iff.mp solved
      obtain ⟨rfl, rfl⟩ := Prod.mk.inj same
      obtain ⟨assertion, eq', split⟩ := ih eq
      refine ⟨assertion, eq', fun P => ?_⟩
      rw [forall_mem_cons, forall_mem_cons, split P]
      exact and_left_comm

section

variable {substitute : Subst → Term → Term} {simplify : Term → Term}

/-- Substitution and simplification keep values. -/
structure Preserving (substitute : Subst → Term → Term) (simplify : Term → Term) : Prop where
  substituted : ∀ (subst : Subst) (term : Term), subst.Fits → term.WellSorted →
    Substituted subst term (substitute subst term)
  simplified : ∀ term, StandsFor (simplify term) term

theorem Preserving.both (preserving : Preserving substitute simplify) {subst : Subst}
    (fits : subst.Fits) {term : Term} (sorted : term.WellSorted) :
    Substituted subst term (simplify (substitute subst term)) := by
  obtain ⟨sorted', sort, eval⟩ := preserving.substituted subst term fits sorted
  obtain ⟨final, sort', eval'⟩ := preserving.simplified _ sorted'
  exact ⟨final, sort'.trans sort, fun I lawful ν respects =>
    (eval' I lawful ν respects).trans (eval I lawful ν respects)⟩

def respecting (I : Interp) : Set I.Assignment := {ν | I.Respects ν}

def models (I : Interp) (assertions : List Term) : Set I.Assignment :=
  {ν | ∀ assertion ∈ assertions, (assertion.eval I ν).holds}

/-- What eliminations mean. -/
noncomputable def meaning (I : Interp) (eliminations : List (Var × Term)) :
    List (Var × I.Meaning) :=
  eliminations.map fun solution => (solution.1, solution.2.eval I)

namespace Defines

variable {I : Interp} {assertion : Term} {solution : Var × Term}

theorem fits (defines : Defines solution assertion) : Subst.Fits [solution] :=
  forall_mem_singleton.mpr ⟨defines.sorted, defines.sort⟩

theorem closed (defines : Defines solution assertion) (lawful : I.Lawful) :
    ∀ ν ∈ respecting I, ∀ ν' ∈ respecting I,
      update ν solution.1 (solution.2.eval I ν') ∈ respecting I := by
  intro ν respects ν' respects'
  refine Interp.Respects.update respects ?_
  rw [← defines.sort]
  exact Interp.eval_hasSort lawful defines.sorted ν' respects'

theorem unchanged (defines : Defines solution assertion) (ν : I.Assignment) (v : Value I.U) :
    solution.2.eval I (update ν solution.1 v) = solution.2.eval I ν :=
  Interp.eval_update defines.sorted defines.free ν v

theorem depends (defines : Defines solution assertion) (lawful : I.Lawful) {D : Set Var} (depends : DependsWithin (respecting I) D (assertion.eval I)) :
    DependsWithin (respecting I) (D \ {solution.1}) (solution.2.eval I) := by
  refine DependsWithin.definition ?_ (defines.closed lawful) fun ν _ v => defines.unchanged ν v
  intro ν respects ν' respects' agree
  dsimp only
  rw [← defines.iff I lawful ν respects, ← defines.iff I lawful ν' respects',
    depends ν respects ν' respects' agree]

end Defines

theorem replaced_isFormula (preserving : Preserving substitute simplify) {subst : Subst}
    (fits : subst.Fits) (formulas : ∀ term ∈ others, term.IsFormula) :
    ∀ term ∈ others.map fun other => simplify (substitute subst other), term.IsFormula := by
  refine forall_mem_map.mpr fun other mem => ?_
  obtain ⟨sorted, sort⟩ := formulas other mem
  obtain ⟨sorted', sort', -⟩ := preserving.both fits sorted
  exact ⟨sorted', sort'.trans sort⟩

theorem eliminates_step (preserving : Preserving substitute simplify) {assertions : List Term}
    (solved : solveFirst assertions = some (solution, others))
    (formulas : ∀ term ∈ assertions, term.IsFormula) {I : Interp} (lawful : I.Lawful) :
    Eliminates (respecting I) solution.1 (solution.2.eval I) (models I assertions)
      (models I (others.map fun other => simplify (substitute [solution] other))) := by
  obtain ⟨assertion, eq, split⟩ := solveFirst_spec solved
  obtain ⟨formula, formulas'⟩ := (split Term.IsFormula).mp formulas
  have defines := trySolveEquality_defines eq formula
  have value (other : Term) (mem : other ∈ others) (ν : I.Assignment) (respects : I.Respects ν) :
      (simplify (substitute [solution] other)).eval I ν =
        other.eval I (update ν solution.1 (solution.2.eval I ν)) := by
    rw [← Subst.apply_singleton]
    exact (preserving.both defines.fits (formulas' other mem).1).2.2 I lawful ν respects
  refine ⟨fun ν respects => defines.closed lawful ν respects ν respects, fun ν respects model => ?_,
    fun ν respects model => ?_⟩
  · -- Where the equality holds, the replacement changes nothing.
    obtain ⟨holds, model⟩ := (split _).mp model
    have own := (defines.iff I lawful ν respects).mp holds
    refine forall_mem_map.mpr fun other mem => ?_
    rw [value other mem ν respects, ← own, update_eq_self]
    exact model other mem
  · refine (split _).mpr ⟨?_, fun other mem => ?_⟩
    · rw [defines.iff I lawful _ (defines.closed lawful ν respects ν respects),
        update_self, defines.unchanged]
    · rw [← value other mem ν respects]
      exact forall_mem_map.mp model other mem

/-- Each definition depends on what is not eliminated before or with it. -/
inductive Ordered (I : Interp) : Set Var → List (Var × Term) → Prop
  | nil (D : Set Var) : Ordered I D []
  | cons {D : Set Var} {x : Var} {expr : Term} {rest : List (Var × Term)}
      (sorted : expr.WellSorted) (sort : expr.sort = x.2)
      (depends : DependsWithin (respecting I) (D \ {x}) (expr.eval I))
      (others : Ordered I (D \ {x}) rest) : Ordered I D ((x, expr) :: rest)

theorem eliminate_spec (preserving : Preserving substitute simplify) (n : Nat)
    {assertions : List Term} (formulas : ∀ term ∈ assertions, term.IsFormula) {I : Interp}
    (lawful : I.Lawful) {D : Set Var}
    (depends : ∀ term ∈ assertions, DependsWithin (respecting I) D (term.eval I)) :
    Eliminated (respecting I) (meaning I (eliminate substitute simplify n assertions).2)
        (models I assertions) (models I (eliminate substitute simplify n assertions).1) ∧
      Ordered I D (eliminate substitute simplify n assertions).2 := by
  induction n generalizing assertions D with
  | zero => exact ⟨.nil _, .nil D⟩
  | succ n ih =>
    unfold eliminate
    split
    · exact ⟨.nil _, .nil D⟩
    · rename_i x expr others solved
      obtain ⟨assertion, eq, split⟩ := solveFirst_spec solved
      obtain ⟨formula, formulas'⟩ := (split Term.IsFormula).mp formulas
      obtain ⟨depends, depends'⟩ := (split _).mp depends
      have defines := trySolveEquality_defines eq formula
      have definition := defines.depends lawful depends
      have again : ∀ term ∈ others.map fun other => simplify (substitute [(x, expr)] other),
          DependsWithin (respecting I) (D \ {x}) (term.eval I) := by
        -- The replaced variable is gone.
        refine forall_mem_map.mpr fun other mem ν respects ν' respects' agree => ?_
        have value (ν : I.Assignment) (respects : I.Respects ν) :=
          (preserving.both defines.fits (formulas' other mem).1).2.2 I lawful ν respects
        rw [value ν respects, value ν' respects', Subst.apply_singleton, Subst.apply_singleton]
        exact (depends' other mem).replace definition (defines.closed lawful) ν respects ν'
          respects' agree
      obtain ⟨eliminated, ordered⟩ :=
        ih (replaced_isFormula preserving defines.fits formulas') again
      exact ⟨.cons (eliminates_step preserving solved formulas lawful) eliminated,
        .cons defines.sorted defines.sort definition ordered⟩

end

end Tactic.SolveEqs

end Nixie.Ast
