import Nixie.Ast.StandsFor

/-! What the term manager builds stands for the term that was asked for. -/

namespace Nixie.Ast

open List Option

theorem mkNot_standsFor (arg : Term) : StandsFor (mkNot arg) (.node .not [arg]) := by
  unfold mkNot
  split
  · -- A double negation is dropped.
    refine standsFor_of_formula (fun sorted => ?_) fun _ I _ ν _ => ?_
    · have formula : (Term.node .not [Term.node .not [_]]).IsFormula := ⟨sorted, rfl⟩
      simpa only [isFormula_not, cons.injEq, and_true, exists_eq_left'] using formula
    · simp
  · refine standsFor_of_formula (fun _ => isFormula_false) fun _ I _ ν _ => ?_
    simp [Term.eval_node, Interp.kind]
  · refine standsFor_of_formula (fun _ => isFormula_true) fun _ I _ ν _ => ?_
    simp [Term.eval_node, Interp.kind]
  · exact .refl _

/-- All formulas of a list have one truth value. -/
def AllAre (value : Bool) {I : Interp} (ν : I.Assignment) (terms : List Term) : Prop :=
  ∀ term ∈ terms, (term.eval I ν).holds ↔ value = true

theorem allAre_cons {value : Bool} {I : Interp} {ν : I.Assignment} {term : Term}
    {rest : List Term} : AllAre value ν (term :: rest) ↔
      ((term.eval I ν).holds ↔ value = true) ∧ AllAre value ν rest :=
  forall_mem_cons

theorem allAre_append {value : Bool} {I : Interp} {ν : I.Assignment} {front back : List Term} :
    AllAre value ν (front ++ back) ↔ AllAre value ν front ∧ AllAre value ν back :=
  forall_mem_append

/-- A connective has a truth value where all its arguments have it. -/
inductive Junction : Kind → Bool → Prop
  | and : Junction .and true
  | or : Junction .or false

namespace Junction

variable {kind : Kind} {value : Bool} {args : List Term} {term : Term}

theorem isFormula (junction : Junction kind value) :
    (Term.node kind args).IsFormula ↔ ∀ arg ∈ args, arg.IsFormula := by
  cases junction with
  | and => exact isFormula_and
  | or => exact isFormula_or

theorem allAre (junction : Junction kind value) {I : Interp} {ν : I.Assignment} :
    (((Term.node kind args).eval I ν).holds ↔ value = true) ↔ AllAre value ν args := by
  cases junction <;> simp [AllAre]

theorem standsFor (junction : Junction kind value)
    (formula : (∀ arg ∈ args, arg.IsFormula) → term.IsFormula)
    (same : (∀ arg ∈ args, arg.IsFormula) → ∀ I : Interp, I.Lawful → ∀ ν, I.Respects ν →
      (((term.eval I ν).holds ↔ value = true) ↔ AllAre value ν args)) :
    StandsFor term (.node kind args) := by
  have sort (sorted : (Term.node kind args).WellSorted) : (Term.node kind args).IsFormula := by
    cases junction <;> exact ⟨sorted, rfl⟩
  refine standsFor_of_formula (fun sorted => formula (junction.isFormula.mp (sort sorted)))
    (fun sorted I lawful ν respects => ?_) sort
  have equal := (same (junction.isFormula.mp (sort sorted)) I lawful ν respects).trans
    junction.allAre.symm
  cases value <;> tauto

theorem constant (junction : Junction kind value) (never : (∀ arg ∈ args, arg.IsFormula) →
    ∀ I : Interp, I.Lawful → ∀ ν, I.Respects ν → ¬AllAre value ν args) :
    StandsFor (mkBool !value) (.node kind args) := by
  refine junction.standsFor (fun _ => isFormula_bool _) fun formulas I lawful ν respects => ?_
  have fails := never formulas I lawful ν respects
  cases value <;> simpa using fails

theorem empty (junction : Junction kind value) : StandsFor (mkBool value) (.node kind []) :=
  junction.standsFor (fun _ => isFormula_bool _) fun _ I _ ν _ => by simp [AllAre]

theorem single (junction : Junction kind value) (arg : Term) : StandsFor arg (.node kind [arg]) :=
  junction.standsFor (fun formulas => formulas arg mem_cons_self)
    fun _ I _ ν _ => by simp [AllAre]

end Junction

/-- The arguments of nested connectives of one kind, without those that say nothing. -/
inductive Flattened (kind : Kind) (value : Bool) : List Term → Option (List Term) → Prop
  | nil : Flattened kind value [] (some [])
  | decisive (rest : List Term) : Flattened kind value (mkBool (!value) :: rest) none
  | neutral {rest : List Term} {out : Option (List Term)} : Flattened kind value rest out →
      Flattened kind value (mkBool value :: rest) out
  | nested (inner : List Term) {rest : List Term} {out : Option (List Term)} :
      Flattened kind value rest out →
      Flattened kind value (.node kind inner :: rest) (out.map (inner ++ ·))
  | plain (arg : Term) {rest : List Term} {out : Option (List Term)} :
      Flattened kind value rest out → Flattened kind value (arg :: rest) (out.map (arg :: ·))

theorem flattenAnd_flattened (args : List Term) : Flattened .and true args (flattenAnd args) := by
  fun_induction flattenAnd args with
  | case1 => exact .nil
  | case2 rest => exact .decisive rest
  | case3 _ ih => exact .neutral ih
  | case4 inner _ ih => exact .nested inner ih
  | case5 arg _ _ _ _ ih => exact .plain arg ih

theorem flattenOr_flattened (args : List Term) : Flattened .or false args (flattenOr args) := by
  fun_induction flattenOr args with
  | case1 => exact .nil
  | case2 rest => exact .decisive rest
  | case3 _ ih => exact .neutral ih
  | case4 inner _ ih => exact .nested inner ih
  | case5 arg _ _ _ _ ih => exact .plain arg ih

section

variable {kind : Kind} {value : Bool} {args flat : List Term} {out : Option (List Term)}

theorem Flattened.gone (flattened : Flattened kind value args out) (gone : out = none) :
    mkBool (!value) ∈ args := by
  induction flattened with
  | nil => cases gone
  | decisive => exact mem_cons_self
  | neutral _ ih => exact mem_cons_of_mem _ (ih gone)
  | nested _ _ ih => exact mem_cons_of_mem _ (ih (map_eq_none_iff.mp gone))
  | plain _ _ ih => exact mem_cons_of_mem _ (ih (map_eq_none_iff.mp gone))

theorem Flattened.spec (junction : Junction kind value) (flattened : Flattened kind value args out)
    (eq : out = some flat) (each : ∀ arg ∈ args, arg.IsFormula) :
    (∀ arg ∈ flat, arg.IsFormula) ∧
      ∀ (I : Interp) (ν : I.Assignment), AllAre value ν flat ↔ AllAre value ν args := by
  induction flattened generalizing flat with
  | nil =>
    obtain rfl := some.inj eq
    exact ⟨each, fun _ _ => Iff.rfl⟩
  | decisive => cases eq
  | neutral _ ih =>
    obtain ⟨formulas, same⟩ := ih eq fun arg mem => each arg (mem_cons_of_mem _ mem)
    exact ⟨formulas, fun I ν => by simp [same I ν, allAre_cons]⟩
  | nested inner _ ih =>
    obtain ⟨flat, found, rfl⟩ := map_eq_some_iff.mp eq
    obtain ⟨head, tail⟩ := forall_mem_cons.mp each
    obtain ⟨formulas, same⟩ := ih found tail
    refine ⟨forall_mem_append.mpr ⟨junction.isFormula.mp head, formulas⟩, fun I ν => ?_⟩
    rw [allAre_append, allAre_cons, same I ν, junction.allAre]
  | plain arg _ ih =>
    obtain ⟨flat, found, rfl⟩ := map_eq_some_iff.mp eq
    obtain ⟨head, tail⟩ := forall_mem_cons.mp each
    obtain ⟨formulas, same⟩ := ih found tail
    exact ⟨forall_mem_cons.mpr ⟨head, formulas⟩, fun I ν => by
      rw [allAre_cons, allAre_cons, same I ν]⟩

theorem Flattened.decides (junction : Junction kind value)
    (flattened : Flattened kind value args none) : StandsFor (mkBool !value) (.node kind args) :=
  junction.constant fun _ I _ ν _ all => by
    have same := all _ (flattened.gone rfl)
    cases value <;> simp at same

theorem Flattened.standsFor (junction : Junction kind value)
    (flattened : Flattened kind value args (some flat)) :
    StandsFor (.node kind flat) (.node kind args) :=
  junction.standsFor (fun formulas => junction.isFormula.mpr (flattened.spec junction rfl formulas).1)
    fun formulas I _ ν _ => junction.allAre.trans ((flattened.spec junction rfl formulas).2 I ν)

end

theorem mkAnd_standsFor (args : List Term) : StandsFor (mkAnd args) (.node .and args) := by
  have flattened := flattenAnd_flattened args
  unfold mkAnd
  generalize flattenAnd args = out at *
  split
  · exact flattened.decides .and
  · exact Junction.and.empty.trans (flattened.standsFor .and)
  · exact (Junction.and.single _).trans (flattened.standsFor .and)
  · exact flattened.standsFor .and

theorem mkOr_standsFor (args : List Term) : StandsFor (mkOr args) (.node .or args) := by
  have flattened := flattenOr_flattened args
  unfold mkOr
  generalize flattenOr args = out at *
  split
  · exact flattened.decides .or
  · exact Junction.or.empty.trans (flattened.standsFor .or)
  · exact (Junction.or.single _).trans (flattened.standsFor .or)
  · exact flattened.standsFor .or

@[simp] theorem isFormula_implies {lhs rhs : Term} :
    (Term.node .implies [lhs, rhs]).IsFormula ↔ lhs.IsFormula ∧ rhs.IsFormula := by
  simp only [Term.IsFormula, wellSorted_node, Kind.Takes, Term.sort_node, Kind.sort, and_true,
    map_cons, map_nil, List.cons.injEq, forall_mem_cons, not_mem_nil]
  tauto

theorem mkImplies_standsFor (lhs rhs : Term) :
    StandsFor (mkImplies lhs rhs) (.node .implies [lhs, rhs]) := by
  have formulas (sorted : (Term.node .implies [lhs, rhs]).WellSorted) :
      lhs.IsFormula ∧ rhs.IsFormula := isFormula_implies.mp ⟨sorted, rfl⟩
  unfold mkImplies
  split
  · subst lhs
    exact standsFor_of_formula (fun _ => isFormula_true) fun _ I _ ν _ => by simp
  split
  · subst lhs
    exact standsFor_of_formula (fun sorted => (formulas sorted).2) fun _ I _ ν _ => by simp
  split
  · subst rhs
    exact standsFor_of_formula (fun _ => isFormula_true) fun _ I _ ν _ => by simp
  exact .refl _

theorem wellSorted_ite {cond thenBr elseBr : Term} :
    (Term.node .ite [cond, thenBr, elseBr]).WellSorted ↔
      cond.IsFormula ∧ thenBr.WellSorted ∧ elseBr.WellSorted ∧ thenBr.sort = elseBr.sort := by
  simp only [wellSorted_node, Kind.Takes, map_cons, map_nil, cons.injEq, and_true,
    forall_mem_cons, not_mem_nil, Term.IsFormula]
  constructor
  · rintro ⟨⟨sort, cond, first, second⟩, sorted, sorted', sorted'', -⟩
    exact ⟨⟨sorted, cond⟩, sorted', sorted'', first.trans second.symm⟩
  · rintro ⟨⟨sorted, cond⟩, sorted', sorted'', same⟩
    exact ⟨⟨_, cond, same, rfl⟩, sorted, sorted', sorted'', fun _ mem => mem.elim⟩

theorem eval_ite {I : Interp} {ν : I.Assignment} (cond thenBr elseBr : Term) :
    open Classical in (Term.node .ite [cond, thenBr, elseBr]).eval I ν =
      if (cond.eval I ν).holds then thenBr.eval I ν else elseBr.eval I ν := by
  rw [Term.eval_node]
  rfl

theorem mkIte_standsFor (cond thenBr elseBr : Term) :
    StandsFor (mkIte cond thenBr elseBr) (.node .ite [cond, thenBr, elseBr]) := by
  intro sorted
  obtain ⟨condition, thenSorted, elseSorted, same⟩ := wellSorted_ite.mp sorted
  have sort : (Term.node .ite [cond, thenBr, elseBr]).sort = thenBr.sort := by
    rw [Term.sort_node]
    rfl
  unfold mkIte
  split
  · subst cond
    exact ⟨thenSorted, sort.symm, fun I _ ν _ => by simp [eval_ite]⟩
  split
  · subst cond
    exact ⟨elseSorted, same.symm.trans sort.symm, fun I _ ν _ => by simp [eval_ite]⟩
  split
  · subst elseBr
    exact ⟨thenSorted, sort.symm, fun I _ ν _ => by simp [eval_ite]⟩
  split
  · obtain ⟨rfl, rfl⟩ := ‹_ ∧ _›
    -- The branches repeat the condition.
    refine ⟨condition.1, condition.2.trans sort.symm, fun I lawful ν respects => ?_⟩
    have has := Interp.eval_hasSort lawful condition.1 ν respects
    rw [condition.2] at has
    rw [eval_ite, has.eq_bool]
    by_cases holds : (cond.eval I ν).holds <;>
      simp [holds, mkTrue, mkFalse, Term.eval_node, Interp.kind]
  exact ⟨sorted, rfl, fun _ _ _ _ => rfl⟩

theorem isFormula_eq {lhs rhs : Term} : (Term.node .eq [lhs, rhs]).IsFormula ↔
    lhs.WellSorted ∧ rhs.WellSorted ∧ lhs.sort = rhs.sort := by
  simp only [Term.IsFormula, wellSorted_node, Kind.Takes, Term.sort_node, Kind.sort, and_true,
    map_cons, map_nil, cons.injEq, forall_mem_cons, not_mem_nil]
  constructor
  · rintro ⟨⟨sort, first, second⟩, sorted, sorted', -⟩
    exact ⟨sorted, sorted', first.trans second.symm⟩
  · rintro ⟨sorted, sorted', same⟩
    exact ⟨⟨_, same, rfl⟩, sorted, sorted', fun _ mem => mem.elim⟩

theorem eqConst_spec {lhs rhs : Term} {value : Bool} (eq : eqConst lhs rhs = some value)
    (sorted : (Term.node .eq [lhs, rhs]).WellSorted) (I : Interp) (ν : I.Assignment) :
    value = true ↔ lhs.eval I ν = rhs.eval I ν := by
  unfold eqConst at eq
  split at eq
  · obtain rfl := some.inj eq
    simp [Term.eval_node, Interp.kind]
  · obtain rfl := some.inj eq
    simp
  · obtain rfl := some.inj eq
    simp
  · obtain rfl := some.inj eq
    simp [Term.eval_node, Interp.kind]
  · obtain rfl := some.inj eq
    simp [Term.eval_node, Interp.kind]
  · rename_i a w b w'
    obtain rfl := some.inj eq
    obtain ⟨left, right, sorts⟩ := isFormula_eq.mp ⟨sorted, rfl⟩
    obtain ⟨⟨-, low, high⟩, -⟩ := wellSorted_node.mp left
    obtain ⟨⟨-, low', high'⟩, -⟩ := wellSorted_node.mp right
    simp only [Term.sort_node, Kind.sort, SortKind.bitVec.injEq] at sorts
    subst sorts
    -- Constants of one width are reduced, so that their bits determine them.
    simp only [Term.eval_node, Interp.kind, Int.emod_eq_of_lt low high, Int.emod_eq_of_lt low' high',
      Value.bits.injEq, beq_self_eq_true, Bool.and_true, beq_iff_eq, true_and]
    omega
  · cases eq

theorem mkEq_standsFor (before : InternOrder) (lhs rhs : Term) :
    StandsFor (mkEq before lhs rhs) (.node .eq [lhs, rhs]) := by
  unfold mkEq
  split
  · subst lhs
    exact standsFor_of_formula (fun _ => isFormula_true) fun _ I _ ν _ => by simp
  split
  · rename_i value eq
    refine standsFor_of_formula (fun _ => isFormula_bool value) fun sorted I _ ν _ => ?_
    rw [holds_bool, holds_eq, eqConst_spec eq sorted I ν]
  split
  · exact .refl _
  · refine standsFor_of_formula (fun sorted => ?_) fun sorted I _ ν _ => ?_
    · obtain ⟨left, right, same⟩ := isFormula_eq.mp ⟨sorted, rfl⟩
      exact isFormula_eq.mpr ⟨right, left, same.symm⟩
    · rw [holds_eq, holds_eq, eq_comm]

end Nixie.Ast

/-! How high the terms are that the term manager builds. -/

namespace Nixie.Ast

namespace Term

mutual

def height : Term → Nat
  | .var _ _ => 0
  | .node _ args => heights args + 1
  | .bind _ _ args => heights args + 1

def heights : List Term → Nat
  | [] => 0
  | arg :: rest => max (height arg) (heights rest)

end

@[simp] theorem height_node (kind : Kind) (args : List Term) :
    (Term.node kind args).height = heights args + 1 := rfl

@[simp] theorem heights_nil : heights [] = 0 := rfl

@[simp] theorem heights_cons (arg : Term) (rest : List Term) :
    heights (arg :: rest) = max arg.height (heights rest) := rfl

theorem heights_le_iff {args : List Term} {bound : Nat} :
    heights args ≤ bound ↔ ∀ arg ∈ args, arg.height ≤ bound := by
  induction args with
  | nil => simp
  | cons arg rest ih => rw [heights_cons, max_le_iff, ih, List.forall_mem_cons]

theorem height_le_heights {args : List Term} {arg : Term} (mem : arg ∈ args) :
    arg.height ≤ heights args :=
  heights_le_iff.mp (le_refl _) arg mem

end Term

theorem height_mkNot (arg : Term) : (mkNot arg).height ≤ arg.height + 1 := by
  unfold mkNot
  split
  · simp only [Term.height_node, Term.heights_cons, Term.heights_nil]
    omega
  · simp [mkFalse]
  · simp [mkTrue]
  · simp

theorem Flattened.height {kind : Kind} {value : Bool} {args flat : List Term}
    {out : Option (List Term)} (flattened : Flattened kind value args out) (eq : out = some flat) :
    Term.heights flat ≤ Term.heights args := by
  induction flattened generalizing flat with
  | nil => cases eq; exact le_refl _
  | decisive => cases eq
  | neutral _ ih =>
    rw [Term.heights_cons]
    exact (ih eq).trans (le_max_right _ _)
  | nested inner _ ih =>
    obtain ⟨flat, found, rfl⟩ := Option.map_eq_some_iff.mp eq
    refine Term.heights_le_iff.mpr fun arg mem => ?_
    rw [Term.heights_cons, Term.height_node]
    rcases List.mem_append.mp mem with mem | mem
    · have bound := Term.height_le_heights mem
      omega
    · have bound := (Term.height_le_heights mem).trans (ih found)
      omega
  | plain arg _ ih =>
    obtain ⟨flat, found, rfl⟩ := Option.map_eq_some_iff.mp eq
    rw [Term.heights_cons, Term.heights_cons]
    exact max_le_max_left _ (ih found)

theorem height_mkAnd (args : List Term) : (mkAnd args).height ≤ Term.heights args + 1 := by
  unfold mkAnd
  split
  · simp [mkFalse]
  · simp [mkTrue]
  · rename_i arg eq
    have bound := (flattenAnd_flattened args).height eq
    rw [Term.heights_cons] at bound
    omega
  · rename_i eq
    rw [Term.height_node]
    exact Nat.succ_le_succ ((flattenAnd_flattened args).height eq)

theorem height_mkOr (args : List Term) : (mkOr args).height ≤ Term.heights args + 1 := by
  unfold mkOr
  split
  · simp [mkTrue]
  · simp [mkFalse]
  · rename_i arg eq
    have bound := (flattenOr_flattened args).height eq
    rw [Term.heights_cons] at bound
    omega
  · rename_i eq
    rw [Term.height_node]
    exact Nat.succ_le_succ ((flattenOr_flattened args).height eq)

theorem height_mkImplies (lhs rhs : Term) :
    (mkImplies lhs rhs).height ≤ max lhs.height rhs.height + 1 := by
  unfold mkImplies
  split_ifs
  · simp [mkTrue]
  · omega
  · simp [mkTrue]
  · simp

theorem height_mkIte (cond thenBr elseBr : Term) : (mkIte cond thenBr elseBr).height ≤
    max cond.height (max thenBr.height elseBr.height) + 1 := by
  unfold mkIte
  split_ifs
  · omega
  · omega
  · omega
  · omega
  · simp

theorem height_mkEq (before : InternOrder) (lhs rhs : Term) :
    (mkEq before lhs rhs).height ≤ max lhs.height rhs.height + 1 := by
  unfold mkEq
  split
  · simp [mkTrue]
  split
  · simp [mkBool]
  split
  · simp
  · simp [max_comm]

end Nixie.Ast
