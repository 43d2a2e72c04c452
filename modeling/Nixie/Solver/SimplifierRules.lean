import Nixie.Ast.BuilderLaws
import Nixie.Solver.Simplifier

/-! The simplification rules keep the values of terms, and do not make terms higher. -/

namespace Nixie.Ast.Simplifier

open List Option

section

variable {before : InternOrder} {look : Term → Term}

theorem allAre_push {value : Bool} {I : Interp} {ν : I.Assignment} {seen : List Term}
    (term : Term) : AllAre value ν (if term ∈ seen then seen else seen ++ [term]) ↔
      AllAre value ν seen ∧ ((term.eval I ν).holds ↔ value = true) := by
  split
  · rename_i mem
    exact ⟨fun all => ⟨all, all term mem⟩, And.left⟩
  · rw [allAre_append]
    simp [AllAre]

theorem isFormula_push {seen : List Term} (formulas : ∀ term ∈ seen, term.IsFormula) {term : Term}
    (formula : term.IsFormula) :
    ∀ other ∈ (if term ∈ seen then seen else seen ++ [term]), other.IsFormula := by
  split
  · exact formulas
  · simpa [or_imp, forall_and] using ⟨formulas, formula⟩

theorem pushNew_spec (stands : ∀ term, StandsFor (look term) term) {terms seen : List Term}
    (each : ∀ term ∈ terms, term.IsFormula) (formulas : ∀ term ∈ seen, term.IsFormula) :
    (∀ term ∈ pushNew look terms seen, term.IsFormula) ∧
      ∀ I : Interp, I.Lawful → ∀ ν, I.Respects ν → ∀ value,
        AllAre value ν (pushNew look terms seen) ↔ AllAre value ν seen ∧ AllAre value ν terms := by
  induction terms generalizing seen with
  | nil => exact ⟨formulas, fun I _ ν _ value => by simp [pushNew, AllAre]⟩
  | cons term rest ih =>
    obtain ⟨head, tail⟩ := forall_mem_cons.mp each
    have formula := (stands term).isFormula head
    obtain ⟨out, same⟩ := ih tail (isFormula_push formulas formula)
    refine ⟨out, fun I lawful ν respects value => ?_⟩
    rw [pushNew, same I lawful ν respects value, allAre_push, allAre_cons, and_assoc,
      (stands term).eval_eq head.1 lawful respects]

theorem opposes_spec {term : Term} {seen : List Term} (eq : opposes term seen = true)
    (formula : term.IsFormula) {I : Interp} (lawful : I.Lawful) {ν : I.Assignment}
    (respects : I.Respects ν) (value : Bool) (all : AllAre value ν seen) :
    ¬((term.eval I ν).holds ↔ value = true) := by
  unfold opposes at eq
  rcases Bool.or_eq_true_iff.mp eq with eq | eq
  · split at eq
    · rename_i inner _
      have same := all inner (of_decide_eq_true eq)
      rw [holds_not]
      tauto
    · cases eq
  · have negation : (Term.node .not [term]).IsFormula := isFormula_not.mpr ⟨term, rfl, formula⟩
    have same := all _ (of_decide_eq_true eq)
    rw [(mkNot_standsFor term).eval_eq negation.1 lawful respects, holds_not] at same
    tauto

theorem nestedArgs_spec {conjunction : Bool} {term : Term} {nested : List Term}
    (eq : nestedArgs conjunction term = some nested) (formula : term.IsFormula) :
    (∀ arg ∈ nested, arg.IsFormula) ∧ ∀ (I : Interp) (ν : I.Assignment),
      AllAre conjunction ν nested ↔ ((term.eval I ν).holds ↔ conjunction = true) := by
  unfold nestedArgs at eq
  split at eq
  · split at eq
    · subst conjunction
      obtain rfl := some.inj eq
      exact ⟨isFormula_and.mp formula, fun I ν => Junction.and.allAre.symm⟩
    · cases eq
  · split at eq
    · cases eq
    · rename_i disjunction
      obtain rfl := Bool.eq_false_iff.mpr disjunction
      obtain rfl := some.inj eq
      exact ⟨isFormula_or.mp formula, fun I ν => Junction.or.allAre.symm⟩
  · cases eq

theorem junctionArgs_spec (stands : ∀ term, StandsFor (look term) term) {conjunction : Bool}
    {args seen : List Term} (each : ∀ arg ∈ args, arg.IsFormula)
    (formulas : ∀ term ∈ seen, term.IsFormula) :
    (∀ out, junctionArgs look conjunction args seen = some out →
      (∀ term ∈ out, term.IsFormula) ∧ ∀ I : Interp, I.Lawful → ∀ ν, I.Respects ν →
        (AllAre conjunction ν out ↔ AllAre conjunction ν seen ∧ AllAre conjunction ν args)) ∧
    (junctionArgs look conjunction args seen = none → ∀ I : Interp, I.Lawful → ∀ ν,
      I.Respects ν → ¬(AllAre conjunction ν seen ∧ AllAre conjunction ν args)) := by
  induction args generalizing seen with
  | nil =>
    refine ⟨fun out eq => ?_, fun eq => absurd eq (some_ne_none _)⟩
    obtain rfl := some.inj eq
    exact ⟨formulas, fun I _ ν _ => by simp [AllAre]⟩
  | cons arg rest ih =>
    obtain ⟨head, tail⟩ := forall_mem_cons.mp each
    have formula := (stands arg).isFormula head
    have value {I : Interp} (lawful : I.Lawful) {ν : I.Assignment} (respects : I.Respects ν) :
        (look arg).eval I ν = arg.eval I ν := (stands arg).eval_eq head.1 lawful respects
    -- The argument is one with those that were seen, whatever they are now.
    have merge {seen' : List Term} (formulas' : ∀ term ∈ seen', term.IsFormula)
        (same : ∀ I : Interp, I.Lawful → ∀ ν, I.Respects ν → (AllAre conjunction ν seen' ↔
          AllAre conjunction ν seen ∧ ((arg.eval I ν).holds ↔ conjunction = true))) :
        (∀ out, junctionArgs look conjunction rest seen' = some out →
          (∀ term ∈ out, term.IsFormula) ∧ ∀ I : Interp, I.Lawful → ∀ ν, I.Respects ν →
            (AllAre conjunction ν out ↔
              AllAre conjunction ν seen ∧ AllAre conjunction ν (arg :: rest))) ∧
        (junctionArgs look conjunction rest seen' = none → ∀ I : Interp, I.Lawful → ∀ ν,
          I.Respects ν → ¬(AllAre conjunction ν seen ∧ AllAre conjunction ν (arg :: rest))) := by
      obtain ⟨some_, none_⟩ := ih tail formulas'
      refine ⟨fun out eq => ⟨(some_ out eq).1, fun I lawful ν respects => ?_⟩,
        fun eq I lawful ν respects => ?_⟩
      · rw [allAre_cons, ← and_assoc, ← same I lawful ν respects]
        exact (some_ out eq).2 I lawful ν respects
      · rw [allAre_cons, ← and_assoc, ← same I lawful ν respects]
        exact none_ eq I lawful ν respects
    rw [junctionArgs]
    split
    · -- The argument decides the whole term.
      rename_i decisive
      refine ⟨fun out eq => absurd eq.symm (some_ne_none _), fun _ I lawful ν respects both => ?_⟩
      have same := (allAre_cons.mp both.2).1
      rw [← value lawful respects, decisive, holds_bool] at same
      cases conjunction <;> simp at same
    split
    · -- The argument says nothing.
      rename_i neutral
      refine merge formulas fun I lawful ν respects => ?_
      rw [← value lawful respects, neutral, holds_bool]
      simp
    split
    · -- The argument has the same connective.
      rename_i nested eq'
      obtain ⟨inner, same⟩ := nestedArgs_spec eq' formula
      obtain ⟨pushed, all⟩ := pushNew_spec stands inner formulas
      refine merge pushed fun I lawful ν respects => ?_
      rw [all I lawful ν respects, same I ν, value lawful respects]
    split
    · -- The argument contradicts one that was seen.
      rename_i opposed
      refine ⟨fun out eq => absurd eq.symm (some_ne_none _), fun _ I lawful ν respects both => ?_⟩
      refine opposes_spec opposed formula lawful respects conjunction both.1 ?_
      rw [value lawful respects]
      exact (allAre_cons.mp both.2).1
    · refine merge (isFormula_push formulas formula) fun I lawful ν respects => ?_
      rw [allAre_push, value lawful respects]

theorem junctionArgs_standsFor (stands : ∀ term, StandsFor (look term) term) {kind : Kind}
    {value : Bool} (junction : Junction kind value) (args : List Term) :
    (junctionArgs look value args [] = none → StandsFor (mkBool !value) (.node kind args)) ∧
    ∀ out, junctionArgs look value args [] = some out →
      StandsFor (.node kind out) (.node kind args) := by
  have nothing : ∀ term ∈ ([] : List Term), term.IsFormula := fun _ mem => nomatch mem
  have empty {I : Interp} (ν : I.Assignment) : AllAre value ν [] := fun _ mem => nomatch mem
  constructor
  · intro eq
    refine junction.constant fun formulas I lawful ν respects all => ?_
    -- An argument was decisive, or contradicted another one.
    exact (junctionArgs_spec stands formulas nothing).2 eq I lawful ν respects ⟨empty ν, all⟩
  · intro out eq
    have spec formulas := (@junctionArgs_spec look stands value args [] formulas nothing).1 out eq
    refine junction.standsFor (fun formulas => junction.isFormula.mpr (spec formulas).1)
      fun formulas I lawful ν respects => ?_
    rw [junction.allAre, (spec formulas).2 I lawful ν respects, and_iff_right (empty ν)]

theorem and_standsFor (stands : ∀ term, StandsFor (look term) term) (args : List Term) :
    StandsFor (simplifyImpl before look (.node .and args)) (.node .and args) := by
  obtain ⟨never, flat⟩ := junctionArgs_standsFor stands .and args
  unfold simplifyImpl
  dsimp only
  split
  · exact never ‹_›
  · exact (mkAnd_standsFor []).trans (flat _ ‹_›)
  · exact (Junction.and.single _).trans (flat _ ‹_›)
  · exact (mkAnd_standsFor _).trans (flat _ ‹_›)

theorem or_standsFor (stands : ∀ term, StandsFor (look term) term) (args : List Term) :
    StandsFor (simplifyImpl before look (.node .or args)) (.node .or args) := by
  obtain ⟨never, flat⟩ := junctionArgs_standsFor stands .or args
  unfold simplifyImpl
  dsimp only
  split
  · exact never ‹_›
  · exact (mkOr_standsFor []).trans (flat _ ‹_›)
  · exact (Junction.or.single _).trans (flat _ ‹_›)
  · exact (mkOr_standsFor _).trans (flat _ ‹_›)

theorem not_standsFor (stands : ∀ term, StandsFor (look term) term) (arg : Term) :
    StandsFor (simplifyImpl before look (.node .not [arg])) (.node .not [arg]) := by
  -- The rules are those of the constructor of negations.
  have built : StandsFor (mkNot (look arg)) (.node .not [arg]) :=
    (mkNot_standsFor _).trans (.node .not (.cons (stands arg) .nil))
  unfold simplifyImpl
  dsimp only
  split
  · rename_i eq
    rwa [eq] at built
  · rename_i eq
    rwa [eq] at built
  · rename_i eq
    rwa [eq] at built
  · split
    · exact .refl _
    · exact built

theorem implies_standsFor (stands : ∀ term, StandsFor (look term) term) (lhs rhs : Term) :
    StandsFor (simplifyImpl before look (.node .implies [lhs, rhs]))
      (.node .implies [lhs, rhs]) := by
  have built : StandsFor (.node .implies [look lhs, look rhs]) (.node .implies [lhs, rhs]) :=
    .node .implies (.cons (stands lhs) (.cons (stands rhs) .nil))
  -- All rules but one are those of the constructor of implications.
  have made := (mkImplies_standsFor _ _).trans built
  unfold simplifyImpl
  dsimp only
  split
  · rename_i eq
    rwa [mkImplies, if_pos eq] at made
  split
  · rename_i eq eq'
    rwa [mkImplies, if_neg eq, if_pos eq'] at made
  split
  · rename_i eq eq' eq''
    rwa [mkImplies, if_neg eq, if_neg eq', if_pos eq''] at made
  split
  · rename_i eq
    rw [eq] at built
    refine (mkNot_standsFor _).trans (StandsFor.trans ?_ built)
    exact standsFor_of_formula
      (fun sorted => isFormula_not.mpr ⟨_, rfl, (isFormula_implies.mp ⟨sorted, rfl⟩).1⟩)
      fun _ I _ ν _ => by simp
  split
  · exact .refl _
  · exact made

theorem ite_standsFor (stands : ∀ term, StandsFor (look term) term) (cond thenBr elseBr : Term) :
    StandsFor (simplifyImpl before look (.node .ite [cond, thenBr, elseBr]))
      (.node .ite [cond, thenBr, elseBr]) := by
  -- The rules are those of the constructor of conditionals.
  have built : StandsFor (mkIte (look cond) (look thenBr) (look elseBr))
      (.node .ite [cond, thenBr, elseBr]) :=
    (mkIte_standsFor _ _ _).trans
      (.node .ite (.cons (stands cond) (.cons (stands thenBr) (.cons (stands elseBr) .nil))))
  unfold simplifyImpl
  dsimp only
  split
  · rename_i eq
    rwa [mkIte, if_pos eq] at built
  split
  · rename_i eq eq'
    rwa [mkIte, if_neg eq, if_pos eq'] at built
  split
  · rename_i eq eq' eq''
    rwa [mkIte, if_neg eq, if_neg eq', if_pos eq''] at built
  split
  · exact .refl _
  · exact built

theorem hasSorts_fields {I : Interp} (lawful : I.Lawful) {ν : I.Assignment}
    (respects : I.Respects ν) {con : Constructor} {args : List Term}
    (sorts : args.map Term.sort = con.fields) (each : ∀ arg ∈ args, arg.WellSorted) :
    I.HasSorts con.fields (args.map fun arg => arg.eval I ν) := by
  rw [← sorts, Interp.HasSorts, forall₂_map_left_iff, forall₂_map_right_iff,
    forall₂_same]
  exact fun arg mem => Interp.eval_hasSort lawful (each arg mem) ν respects

theorem zipWith_mkEq {args args' : List Term} (sorts : args.map Term.sort = args'.map Term.sort)
    (each : ∀ arg ∈ args, arg.WellSorted) (each' : ∀ arg ∈ args', arg.WellSorted) :
    (∀ equation ∈ List.zipWith (mkEq before) args args', equation.IsFormula) ∧
      ∀ I : Interp, I.Lawful → ∀ ν, I.Respects ν →
        ((∀ equation ∈ List.zipWith (mkEq before) args args', (equation.eval I ν).holds) ↔
          (args.map fun arg => arg.eval I ν) = args'.map fun arg => arg.eval I ν) := by
  induction args generalizing args' with
  | nil =>
    obtain rfl := map_eq_nil_iff.mp sorts.symm
    simp
  | cons arg rest ih =>
    obtain ⟨arg', rest', rfl, sort, sorts⟩ := map_eq_cons_iff.mp sorts.symm
    obtain ⟨head, tail⟩ := forall_mem_cons.mp each
    obtain ⟨head', tail'⟩ := forall_mem_cons.mp each'
    obtain ⟨formulas, same⟩ := ih sorts.symm tail tail'
    have equation : (Term.node .eq [arg, arg']).IsFormula :=
      isFormula_eq.mpr ⟨head, head', sort.symm⟩
    refine ⟨?_, fun I lawful ν respects => ?_⟩
    · rw [zipWith_cons_cons, forall_mem_cons]
      exact ⟨(mkEq_standsFor before _ _).isFormula equation, formulas⟩
    · rw [zipWith_cons_cons, forall_mem_cons, same I lawful ν respects, map_cons,
        map_cons, cons.injEq,
        (mkEq_standsFor before _ _).eval_eq equation.1 lawful respects, holds_eq]

variable {simplified : Term}

theorem eqConstructors_standsFor {lhs rhs : Term}
    (eq : eqConstructors before lhs rhs = some simplified) :
    StandsFor simplified (.node .eq [lhs, rhs]) := by
  unfold eqConstructors at eq
  split at eq
  · rename_i con args con' args'
    have parts (sorted : (Term.node .eq [.node (.dtConstructor con) args,
        .node (.dtConstructor con') args']).WellSorted) :
        (args.map Term.sort = con.fields ∧ ∀ arg ∈ args, arg.WellSorted) ∧
        (args'.map Term.sort = con'.fields ∧ ∀ arg ∈ args', arg.WellSorted) ∧
          con.data = con'.data := by
      obtain ⟨left, right, sorts⟩ := isFormula_eq.mp ⟨sorted, rfl⟩
      refine ⟨wellSorted_node.mp left, wellSorted_node.mp right, ?_⟩
      simpa [Kind.sort] using sorts
    -- Constructor applications are equal if and only if all parts are.
    have same (sorted : (Term.node .eq [.node (.dtConstructor con) args,
        .node (.dtConstructor con') args']).WellSorted) (I : Interp) (lawful : I.Lawful)
        (ν : I.Assignment) (respects : I.Respects ν) :
        ((Term.node .eq [.node (.dtConstructor con) args,
          .node (.dtConstructor con') args']).eval I ν).holds ↔ con = con' ∧
            (args.map fun arg => arg.eval I ν) = args'.map fun arg => arg.eval I ν := by
      obtain ⟨⟨sorts, each⟩, ⟨sorts', each'⟩, data⟩ := parts sorted
      rw [holds_eq, Term.eval_node, Term.eval_node]
      constructor
      · exact lawful.free con con' _ _ data (hasSorts_fields lawful respects sorts each)
          (hasSorts_fields lawful respects sorts' each')
      · rintro ⟨rfl, values⟩
        rw [values, sorts, sorts']
    split at eq
    · rename_i differ
      obtain rfl := some.inj eq
      refine standsFor_of_formula (fun _ => isFormula_false) fun sorted I lawful ν respects => ?_
      rw [same sorted I lawful ν respects, holds_false, false_iff]
      exact fun both => differ both.1
    rename_i agree
    obtain rfl := not_not.mp agree
    split at eq
    · rename_i empty
      obtain rfl := some.inj eq
      obtain rfl := isEmpty_iff.mp empty.1
      obtain rfl := isEmpty_iff.mp empty.2
      refine standsFor_of_formula (fun _ => isFormula_true) fun sorted I lawful ν respects => ?_
      rw [same sorted I lawful ν respects]
      simp
    split at eq
    · obtain rfl := some.inj eq
      refine (mkAnd_standsFor _).trans ?_
      have fields (sorted : (Term.node .eq [.node (.dtConstructor con) args,
          .node (.dtConstructor con) args']).WellSorted) :=
        @zipWith_mkEq before args args' ((parts sorted).1.1.trans (parts sorted).2.1.1.symm)
          (parts sorted).1.2 (parts sorted).2.1.2
      refine standsFor_of_formula (fun sorted => isFormula_and.mpr (fields sorted).1)
        fun sorted I lawful ν respects => ?_
      rw [same sorted I lawful ν respects, holds_and, (fields sorted).2 I lawful ν respects]
      simp
    · cases eq
  · cases eq

theorem eqBooleans_standsFor {lhs rhs : Term} (eq : eqBooleans lhs rhs = some simplified) :
    StandsFor simplified (.node .eq [lhs, rhs]) := by
  unfold eqBooleans at eq
  split at eq
  · cases eq
  rename_i boolean
  have boolean : lhs.sort = .bool := not_not.mp boolean
  have sides (sorted : (Term.node .eq [lhs, rhs]).WellSorted) : lhs.IsFormula ∧ rhs.IsFormula := by
    obtain ⟨left, right, same⟩ := isFormula_eq.mp ⟨sorted, rfl⟩
    exact ⟨⟨left, boolean⟩, right, same.symm.trans boolean⟩
  -- Formulas are equal if and only if they have the same truth value.
  have same (sorted : (Term.node .eq [lhs, rhs]).WellSorted) (I : Interp) (lawful : I.Lawful)
      (ν : I.Assignment) (respects : I.Respects ν) : ((Term.node .eq [lhs, rhs]).eval I ν).holds ↔
        ((lhs.eval I ν).holds ↔ (rhs.eval I ν).holds) := by
    obtain ⟨left, right⟩ := sides sorted
    have has := Interp.eval_hasSort lawful left.1 ν respects
    have has' := Interp.eval_hasSort lawful right.1 ν respects
    rw [left.2] at has
    rw [right.2] at has'
    rw [holds_eq]
    exact ⟨fun equal => by rw [equal], has.bool_ext has'⟩
  have negation {arg : Term} (formula : (Term.node .eq [lhs, rhs]).WellSorted → arg.IsFormula)
      (means : (Term.node .eq [lhs, rhs]).WellSorted → ∀ (I : Interp) (ν : I.Assignment),
        ((lhs.eval I ν).holds ↔ (rhs.eval I ν).holds) ↔ ¬(arg.eval I ν).holds) :
      StandsFor (mkNot arg) (.node .eq [lhs, rhs]) := by
    refine (mkNot_standsFor arg).trans (standsFor_of_formula
      (fun sorted => isFormula_not.mpr ⟨_, rfl, formula sorted⟩) fun sorted I lawful ν respects => ?_)
    rw [same sorted I lawful ν respects, means sorted I ν, holds_not]
  have affirmation {arg : Term} (formula : (Term.node .eq [lhs, rhs]).WellSorted → arg.IsFormula)
      (means : ∀ (I : Interp) (ν : I.Assignment),
        ((lhs.eval I ν).holds ↔ (rhs.eval I ν).holds) ↔ (arg.eval I ν).holds) :
      StandsFor arg (.node .eq [lhs, rhs]) := by
    refine standsFor_of_formula formula fun sorted I lawful ν respects => ?_
    rw [same sorted I lawful ν respects, means I ν]
  have tru (I : Interp) (ν : I.Assignment) : ((Term.node .tru []).eval I ν).holds ↔ True :=
    holds_true
  have fls (I : Interp) (ν : I.Assignment) : ((Term.node .fls []).eval I ν).holds ↔ False :=
    holds_false
  split at eq
  · obtain rfl := some.inj eq
    exact affirmation (fun _ => isFormula_false) fun I ν => by simp [tru, fls]
  · obtain rfl := some.inj eq
    exact affirmation (fun _ => isFormula_false) fun I ν => by simp [tru, fls]
  · obtain rfl := some.inj eq
    exact affirmation (fun _ => isFormula_true) fun I ν => by simp
  · obtain rfl := some.inj eq
    exact affirmation (fun _ => isFormula_true) fun I ν => by simp
  · obtain rfl := some.inj eq
    exact affirmation (fun sorted => (sides sorted).1) fun I ν => by simp [tru]
  · obtain rfl := some.inj eq
    exact negation (fun sorted => (sides sorted).1) fun _ I ν => by simp [fls]
  · obtain rfl := some.inj eq
    exact affirmation (fun sorted => (sides sorted).2) fun I ν => by simp [tru]
  · obtain rfl := some.inj eq
    exact negation (fun sorted => (sides sorted).2) fun _ I ν => by simp [fls]
  · cases eq

theorem eq_standsFor (stands : ∀ term, StandsFor (look term) term) (lhs rhs : Term) :
    StandsFor (simplifyImpl before look (.node .eq [lhs, rhs])) (.node .eq [lhs, rhs]) := by
  have built : StandsFor (.node .eq [look lhs, look rhs]) (.node .eq [lhs, rhs]) :=
    .node .eq (.cons (stands lhs) (.cons (stands rhs) .nil))
  unfold simplifyImpl
  dsimp only
  split
  · rename_i eq
    refine StandsFor.trans ?_ built
    exact standsFor_of_formula (fun _ => isFormula_true) fun _ I _ ν _ => by simp [eq]
  split
  · rename_i eq
    exact (eqConstructors_standsFor eq).trans built
  split
  · rename_i eq
    exact (eqBooleans_standsFor eq).trans built
  split
  · exact .refl _
  · exact (mkEq_standsFor _ _ _).trans built

theorem simplifyImpl_standsFor (stands : ∀ term, StandsFor (look term) term) (term : Term) :
    StandsFor (simplifyImpl before look term) term := by
  unfold simplifyImpl
  split
  · exact @not_standsFor before look stands _
  · exact @and_standsFor before look stands _
  · exact @or_standsFor before look stands _
  · exact @implies_standsFor before look stands _ _
  · exact @ite_standsFor before look stands _ _ _
  · exact eq_standsFor stands _ _
  · exact .refl _

end

section

variable {before : InternOrder} {look : Term → Term}

theorem heights_push (seen : List Term) (term : Term) :
    Term.heights (if term ∈ seen then seen else seen ++ [term]) ≤
      max (Term.heights seen) term.height := by
  refine Term.heights_le_iff.mpr fun other mem => ?_
  split at mem
  · exact le_max_of_le_left (Term.height_le_heights mem)
  · rcases mem_append.mp mem with mem | mem
    · exact le_max_of_le_left (Term.height_le_heights mem)
    · rw [mem_singleton.mp mem]
      exact le_max_right _ _

theorem heights_pushNew (low : ∀ term, (look term).height ≤ term.height) (terms seen : List Term) :
    Term.heights (pushNew look terms seen) ≤ max (Term.heights seen) (Term.heights terms) := by
  induction terms generalizing seen with
  | nil => simp [pushNew]
  | cons term rest ih =>
    have pushed := heights_push seen (look term)
    have lower := low term
    rw [pushNew, Term.heights_cons]
    have bound := ih (if look term ∈ seen then seen else seen ++ [look term])
    omega

theorem heights_nestedArgs {conjunction : Bool} {term : Term} {nested : List Term}
    (eq : nestedArgs conjunction term = some nested) : Term.heights nested < term.height := by
  unfold nestedArgs at eq
  split at eq
  · split at eq
    · obtain rfl := some.inj eq
      simp
    · cases eq
  · split at eq
    · cases eq
    · obtain rfl := some.inj eq
      simp
  · cases eq

theorem heights_junctionArgs (low : ∀ term, (look term).height ≤ term.height) {conjunction : Bool}
    {args seen out : List Term} (eq : junctionArgs look conjunction args seen = some out) :
    Term.heights out ≤ max (Term.heights seen) (Term.heights args) := by
  induction args generalizing seen with
  | nil =>
    obtain rfl := some.inj eq
    exact le_max_left _ _
  | cons arg rest ih =>
    have lower := low arg
    rw [junctionArgs] at eq
    rw [Term.heights_cons]
    split at eq
    · cases eq
    split at eq
    · have bound := ih eq
      omega
    split at eq
    · rename_i nested found
      have inner := heights_nestedArgs found
      have pushed := heights_pushNew low nested seen
      have bound := ih eq
      omega
    split at eq
    · cases eq
    · have pushed := heights_push seen (look arg)
      have bound := ih eq
      omega

theorem height_eqConstructors {lhs rhs : Term}
    (eq : eqConstructors before lhs rhs = some simplified) :
    simplified.height ≤ max lhs.height rhs.height + 1 := by
  unfold eqConstructors at eq
  split at eq
  · rename_i args _ args'
    split at eq
    · obtain rfl := some.inj eq
      simp [mkFalse]
    split at eq
    · obtain rfl := some.inj eq
      simp [mkTrue]
    split at eq
    · obtain rfl := some.inj eq
      -- Each equation is as high as the pair of fields that it compares.
      have equations : Term.heights (zipWith (mkEq before) args args') ≤
          max (Term.heights args) (Term.heights args') + 1 := by
        refine Term.heights_le_iff.mpr fun equation mem => ?_
        obtain ⟨i, found⟩ := mem_iff_getElem?.mp mem
        obtain ⟨arg, arg', first, second, rfl⟩ := getElem?_zipWith_eq_some.mp found
        have left := Term.height_le_heights (mem_of_getElem? first)
        have right := Term.height_le_heights (mem_of_getElem? second)
        have bound := height_mkEq before arg arg'
        omega
      have bound := height_mkAnd (zipWith (mkEq before) args args')
      rw [Term.height_node, Term.height_node]
      omega
    · cases eq
  · cases eq

theorem height_eqBooleans {lhs rhs : Term} (eq : eqBooleans lhs rhs = some simplified) :
    simplified.height ≤ max lhs.height rhs.height + 1 := by
  have left := height_mkNot lhs
  have right := height_mkNot rhs
  unfold eqBooleans at eq
  split at eq
  · cases eq
  split at eq
  · obtain rfl := some.inj eq
    simp [mkFalse]
  · obtain rfl := some.inj eq
    simp [mkFalse]
  · obtain rfl := some.inj eq
    simp [mkTrue]
  · obtain rfl := some.inj eq
    simp [mkTrue]
  · obtain rfl := some.inj eq
    omega
  · obtain rfl := some.inj eq
    omega
  · obtain rfl := some.inj eq
    omega
  · obtain rfl := some.inj eq
    omega
  · cases eq

theorem height_simplifyImpl (low : ∀ term, (look term).height ≤ term.height) (term : Term) :
    (simplifyImpl before look term).height ≤ term.height := by
  unfold simplifyImpl
  split
  · rename_i arg
    have lower := low arg
    simp only [Term.height_node, Term.heights_cons, Term.heights_nil]
    split
    · simp [mkFalse]
    · simp [mkTrue]
    · rename_i eq
      simp only [eq, Term.height_node, Term.heights_cons, Term.heights_nil] at lower
      omega
    · split
      · simp
      · have bound := height_mkNot (look arg)
        omega
  · rename_i args
    rw [Term.height_node]
    split
    · simp [mkFalse]
    · simp [mkTrue]
    · rename_i eq
      have bound := heights_junctionArgs low eq
      simp only [Term.heights_cons, Term.heights_nil] at bound
      omega
    · rename_i out _ _ eq
      have bound := heights_junctionArgs low eq
      have built := height_mkAnd out
      simp only [Term.heights_nil] at bound
      omega
  · rename_i args
    rw [Term.height_node]
    split
    · simp [mkTrue]
    · simp [mkFalse]
    · rename_i eq
      have bound := heights_junctionArgs low eq
      simp only [Term.heights_cons, Term.heights_nil] at bound
      omega
    · rename_i out _ _ eq
      have bound := heights_junctionArgs low eq
      have built := height_mkOr out
      simp only [Term.heights_nil] at bound
      omega
  · rename_i lhs rhs
    have left := low lhs
    have right := low rhs
    have negation := height_mkNot (look lhs)
    have built := height_mkImplies (look lhs) (look rhs)
    simp only [Term.height_node, Term.heights_cons, Term.heights_nil]
    split_ifs
    · simp [mkTrue]
    · omega
    · simp [mkTrue]
    · omega
    · simp
    · omega
  · rename_i cond thenBr elseBr
    have condition := low cond
    have first := low thenBr
    have second := low elseBr
    have built := height_mkIte (look cond) (look thenBr) (look elseBr)
    simp only [Term.height_node, Term.heights_cons, Term.heights_nil]
    split_ifs
    · omega
    · omega
    · omega
    · simp
    · omega
  · rename_i lhs rhs
    have left := low lhs
    have right := low rhs
    simp only [Term.height_node, Term.heights_cons, Term.heights_nil]
    split
    · simp [mkTrue]
    split
    · rename_i eq
      have bound := height_eqConstructors eq
      omega
    split
    · rename_i eq
      have bound := height_eqBooleans eq
      omega
    split
    · simp
    · have built := height_mkEq before (look lhs) (look rhs)
      omega
  · exact le_refl _

end

end Nixie.Ast.Simplifier
