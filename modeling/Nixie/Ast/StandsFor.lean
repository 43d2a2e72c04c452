import Nixie.Ast.Laws

/-! When one term may stand for another, and that what is built stands for what is asked for. -/

namespace Nixie.Ast

open List

/-- A well-sorted term may be replaced by the other one: it keeps its sort and all its values. -/
def StandsFor (term' term : Term) : Prop :=
  term.WellSorted → term'.WellSorted ∧ term'.sort = term.sort ∧
    ∀ I : Interp, I.Lawful → ∀ ν, I.Respects ν → term'.eval I ν = term.eval I ν

/-- Well-sorted terms of the Boolean sort. -/
def Term.IsFormula (term : Term) : Prop := term.WellSorted ∧ term.sort = .bool

@[simp] theorem wellSorted_node {kind : Kind} {args : List Term} :
    (Term.node kind args).WellSorted ↔
      kind.Takes (args.map Term.sort) ∧ ∀ arg ∈ args, arg.WellSorted := by
  constructor
  · rintro (_ | ⟨takes, each⟩)
    exact ⟨takes, each⟩
  · exact fun both => .node both.1 both.2

@[simp] theorem wellSorted_bind {binder : Binder} {scopes : List (List Var)} {args : List Term} :
    (Term.bind binder scopes args).WellSorted ↔
      binder.Takes scopes (args.map Term.sort) ∧ ∀ arg ∈ args, arg.WellSorted := by
  constructor
  · rintro (_ | _ | ⟨takes, each⟩)
    exact ⟨takes, each⟩
  · exact fun both => .bind both.1 both.2

namespace StandsFor

@[refl] theorem refl (term : Term) : StandsFor term term :=
  fun sorted => ⟨sorted, rfl, fun _ _ _ _ => rfl⟩

theorem trans {first second third : Term} (left : StandsFor first second)
    (right : StandsFor second third) : StandsFor first third := by
  intro sorted
  obtain ⟨sorted, sort, eval⟩ := right sorted
  obtain ⟨sorted', sort', eval'⟩ := left sorted
  refine ⟨sorted', sort'.trans sort, fun I lawful ν respects => ?_⟩
  rw [eval' I lawful ν respects, eval I lawful ν respects]

theorem isFormula {term' term : Term} (stands : StandsFor term' term) (formula : term.IsFormula) :
    term'.IsFormula := by
  obtain ⟨sorted, sort, -⟩ := stands formula.1
  exact ⟨sorted, sort.trans formula.2⟩

theorem eval_eq {term' term : Term} (stands : StandsFor term' term) (sorted : term.WellSorted)
    {I : Interp} (lawful : I.Lawful) {ν : I.Assignment} (respects : I.Respects ν) :
    term'.eval I ν = term.eval I ν :=
  (stands sorted).2.2 I lawful ν respects

theorem sorts_eq {args' args : List Term} (each : List.Forall₂ StandsFor args' args)
    (sorted : ∀ arg ∈ args, arg.WellSorted) :
    (∀ arg ∈ args', arg.WellSorted) ∧ args'.map Term.sort = args.map Term.sort := by
  induction each with
  | nil => exact ⟨sorted, rfl⟩
  | cons head _ ih =>
    obtain ⟨first, rest⟩ := forall_mem_cons.mp sorted
    obtain ⟨sorted', sort, -⟩ := head first
    obtain ⟨rest', sorts⟩ := ih rest
    exact ⟨forall_mem_cons.mpr ⟨sorted', rest'⟩, by
      rw [map_cons, map_cons, sort, sorts]⟩

theorem values_eq {args' args : List Term} (each : List.Forall₂ StandsFor args' args)
    (sorted : ∀ arg ∈ args, arg.WellSorted) {I : Interp} (lawful : I.Lawful) {ν : I.Assignment}
    (respects : I.Respects ν) :
    (args'.map fun arg => arg.eval I ν) = args.map fun arg => arg.eval I ν := by
  induction each with
  | nil => rfl
  | cons head _ ih =>
    obtain ⟨first, rest⟩ := forall_mem_cons.mp sorted
    rw [map_cons, map_cons, head.eval_eq first lawful respects, ih rest]

theorem node (kind : Kind) {args' args : List Term} (each : List.Forall₂ StandsFor args' args) :
    StandsFor (.node kind args') (.node kind args) := by
  intro sorted
  obtain ⟨takes, sorted⟩ := wellSorted_node.mp sorted
  obtain ⟨sorted', sorts⟩ := sorts_eq each sorted
  refine ⟨wellSorted_node.mpr ⟨sorts ▸ takes, sorted'⟩, ?_, fun I lawful ν respects => ?_⟩
  · rw [Term.sort_node, Term.sort_node, sorts]
  · rw [Term.eval_node, Term.eval_node, sorts, values_eq each sorted lawful respects]

end StandsFor

theorem standsFor_of_formula {term' term : Term} (formula' : term.WellSorted → term'.IsFormula)
    (same : term.WellSorted → ∀ I : Interp, I.Lawful → ∀ ν, I.Respects ν →
      ((term'.eval I ν).holds ↔ (term.eval I ν).holds))
    (formula : term.WellSorted → term.IsFormula := by exact fun sorted => ⟨sorted, rfl⟩) :
    StandsFor term' term := by
  intro sorted
  obtain ⟨sorted', sort'⟩ := formula' sorted
  refine ⟨sorted', sort'.trans (formula sorted).2.symm, fun I lawful ν respects => ?_⟩
  -- Both values are Boolean, so their truth decides.
  have has := Interp.eval_hasSort lawful sorted ν respects
  have has' := Interp.eval_hasSort lawful sorted' ν respects
  rw [(formula sorted).2] at has
  rw [sort'] at has'
  exact has'.bool_ext has (same sorted I lawful ν respects)

@[simp] theorem isFormula_true : mkTrue.IsFormula := ⟨.node rfl (by simp), rfl⟩

@[simp] theorem isFormula_false : mkFalse.IsFormula := ⟨.node rfl (by simp), rfl⟩

@[simp] theorem isFormula_bool (value : Bool) : (mkBool value).IsFormula := by
  cases value
  · exact isFormula_false
  · exact isFormula_true

@[simp] theorem isFormula_not {args : List Term} :
    (Term.node .not args).IsFormula ↔ ∃ arg, args = [arg] ∧ arg.IsFormula := by
  constructor
  · rintro ⟨sorted, -⟩
    obtain ⟨takes, each⟩ := wellSorted_node.mp sorted
    obtain ⟨arg, rfl, sort⟩ := map_eq_singleton_iff.mp takes
    exact ⟨arg, rfl, each arg (by simp), sort⟩
  · rintro ⟨arg, rfl, sorted, sort⟩
    exact ⟨.node (map_eq_singleton_iff.mpr ⟨arg, rfl, sort⟩) (by simpa using sorted), rfl⟩

theorem isFormula_node {kind : Kind} {args : List Term} (bool : (Term.node kind args).sort = .bool)
    (takes : kind.Takes (args.map Term.sort) ↔ ∀ sort ∈ args.map Term.sort, sort = .bool) :
    (Term.node kind args).IsFormula ↔ ∀ arg ∈ args, arg.IsFormula := by
  rw [Term.IsFormula, wellSorted_node, takes, forall_mem_map, and_iff_left bool]
  exact ⟨fun both arg mem => ⟨both.2 arg mem, both.1 arg mem⟩,
    fun each => ⟨fun arg mem => (each arg mem).2, fun arg mem => (each arg mem).1⟩⟩

@[simp] theorem isFormula_and {args : List Term} :
    (Term.node .and args).IsFormula ↔ ∀ arg ∈ args, arg.IsFormula :=
  isFormula_node rfl Iff.rfl

@[simp] theorem isFormula_or {args : List Term} :
    (Term.node .or args).IsFormula ↔ ∀ arg ∈ args, arg.IsFormula :=
  isFormula_node rfl Iff.rfl

section

variable {I : Interp} {ν : I.Assignment}

@[simp] theorem holds_true : (mkTrue.eval I ν).holds ↔ True := Iff.rfl

@[simp] theorem holds_false : (mkFalse.eval I ν).holds ↔ False := Iff.rfl

@[simp] theorem holds_bool (value : Bool) : ((mkBool value).eval I ν).holds ↔ value = true := by
  cases value
  · exact holds_false.trans (by simp)
  · exact holds_true.trans (by simp)

@[simp] theorem holds_not (arg : Term) :
    ((Term.node .not [arg]).eval I ν).holds ↔ ¬(arg.eval I ν).holds := Iff.rfl

@[simp] theorem holds_and (args : List Term) :
    ((Term.node .and args).eval I ν).holds ↔ ∀ arg ∈ args, (arg.eval I ν).holds := by
  rw [Term.eval_node]
  exact forall_mem_map

@[simp] theorem holds_or (args : List Term) :
    ((Term.node .or args).eval I ν).holds ↔ ∃ arg ∈ args, (arg.eval I ν).holds := by
  rw [Term.eval_node]
  show (∃ v ∈ args.map fun arg => arg.eval I ν, v.holds) ↔ _
  simp

@[simp] theorem holds_implies (lhs rhs : Term) : ((Term.node .implies [lhs, rhs]).eval I ν).holds ↔
    ((lhs.eval I ν).holds → (rhs.eval I ν).holds) := Iff.rfl

@[simp] theorem holds_xor (lhs rhs : Term) : ((Term.node .xor [lhs, rhs]).eval I ν).holds ↔
    ¬((lhs.eval I ν).holds ↔ (rhs.eval I ν).holds) := Iff.rfl

@[simp] theorem holds_eq (lhs rhs : Term) : ((Term.node .eq [lhs, rhs]).eval I ν).holds ↔
    lhs.eval I ν = rhs.eval I ν := Iff.rfl

@[simp] theorem holds_distinct (args : List Term) : ((Term.node .distinct args).eval I ν).holds ↔
    (args.map fun arg => arg.eval I ν).Pairwise (· ≠ ·) := by
  rw [Term.eval_node]
  exact Iff.rfl

@[simp] theorem holds_le (lhs rhs : Term) : ((Term.node .le [lhs, rhs]).eval I ν).holds ↔
    (lhs.eval I ν).toReal ≤ (rhs.eval I ν).toReal := Iff.rfl

@[simp] theorem holds_gt (lhs rhs : Term) : ((Term.node .gt [lhs, rhs]).eval I ν).holds ↔
    (rhs.eval I ν).toReal < (lhs.eval I ν).toReal := Iff.rfl

@[simp] theorem holds_ge (lhs rhs : Term) : ((Term.node .ge [lhs, rhs]).eval I ν).holds ↔
    (rhs.eval I ν).toReal ≤ (lhs.eval I ν).toReal := Iff.rfl

@[simp] theorem eval_int (value : Int) : (mkInt value).eval I ν = .num value := rfl

@[simp] theorem eval_real (value : ℚ) : (mkReal value).eval I ν = .num value := rfl

end

def Kind.IsComparison : Kind → Prop
  | .lt | .le | .gt | .ge => True
  | _ => False

theorem isFormula_comparison {kind : Kind} (comparison : kind.IsComparison) {lhs rhs : Term} :
    (Term.node kind [lhs, rhs]).IsFormula ↔
      lhs.WellSorted ∧ rhs.WellSorted ∧ lhs.sort = rhs.sort ∧ Numeric lhs.sort := by
  have takes : (Term.node kind [lhs, rhs]).IsFormula ↔
      (∃ sort, Numeric sort ∧ [lhs.sort, rhs.sort] = [sort, sort]) ∧
        lhs.WellSorted ∧ rhs.WellSorted := by
    unfold Kind.IsComparison at comparison
    split at comparison <;>
      simp_all [Term.IsFormula, wellSorted_node, Kind.Takes, Kind.sort]
  rw [takes]
  simp only [cons.injEq, and_true]
  constructor
  · rintro ⟨⟨sort, numeric, first, second⟩, sorted, sorted'⟩
    exact ⟨sorted, sorted', first.trans second.symm, first ▸ numeric⟩
  · rintro ⟨sorted, sorted', same, numeric⟩
    exact ⟨⟨_, numeric, rfl, same.symm⟩, sorted, sorted'⟩

@[simp] theorem wellSorted_int (value : Int) : (mkInt value).WellSorted := .node rfl (by simp)

@[simp] theorem sort_int (value : Int) : (mkInt value).sort = .int := rfl

end Nixie.Ast
