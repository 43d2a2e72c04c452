import Mathlib.Algebra.Ring.Rat
import Nixie.Ematching.CodeTreeMatch

/-! Patterns that are not flat match terms that are no instances, or miss some that are. -/

namespace Nixie.Ast.Ematching

open List

section

variable {remaining : Nat → Remaining} {signature : Name → List SortKind × SortKind}
  {vars : List Var} {varMap : VarMap}

/-- Another term of the same sort that the head of a term accepts as it accepts the term. -/
structure Variant (remaining : Nat → Remaining) (signature : Name → List SortKind × SortKind)
    (varMap : VarMap) (t t' : Term) : Prop where
  sorted : t'.WellSorted
  declared : t'.Declared signature
  sort : t'.sort = t.sort
  differs : t' ≠ t
  accepts : ∀ b, accept remaining (headKind remaining varMap t) t' b =
    accept remaining (headKind remaining varMap t) t b

theorem exists_var_ne (t : Term) (sort : SortKind) : ∃ name, Term.var name sort ≠ t := by
  by_cases same : Term.var "" sort = t
  · exact ⟨"x", fun same' => absurd (same.trans same'.symm) (by simp)⟩
  · exact ⟨"", same⟩

variable {t : Term}

theorem accept_compare {t' : Term}
    (head : headKind remaining varMap t = .compare (TermKindDiscriminant.fromTerm remaining t))
    (same : TermKindDiscriminant.fromTerm remaining t' = TermKindDiscriminant.fromTerm remaining t)
    (b : Bindings) : accept remaining (headKind remaining varMap t) t' b =
      accept remaining (headKind remaining varMap t) t b := by
  rw [head, accept, accept, same]

theorem fromTerm_node (kind : Kind) (args args' : List Term) :
    TermKindDiscriminant.fromTerm remaining (.node kind args) =
      TermKindDiscriminant.fromTerm remaining (.node kind args') := by
  cases kind <;> rfl

variable {kind : Kind}

theorem headKind_node (args : List Term)
    (other : ∀ func sort, kind ≠ .apply func sort) : headKind remaining varMap (.node kind args) =
      .compare (TermKindDiscriminant.fromTerm remaining (.node kind args)) := by
  cases kind with
  | apply func sort => exact absurd rfl (other func sort)
  | _ => rfl

variable {args : List Term}

theorem variant_args {args' : List Term}
    (sorted : (Term.node kind args).WellSorted) (declared : (Term.node kind args).Declared signature)
    (sorts : args'.map Term.sort = args.map Term.sort) (differs : args' ≠ args)
    (sortedArgs : ∀ arg ∈ args', arg.WellSorted)
    (declaredArgs : ∀ arg ∈ args', arg.Declared signature) :
    Variant remaining signature varMap (.node kind args) (.node kind args') := by
  have length : args'.length = args.length := by simpa using congrArg length sorts
  cases sorted with
  | node takes =>
    cases declared with
    | node kept =>
      refine ⟨.node (sorts ▸ takes) sortedArgs, .node (sorts ▸ kept) declaredArgs, ?_, ?_, ?_⟩
      · rw [Term.sort, Term.sort, Term.sorts_eq_map, Term.sorts_eq_map, sorts]
      · exact fun same => differs (Term.node.inj same).2
      · by_cases apply_ : ∃ func sort, kind = .apply func sort
        · obtain ⟨func, sort, rfl⟩ := apply_
          intro b
          simp [headKind, accept, appliesFunction, length]
        · exact accept_compare (headKind_node args fun func sort same => apply_ ⟨func, sort, same⟩)
            (fromTerm_node kind args' args)

theorem exists_variant_args {arg : Term} {rest : List Term}
    (sorted : (Term.node kind (arg :: rest)).WellSorted)
    (declared : (Term.node kind (arg :: rest)).Declared signature) :
    ∃ t', Variant remaining signature varMap (.node kind (arg :: rest)) t' := by
  obtain ⟨name, differs⟩ := exists_var_ne arg arg.sort
  refine ⟨.node kind (.var name arg.sort :: rest), variant_args sorted declared rfl
    (fun same => differs (cons.inj same).1) ?_ ?_⟩
  · cases sorted with
    | node _ each =>
      rw [forall_mem_cons] at each ⊢
      exact ⟨.var name _, each.2⟩
  · cases declared with
    | node _ each =>
      rw [forall_mem_cons] at each ⊢
      exact ⟨.var name _, each.2⟩

theorem exists_variant_bind {binder : Binder} {scopes : List (List Var)}
    (sorted : (Term.bind binder scopes args).WellSorted)
    (declared : (Term.bind binder scopes args).Declared signature) :
    ∃ t', Variant remaining signature varMap (.bind binder scopes args) t' := by
  cases sorted with
  | bind takes each =>
    cases declared with
    | bind eachDeclared =>
      cases args with
      | nil =>
        -- A binder has a body.
        cases binder with
        | forallQ | existsQ => exact absurd takes.2 (by simp)
        | letIn =>
          obtain ⟨names, values, body, sorts, -⟩ := takes
          exact absurd sorts (by simp)
        | matchOn constructors sort =>
          obtain ⟨scrutinee, vars, -, -, sorts⟩ := takes
          exact absurd sorts (by simp)
      | cons arg rest =>
        obtain ⟨name, differs⟩ := exists_var_ne arg arg.sort
        rw [forall_mem_cons] at each eachDeclared
        refine ⟨.bind binder scopes (.var name arg.sort :: rest), .bind takes ?_, .bind ?_, rfl,
          fun same => differs (cons.inj (Term.bind.inj same).2.2).1,
          accept_compare rfl rfl⟩
        · exact forall_mem_cons.mpr ⟨.var name _, each.2⟩
        · exact forall_mem_cons.mpr ⟨.var name _, eachDeclared.2⟩

theorem variant_nullary {kind' : Kind} (takes : kind'.Takes [])
    (kept : kind'.Declared signature []) (sort : kind'.sort [] = kind.sort [])
    (differs : kind' ≠ kind) (head : headKind remaining varMap (.node kind []) =
      .compare (TermKindDiscriminant.fromTerm remaining (.node kind [])))
    (same : TermKindDiscriminant.fromTerm remaining (.node kind' []) =
      TermKindDiscriminant.fromTerm remaining (.node kind [])) :
    Variant remaining signature varMap (.node kind []) (.node kind' []) where
  sorted := .node takes fun _ mem => absurd mem not_mem_nil
  declared := .node kept fun _ mem => absurd mem not_mem_nil
  sort := sort
  differs := fun equal => differs (Term.node.inj equal).1
  accepts := accept_compare head same

theorem variant_unary (takes : kind.Takes [.bool])
    (kept : kind.Declared signature [.bool]) (sort : kind.sort [.bool] = kind.sort [])
    (head : headKind remaining varMap (.node kind []) =
      .compare (TermKindDiscriminant.fromTerm remaining (.node kind []))) :
    Variant remaining signature varMap (.node kind []) (.node kind [.var "" .bool]) where
  sorted := .node takes fun _ mem => mem_singleton.mp mem ▸ .var "" .bool
  declared := .node kept fun _ mem => mem_singleton.mp mem ▸ .var "" .bool
  sort := sort
  differs := fun equal => absurd (Term.node.inj equal).2 (by simp)
  accepts := accept_compare head (fromTerm_node kind _ _)

/-- A constant has another constant of its kind beside it, and other terms without arguments have
terms with arguments. -/
theorem exists_variant_nullary (sorted : (Term.node kind []).WellSorted)
    (declared : (Term.node kind []).Declared signature) (other : ¬Plain vars (.node kind [])) :
    ∃ t', Variant remaining signature varMap (.node kind []) t' := by
  cases sorted with
  | node takes =>
    cases kind with
    | tru | fls | apply => exact absurd trivial other
    | intConst value =>
      obtain ⟨value', differs⟩ := exists_ne value
      exact ⟨_, @variant_nullary remaining signature varMap _ (.intConst value') rfl trivial rfl
        (by simpa using differs) rfl rfl⟩
    | realConst value =>
      obtain ⟨value', differs⟩ := exists_ne value
      exact ⟨_, @variant_nullary remaining signature varMap _ (.realConst value') rfl trivial rfl
        (by simpa using differs) rfl rfl⟩
    | bitVecConst value width =>
      cases declared with
      | node kept =>
        have pos : 0 < width := kept
        have two : 1 < 2 ^ width := Nat.one_lt_two_pow (Nat.ne_of_gt pos)
        by_cases zero : value = 0
        · have takes' : (Kind.bitVecConst 1 width).Takes [] :=
            ⟨rfl, by omega, by exact_mod_cast two⟩
          exact ⟨_, variant_nullary takes' kept rfl (by simp [zero]) rfl rfl⟩
        · have takes' : (Kind.bitVecConst 0 width).Takes [] :=
            ⟨rfl, Int.le_refl 0, by exact_mod_cast Nat.two_pow_pos width⟩
          exact ⟨_, variant_nullary takes' kept rfl (by simp [Ne.symm zero]) rfl rfl⟩
    | and | or => exact ⟨_, variant_unary (by simp [Kind.Takes]) trivial rfl rfl⟩
    | distinct => exact ⟨_, variant_unary ⟨.bool, by simp⟩ trivial rfl rfl⟩
    | other tag sort => exact ⟨_, variant_unary trivial trivial rfl rfl⟩
    | dtConstructor constructor =>
      -- A conditional has the same discriminant as a constructor, at every sort.
      let value : Term := .var "" (.uninterpreted constructor.data)
      refine ⟨.node .ite [.var "" .bool, value, value], .node ⟨_, rfl⟩ ?_, .node trivial ?_, rfl,
        by simp, accept_compare rfl rfl⟩
      · intro arg mem
        simp only [mem_cons, not_mem_nil, or_false] at mem
        rcases mem with rfl | rfl | rfl <;> exact .var _ _
      · intro arg mem
        simp only [mem_cons, not_mem_nil, or_false] at mem
        rcases mem with rfl | rfl | rfl <;> exact .var _ _
    | not | xor | implies | mod => exact absurd takes (by simp [Kind.Takes])
    | ite | eq | neg | sub | div | lt | le | gt | ge | add | mul =>
      exact absurd takes (by simp [Kind.Takes])

/-- Every term that is not plain has a variant, except a variable with the name of a pattern
variable. -/
theorem exists_variant (sorted : t.WellSorted) (declared : t.Declared signature)
    (other : ¬Plain vars t) (free : ∀ name sort, t = .var name sort → varMap name = none) :
    ∃ t', Variant remaining signature varMap t t' := by
  cases t with
  | var name sort =>
    obtain ⟨name', differs⟩ := exists_var_ne (.var name sort) sort
    exact ⟨.var name' sort, .var _ _, .var _ _, rfl, differs, fun b => by
      rw [headKind, free name sort rfl]; rfl⟩
  | bind binder scopes args => exact exists_variant_bind sorted declared
  | node kind args =>
    cases args with
    | nil => exact exists_variant_nullary sorted declared other
    | cons arg rest => exact exists_variant_args sorted declared

end

def identity (vars : List Var) : List Term := vars.map fun x => .var x.1 x.2

theorem instantiate_none (t : Term) : instantiate (fun _ => none) t = t := by
  induction t using Term.induct with
  | var name sort => rfl
  | bind binder scopes args => rfl
  | node kind args ih =>
    rw [instantiate, instantiateAll_eq_map, map_congr_left ih, map_id']

theorem identity_get (vars : List Var) (i : Nat) :
    (identity vars)[i]? = vars[i]?.map fun x => .var x.1 x.2 := by
  rw [identity, getElem?_map]

theorem Pattern.instance_identity (pattern : Pattern) :
    pattern.Instance (identity pattern.vars) pattern.root := by
  have distinct : pattern.vars.Nodup := List.Nodup.of_map _ pattern.distinct
  refine ⟨by simp [identity, Term.sort], ?_⟩
  refine ((instantiate_eq_iff _).mpr fun x _ => ?_).trans (instantiate_none pattern.root)
  cases value : substitution pattern.vars (identity pattern.vars) x with
  | none => rfl
  | some t =>
    obtain ⟨i, at_, here⟩ := (substitution_eq_some distinct).mp value
    rw [identity_get, at_] at here
    exact (Option.some.inj here).symm

section

variable {remaining : Nat → Remaining} {signature : Name → List SortKind × SortKind}
  {varMap : VarMap}

variable {b : Bindings}

theorem accept_keeps {kind : InstructionKind} {b' : Bindings}
    (accepted : accept remaining kind t b = some b') {i : Nat} {u : Term}
    (bound : b[i]? = some (some u)) : b'[i]? = some (some u) := by
  rcases accept_cases accepted with ⟨rfl, -⟩ | ⟨j, sort, -, open_, rfl⟩
  · exact bound
  · have other : j ≠ i := by
      rintro rfl
      exact absurd (Option.some.inj (open_.symm.trans bound)) (by simp)
    rw [getElem?_set_ne other, bound]

theorem accept_binds {i : Nat} {sort : SortKind} {b' : Bindings}
    (accepted : accept remaining (.bind i sort) t b = some b') : b'[i]? = some (some t) := by
  rcases accept_cases accepted with ⟨rfl, bound⟩ | ⟨j, sort', same, open_, rfl⟩
  · exact bound i sort rfl
  · cases same
    rw [List.getElem?_set_self (List.getElem?_eq_some_iff.mp open_).1]

theorem matchArgs_keeps {childIdx : Nat} {b' : Bindings}
    (matched : matchArgs remaining varMap childIdx args t b = some b') {i : Nat} {u : Term}
    (bound : b[i]? = some (some u)) : b'[i]? = some (some u) := by
  induction args generalizing childIdx b with
  | nil => rwa [← Option.some.inj matched]
  | cons arg rest ih =>
    obtain ⟨child, -, matched⟩ := Option.bind_eq_some_iff.mp matched
    obtain ⟨mid, accepted, matched⟩ := Option.bind_eq_some_iff.mp matched
    exact ih matched (accept_keeps accepted bound)

theorem matchArgs_binds {childIdx : Nat} {b' : Bindings}
    (matched : matchArgs remaining varMap childIdx args t b = some b') {k i : Nat} {name : Name}
    {sort : SortKind} (at_ : args[k]? = some (.var name sort)) (index : varMap name = some i)
    {u : Term} (child : childAt t (childIdx + k) = some u) : b'[i]? = some (some u) := by
  induction args generalizing childIdx k b with
  | nil => exact absurd at_ (by simp)
  | cons arg rest ih =>
    obtain ⟨first, here, step⟩ := Option.bind_eq_some_iff.mp matched
    obtain ⟨mid, accepted, later⟩ := Option.bind_eq_some_iff.mp step
    cases k with
    | zero =>
      obtain rfl := Option.some.inj at_
      obtain rfl := Option.some.inj (here.symm.trans child)
      rw [headKind, index] at accepted
      exact matchArgs_keeps later (accept_binds accepted)
    | succ k =>
      refine ih later at_ ?_
      rwa [Nat.add_assoc, Nat.add_comm 1 k]

theorem matchArgs_congr {t' : Term} {childIdx : Nat}
    (same : ∀ (k : Nat) arg, args[k]? = some arg → ∃ u u', childAt t (childIdx + k) = some u ∧
      childAt t' (childIdx + k) = some u' ∧ ∀ b, accept remaining (headKind remaining varMap arg) u' b =
        accept remaining (headKind remaining varMap arg) u b) :
    matchArgs remaining varMap childIdx args t' b = matchArgs remaining varMap childIdx args t b := by
  induction args generalizing childIdx b with
  | nil => rfl
  | cons arg rest ih =>
    obtain ⟨u, u', here, here', accepts⟩ := same 0 arg rfl
    rw [Nat.add_zero] at here here'
    rw [matchArgs, matchArgs, here, here', Option.bind_some, Option.bind_some, accepts]
    refine Option.bind_congr fun mid _ => ih fun k arg' at_ => ?_
    rw [Nat.add_assoc, Nat.add_comm 1 k]
    exact same (k + 1) arg' at_

variable {pattern : Pattern}

theorem matchPattern_single (arity : arityCheck pattern.root = [])
    (ops : operands pattern.root = []) (t : Term) : matchPattern remaining pattern t =
      (accept remaining (headKind remaining (buildVarMap pattern.vars).1 pattern.root) t
        (List.replicate pattern.vars.length none)).bind (List.mapM id) := by
  rw [matchPattern_eq, arity, ops, acceptAll]
  cases accept remaining (headKind remaining (buildVarMap pattern.vars).1 pattern.root) t
    (replicate pattern.vars.length none) <;> rfl

theorem not_entered (out : ¬Entered kind) (args : List Term) :
    (arityCheck (.node kind args) = [] ∧ operands (.node kind args) = []) ∨
      ∀ b, (acceptAll remaining (headKind remaining varMap (.node kind args) ::
        arityCheck (.node kind args)) (.node kind args) b).bind
          (matchArgs remaining varMap 0 (operands (.node kind args)) (.node kind args)) = none := by
  cases kind with
  | apply | eq | lt | le | add | mul => exact absurd trivial out
  | gt | ge =>
    rcases args with _ | ⟨lhs, _ | ⟨rhs, _ | ⟨arg, rest⟩⟩⟩
    · exact .inl ⟨rfl, rfl⟩
    · exact .inl ⟨rfl, rfl⟩
    · -- There is no way down to the first operand.
      exact .inr fun b => by simp [acceptAll, accept, headKind, arityCheck, matchArgs, operands, childAt]
    · exact .inl ⟨rfl, rfl⟩
  | and | or =>
    -- The number of arguments is only known for sums and applications.
    exact .inr fun b => by simp [acceptAll, accept, headKind, arityCheck, TermProperty.passes]
  | _ => exact .inl ⟨rfl, rfl⟩

/-- A variable with the name of a pattern variable that is bound to itself is the pattern
variable. -/
theorem mem_of_bound {vars : List Var} (all : b.mapM id = some (identity vars))
    {i : Nat} {name : Name} {sort : SortKind} (bound : b[i]? = some (some (.var name sort))) :
    (name, sort) ∈ vars := by
  rw [mapM_id_eq_some.mp all, getElem?_map, identity_get, Option.map_map] at bound
  obtain ⟨x, at_, same⟩ := Option.map_eq_some_iff.mp bound
  obtain ⟨rfl, rfl⟩ := Term.var.inj (Option.some.inj same)
  exact mem_of_getElem? at_

theorem acceptAll_self {args' : List Term} (entered : Entered kind)
    (sorted : (Term.node kind args).WellSorted) (declared : (Term.node kind args).Declared signature)
    (sorted' : (Term.node kind args').WellSorted)
    (declared' : (Term.node kind args').Declared signature) (same : args'.length = args.length)
    (b : Bindings) : acceptAll remaining (headKind remaining varMap (.node kind args) ::
      arityCheck (.node kind args)) (.node kind args') b = some b := by
  rcases @accepts_entered remaining signature varMap kind args entered sorted declared _ sorted'
    declared' with ⟨-, -, -, accepts⟩ | ⟨differ, -⟩
  · exact accepts b
  · exact absurd rfl (differ args' same)

theorem matchArgs_variant (entered : Entered kind)
    (sorted : (Term.node kind args).WellSorted) {k : Nat} {arg : Term} (at_ : args[k]? = some arg)
    (variant : Variant remaining signature varMap arg t)
    (sorted' : (Term.node kind (args.set k t)).WellSorted) (b : Bindings) :
    matchArgs remaining varMap 0 args (.node kind (args.set k t)) b =
      matchArgs remaining varMap 0 args (.node kind args) b := by
  refine matchArgs_congr fun j other here => ?_
  rw [Nat.zero_add, (operands_entered entered sorted).2, (operands_entered entered sorted').2]
  by_cases same : k = j
  · subst same
    obtain rfl := Option.some.inj (at_.symm.trans here)
    exact ⟨arg, t, here, List.getElem?_set_self (List.getElem?_eq_some_iff.mp at_).1,
      variant.accepts⟩
  · exact ⟨other, other, here, by rw [getElem?_set_ne same, here], fun _ => rfl⟩

/-- A pattern that matches itself, and no other term with the same bindings, has no variable that
only has the name of a pattern variable. -/
theorem free_of_bound (all : b.mapM id = some (identity pattern.vars)) {name : Name}
    {sort : SortKind} (outside : ¬Plain pattern.vars (.var name sort))
    (bound : ∀ i, varMap name = some i → b[i]? = some (some (.var name sort))) :
    varMap name = none := by
  cases index : varMap name with
  | none => rfl
  | some i => exact absurd (mem_of_bound all (bound i index)) outside

/-- In a pattern that matches itself, and no other term with the same bindings, an entered root
has plain arguments. -/
theorem plain_of_identity (root : pattern.root = .node kind args) (entered : Entered kind)
    (sorted : pattern.root.WellSorted) (declared : pattern.root.Declared signature)
    (found : matchPattern remaining pattern pattern.root = some (identity pattern.vars))
    (only : ∀ t : Term, t.WellSorted → t.Declared signature →
      matchPattern remaining pattern t = some (identity pattern.vars) → t = pattern.root)
    {arg : Term} (mem : arg ∈ args) : Plain pattern.vars arg := by
  by_contra outside
  obtain ⟨k, at_⟩ := mem_iff_getElem?.mp mem
  rw [root] at sorted declared only found
  have start := fun b args' sorted' declared' same => @acceptAll_self remaining signature
    (buildVarMap pattern.vars).1 kind args args' entered sorted declared sorted' declared' same b
  have matched := found
  rw [matchPattern_eq, root, start _ _ sorted declared rfl, Option.bind_some,
    (operands_entered entered sorted).1] at matched
  obtain ⟨b, through, all⟩ := Option.bind_eq_some_iff.mp matched
  -- The argument has a variant, since it is no variable that gets bound.
  obtain ⟨t, variant⟩ : ∃ t, Variant remaining signature (buildVarMap pattern.vars).1 arg t := by
    have sortedArg : arg.WellSorted := by
      cases sorted with
      | node _ each => exact each arg mem
    have declaredArg : arg.Declared signature := by
      cases declared with
      | node _ each => exact each arg mem
    refine exists_variant sortedArg declaredArg outside fun name sort same => ?_
    subst same
    refine free_of_bound all outside fun i index => matchArgs_binds through at_ index ?_
    rw [Nat.zero_add, (operands_entered entered sorted).2, at_]
  have lies : k < args.length := (List.getElem?_eq_some_iff.mp at_).1
  have sorts : (args.set k t).map Term.sort = args.map Term.sort := by
    refine ext_getElem? fun j => ?_
    by_cases same : k = j
    · subst same
      rw [getElem?_map, getElem?_map, getElem?_set_self lies, at_, Option.map_some,
        Option.map_some, variant.sort]
    · rw [getElem?_map, getElem?_map, getElem?_set_ne same]
  have differs : args.set k t ≠ args := by
    intro same
    have here := congrArg (fun l : List Term => l[k]?) same
    simp only [getElem?_set_self lies, at_] at here
    exact variant.differs (Option.some.inj here)
  have other : Variant remaining signature (buildVarMap pattern.vars).1 (.node kind args)
      (.node kind (args.set k t)) := by
    refine variant_args sorted declared sorts differs ?_ ?_
    · cases sorted with
      | node _ each =>
        intro u within
        rcases mem_or_eq_of_mem_set within with within | rfl
        · exact each u within
        · exact variant.sorted
    · cases declared with
      | node _ each =>
        intro u within
        rcases mem_or_eq_of_mem_set within with within | rfl
        · exact each u within
        · exact variant.declared
  refine other.differs (only _ other.sorted other.declared ?_)
  rw [matchPattern_eq, root, start _ _ other.sorted other.declared length_set,
    Option.bind_some, (operands_entered entered sorted).1,
    matchArgs_variant entered sorted at_ variant other.sorted, through, Option.bind_some, all]

theorem flat_of_identity (sorted : pattern.root.WellSorted)
    (declared : pattern.root.Declared signature)
    (found : matchPattern remaining pattern pattern.root = some (identity pattern.vars))
    (only : ∀ t : Term, t.WellSorted → t.Declared signature →
      matchPattern remaining pattern t = some (identity pattern.vars) → t = pattern.root) :
    pattern.Flat := by
  by_contra nested
  obtain ⟨other, nested⟩ := not_or.mp nested
  -- Without operands, a variant of the pattern matches as the pattern does.
  have single (arity : arityCheck pattern.root = []) (ops : operands pattern.root = []) : False := by
    have matched := found
    rw [matchPattern_single arity ops] at matched
    obtain ⟨b, accepted, all⟩ := Option.bind_eq_some_iff.mp matched
    obtain ⟨t, variant⟩ : ∃ t, Variant remaining signature (buildVarMap pattern.vars).1
        pattern.root t := by
      refine exists_variant sorted declared other fun name sort same => ?_
      rw [same] at accepted other
      refine free_of_bound all other fun i index => ?_
      rw [headKind, index] at accepted
      exact accept_binds accepted
    refine variant.differs (only t variant.sorted variant.declared ?_)
    rw [matchPattern_single arity ops, variant.accepts, ← matchPattern_single arity ops, found]
  cases root : pattern.root with
  | var name sort => exact single (by rw [root]; rfl) (by rw [root]; rfl)
  | bind binder scopes args => exact single (by rw [root]; rfl) (by rw [root]; rfl)
  | node kind args =>
    by_cases entered : Entered kind
    · exact nested ⟨kind, args, root, entered,
        fun arg => plain_of_identity root entered sorted declared found only⟩
    · rcases @not_entered remaining (buildVarMap pattern.vars).1 kind entered args with
        ⟨arity, ops⟩ | never
      · rw [← root] at arity ops
        exact single arity ops
      · rw [← root] at never
        rw [matchPattern_eq, never] at found
        exact absurd found (by simp)

/-- A compiled pattern, and the optimised one, return the bindings that make the term if and only
if the pattern is flat. -/
theorem compile_matches_iff {pattern : Pattern} {tree : CodeTree}
    (sorted : pattern.root.WellSorted) (declared : pattern.root.Declared signature)
    (done : compile remaining pattern = .ok tree) :
    (tree.Matches remaining signature pattern ∧
      (optimize tree).Matches remaining signature pattern) ↔ pattern.Flat := by
  rw [optimize_compile done, and_self]
  constructor
  · intro works
    have self := (returns_iff done).mp ((works _ sorted declared _).mpr pattern.instance_identity)
    refine flat_of_identity sorted declared self fun t sortedTerm declaredTerm found => ?_
    have inst := (works t sortedTerm declaredTerm _).mp ((returns_iff done).mpr found)
    exact inst.2.symm.trans pattern.instance_identity.2
  · intro flat t sortedTerm declaredTerm bindings
    rw [returns_iff done]
    exact matchPattern_flat flat sorted declared sortedTerm declaredTerm

end

def apply (func : Name) (arg : Term) : Term := .node (.apply func .int) [arg]

def unaryPattern : Pattern where
  root := apply "f" (.var "x" .int)
  vars := [("x", .int)]
  distinct := by decide
  occurs := by decide

theorem apply_declared {func : Name} {arg : Term} (sort : arg.sort = .int)
    (declared : arg.Declared fun _ => ([.int], .int)) :
    (apply func arg).Declared fun _ => ([.int], .int) := by
  refine .node ?_ fun other mem => mem_singleton.mp mem ▸ declared
  rw [map_singleton, sort]
  rfl

theorem unaryPattern_matches : ∃ tree, compile (fun _ => .other) unaryPattern = .ok tree ∧
    tree.Matches (fun _ => .other) (fun _ => ([.int], .int)) unaryPattern ∧
      (optimize tree).Matches (fun _ => .other) (fun _ => ([.int], .int)) unaryPattern := by
  refine ⟨_, rfl, (compile_matches_iff ?_ ?_ rfl).mpr (.inr ⟨_, _, rfl, trivial, ?_⟩)⟩
  · exact .node trivial fun arg member => mem_singleton.mp member ▸ .var "x" .int
  · exact apply_declared rfl (.var "x" .int)
  · exact fun arg member => mem_singleton.mp member ▸ mem_singleton.mpr rfl

def nestedPattern : Pattern where
  root := apply "f" (apply "g" (.var "x" .int))
  vars := [("x", .int)]
  distinct := by decide
  occurs := by decide

/-- The instructions of the inner application are not on the chain, so its variable stays open. -/
theorem nestedPattern_not_matched : ∃ tree, compile (fun _ => .other) nestedPattern = .ok tree ∧
    nestedPattern.Instance [.var "a" .int] (apply "f" (apply "g" (.var "a" .int))) ∧
      tree.Returns (fun _ => .other) (apply "f" (apply "g" (.var "a" .int))) none :=
  ⟨_, rfl, ⟨rfl, rfl⟩, 20, rfl⟩

end Nixie.Ast.Ematching
