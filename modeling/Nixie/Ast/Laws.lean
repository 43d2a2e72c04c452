import Nixie.Ast.Eval

/-! Well-sorted terms have values of their sorts. -/

namespace Nixie.Ast

open List Function

namespace Term

variable (I : Interp)

@[simp] theorem evalAll_eq_map (args : List Term) (ν : I.Assignment) :
    evalAll I args ν = args.map fun arg => eval I arg ν := by
  -- The second function only spells out the map.
  induction args with
  | nil => rfl
  | cons term rest ih => exact congrArg (eval I term ν :: ·) ih

@[simp] theorem meanings_eq_map (args : List Term) : meanings I args = args.map (eval I) := by
  induction args with
  | nil => rfl
  | cons term rest ih => exact congrArg (eval I term :: ·) ih

@[simp] theorem sort_node (kind : Kind) (args : List Term) :
    (Term.node kind args).sort = kind.sort (args.map sort) :=
  congrArg kind.sort (sorts_eq_map args)

@[simp] theorem sort_bind (binder : Binder) (scopes : List (List Var)) (args : List Term) :
    (Term.bind binder scopes args).sort = binder.sort (args.map sort) :=
  congrArg binder.sort (sorts_eq_map args)

@[simp] theorem sort_var (name : Name) (sort : SortKind) : (Term.var name sort).sort = sort := rfl

theorem eval_node (kind : Kind) (args : List Term) (ν : I.Assignment) :
    (Term.node kind args).eval I ν =
      I.kind kind (args.map sort) (args.map fun arg => arg.eval I ν) :=
  congrArg (I.kind kind (args.map sort)) (evalAll_eq_map I args ν)

theorem eval_bind (binder : Binder) (scopes : List (List Var)) (args : List Term)
    (ν : I.Assignment) :
    (Term.bind binder scopes args).eval I ν = I.binder binder scopes (args.map (eval I)) ν :=
  congrArg (I.binder binder scopes · ν) (meanings_eq_map I args)

@[simp] theorem eval_var (name : Name) (sort : SortKind) (ν : I.Assignment) :
    (Term.var name sort).eval I ν = ν (name, sort) := rfl

end Term

namespace Interp

variable {I : Interp}

theorem HasSort.eq_bool {v : Value I.U} (has : I.HasSort .bool v) : v = .bool v.holds := by
  obtain ⟨p, rfl⟩ := has
  rfl

theorem HasSort.bool_ext {v w : Value I.U} (has : I.HasSort .bool v) (has' : I.HasSort .bool w)
    (same : v.holds ↔ w.holds) : v = w := by
  rw [has.eq_bool, has'.eq_bool, propext same]

theorem HasSort.eq_num {sort : SortKind} {v : Value I.U} (numeric : Numeric sort)
    (has : I.HasSort sort v) : v = .num v.toReal := by
  rcases numeric with rfl | rfl
  · obtain ⟨n, rfl⟩ := has
    rfl
  · obtain ⟨x, rfl⟩ := has
    rfl

theorem HasSort.exists_int {v : Value I.U} (has : I.HasSort .int v) : ∃ n : ℤ, v.toReal = n := by
  obtain ⟨n, rfl⟩ := has
  exact ⟨n, rfl⟩

theorem hasSort_num {sort : SortKind} (numeric : Numeric sort) (x : ℝ)
    (integral : sort = .int → ∃ n : ℤ, x = n) : I.HasSort sort (.num x) := by
  rcases numeric with rfl | rfl
  · obtain ⟨n, rfl⟩ := integral rfl
    exact ⟨n, rfl⟩
  · exact ⟨x, rfl⟩

theorem Respects.update {ν : I.Assignment} (respects : I.Respects ν) {x : Var} {v : Value I.U}
    (has : I.HasSort x.2 v) : I.Respects (update ν x v) := by
  intro y
  by_cases same : y = x
  · subst same
    rwa [update_self]
  · rw [update_of_ne same]
    exact respects y

theorem Respects.assign {ν : I.Assignment} (respects : I.Respects ν) {vars : List Var}
    {vs : List (Value I.U)} (has : I.HasSorts (vars.map Prod.snd) vs) :
    I.Respects (I.assign vars vs ν) := by
  induction vars generalizing ν vs with
  | nil => exact respects
  | cons x vars ih =>
    rw [map_cons] at has
    obtain _ | ⟨head, tail⟩ := has
    exact ih (respects.update head) tail

theorem exists_int_sum {xs : List ℝ} (each : ∀ x ∈ xs, ∃ n : ℤ, x = n) : ∃ n : ℤ, xs.sum = n := by
  induction xs with
  | nil => exact ⟨0, by simp⟩
  | cons x xs ih =>
    obtain ⟨⟨n, head⟩, tail⟩ := forall_mem_cons.mp each
    obtain ⟨m, rest⟩ := ih tail
    exact ⟨n + m, by rw [sum_cons, head, rest, Int.cast_add]⟩

theorem exists_int_prod {xs : List ℝ} (each : ∀ x ∈ xs, ∃ n : ℤ, x = n) : ∃ n : ℤ, xs.prod = n := by
  induction xs with
  | nil => exact ⟨1, by simp⟩
  | cons x xs ih =>
    obtain ⟨⟨n, head⟩, tail⟩ := forall_mem_cons.mp each
    obtain ⟨m, rest⟩ := ih tail
    exact ⟨n * m, by rw [prod_cons, head, rest, Int.cast_mul]⟩

theorem HasSorts.exists_int {sorts : List SortKind} {vs : List (Value I.U)}
    (has : I.HasSorts sorts vs) (each : ∀ sort ∈ sorts, sort = .int) :
    ∀ x ∈ vs.map Value.toReal, ∃ n : ℤ, x = n := by
  induction has with
  | nil => exact fun _ mem => nomatch mem
  | cons head _ ih =>
    obtain ⟨rfl, rest⟩ := forall_mem_cons.mp each
    exact forall_mem_cons.mpr ⟨head.exists_int, ih rest⟩

theorem kind_hasSort (lawful : I.Lawful) {kind : Kind} {sorts : List SortKind}
    {vs : List (Value I.U)} (takes : kind.Takes sorts) (has : I.HasSorts sorts vs) :
    I.HasSort (kind.sort sorts) (I.kind kind sorts vs) := by
  cases kind with
  | tru | fls | and | or | distinct => exact ⟨_, rfl⟩
  | intConst value => exact ⟨value, rfl⟩
  | realConst value => exact ⟨value, rfl⟩
  | bitVecConst value width =>
    have bound : value % 2 ^ width < 2 ^ width := Int.emod_lt_of_pos value (by positivity)
    exact ⟨_, by rw [Int.toNat_lt' (by positivity)]; exact_mod_cast bound, rfl⟩
  | not =>
    obtain rfl := takes
    obtain _ | ⟨_, _ | _⟩ := has
    exact ⟨_, rfl⟩
  | xor | implies =>
    obtain rfl := takes
    obtain _ | ⟨_, _ | ⟨_, _ | _⟩⟩ := has
    exact ⟨_, rfl⟩
  | eq =>
    obtain ⟨_, rfl⟩ := takes
    obtain _ | ⟨_, _ | ⟨_, _ | _⟩⟩ := has
    exact ⟨_, rfl⟩
  | lt | le | gt | ge =>
    obtain ⟨_, _, rfl⟩ := takes
    obtain _ | ⟨_, _ | ⟨_, _ | _⟩⟩ := has
    exact ⟨_, rfl⟩
  | ite =>
    obtain ⟨sort, rfl⟩ := takes
    obtain _ | ⟨_, _ | ⟨thenHas, _ | ⟨elseHas, _ | _⟩⟩⟩ := has
    simp only [Kind.sort, kind]
    split
    · exact thenHas
    · exact elseHas
  | neg =>
    obtain ⟨sort, numeric, rfl⟩ := takes
    obtain _ | ⟨head, _ | _⟩ := has
    refine hasSort_num numeric _ fun int => ?_
    subst int
    obtain ⟨n, eq⟩ := head.exists_int
    exact ⟨-n, by rw [eq, Int.cast_neg]⟩
  | add | mul =>
    obtain ⟨nonempty, sort, numeric, each⟩ := takes
    -- The sort is that of the first argument, and all arguments share it.
    obtain ⟨first, rest, rfl⟩ := exists_cons_of_ne_nil nonempty
    obtain rfl := each first mem_cons_self
    refine hasSort_num numeric _ fun int => ?_
    have integral := has.exists_int fun other mem => (each other mem).trans int
    first | exact exists_int_sum integral | exact exists_int_prod integral
  | sub =>
    obtain ⟨sort, numeric, rfl⟩ := takes
    obtain _ | ⟨left, _ | ⟨right, _ | _⟩⟩ := has
    refine hasSort_num numeric _ fun int => ?_
    subst int
    obtain ⟨n, eq⟩ := left.exists_int
    obtain ⟨m, eq'⟩ := right.exists_int
    exact ⟨n - m, by rw [eq, eq', Int.cast_sub]⟩
  | div =>
    obtain ⟨sort, numeric, rfl⟩ := takes
    obtain _ | ⟨left, _ | ⟨right, _ | _⟩⟩ := has
    rcases numeric with rfl | rfl
    · exact ⟨_, rfl⟩
    · exact ⟨_, rfl⟩
  | mod =>
    obtain rfl := takes
    obtain _ | ⟨_, _ | ⟨_, _ | _⟩⟩ := has
    exact ⟨_, rfl⟩
  | apply func sort => exact lawful.func func sort vs
  | dtConstructor c =>
    obtain rfl := takes
    exact lawful.constructor c vs has
  | other tag sort => exact lawful.other tag sort vs

/-- What a meaning of a sort is: it has values of the sort. -/
def MeansSort (sort : SortKind) (meaning : I.Meaning) : Prop :=
  ∀ ν, I.Respects ν → I.HasSort sort (meaning ν)

theorem firstCase_hasSort (lawful : I.Lawful) {sort : SortKind} {v : Value I.U}
    {ν : I.Assignment} (respects : I.Respects ν) (constructors : List (Option Name))
    (scopes : List (List Var)) {bodies : List I.Meaning}
    (each : ∀ body ∈ bodies, MeansSort sort body) :
    I.HasSort sort (I.firstCase sort v ν constructors scopes bodies) := by
  induction constructors generalizing scopes bodies with
  | nil => exact lawful.noMatch sort
  | cons constructor constructors ih =>
    match scopes, bodies with
    | [], _ => exact lawful.noMatch sort
    | _ :: _, [] => exact lawful.noMatch sort
    | vars :: scopes, body :: bodies =>
      obtain ⟨head, tail⟩ := forall_mem_cons.mp each
      rw [firstCase]
      split
      · split
        · exact head _ (respects.assign ‹_›)
        · exact lawful.noMatch sort
      · exact ih scopes tail

theorem binder_hasSort (lawful : I.Lawful) {binder : Binder} {scopes : List (List Var)}
    {args : List Term} {ν : I.Assignment} (takes : binder.Takes scopes (args.map Term.sort))
    (each : ∀ arg ∈ args, MeansSort arg.sort (arg.eval I)) (respects : I.Respects ν) :
    I.HasSort (binder.sort (args.map Term.sort))
      (I.binder binder scopes (args.map (Term.eval I)) ν) := by
  cases binder with
  | forallQ | existsQ =>
    obtain ⟨⟨vars, rfl⟩, single⟩ := takes
    obtain ⟨body, rfl, -⟩ := map_eq_singleton_iff.mp single
    exact ⟨_, rfl⟩
  | letIn =>
    obtain ⟨names, values, body, split, rfl, agree⟩ := takes
    obtain ⟨front, last, rfl, rfl, single⟩ := map_eq_append_iff.mp split
    obtain ⟨inner, rfl, rfl⟩ := map_eq_singleton_iff.mp single
    simp only [binder, map_append, map_cons, map_nil, getLast?_append,
      getLast?_singleton, Option.some_or, dropLast_concat, Binder.sort,
      getLastD_concat]
    -- The body is evaluated where the names have the values.
    refine each inner (by simp) _ (respects.assign ?_)
    rw [agree, HasSorts, map_map, forall₂_map_left_iff, forall₂_map_right_iff,
      forall₂_same]
    exact fun arg mem => each arg (by simp [mem]) ν respects
  | matchOn constructors sort =>
    obtain ⟨scrutinee, vars, rfl, -, sorts⟩ := takes
    obtain ⟨first, bodies, rfl, -, sorts⟩ := map_eq_cons_iff.mp sorts
    refine firstCase_hasSort lawful respects constructors vars fun meaning mem => ?_
    obtain ⟨body, lies, rfl⟩ := mem_map.mp mem
    have same : body.sort ∈ vars.map fun _ => sort := sorts ▸ mem_map_of_mem lies
    obtain ⟨_, _, rfl⟩ := mem_map.mp same
    exact each body (mem_cons_of_mem _ lies)

theorem eval_hasSort (lawful : I.Lawful) {term : Term} (sorted : term.WellSorted) :
    MeansSort term.sort (term.eval I) := by
  induction sorted with
  | var name sort =>
    intro ν respects
    rw [Term.eval_var, Term.sort_var]
    exact respects (name, sort)
  | node takes _ ih =>
    intro ν respects
    rw [Term.eval_node, Term.sort_node]
    refine kind_hasSort lawful takes ?_
    rw [HasSorts, forall₂_map_left_iff, forall₂_map_right_iff, forall₂_same]
    exact fun arg mem => ih arg mem ν respects
  | bind takes _ ih =>
    intro ν respects
    rw [Term.eval_bind, Term.sort_bind]
    exact binder_hasSort lawful takes ih respects

end Interp

end Nixie.Ast
