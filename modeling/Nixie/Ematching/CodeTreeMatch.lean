import Mathlib.Data.List.Nodup
import Nixie.Ematching.CodeTreeRun

/-! Instances of patterns, and the patterns whose instances the interpreter finds. -/

namespace Nixie.Ast

open List Option

/-- Applied symbols have one signature, and bit-vectors have a positive width. -/
def Kind.Declared (signature : Name → List SortKind × SortKind) : Kind → List SortKind → Prop
  | .apply func sort, sorts => signature func = (sorts, sort)
  | .bitVecConst _ width, _ => 0 < width
  | _, _ => True

inductive Term.Declared (signature : Name → List SortKind × SortKind) : Term → Prop
  | var (name : Name) (sort : SortKind) : Declared signature (.var name sort)
  | node {kind : Kind} {args : List Term} (kept : kind.Declared signature (args.map Term.sort))
      (each : ∀ arg ∈ args, Declared signature arg) : Declared signature (.node kind args)
  | bind {binder : Binder} {scopes : List (List Var)} {args : List Term}
      (each : ∀ arg ∈ args, Declared signature arg) : Declared signature (.bind binder scopes args)

namespace Ematching

mutual

/-- Replaces pattern variables, which do not occur below a binder. -/
def instantiate (σ : Var → Option Term) : Term → Term
  | .var name sort => (σ (name, sort)).getD (.var name sort)
  | .node kind args => .node kind (instantiateAll σ args)
  | .bind binder scopes args => .bind binder scopes args

def instantiateAll (σ : Var → Option Term) : List Term → List Term
  | [] => []
  | term :: rest => instantiate σ term :: instantiateAll σ rest

end

/-- The substitution of bindings for the variables of a pattern. -/
def substitution (vars : List Var) (bindings : List Term) (x : Var) : Option Term :=
  (vars.zip bindings).lookup x

/-- Bindings of the right sorts make the term from the pattern. -/
def Pattern.Instance (pattern : Pattern) (bindings : List Term) (t : Term) : Prop :=
  bindings.map Term.sort = pattern.vars.map Prod.snd ∧
    instantiate (substitution pattern.vars bindings) pattern.root = t

/-- Executing the tree on the term ends with the result. -/
def CodeTree.Returns (remaining : Nat → Remaining) (tree : CodeTree) (t : Term)
    (result : Option (List Term)) : Prop :=
  ∃ fuel, tree.execute remaining fuel t = some (.ok result)

/-- The bindings that are returned are those that make the term from the pattern. -/
def CodeTree.Matches (remaining : Nat → Remaining) (signature : Name → List SortKind × SortKind)
    (tree : CodeTree) (pattern : Pattern) : Prop :=
  ∀ t : Term, t.WellSorted → t.Declared signature → ∀ bindings,
    tree.Returns remaining t (some bindings) ↔ pattern.Instance bindings t

def Plain (vars : List Var) : Term → Prop
  | .var name sort => (name, sort) ∈ vars
  | .node .tru [] | .node .fls [] | .node (.apply _ _) [] => True
  | _ => False

/-- The kinds of terms that the interpreter descends into. -/
def Entered : Kind → Prop
  | .apply _ _ | .eq | .lt | .le | .add | .mul => True
  | _ => False

/-- Patterns without nesting, constants and symbols of their own. -/
def Pattern.Flat (pattern : Pattern) : Prop :=
  Plain pattern.vars pattern.root ∨ ∃ kind args, pattern.root = .node kind args ∧ Entered kind ∧
    ∀ arg ∈ args, Plain pattern.vars arg

theorem instantiateAll_eq_map (σ : Var → Option Term) (args : List Term) :
    instantiateAll σ args = args.map (instantiate σ) := by
  induction args with
  | nil => rfl
  | cons arg rest ih => rw [instantiateAll, ih, map_cons]

theorem patternVarsAll_eq_flatMap (args : List Term) :
    patternVarsAll args = args.flatMap patternVars := by
  induction args with
  | nil => rfl
  | cons arg rest ih => rw [patternVarsAll, ih, flatMap_cons]

theorem instantiate_eq_iff {σ σ' : Var → Option Term} (t : Term) :
    instantiate σ t = instantiate σ' t ↔
      ∀ x ∈ patternVars t, (σ x).getD (.var x.1 x.2) = (σ' x).getD (.var x.1 x.2) := by
  induction t using Term.induct with
  | var name sort => simp [instantiate, patternVars]
  | bind binder scopes args => simp [instantiate, patternVars]
  | node kind args ih =>
    simp only [instantiate, patternVars, instantiateAll_eq_map, patternVarsAll_eq_flatMap,
      Term.node.injEq, true_and, map_inj_left, mem_flatMap]
    exact ⟨fun same x ⟨arg, mem, occurs⟩ => (ih arg mem).mp (same arg mem) x occurs,
      fun same arg mem => (ih arg mem).mpr fun x occurs => same x ⟨arg, mem, occurs⟩⟩

variable {bindings : List Term}

theorem substitution_eq_some {vars : List Var} (distinct : vars.Nodup)
    {x : Var} {t : Term} : substitution vars bindings x = some t ↔
      ∃ i : Nat, vars[i]? = some x ∧ bindings[i]? = some t := by
  induction vars generalizing bindings with
  | nil => simp [substitution]
  | cons y rest ih =>
    obtain ⟨fresh, distinct⟩ := nodup_cons.mp distinct
    cases bindings with
    | nil => simp [substitution]
    | cons u bindings =>
      have shift : (∃ i : Nat, (y :: rest)[i]? = some x ∧ (u :: bindings)[i]? = some t) ↔
          (y = x ∧ u = t) ∨ ∃ i : Nat, rest[i]? = some x ∧ bindings[i]? = some t := by
        constructor
        · rintro ⟨_ | i, here, value⟩
          · exact .inl ⟨some.inj here, some.inj value⟩
          · exact .inr ⟨i, here, value⟩
        · rintro (⟨rfl, rfl⟩ | ⟨i, here, value⟩)
          · exact ⟨0, rfl, rfl⟩
          · exact ⟨i + 1, here, value⟩
      rw [shift, substitution, zip_cons_cons, lookup_cons]
      by_cases same : x = y
      · -- The variable does not occur again.
        subst same
        have outside (i : Nat) : rest[i]? ≠ some x :=
          fun at_ => fresh (mem_of_getElem? at_)
        simp [outside]
      · have differ : (x == y) = false := by simpa using same
        rw [differ, ← ih distinct]
        simp [substitution, Ne.symm same]

/-- Bindings leave a list of terms possible. -/
def Below (b : Bindings) (β : List Term) : Prop :=
  b.length = β.length ∧ ∀ (i : Nat) u, b[i]? = some (some u) → β[i]? = some u

theorem below_replicate {n : Nat} {β : List Term} :
    Below (List.replicate n none) β ↔ β.length = n := by
  simp only [Below, length_replicate, getElem?_replicate]
  constructor
  · exact fun below => below.1.symm
  · intro same
    refine ⟨same.symm, fun i u found => ?_⟩
    split at found
    · exact absurd (some.inj found) (by simp)
    · exact absurd found (by simp)

theorem below_set {b : Bindings} {β : List Term} {i : Nat} {u : Term}
    (possible : b[i]? = some none ∨ b[i]? = some (some u)) :
    Below (b.set i (some u)) β ↔ Below b β ∧ β[i]? = some u := by
  have lies : i < b.length := by
    rcases possible with found | found <;> exact (List.getElem?_eq_some_iff.mp found).1
  simp only [Below, length_set]
  constructor
  · intro ⟨same, values⟩
    have here := values i u (by rw [getElem?_set_self lies])
    refine ⟨⟨same, fun j v found => ?_⟩, here⟩
    by_cases at_ : i = j
    · subst at_
      rcases possible with open_ | bound
      · exact absurd (some.inj (open_.symm.trans found)) (by simp)
      · rw [← some.inj (some.inj (bound.symm.trans found))]
        exact here
    · exact values j v (by rw [getElem?_set_ne at_]; exact found)
  · intro ⟨⟨same, values⟩, here⟩
    refine ⟨same, fun j v found => ?_⟩
    by_cases at_ : i = j
    · subst at_
      rw [getElem?_set_self lies] at found
      rw [← some.inj (some.inj found)]
      exact here
    · exact values j v (by rw [← getElem?_set_ne at_]; exact found)

theorem below_map_some {β : List Term} : Below (bindings.map some) β ↔ β = bindings := by
  constructor
  · intro ⟨same, values⟩
    rw [length_map] at same
    refine ext_getElem? fun i => ?_
    by_cases lies : i < bindings.length
    · rw [getElem?_eq_getElem lies]
      exact values i _ (by rw [getElem?_map, getElem?_eq_getElem lies]; rfl)
    · rw [getElem?_eq_none (by omega), getElem?_eq_none (by omega)]
  · rintro rfl
    refine ⟨length_map _, fun i u found => ?_⟩
    rw [getElem?_map] at found
    obtain ⟨v, at_, same⟩ := map_eq_some_iff.mp found
    rw [at_, some.inj same]

theorem mapM_id_eq_some {b : Bindings} : b.mapM id = some bindings ↔ b = bindings.map some := by
  induction b generalizing bindings with
  | nil => cases bindings <;> simp
  | cons first rest ih =>
    cases first with
    | none => cases bindings <;> simp
    | some u => cases bindings <;> simp [bind_eq_some_iff, ih, and_comm]

/-- The bound terms have the sorts of their variables. -/
def Fits (vars : List Var) (b : Bindings) : Prop :=
  ∀ (i : Nat) u, b[i]? = some (some u) → vars[i]?.map Prod.snd = some u.sort

/-- The bindings after a step are possible for the same terms as before that also meet a condition;
after a failed step there are none of the right sorts. -/
def Narrows (vars : List Var) (b : Bindings) (result : Option Bindings)
    (condition : List Term → Prop) : Prop :=
  match result with
  | some b' => b'.length = b.length ∧ (Fits vars b → Fits vars b') ∧
    ∀ β, Below b' β ↔ Below b β ∧ condition β
  | none => ∀ β, β.map Term.sort = vars.map Prod.snd → Below b β → ¬condition β

namespace Narrows

variable {vars : List Var} {b : Bindings} {result : Option Bindings}
  {condition condition' : List Term → Prop}

theorem bind {next : Bindings → Option Bindings} (first : Narrows vars b result condition)
    (second : ∀ b', b'.length = b.length → Narrows vars b' (next b') condition') :
    Narrows vars b (result.bind next) fun β => condition β ∧ condition' β := by
  cases result with
  | none => exact fun β sorted below meets => first β sorted below meets.1
  | some b' =>
    obtain ⟨length, fits, below_iff⟩ := first
    have later := second b' length
    rw [bind_some]
    generalize next b' = last at later ⊢
    cases last with
    | none =>
      exact fun β sorted below meets => later β sorted ((below_iff β).mpr ⟨below, meets.1⟩) meets.2
    | some b'' =>
      refine ⟨later.1.trans length, fun before => later.2.1 (fits before), fun β => ?_⟩
      rw [later.2.2 β, below_iff β, and_assoc]

theorem congr (narrows : Narrows vars b result condition)
    (same : ∀ β, b.length = β.length → (condition β ↔ condition' β)) :
    Narrows vars b result condition' := by
  cases result with
  | none => exact fun β sorted below meets => narrows β sorted below ((same β below.1).mpr meets)
  | some b' =>
    refine ⟨narrows.1, narrows.2.1, fun β => ?_⟩
    rw [narrows.2.2 β]
    exact and_congr_right fun below => same β below.1

theorem check {passes : Prop} [Decidable passes] (condition_iff : ∀ β, condition β ↔ passes) :
    Narrows vars b (if passes then some b else none) condition := by
  by_cases pass : passes
  · rw [if_pos pass]
    exact ⟨rfl, id, fun β => ⟨fun below => ⟨below, (condition_iff β).mpr pass⟩, And.left⟩⟩
  · rw [if_neg pass]
    exact fun β _ _ meets => pass ((condition_iff β).mp meets)

end Narrows

/-- The kind of all terms with a discriminant, where it carries no data. -/
def ownKind : TermKindDiscriminant → Option Kind
  | .tru => some .tru
  | .fls => some .fls
  | .eq => some .eq
  | .lt => some .lt
  | .le => some .le
  | .add => some .add
  | .mul => some .mul
  | _ => none

variable {remaining : Nat → Remaining}

theorem kind_of_fromTerm {t : Term} {kind : Kind}
    (own : ownKind (TermKindDiscriminant.fromTerm remaining t) = some kind) :
    ∃ args, t = .node kind args := by
  cases t with
  | var => exact absurd own nofun
  | bind => exact absurd own nofun
  | node kind' args =>
    cases kind' with
    | other tag sort =>
      rw [TermKindDiscriminant.fromTerm] at own
      cases kept : remaining tag <;> exact absurd (kept ▸ own) (by simp [ownKind])
    | tru | fls | eq | lt | le | add | mul =>
      obtain rfl := some.inj own
      exact ⟨args, rfl⟩
    | _ => exact absurd own nofun

theorem appliesFunction_iff {func : Name} {arity : Nat} {t : Term} :
    appliesFunction func arity t = true ↔
      ∃ sort args, t = .node (.apply func sort) args ∧ args.length = arity := by
  cases t with
  | var => simp [appliesFunction]
  | bind => simp [appliesFunction]
  | node kind args => cases kind <;> simp [appliesFunction]

section

variable {remaining : Nat → Remaining} {signature : Name → List SortKind × SortKind}
  {vars : List Var} {varMap : VarMap}

theorem accept_bind {b : Bindings} {u : Term} {i : Nat} {sort : SortKind}
    (length : b.length = vars.length) (at_ : vars[i]?.map Prod.snd = some sort) :
    Narrows vars b (accept remaining (.bind i sort) u b) fun β => β[i]? = some u := by
  have lies : i < b.length := by
    obtain ⟨x, found, -⟩ := map_eq_some_iff.mp at_
    rw [length]
    exact (List.getElem?_eq_some_iff.mp found).1
  rw [accept]
  by_cases sorts : u.sort ≠ sort
  · -- A term of another sort is no value of the variable.
    rw [if_pos sorts]
    intro β sorted below here
    have same := congrArg (fun l : List SortKind => l[i]?) sorted
    simp only [getElem?_map, here, at_, map_some] at same
    exact sorts (some.inj same)
  · have sorts : u.sort = sort := not_not.mp sorts
    rw [if_neg (not_not.mpr sorts), getElem?_eq_getElem lies]
    cases entry : b[i] with
    | none =>
      have possible : b[i]? = some none := by rw [getElem?_eq_getElem lies, entry]
      refine ⟨length_set, fun fits j v found => ?_, fun β => below_set (.inl possible)⟩
      by_cases here : i = j
      · subst here
        rw [getElem?_set_self lies] at found
        rw [at_, ← some.inj (some.inj found), sorts]
      · exact fits j v (by rw [← getElem?_set_ne here]; exact found)
    | some existing =>
      have bound : b[i]? = some (some existing) := by rw [getElem?_eq_getElem lies, entry]
      by_cases differ : existing ≠ u
      · simp only [if_pos differ]
        intro β sorted below here
        exact differ (some.inj ((below.2 i existing bound).symm.trans here))
      · simp only [if_neg differ]
        have same : existing = u := not_not.mp differ
        exact ⟨rfl, id, fun β => ⟨fun below => ⟨below, same ▸ below.2 i existing bound⟩, And.left⟩⟩

theorem accept_plain (distinct : (vars.map Prod.fst).Nodup)
    (indices : ∀ name i, varMap name = some i ↔ vars[i]?.map Prod.fst = some name)
    {arg u : Term} (plain : Plain vars arg) (declared : arg.Declared signature)
    (sorted : u.WellSorted) (declaredTerm : u.Declared signature) {b : Bindings}
    (length : b.length = vars.length) :
    Narrows vars b (accept remaining (headKind remaining varMap arg) u b)
      fun β => instantiate (substitution vars β) arg = u := by
  unfold Plain at plain
  split at plain
  · rename_i name sort
    obtain ⟨i, at_⟩ := mem_iff_getElem?.mp plain
    have index : varMap name = some i := (indices name i).mpr (by rw [at_]; rfl)
    rw [headKind, index]
    refine (accept_bind length (by rw [at_]; rfl)).congr fun β same => ?_
    have lies : i < β.length := by
      rw [← same, length]
      exact (List.getElem?_eq_some_iff.mp at_).1
    have value := (substitution_eq_some (List.Nodup.of_map _ distinct)).mpr
      ⟨i, at_, getElem?_eq_getElem lies⟩
    rw [instantiate, value, getElem?_eq_getElem lies]
    simp
  · refine Narrows.check fun β => ⟨fun same => same ▸ rfl, fun same => ?_⟩
    obtain ⟨args, rfl⟩ := kind_of_fromTerm (congrArg ownKind same)
    cases sorted with
    | node takes => rw [map_eq_nil_iff.mp takes]; rfl
  · refine Narrows.check fun β => ⟨fun same => same ▸ rfl, fun same => ?_⟩
    obtain ⟨args, rfl⟩ := kind_of_fromTerm (congrArg ownKind same)
    cases sorted with
    | node takes => rw [map_eq_nil_iff.mp takes]; rfl
  · rename_i func sort
    refine Narrows.check fun β => ?_
    rw [length_nil, appliesFunction_iff]
    constructor
    · exact fun same => ⟨sort, [], same.symm, rfl⟩
    · -- The signature gives the sort of the application.
      rintro ⟨sort', args, rfl, empty⟩
      obtain rfl := length_eq_zero_iff.mp empty
      cases declared with
      | node kept =>
        cases declaredTerm with
        | node kept' =>
          have same := congrArg Prod.snd (kept.symm.trans kept')
          change sort = sort' at same
          rw [same]
          rfl
  · exact plain.elim

theorem matchArgs_plain (distinct : (vars.map Prod.fst).Nodup)
    (indices : ∀ name i, varMap name = some i ↔ vars[i]?.map Prod.fst = some name)
    {args us : List Term} (plain : ∀ arg ∈ args, Plain vars arg)
    (declared : ∀ arg ∈ args, arg.Declared signature) (sorted : ∀ u ∈ us, u.WellSorted)
    (declaredTerms : ∀ u ∈ us, u.Declared signature) (same : us.length = args.length)
    {t : Term} {childIdx : Nat} (children : ∀ k, childAt t (childIdx + k) = us[k]?)
    {b : Bindings} (length : b.length = vars.length) :
    Narrows vars b (matchArgs remaining varMap childIdx args t b)
      fun β => instantiateAll (substitution vars β) args = us := by
  induction args generalizing us childIdx b with
  | nil =>
    obtain rfl := length_eq_zero_iff.mp same
    exact ⟨rfl, id, fun β => ⟨fun below => ⟨below, rfl⟩, And.left⟩⟩
  | cons arg rest ih =>
    cases us with
    | nil => exact absurd same (by simp)
    | cons u us =>
      rw [forall_mem_cons] at plain declared sorted declaredTerms
      have first : childAt t childIdx = some u := children 0
      have later (k : Nat) : childAt t (childIdx + 1 + k) = us[k]? := by
        rw [Nat.add_assoc, Nat.add_comm 1 k]
        exact children (k + 1)
      rw [matchArgs, first, bind_some]
      refine ((accept_plain distinct indices plain.1 declared.1 sorted.1 declaredTerms.1 length).bind
        fun b' kept => ih plain.2 declared.2 sorted.2 declaredTerms.2 (Nat.succ.inj same) later
          (kept.trans length)).congr fun β _ => ?_
      rw [instantiateAll, cons.injEq]

theorem comparison_args {kind : Kind} {args : List Term}
    (comparison : kind = .eq ∨ kind = .lt ∨ kind = .le)
    (sorted : (Term.node kind args).WellSorted) : ∃ lhs rhs, args = [lhs, rhs] := by
  cases sorted with
  | node takes =>
    rw [← length_eq_two]
    rcases comparison with rfl | rfl | rfl
    · obtain ⟨sort, sorts⟩ := takes
      simpa using congrArg length sorts
    · obtain ⟨sort, -, sorts⟩ := takes
      simpa using congrArg length sorts
    · obtain ⟨sort, -, sorts⟩ := takes
      simpa using congrArg length sorts

/-- The arguments of a term of an entered kind are those that it is compiled with, and those that
the interpreter descends to. -/
theorem operands_entered {kind : Kind} {args : List Term} (entered : Entered kind)
    (sorted : (Term.node kind args).WellSorted) :
    operands (.node kind args) = args ∧ ∀ k, childAt (.node kind args) k = args[k]? := by
  cases kind with
  | apply | add | mul => exact ⟨rfl, fun _ => rfl⟩
  | eq | lt | le =>
    obtain ⟨lhs, rhs, rfl⟩ := comparison_args (by simp) sorted
    exact ⟨rfl, fun _ => rfl⟩
  | _ => exact entered.elim

/-- The checks before the arguments accept the terms of one kind with as many arguments. -/
def AcceptsKind (remaining : Nat → Remaining) (checks : List InstructionKind) (kind : Kind)
    (arity : Nat) (t : Term) : Prop :=
  (∃ us, t = .node kind us ∧ us.length = arity ∧ ∀ b, acceptAll remaining checks t b = some b) ∨
    ((∀ us, us.length = arity → t ≠ .node kind us) ∧ ∀ b, acceptAll remaining checks t b = none)

theorem accepts_apply {func : Name} {sort : SortKind} {args : List Term} {t : Term}
    (declared : (Term.node (.apply func sort) args).Declared signature)
    (declaredTerm : t.Declared signature) :
    AcceptsKind remaining [.checkFunction func args.length] (.apply func sort) args.length t := by
  by_cases applies : appliesFunction func args.length t = true
  · obtain ⟨sort', us, rfl, same⟩ := appliesFunction_iff.mp applies
    cases declared with
    | node kept =>
      cases declaredTerm with
      | node kept' =>
        have sorts := congrArg Prod.snd (kept.symm.trans kept')
        change sort = sort' at sorts
        subst sorts
        exact .inl ⟨us, rfl, same, fun b => by simp [acceptAll, accept, applies]⟩
  · refine .inr ⟨fun us same is => ?_, fun b => ?_⟩
    · exact applies (appliesFunction_iff.mpr ⟨sort, us, is, same⟩)
    · simp [acceptAll, accept, applies]

theorem accepts_comparison {op : TermKindDiscriminant} {kind : Kind}
    (comparison : kind = .eq ∨ kind = .lt ∨ kind = .le) (own : ownKind op = some kind)
    (fromKind : ∀ us, TermKindDiscriminant.fromTerm remaining (.node kind us) = op) {t : Term}
    (sorted : t.WellSorted) : AcceptsKind remaining [.compare op] kind 2 t := by
  by_cases same : TermKindDiscriminant.fromTerm remaining t = op
  · obtain ⟨us, rfl⟩ := kind_of_fromTerm (same ▸ own)
    obtain ⟨lhs, rhs, rfl⟩ := comparison_args comparison sorted
    exact .inl ⟨_, rfl, rfl, fun b => by simp [acceptAll, accept, same]⟩
  · refine .inr ⟨fun us _ is => same (is ▸ fromKind us), fun b => ?_⟩
    simp [acceptAll, accept, same]

theorem accepts_sum {op : TermKindDiscriminant} {kind : Kind} (sum : kind = .add ∨ kind = .mul)
    (own : ownKind op = some kind)
    (fromKind : ∀ us, TermKindDiscriminant.fromTerm remaining (.node kind us) = op)
    (arity : Nat) (t : Term) :
    AcceptsKind remaining [.compare op, .check (.hasArity arity)] kind arity t := by
  by_cases same : TermKindDiscriminant.fromTerm remaining t = op
  · obtain ⟨us, rfl⟩ := kind_of_fromTerm (same ▸ own)
    have passes : (TermProperty.hasArity arity).passes (.node kind us) = (us.length == arity) := by
      rcases sum with rfl | rfl <;> rfl
    by_cases length : us.length = arity
    · exact .inl ⟨us, rfl, length, fun b => by simp [acceptAll, accept, same, passes, length]⟩
    · refine .inr ⟨fun us' same' is => ?_, fun b => ?_⟩
      · cases is
        exact length same'
      · simp [acceptAll, accept, same, passes, length]
  · refine .inr ⟨fun us _ is => same (is ▸ fromKind us), fun b => ?_⟩
    simp [acceptAll, accept, same]

theorem accepts_entered {kind : Kind} {args : List Term} (entered : Entered kind)
    (sorted : (Term.node kind args).WellSorted) (declared : (Term.node kind args).Declared signature)
    {t : Term} (sortedTerm : t.WellSorted) (declaredTerm : t.Declared signature) :
    AcceptsKind remaining
      (headKind remaining varMap (.node kind args) :: arityCheck (.node kind args)) kind
      args.length t := by
  cases kind with
  | apply func sort => exact accepts_apply declared declaredTerm
  | eq | lt | le =>
    obtain ⟨lhs, rhs, rfl⟩ := comparison_args (by simp) sorted
    exact accepts_comparison (by simp) rfl (fun _ => rfl) sortedTerm
  | add | mul => exact accepts_sum (by simp) rfl (fun _ => rfl) _ t
  | _ => exact entered.elim

end

theorem Narrows.matches_iff {vars : List Var} {root t : Term} (distinct : vars.Nodup)
    (occurs : ∀ x ∈ vars, x ∈ patternVars root) {result : Option Bindings}
    (narrows : Narrows vars (List.replicate vars.length none) result
      fun β => instantiate (substitution vars β) root = t) :
    result.bind (List.mapM id) = some bindings ↔ bindings.map Term.sort = vars.map Prod.snd ∧
        instantiate (substitution vars bindings) root = t := by
  constructor
  · intro found
    obtain ⟨b, rfl, all⟩ := bind_eq_some_iff.mp found
    obtain rfl := mapM_id_eq_some.mp all
    obtain ⟨length, fits, below_iff⟩ := narrows
    rw [length_map, length_replicate] at length
    have fits := fits fun i u none => by
      rw [getElem?_replicate] at none
      split at none <;> exact absurd none (by simp)
    refine ⟨ext_getElem? fun i => ?_, ((below_iff bindings).mp (below_map_some.mpr rfl)).2⟩
    by_cases lies : i < bindings.length
    · have here := fits i bindings[i] (by rw [getElem?_map, getElem?_eq_getElem lies]; rfl)
      rw [getElem?_map, getElem?_map, here, getElem?_eq_getElem lies]
      rfl
    · rw [getElem?_eq_none (by simpa using lies), getElem?_eq_none (by simp; omega)]
  · intro ⟨sorts, makes⟩
    have length : bindings.length = vars.length := by simpa using congrArg length sorts
    cases result with
    | none => exact absurd makes (narrows bindings sorts (below_replicate.mpr length))
    | some b =>
      obtain ⟨same, -, below_iff⟩ := narrows
      have below := (below_iff bindings).mpr ⟨below_replicate.mpr length, makes⟩
      rw [length_replicate] at same
      refine mapM_id_eq_some.mpr (ext_getElem? fun i => ?_)
      by_cases lies : i < bindings.length
      · have inVars : i < vars.length := length ▸ lies
        have inBindings : i < b.length := same ▸ inVars
        rw [getElem?_map, getElem?_eq_getElem lies, getElem?_eq_getElem inBindings]
        cases entry : b[i] with
        | some u =>
          have bound := below.2 i u (by rw [getElem?_eq_getElem inBindings, entry])
          rw [getElem?_eq_getElem lies] at bound
          rw [map_some, some.inj bound]
        | none =>
          -- A variable that is still open could have another value, but it occurs in the pattern.
          have several : Nontrivial Term := ⟨.var "" .bool, .node .tru [], by simp⟩
          obtain ⟨w, differ⟩ := exists_ne bindings[i]
          have possible : Below b (bindings.set i w) := by
            refine ⟨by rw [length_set, below.1], fun j u found => ?_⟩
            have other : i ≠ j := by
              rintro rfl
              rw [getElem?_eq_getElem inBindings, entry] at found
              exact absurd (some.inj found) (by simp)
            rw [getElem?_set_ne other]
            exact below.2 j u found
          have same := ((below_iff _).mp possible).2.trans makes.symm
          have value (β : List Term) (u : Term) (at_ : β[i]? = some u) :
              substitution vars β vars[i] = some u :=
            (substitution_eq_some distinct).mpr ⟨i, getElem?_eq_getElem inVars, at_⟩
          have at_ := (instantiate_eq_iff root).mp same vars[i] (occurs _ (getElem_mem inVars))
          rw [value _ w (getElem?_set_self lies), value _ _ (getElem?_eq_getElem lies)] at at_
          exact absurd at_ differ
      · rw [getElem?_eq_none (by omega), getElem?_eq_none (by simpa using lies)]

theorem run_mono {tree : CodeTree} {fuel ip : Nat} {r : Registers}
    {trail : List Resume} {result : Except String (Option (List Term))}
    (ended : tree.run remaining fuel ip r trail = some result) (more : Nat) :
    tree.run remaining (fuel + more) ip r trail = some result := by
  induction fuel generalizing ip r trail with
  | zero => exact absurd ended nofun
  | succ fuel ih =>
    have shift : fuel + 1 + more = (fuel + more).succ := by omega
    rw [shift, CodeTree.run.eq_def]
    rw [CodeTree.run.eq_def] at ended
    simp only at ended ⊢
    cases found : tree.instructions[ip]? with
    | none =>
      rw [found] at ended
      exact ended
    | some instr =>
      simp only [found] at ended ⊢
      cases step : instr.execute remaining r with
      | error message =>
        rw [step] at ended
        exact ended
      | ok step' =>
        rw [step] at ended
        cases step' with
        | goto next r' => exact ih ended
        | choose first r' later => exact ih ended
        | done value => exact ended
        | fail =>
          cases trail with
          | nil => exact ended
          | cons resume rest => exact ih ended

theorem returns_iff {pattern : Pattern} {tree : CodeTree}
    (done : compile remaining pattern = .ok tree) {t : Term} {result : Option (List Term)} :
    tree.Returns remaining t result ↔ matchPattern remaining pattern t = result := by
  obtain ⟨steps, ends⟩ := execute_compile done t
  constructor
  · intro ⟨fuel, returned⟩
    have longer : tree.execute remaining (fuel + steps) t = some (.ok result) :=
      run_mono returned steps
    exact Except.ok.inj (some.inj ((ends fuel).symm.trans longer))
  · rintro rfl
    exact ⟨0 + steps, ends 0⟩

theorem matchPattern_eq (remaining : Nat → Remaining) (pattern : Pattern) (t : Term) :
    matchPattern remaining pattern t =
      ((acceptAll remaining (headKind remaining (buildVarMap pattern.vars).1 pattern.root ::
        arityCheck pattern.root) t (List.replicate pattern.vars.length none)).bind
        (matchArgs remaining (buildVarMap pattern.vars).1 0 (operands pattern.root) t)).bind
          (List.mapM id) := by
  rw [bind_assoc, ← (buildVarMap_spec pattern.vars pattern.distinct).1]
  rfl

theorem plain_single {vars : List Var} {t : Term} (plain : Plain vars t) :
    arityCheck t = [] ∧ operands t = [] := by
  unfold Plain at plain
  split at plain
  · exact ⟨rfl, rfl⟩
  · exact ⟨rfl, rfl⟩
  · exact ⟨rfl, rfl⟩
  · exact ⟨rfl, rfl⟩
  · exact plain.elim

theorem matchPattern_flat {signature : Name → List SortKind × SortKind}
    {pattern : Pattern} (flat : pattern.Flat) (sorted : pattern.root.WellSorted)
    (declared : pattern.root.Declared signature) {t : Term} (sortedTerm : t.WellSorted)
    (declaredTerm : t.Declared signature) :
    matchPattern remaining pattern t = some bindings ↔ pattern.Instance bindings t := by
  have indices := (buildVarMap_spec pattern.vars pattern.distinct).2
  have distinct : pattern.vars.Nodup := List.Nodup.of_map _ pattern.distinct
  have length : (replicate pattern.vars.length (none : Option Term)).length =
      pattern.vars.length := length_replicate
  rw [matchPattern_eq]
  refine Narrows.matches_iff distinct pattern.occurs ?_
  rcases flat with plain | ⟨kind, args, same, entered, plain⟩
  · have narrows := @accept_plain remaining signature pattern.vars _ pattern.distinct indices _ t
      plain declared sortedTerm declaredTerm _ length
    have single (result : Option Bindings) : (result.bind (acceptAll remaining [] t)).bind
          (matchArgs remaining (buildVarMap pattern.vars).1 0 [] t) = result := by
      cases result <;> rfl
    rw [(plain_single plain).1, (plain_single plain).2, acceptAll, single]
    exact narrows
  · rw [same] at sorted declared ⊢
    rw [(operands_entered entered sorted).1]
    rcases @accepts_entered remaining signature (buildVarMap pattern.vars).1 kind args entered
      sorted declared t sortedTerm declaredTerm with ⟨us, rfl, length', accepts⟩ | ⟨differ, rejects⟩
    · have sorted' := sortedTerm
      rw [accepts, bind_some]
      cases sortedTerm with
      | node _ sortedTerms =>
        cases declaredTerm with
        | node _ declaredTerms =>
          cases declared with
          | node _ declaredArgs =>
            refine (matchArgs_plain pattern.distinct indices plain declaredArgs sortedTerms
              declaredTerms length' (fun k => ?_) length).congr fun β _ => ?_
            · rw [Nat.zero_add]
              exact (operands_entered entered sorted').2 k
            · rw [instantiate, Term.node.injEq, and_iff_right rfl]
    · rw [rejects]
      intro β _ _ makes
      rw [instantiate] at makes
      exact differ _ (by rw [instantiateAll_eq_map, length_map]) makes.symm

end Ematching

end Nixie.Ast
