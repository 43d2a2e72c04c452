import Nixie.Ast.Laws

/-! A term depends on its free variables only. -/

namespace Nixie.Ast

open List Function

namespace Term

mutual

def freeVars : Term → List Var
  | .var name sort => [(name, sort)]
  | .node _ args => freeVarsAll args
  | .bind _ scopes args => freeVarsIn scopes args

def freeVarsAll : List Term → List Var
  | [] => []
  | arg :: rest => freeVars arg ++ freeVarsAll rest

def freeVarsIn : List (List Var) → List Term → List Var
  | _, [] => []
  | [], arg :: rest => freeVars arg ++ freeVarsIn [] rest
  | vars :: scopes, arg :: rest => (freeVars arg).filter (· ∉ vars) ++ freeVarsIn scopes rest

end

@[simp] theorem freeVars_var (name : Name) (sort : SortKind) :
    (Term.var name sort).freeVars = [(name, sort)] := rfl

@[simp] theorem mem_freeVars_node {kind : Kind} {args : List Term} {x : Var} :
    x ∈ (Term.node kind args).freeVars ↔ ∃ arg ∈ args, x ∈ arg.freeVars := by
  show x ∈ freeVarsAll args ↔ _
  induction args with
  | nil => simp [freeVarsAll]
  | cons arg rest ih => simp [freeVarsAll, ih]

theorem mem_freeVarsIn_cons {vars : List Var} {scopes : List (List Var)} {arg : Term}
    {rest : List Term} {x : Var} : x ∈ freeVarsIn (vars :: scopes) (arg :: rest) ↔
      x ∈ arg.freeVars ∧ x ∉ vars ∨ x ∈ freeVarsIn scopes rest := by
  simp [freeVarsIn]

theorem freeVarsIn_append (front : List Term) (vars : List Var) (body : Term) (x : Var) :
    x ∈ freeVarsIn (front.map (fun _ => []) ++ [vars]) (front ++ [body]) ↔
      (∃ arg ∈ front, x ∈ arg.freeVars) ∨ x ∈ body.freeVars ∧ x ∉ vars := by
  induction front with
  | nil => simp [freeVarsIn]
  | cons arg front ih =>
    rw [map_cons, cons_append, cons_append, mem_freeVarsIn_cons, ih]
    simp [or_assoc]

end Term

namespace Interp

variable {I : Interp}

theorem assign_congr {ν ν' : I.Assignment} {vars : List Var} {vs : List (Value I.U)}
    (same : vars.length = vs.length) {x : Var} (agree : x ∉ vars → ν x = ν' x) :
    I.assign vars vs ν x = I.assign vars vs ν' x := by
  induction vars generalizing ν ν' vs with
  | nil => exact agree not_mem_nil
  | cons y vars ih =>
    obtain ⟨v, vs, rfl⟩ := exists_cons_of_length_eq_add_one same.symm
    refine ih (Nat.succ.inj same) fun outside => ?_
    by_cases eq : x = y
    · subst eq
      rw [update_self, update_self]
    · rw [update_of_ne eq, update_of_ne eq]
      exact agree (by simp [eq, outside])

/-- A meaning depends on the given variables only. -/
def DependsOn (xs : List Var) (meaning : I.Meaning) : Prop :=
  ∀ ν ν', (∀ x ∈ xs, ν x = ν' x) → meaning ν = meaning ν'

theorem DependsOn.assign {body : I.Meaning} {xs vars : List Var} (depends : DependsOn xs body)
    {ν ν' : I.Assignment} (agree : ∀ x ∈ xs, x ∉ vars → ν x = ν' x) {vs : List (Value I.U)}
    (same : vars.length = vs.length) :
    body (I.assign vars vs ν) = body (I.assign vars vs ν') :=
  depends _ _ fun x mem => assign_congr same (agree x mem)

theorem firstCase_congr {sort : SortKind} {v : Value I.U} {ν ν' : I.Assignment}
    (constructors : List (Option Name)) (scopes : List (List Var)) {bodies : List Term}
    (depends : ∀ body ∈ bodies, DependsOn body.freeVars (body.eval I))
    (agree : ∀ x ∈ Term.freeVarsIn scopes bodies, ν x = ν' x) :
    I.firstCase sort v ν constructors scopes (bodies.map (Term.eval I)) =
      I.firstCase sort v ν' constructors scopes (bodies.map (Term.eval I)) := by
  -- The cases are tried one after the other.
  induction constructors generalizing scopes bodies with
  | nil => rfl
  | cons constructor constructors ih =>
    match scopes, bodies with
    | [], _ => rfl
    | _ :: _, [] => rfl
    | vars :: scopes, body :: bodies =>
      obtain ⟨head, tail⟩ := forall_mem_cons.mp depends
      rw [map_cons, firstCase, firstCase]
      split
      · split
        · rename_i has
          refine head.assign (fun x mem outside => ?_) (by simpa using has.length_eq)
          exact agree x (Term.mem_freeVarsIn_cons.mpr (.inl ⟨mem, outside⟩))
        · rfl
      · exact ih scopes tail fun x mem =>
          agree x (Term.mem_freeVarsIn_cons.mpr (.inr mem))

theorem eval_dependsOn {term : Term} (sorted : term.WellSorted) :
    DependsOn term.freeVars (term.eval I) := by
  induction sorted with
  | var name sort =>
    intro ν ν' agree
    rw [Term.eval_var, Term.eval_var]
    exact agree _ (by simp)
  | @node kind args _ _ ih =>
    intro ν ν' agree
    have values : (args.map fun arg => arg.eval I ν) = args.map fun arg => arg.eval I ν' :=
      map_congr_left fun arg mem => ih arg mem ν ν' fun x free =>
        agree x (Term.mem_freeVars_node.mpr ⟨arg, mem, free⟩)
    rw [Term.eval_node, Term.eval_node, values]
  | @bind binder scopes args takes _ ih =>
    intro ν ν' agree
    rw [Term.freeVars] at agree
    rw [Term.eval_bind, Term.eval_bind]
    cases binder with
    | forallQ | existsQ =>
      obtain ⟨⟨vars, rfl⟩, single⟩ := takes
      obtain ⟨body, rfl, -⟩ := map_eq_singleton_iff.mp single
      have inner : ∀ x ∈ body.freeVars, x ∉ vars → ν x = ν' x := fun x mem outside =>
        agree x (Term.mem_freeVarsIn_cons.mpr (.inl ⟨mem, outside⟩))
      have same (vs : List (Value I.U)) (has : I.HasSorts (vars.map Prod.snd) vs) :
          body.eval I (I.assign vars vs ν) = body.eval I (I.assign vars vs ν') :=
        (ih body mem_cons_self).assign inner (by simpa using has.length_eq)
      simp only [binder, map_cons, map_nil, Value.bool.injEq, eq_iff_iff]
      first
        | exact forall_congr' fun vs => imp_congr_right fun has => by rw [same vs has]
        | exact exists_congr fun vs => and_congr_right fun has => by rw [same vs has]
    | letIn =>
      obtain ⟨names, values, body, split, rfl, sorts⟩ := takes
      obtain ⟨front, last, rfl, rfl, single⟩ := map_eq_append_iff.mp split
      obtain ⟨inner, rfl, rfl⟩ := map_eq_singleton_iff.mp single
      rw [map_map] at agree
      have free (x : Var) := Term.freeVarsIn_append front names inner x
      have values : (front.map fun value => value.eval I ν) =
          front.map fun value => value.eval I ν' :=
        map_congr_left fun value mem => ih value (by simp [mem]) ν ν' fun x lies =>
          agree x ((free x).mpr (.inl ⟨value, mem, lies⟩))
      simp only [binder, map_append, map_cons, map_nil,
        getLast?_append, getLast?_singleton, Option.some_or, dropLast_concat,
        map_map, comp_def]
      rw [values]
      refine (ih inner (by simp)).assign (fun x lies outside => ?_) ?_
      · exact agree x ((free x).mpr (.inr ⟨lies, outside⟩))
      · simpa using congrArg length sorts
    | matchOn constructors sort =>
      obtain ⟨scrutinee, vars, rfl, -, sorts⟩ := takes
      obtain ⟨first, bodies, rfl, -, -⟩ := map_eq_cons_iff.mp sorts
      have scrutinee : first.eval I ν = first.eval I ν' := ih first mem_cons_self ν ν' fun x mem =>
          agree x (Term.mem_freeVarsIn_cons.mpr (.inl ⟨mem, not_mem_nil⟩))
      simp only [binder, map_cons]
      rw [scrutinee]
      exact firstCase_congr constructors vars
        (fun body mem => ih body (mem_cons_of_mem _ mem))
        fun x mem => agree x (Term.mem_freeVarsIn_cons.mpr (.inr mem))

theorem eval_update {term : Term} (sorted : term.WellSorted) {x : Var} (absent : x ∉ term.freeVars)
    (ν : I.Assignment) (v : Value I.U) :
    term.eval I (update ν x v) = term.eval I ν :=
  eval_dependsOn sorted _ _ fun y mem =>
    update_of_ne (fun same : y = x => absent (same ▸ mem)) _ _

end Interp

end Nixie.Ast
