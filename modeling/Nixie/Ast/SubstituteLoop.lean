import Nixie.Ast.SubstituteLaws

/-! The worklist over an arena of substitution scopes computes the substitution, whatever is cached. -/

namespace Nixie.Ast

open List Option

/-- A substitution that is in force, and what has been resolved under it. -/
structure SubstContext where
  subst : Subst
  cache : Term → Option Term

def SubstContext.resolved (context : SubstContext) (id : Term) : Option Term :=
  (context.subst.find id).or (context.cache id)

def SubstContext.store (context : SubstContext) (id result : Term) : SubstContext :=
  { context with cache := Function.update context.cache id (some result) }

/-- The scopes that have been opened so far, the outer one first. -/
abbrev Contexts := List SubstContext

namespace Contexts

/-- What a term becomes in a scope, if that is known. -/
def resolved (contexts : Contexts) (ctx : Nat) (id : Term) : Option Term :=
  contexts[ctx]?.bind fun context => context.resolved id

/-- What a term becomes in a scope; it stays what it is as long as that is not known. -/
def sub (contexts : Contexts) (ctx : Nat) (id : Term) : Term := (contexts.resolved ctx id).getD id

def store (contexts : Contexts) (ctx : Nat) (id result : Term) : Contexts :=
  contexts.modify ctx fun context => context.store id result

end Contexts

/-- What to do with one argument of a binding term: the variables that it binds afterwards, and
the scope in which it is resolved, unless it is kept. -/
structure ScopePlan where
  vars : List Var
  arg : Term
  ctx : Option Nat

/-- The argument after all scopes have been worked off. -/
def ScopePlan.result (plan : ScopePlan) (contexts : Contexts) : Term :=
  match plan.ctx with
  | none => plan.arg
  | some ctx => contexts.sub ctx plan.arg

section

variable (rebuild : Kind → List Term → Term)

end

section

variable {rebuild : Kind → List Term → Term}

/-- Only results of the substitution in force are cached. -/
def SubstContext.Consistent (rebuild : Kind → List Term → Term) (context : SubstContext) : Prop :=
  ∀ id result, context.cache id = some result → result = substitute rebuild context.subst id

variable {contexts : Contexts} {ctx : Nat} {jobs : List (Term × Nat)}

namespace SubstContext.Consistent

variable {context : SubstContext}

theorem resolved (consistent : context.Consistent rebuild) {id result : Term}
    (known : context.resolved id = some result) : result = substitute rebuild context.subst id := by
  rcases or_eq_some_iff.mp known with direct | ⟨-, cached⟩
  · cases id with
    | var name sort =>
      have mapped : context.subst.lookup (name, sort) = some result := direct
      rw [substitute, mapped, getD_some]
    | node | bind => cases direct
  · exact consistent id result cached

theorem store (consistent : context.Consistent rebuild) {id result : Term}
    (right : result = substitute rebuild context.subst id) :
    (context.store id result).Consistent rebuild := by
  intro other known found
  by_cases same : other = id
  · subst same
    have eq : some result = some known := by simpa [SubstContext.store] using found
    rw [← some.inj eq]
    exact right
  · have before : context.cache other = some known := by
      simpa [SubstContext.store, same] using found
    exact consistent other known before

end SubstContext.Consistent

/-- What is resolved stays resolved, and substitutions are not changed. -/
def SubstContext.Extends (context context' : SubstContext) : Prop :=
  context'.subst = context.subst ∧
    ∀ id, (context.resolved id).isSome → (context'.resolved id).isSome

namespace Contexts

def Consistent (rebuild : Kind → List Term → Term) (contexts : Contexts) : Prop :=
  ∀ context ∈ contexts, context.Consistent rebuild

/-- Later on there may be more scopes, and more is resolved. -/
def Extends (contexts contexts' : Contexts) : Prop :=
  ∀ (ctx : Nat) (context : SubstContext), contexts[ctx]? = some context →
    ∃ context' : SubstContext, contexts'[ctx]? = some context' ∧ context.Extends context'

variable {contexts contexts' contexts'' : Contexts}

theorem Extends.refl (contexts : Contexts) : contexts.Extends contexts :=
  fun _ context found => ⟨context, found, rfl, fun _ known => known⟩

theorem Extends.trans (first : contexts.Extends contexts') (second : contexts'.Extends contexts'') :
    contexts.Extends contexts'' := by
  intro ctx context found
  obtain ⟨context', found', subst, known⟩ := first ctx context found
  obtain ⟨context'', found'', subst', known'⟩ := second ctx context' found'
  exact ⟨context'', found'', subst'.trans subst, fun id resolved => known' id (known id resolved)⟩

theorem Extends.append (contexts more : Contexts) : contexts.Extends (contexts ++ more) := by
  intro ctx context found
  have bound := (List.getElem?_eq_some_iff.mp found).1
  exact ⟨context, (getElem?_append_left bound).trans found, rfl, fun _ known => known⟩

theorem Consistent.sub (consistent : contexts.Consistent rebuild)
    {context : SubstContext} (found : contexts[ctx]? = some context) {id : Term}
    (known : (contexts.resolved ctx id).isSome) :
    contexts.sub ctx id = substitute rebuild context.subst id := by
  obtain ⟨result, known⟩ := isSome_iff_exists.mp known
  rw [Contexts.sub, known, getD_some]
  rw [resolved, found, bind_some] at known
  exact (consistent context (mem_of_getElem? found)).resolved known

theorem Extends.resolved (extends_ : contexts.Extends contexts') {id : Term}
    (known : (contexts.resolved ctx id).isSome) : (contexts'.resolved ctx id).isSome := by
  cases found : contexts[ctx]? with
  | none => simp [Contexts.resolved, found] at known
  | some context =>
    obtain ⟨context', found', -, keeps⟩ := extends_ ctx context found
    rw [Contexts.resolved, found', bind_some]
    rw [Contexts.resolved, found, bind_some] at known
    exact keeps id known

end Contexts

/-- A plan that will lead to a result. -/
structure Planned (rebuild : Kind → List Term → Term) (contexts : Contexts) (plan : ScopePlan)
    (part : List Var × Term) : Prop where
  vars : plan.vars = part.1
  kept : plan.ctx = none → part.2 = plan.arg
  scope : ∀ ctx, plan.ctx = some ctx → ∃ context, contexts[ctx]? = some context ∧
    part.2 = substitute rebuild context.subst plan.arg

theorem Planned.mono {contexts' : Contexts} (extends_ : contexts.Extends contexts')
    {plan : ScopePlan} {part : List Var × Term} (planned : Planned rebuild contexts plan part) :
    Planned rebuild contexts' plan part := by
  refine ⟨planned.vars, planned.kept, fun ctx at_ => ?_⟩
  obtain ⟨context, found, eq⟩ := planned.scope ctx at_
  obtain ⟨context', found', same, -⟩ := extends_ ctx context found
  exact ⟨context', found', by rw [same, eq]⟩

end

end Nixie.Ast
