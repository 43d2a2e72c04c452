import Nixie.Ast.Simplify
import Nixie.Ast.SubstituteLaws

/-! Elimination of an arithmetic variable by a set of test points. -/

namespace Nixie.Ast.VirtualSubstitution

open List Function

/-- The terms that have been visited, and the candidates that were found. -/
structure Candidates where
  visited : List Term
  lowerBounds : List Term
  equalities : List Term

namespace Candidates

def lower (candidates : Candidates) (bound : Term) : Candidates :=
  { candidates with lowerBounds := candidates.lowerBounds ++ [bound] }

/-- One more value that the variable is compared with. -/
def equal (candidates : Candidates) (value : Term) : Candidates :=
  { candidates with equalities := candidates.equalities ++ [value] }

def take (candidates : Candidates) (var : Term) : Term → Candidates
  | .node .gt [lhs, rhs] | .node .ge [lhs, rhs] =>
    if lhs = var then candidates.lower rhs
    else if rhs = var then candidates.equal lhs
    else candidates
  | .node .lt [lhs, rhs] | .node .le [lhs, rhs] =>
    if rhs = var then candidates.lower lhs else candidates
  | .node .eq [lhs, rhs] =>
    if lhs = var then candidates.equal rhs
    else if rhs = var then candidates.equal lhs
    else candidates
  | _ => candidates

end Candidates

mutual

/-- Collect the candidates of a term and of all its subterms, each of them once. -/
def collectCandidates (var : Term) : Term → Candidates → Candidates
  | .var name sort, candidates =>
    if .var name sort ∈ candidates.visited then candidates
    else { candidates with visited := .var name sort :: candidates.visited }
  | .node kind args, candidates =>
    if .node kind args ∈ candidates.visited then candidates
    else collectCandidatesAll var args
      (Candidates.take { candidates with visited := .node kind args :: candidates.visited } var
        (.node kind args))
  | .bind binder scopes args, candidates =>
    if .bind binder scopes args ∈ candidates.visited then candidates
    else collectCandidatesAll var args
      { candidates with visited := .bind binder scopes args :: candidates.visited }

def collectCandidatesAll (var : Term) : List Term → Candidates → Candidates
  | [], candidates => candidates
  | arg :: rest, candidates => collectCandidates var arg (collectCandidatesAll var rest candidates)

end

/-- The kinds that are entered when the result is simplified. -/
def entered : Kind → Bool
  | .and | .or | .add | .not | .eq | .lt | .le | .gt | .ge => true
  | _ => false

mutual

/-- Rebuild a formula from its leaves on, and simplify what is rebuilt. -/
def simplifyFormula (before : InternOrder) : Term → Term
  | .var name sort => .var name sort
  | .node kind args =>
    if entered kind then
      simplify before (rebuildSubstituted before kind (simplifyFormulas before args))
    else .node kind args
  | .bind binder scopes args => .bind binder scopes args

def simplifyFormulas (before : InternOrder) : List Term → List Term
  | [] => []
  | arg :: rest => simplifyFormula before arg :: simplifyFormulas before rest

end

/-- A term that may be substituted for a variable. -/
structure Fitting (x : Var) (term : Term) : Prop where
  sorted : term.WellSorted
  sort : term.sort = x.2
  found : term.SortsFound

/-- All candidates fit. -/
structure Candidates.Fit (x : Var) (candidates : Candidates) : Prop where
  lowerBounds : ∀ bound ∈ candidates.lowerBounds, Fitting x bound
  equalities : ∀ value ∈ candidates.equalities, Fitting x value

namespace Candidates.Fit

variable {x : Var} {candidates : Candidates}

theorem lower (fit : candidates.Fit x) {bound : Term} (fitting : Fitting x bound) :
    (candidates.lower bound).Fit x :=
  ⟨forall_mem_append.mpr ⟨fit.lowerBounds, forall_mem_singleton.mpr fitting⟩, fit.equalities⟩

theorem visit (fit : candidates.Fit x) (visited : List Term) :
    Candidates.Fit x { candidates with visited } :=
  { fit with }

theorem equal (fit : candidates.Fit x) {value : Term} (fitting : Fitting x value) :
    (candidates.equal value).Fit x :=
  ⟨fit.lowerBounds, forall_mem_append.mpr ⟨fit.equalities, forall_mem_singleton.mpr fitting⟩⟩

theorem take (fit : candidates.Fit x) {term : Term} (sorted : term.WellSorted)
    (found : term.SortsFound) : (candidates.take (.var x.1 x.2) term).Fit x := by
  have sides {kind : Kind} {lhs rhs : Term} (eq : term = .node kind [lhs, rhs])
      (same : kind.Takes [lhs.sort, rhs.sort] → lhs.sort = rhs.sort) :
      (lhs = .var x.1 x.2 → Fitting x rhs) ∧ (rhs = .var x.1 x.2 → Fitting x lhs) := by
    subst eq
    obtain ⟨takes, each⟩ := wellSorted_node.mp sorted
    obtain _ | ⟨eachFound⟩ := found
    have right : rhs ∈ [lhs, rhs] := by simp
    constructor
    · rintro rfl
      exact ⟨each rhs right, (same takes).symm, eachFound rhs right⟩
    · rintro rfl
      exact ⟨each lhs mem_cons_self, same takes, eachFound lhs mem_cons_self⟩
  have compared {sort sort' : SortKind}
      (takes : ∃ common, Numeric common ∧ [sort, sort'] = [common, common]) : sort = sort' := by
    obtain ⟨common, -, eq⟩ := takes
    have both := cons.inj eq
    exact both.1.trans (cons.inj both.2).1.symm
  unfold Candidates.take
  split
  · obtain ⟨left, right⟩ := sides rfl compared
    split_ifs with eq eq'
    · exact fit.lower (left eq)
    · exact fit.equal (right eq')
    · exact fit
  · obtain ⟨left, right⟩ := sides rfl compared
    split_ifs with eq eq'
    · exact fit.lower (left eq)
    · exact fit.equal (right eq')
    · exact fit
  · obtain ⟨-, right⟩ := sides rfl compared
    split_ifs with eq
    · exact fit.lower (right eq)
    · exact fit
  · obtain ⟨-, right⟩ := sides rfl compared
    split_ifs with eq
    · exact fit.lower (right eq)
    · exact fit
  · obtain ⟨left, right⟩ := sides rfl fun ⟨common, eq⟩ => by
      have both := cons.inj eq
      exact both.1.trans (cons.inj both.2).1.symm
    split_ifs with eq eq'
    · exact fit.equal (left eq)
    · exact fit.equal (right eq')
    · exact fit
  · exact fit

end Candidates.Fit

end Nixie.Ast.VirtualSubstitution
