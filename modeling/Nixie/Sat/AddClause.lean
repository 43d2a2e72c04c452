import Nixie.Sat.EquivRewrite

/-! Adding a clause at level zero, with folded variables replaced by their representatives. -/

namespace Nixie.Sat

open List

/-- Replace a literal of a folded variable by its representative. -/
def resolveReintroducedLiteral (s : Solver) (lit : Lit) : Lit :=
  match s.equivSubstitution[lit.var]? with
  | some rep => if rep.var ≠ lit.var then (if lit.isNeg then rep.negate else rep) else lit
  | none => lit

def ensureVars (s : Solver) (number : Nat) : Solver := newVar^[number - s.numVars] s

def ensureLit (s : Solver) (lit : Lit) : Solver :=
  if lit.var ≥ s.numVars then ensureVars s (lit.var + 1) else s

def tautological (lits : List Lit) : Bool :=
  (lits.zip lits.tail).any fun pair => pair.1 = pair.2.negate

/-- Store a sorted clause of two or more literals and force its last open literal. -/
def attachClause (s : Solver) (lits : Clause) : Solver × Bool :=
  -- Which two literals are watched is left to the search.
  let stored := { s with clauses := s.clauses ++ [{ lits := lits, learned := false }] }
  match status s.trail lits with
  | .falsified => ({ s with triviallyUnsat := true }, false)
  | .unit forced => ({ stored with trail := s.trail ++ [forced] }, true)
  | .quiet => (stored, true)

/-- Add a clause; the flag tells whether the formula may still be satisfiable. -/
def addClause (s : Solver) (lits : Clause) : Solver × Bool :=
  let resolved := lits.map (resolveReintroducedLiteral s)
  let s := resolved.foldl ensureLit s
  let lits := sortedLits resolved
  if tautological lits then (s, true)
  else match lits with
    | [] => ({ s with triviallyUnsat := true }, false)
    | [lit] =>
        match litValue s.trail lit with
        | some false => ({ s with triviallyUnsat := true }, false)
        | some true => (s, true)
        | none => ({ s with trail := s.trail ++ [lit] }, true)
    | lits => attachClause s lits

section

/-- Two states differ in what creating variables changes only. -/
structure Widened (s t : Solver) : Prop where
  fields : t = { s with numVars := t.numVars, elimVarFlag := t.elimVarFlag }
  grows : s.numVars ≤ t.numVars

theorem Widened.refl (s : Solver) : Widened s s := ⟨rfl, le_rfl⟩

theorem Widened.trans {s t u : Solver} (first : Widened s t) (second : Widened t u) :
    Widened s u := by
  refine ⟨?_, first.grows.trans second.grows⟩
  have left := first.fields
  have right := second.fields
  rw [left] at right
  exact right

theorem widened_newVar (s : Solver) : Widened s (newVar s) := ⟨rfl, Nat.le_succ _⟩

theorem newVars_spec (s : Solver) (count : Nat) :
    Widened s (newVar^[count] s) ∧ (newVar^[count] s).numVars = s.numVars + count := by
  induction count with
  | zero => exact ⟨.refl s, rfl⟩
  | succ count ih =>
    rw [Function.iterate_succ_apply']
    refine ⟨ih.1.trans (widened_newVar _), ?_⟩
    show (newVar^[count] s).numVars + 1 = s.numVars + (count + 1)
    omega

theorem ensureLit_spec (s : Solver) (lit : Lit) :
    Widened s (ensureLit s lit) ∧ lit.var < (ensureLit s lit).numVars := by
  unfold ensureLit ensureVars
  split
  · obtain ⟨widened, number⟩ := newVars_spec s (lit.var + 1 - s.numVars)
    exact ⟨widened, by omega⟩
  · exact ⟨.refl s, by omega⟩

theorem ensureLits_spec (lits : List Lit) : ∀ s : Solver, Widened s (lits.foldl ensureLit s) ∧
      ∀ lit ∈ lits, lit.var < (lits.foldl ensureLit s).numVars := by
  induction lits with
  | nil => exact fun s => ⟨.refl s, fun _ mem => nomatch mem⟩
  | cons lit rest ih =>
    intro s
    obtain ⟨widened, lies⟩ := ensureLit_spec s lit
    obtain ⟨widened', lies'⟩ := ih (ensureLit s lit)
    refine ⟨widened.trans widened', fun other mem => ?_⟩
    rcases mem_cons.mp mem with rfl | later
    · exact lies.trans_le widened'.grows
    · exact lies' other later

end

section

variable {m : Assignment}

theorem Widened.holds {s t : Solver} (widened : Widened s t) : t.Holds m ↔ s.Holds m := by
  rw [widened.fields]
  rfl

theorem tautological_holds {lits : Clause} (found : tautological lits = true) :
    Satisfies m lits := by
  obtain ⟨⟨left, right⟩, pair, same⟩ := any_eq_true.mp found
  obtain ⟨first, second⟩ := of_mem_zip pair
  have opposite : left = right.negate := by simpa using same
  by_cases holds : right.Holds m
  · exact ⟨right, mem_of_mem_tail second, holds⟩
  · exact ⟨left, first, by rwa [opposite, Lit.holds_negate]⟩

@[simp] theorem satisfies_sortedLits {lits : Clause} :
    Satisfies m (sortedLits lits) ↔ Satisfies m lits := by
  simp [Satisfies]

theorem attachClause_holds {s : Solver} (alive : s.triviallyUnsat = false) (lits : Clause) :
    ((attachClause s lits).1.triviallyUnsat = false ∧ (attachClause s lits).1.Holds m) ↔
      s.Holds m ∧ Satisfies m lits := by
  have spec := fun facts => @status_holds m s.trail facts lits
  unfold attachClause
  dsimp only
  cases outcome : status s.trail lits with
  | quiet =>
    simp only [Solver.Holds, Solver.formula, map_append, map_cons, map_nil,
      models_append, models_cons, models_nil, and_true, alive, true_and]
    tauto
  | unit forced =>
    simp only [Solver.Holds, Solver.formula, map_append, map_cons, map_nil,
      models_append, models_cons, models_nil, and_true, alive, true_and,
      forall_mem_append, forall_mem_singleton]
    -- The forced literal follows from the clause and the facts.
    constructor
    · rintro ⟨⟨models, satisfied⟩, facts, -⟩
      exact ⟨⟨models, facts⟩, satisfied⟩
    · rintro ⟨⟨models, facts⟩, satisfied⟩
      exact ⟨⟨models, satisfied⟩, facts, (spec facts satisfied).2 forced outcome⟩
  | falsified =>
    simp only [Bool.true_eq_false, false_and, false_iff, not_and]
    intro holds satisfied
    exact (spec holds.2 satisfied).1 outcome

theorem addClause_holds {s : Solver} (alive : s.triviallyUnsat = false) (lits : Clause) :
    ((addClause s lits).1.triviallyUnsat = false ∧ (addClause s lits).1.Holds m) ↔
      s.Holds m ∧ Satisfies m (lits.map (resolveReintroducedLiteral s)) := by
  have widened := (ensureLits_spec (lits.map (resolveReintroducedLiteral s)) s).1
  unfold addClause
  dsimp only
  generalize lits.map (resolveReintroducedLiteral s) = resolved at widened ⊢
  generalize resolved.foldl ensureLit s = t at widened ⊢
  have alive' : t.triviallyUnsat = false := by
    rw [widened.fields]
    exact alive
  rw [← widened.holds, ← satisfies_sortedLits]
  split
  · rename_i tautology
    have holds := @tautological_holds m _ tautology
    tauto
  · split
    · rename_i empty
      rw [empty]
      simp
    · rename_i lit single
      rw [single, satisfies_cons]
      simp only [satisfies_nil, or_false]
      have known := fun facts => @litValue_holds m t.trail facts lit
      cases value : litValue t.trail lit with
      | none =>
        simp only [Solver.Holds, alive', true_and, forall_mem_append, forall_mem_singleton]
        exact and_assoc.symm
      | some sign =>
        cases sign with
        | true =>
          dsimp only
          exact ⟨fun holds => ⟨holds.2, (known holds.2.2).1 value⟩, fun holds => ⟨alive', holds.1⟩⟩
        | false =>
          simp only [Bool.true_eq_false, false_and, false_iff, not_and]
          exact fun holds => (known holds.2).2 value
    · exact attachClause_holds alive' _

end

section

/-- What adding a clause leaves behind. -/
structure Added (s : Solver) (resolved : Clause) (t : Solver) : Prop where
  fields : t = { s with
    numVars := t.numVars
    clauses := t.clauses
    trail := t.trail
    triviallyUnsat := t.triviallyUnsat
    elimVarFlag := t.elimVarFlag }
  grows : s.numVars ≤ t.numVars
  inside : ∀ lit ∈ resolved, lit.var < t.numVars
  facts : ∀ lit ∈ s.trail, lit ∈ t.trail
  derived : ∀ lit ∈ t.trail, lit ∈ s.trail ∨ lit ∈ resolved
  stored : ∀ clause ∈ t.formula, clause ∈ s.formula ∨ ∀ lit ∈ clause, lit ∈ resolved
  recorded : s.triviallyUnsat = true → t.triviallyUnsat = true

variable {resolved : Clause}

theorem Widened.added {s t : Solver} (widened : Widened s t)
    (lies : ∀ lit ∈ resolved, lit.var < t.numVars) : Added s resolved t where
  fields := by
    rw [widened.fields]
  grows := widened.grows
  inside := lies
  facts := by
    rw [widened.fields]
    exact fun _ => id
  derived := by
    rw [widened.fields]
    exact fun _ => .inl
  stored := by
    rw [widened.fields]
    exact fun _ => .inl
  recorded := by
    rw [widened.fields]
    exact id

theorem Added.conflict {s t : Solver} (added : Added s resolved t) :
    Added s resolved { t with triviallyUnsat := true } :=
  { added with
    fields := by
      have same := added.fields
      rw [same]
    recorded := fun _ => rfl }

theorem Added.assign {s t : Solver} (added : Added s resolved t) {lit : Lit}
    (mem : lit ∈ resolved) : Added s resolved { t with trail := t.trail ++ [lit] } :=
  { added with
    fields := by
      have same := added.fields
      rw [same]
    facts := fun other old => mem_append_left _ (added.facts other old)
    derived := by
      intro other new
      rcases mem_append.mp new with old | last
      · exact added.derived other old
      · exact .inr (mem_singleton.mp last ▸ mem) }

theorem Added.store {s t : Solver} (added : Added s resolved t)
    {lits : Clause} (members : ∀ lit ∈ lits, lit ∈ resolved) :
    Added s resolved
      { t with clauses := t.clauses ++ [{ lits := lits, learned := false }] } :=
  { added with
    fields := by
      have same := added.fields
      rw [same]
    stored := by
      intro clause new
      unfold Solver.formula at new
      rw [map_append, map_cons, map_nil] at new
      rcases mem_append.mp new with old | last
      · exact added.stored clause old
      · exact .inr (mem_singleton.mp last ▸ members) }

theorem addClause_added (s : Solver) (lits : Clause) :
    Added s (lits.map (resolveReintroducedLiteral s)) (addClause s lits).1 := by
  obtain ⟨widened, lies⟩ := ensureLits_spec (lits.map (resolveReintroducedLiteral s)) s
  have added := widened.added lies
  unfold addClause
  dsimp only
  generalize lits.map (resolveReintroducedLiteral s) = resolved at added ⊢
  generalize resolved.foldl ensureLit s = t at added ⊢
  have members : ∀ lit ∈ sortedLits resolved, lit ∈ resolved := fun lit => mem_sortedLits.mp
  split
  · exact added
  · split
    · exact added.conflict
    · rename_i lit single
      rw [single] at members
      split
      · exact added.conflict
      · exact added
      · exact added.assign (members lit (.head _))
    · unfold attachClause
      dsimp only
      split
      · exact added.conflict
      · rename_i forced unit
        exact (added.store members).assign (members forced (status_unit unit))
      · exact added.store members

end

end Nixie.Sat
