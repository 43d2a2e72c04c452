import Nixie.Logic.Cnf

/-! The solver state that the rewriting passes share, and unit propagation at level zero. -/

namespace Nixie.Sat

/-- A live clause of the database. -/
structure DbClause where
  lits : Clause
  learned : Bool
  deriving DecidableEq, Repr

/-- Configuration switches that the passes read. -/
structure Config where
  enableGateCongruence : Bool
  deriving DecidableEq, Repr

/-- The solver fields that the rewriting passes and the model reconstruction use. -/
structure Solver where
  config : Config
  numVars : Nat
  clauses : List DbClause
  trail : List Lit
  decisionLevel : Nat
  /-- Number of assertion levels, one at the base scope. -/
  assertionLevels : Nat
  hasProof : Bool
  triviallyUnsat : Bool
  equivSubstitution : List Lit
  equivSubstInited : Bool
  /-- Positive clauses of each eliminated variable, without the variable. -/
  bveDef : List (List Clause)
  bveOrder : List Nat
  elimVarFlag : List Bool
  pureLiteralReconstruction : List Lit
  frozenVars : List Nat
  deriving DecidableEq, Repr

def Solver.new (config : Config) : Solver where
  config := config
  numVars := 0
  clauses := []
  trail := []
  decisionLevel := 0
  assertionLevels := 1
  hasProof := false
  triviallyUnsat := false
  equivSubstitution := []
  equivSubstInited := false
  bveDef := []
  bveOrder := []
  elimVarFlag := []
  pureLiteralReconstruction := []
  frozenVars := []

def Solver.formula (s : Solver) : Cnf := s.clauses.map DbClause.lits

/-- Value of a literal under the facts of a trail. -/
def litValue (trail : List Lit) (lit : Lit) : Option Bool :=
  if lit ∈ trail then some true else if lit.negate ∈ trail then some false else none

/-- What a clause asks for under the facts of a trail. -/
inductive Status where
  | quiet
  | unit (lit : Lit)
  | falsified
  deriving DecidableEq, Repr

def status (trail : List Lit) (clause : Clause) : Status :=
  if clause.any fun lit => litValue trail lit = some true then .quiet
  else match clause.filter fun lit => litValue trail lit = none with
    | [] => .falsified
    | [lit] => .unit lit
    | _ => .quiet

def firstActive (trail : List Lit) : Cnf → Option Status
  | [] => none
  | clause :: rest =>
      match status trail clause with
      | .quiet => firstActive trail rest
      | active => some active

/-- Unit propagation at level zero; nothing stands for a conflict. -/
def propagateWith (formula : Cnf) : Nat → List Lit → Option (List Lit)
  -- Every turn assigns one more variable, so the fuel is the number of variables.
  | 0, trail => some trail
  | fuel + 1, trail =>
      match firstActive trail formula with
      | some (.unit lit) => propagateWith formula fuel (trail ++ [lit])
      | some _ => none
      | none => some trail

def propagate (s : Solver) : Option Solver :=
  (propagateWith s.formula (s.numVars + 1) s.trail).map fun trail => { s with trail := trail }

def newVar (s : Solver) : Solver :=
  { s with
    numVars := s.numVars + 1
    elimVarFlag := s.elimVarFlag ++ List.replicate (s.numVars + 1 - s.elimVarFlag.length) false }

/-- The assignment satisfies every live clause and every level-zero fact. -/
def Solver.Holds (assignment : Assignment) (s : Solver) : Prop :=
  Models assignment s.formula ∧ ∀ lit ∈ s.trail, lit.Holds assignment

/-- Some assignment satisfies the state, and no conflict was recorded. -/
def Solver.Satisfiable (s : Solver) : Prop :=
  s.triviallyUnsat = false ∧ ∃ assignment, s.Holds assignment

variable {assignment : Assignment}

variable {trail : List Lit}

theorem litValue_holds (facts : ∀ lit ∈ trail, lit.Holds assignment) {lit : Lit} :
    (litValue trail lit = some true → lit.Holds assignment) ∧
      (litValue trail lit = some false → ¬ lit.Holds assignment) := by
  unfold litValue
  constructor
  · intro value
    split at value
    · rename_i mem
      exact facts lit mem
    · split at value <;> simp at value
  · intro value
    split at value
    · simp at value
    · split at value
      · rename_i mem
        exact Lit.holds_negate.mp (facts _ mem)
      · simp at value

theorem status_holds (facts : ∀ lit ∈ trail, lit.Holds assignment) {clause : Clause}
    (satisfied : Satisfies assignment clause) :
    status trail clause ≠ .falsified ∧
      ∀ lit, status trail clause = .unit lit → lit.Holds assignment := by
  -- A true literal of the clause is not false under the facts, so it stays open.
  obtain ⟨true_, mem, holds⟩ := satisfied
  unfold status
  split
  · simp
  · rename_i unsatisfied
    have open_ : true_ ∈ clause.filter fun lit => litValue trail lit = none := by
      refine List.mem_filter.mpr ⟨mem, ?_⟩
      cases value : litValue trail true_ with
      | none => simp
      | some sign =>
        cases sign with
        | true =>
          exact absurd (List.any_eq_true.mpr ⟨true_, mem, by simp [value]⟩) unsatisfied
        | false => exact absurd holds ((litValue_holds facts).2 value)
    split
    · rename_i empty
      rw [empty] at open_
      cases open_
    · rename_i unit single
      rw [single, List.mem_singleton] at open_
      refine ⟨by simp, fun lit same => ?_⟩
      cases same
      exact open_ ▸ holds
    · simp

theorem firstActive_holds (facts : ∀ lit ∈ trail, lit.Holds assignment) :
    ∀ {formula : Cnf}, Models assignment formula → ∀ {active}, firstActive trail formula = some active →
      ∃ lit, active = .unit lit ∧ lit.Holds assignment := by
  intro formula
  induction formula with
  | nil => intro _ active found; cases found
  | cons clause rest ih =>
    intro models active found
    obtain ⟨head, tail⟩ := models_cons.mp models
    obtain ⟨alive, unit⟩ := status_holds facts head
    unfold firstActive at found
    cases here : status trail clause with
    | quiet =>
      rw [here] at found
      exact ih tail found
    | unit lit =>
      rw [here] at found
      exact ⟨lit, (Option.some.inj found).symm, unit lit here⟩
    | falsified => exact absurd here alive

theorem propagateWith_holds {formula : Cnf}
    (models : Models assignment formula) : ∀ {fuel : Nat} {trail : List Lit},
      (∀ lit ∈ trail, lit.Holds assignment) →
      ∃ longer, propagateWith formula fuel trail = some longer ∧
        ∀ lit ∈ longer, lit.Holds assignment := by
  intro fuel
  induction fuel with
  | zero => exact fun {trail} facts => ⟨trail, rfl, facts⟩
  | succ fuel ih =>
    intro trail facts
    unfold propagateWith
    cases found : firstActive trail formula with
    | none => exact ⟨trail, rfl, facts⟩
    | some active =>
      obtain ⟨lit, rfl, holds⟩ := firstActive_holds facts models found
      refine ih fun other mem => ?_
      rcases List.mem_append.mp mem with old | new
      · exact facts other old
      · exact List.mem_singleton.mp new ▸ holds

theorem propagateWith_extends {formula : Cnf} : ∀ {fuel : Nat} {trail longer : List Lit},
    propagateWith formula fuel trail = some longer → ∀ lit ∈ trail, lit ∈ longer := by
  intro fuel
  induction fuel with
  | zero =>
    intro trail longer done lit mem
    exact Option.some.inj done ▸ mem
  | succ fuel ih =>
    intro trail longer done lit mem
    unfold propagateWith at done
    split at done
    · exact ih done lit (List.mem_append_left _ mem)
    · cases done
    · exact Option.some.inj done ▸ mem

theorem status_unit {clause : Clause} {lit : Lit}
    (unit : status trail clause = .unit lit) : lit ∈ clause := by
  unfold status at unit
  split at unit
  · cases unit
  · split at unit
    · cases unit
    · rename_i single
      cases unit
      have mem : lit ∈ clause.filter fun lit => litValue trail lit = none := by
        rw [single]
        exact .head _
      exact (List.mem_filter.mp mem).1
    · cases unit

theorem firstActive_unit {lit : Lit} : ∀ {formula : Cnf},
    firstActive trail formula = some (.unit lit) → ∃ clause ∈ formula, lit ∈ clause := by
  intro formula
  induction formula with
  | nil => intro found; cases found
  | cons clause rest ih =>
    intro found
    unfold firstActive at found
    cases here : status trail clause with
    | quiet =>
      rw [here] at found
      obtain ⟨other, mem, lies⟩ := ih found
      exact ⟨other, .tail _ mem, lies⟩
    | unit single =>
      rw [here] at found
      cases found
      exact ⟨clause, .head _, status_unit here⟩
    | falsified =>
      rw [here] at found
      cases found

theorem propagateWith_occur {formula : Cnf} : ∀ {fuel : Nat} {trail longer : List Lit},
    propagateWith formula fuel trail = some longer →
      ∀ lit ∈ longer, lit ∈ trail ∨ ∃ clause ∈ formula, lit ∈ clause := by
  intro fuel
  induction fuel with
  | zero =>
    intro trail longer done lit mem
    cases done
    exact .inl mem
  | succ fuel ih =>
    intro trail longer done lit mem
    unfold propagateWith at done
    split at done
    · rename_i single found
      -- The newest fact is the open literal of a clause, and the rest is older or later.
      rcases ih done lit mem with before | later
      · rcases List.mem_append.mp before with old | new
        · exact .inl old
        · rw [List.mem_singleton.mp new]
          exact .inr (firstActive_unit found)
      · exact .inr later
    · cases done
    · cases done
      exact .inl mem

theorem propagate_holds {s : Solver} (holds : s.Holds assignment) :
    ∃ t, propagate s = some t ∧ t.Holds assignment := by
  obtain ⟨longer, done, facts⟩ := @propagateWith_holds _ _ holds.1 (s.numVars + 1) _ holds.2
  exact ⟨{ s with trail := longer }, by simp [propagate, done], holds.1, facts⟩

theorem propagate_fields {s t : Solver} (done : propagate s = some t) :
    (∀ lit ∈ s.trail, lit ∈ t.trail) ∧ t = { s with trail := t.trail } ∧
      ∀ lit ∈ t.trail, lit ∈ s.trail ∨ ∃ clause ∈ s.formula, lit ∈ clause := by
  unfold propagate at done
  cases trail : propagateWith s.formula (s.numVars + 1) s.trail with
  | none =>
    rw [trail] at done
    cases done
  | some longer =>
    rw [trail] at done
    cases done
    exact ⟨propagateWith_extends trail, rfl, propagateWith_occur trail⟩

end Nixie.Sat
