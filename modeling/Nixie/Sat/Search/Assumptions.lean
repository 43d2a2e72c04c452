import Nixie.Sat.Search.AddClause

/-! Solving under assumptions: they are placed as decisions once, and the search runs above them. -/

namespace Nixie.Sat.Search

open List

inductive Answer where
  | sat (model : Assignment)
  /-- The formula has no model in which the core is true. -/
  | unsat (core : List Lit)
  | unknown

inductive Phase where
  /-- No call is running; the last one left an answer, unless the formula changed. -/
  | idle (answer : Option Answer)
  | placing (next : Nat)
  | searching

/-- A solver between and during its calls. -/
structure Session where
  solver : Solver
  triviallyUnsat : Bool
  /-- The assumptions of the current or last call. -/
  assumptions : List Lit
  phase : Phase

/-- What the analysis of a conflict and the maintenance after it choose. -/
structure Analysis where
  /-- True literals whose reasons are resolved with the conflict. -/
  pivots : List Lit
  learnt : Clause
  level : Nat
  drop : List Nat
  restart : Bool

def Solver.resolveReasons (s : Solver) (pivots : List Lit) (clause : Clause) : Option Clause :=
  pivots.foldlM (fun clause pivot =>
    match (s.trail.varInfo pivot.var).reason with
    | .propagation id =>
        if s.trail.litVal pivot = 1 then (s.liveLits id).map (resolve pivot clause) else none
    | _ => none) clause

/-- Whether a clause is what resolution leaves of a conflict, up to literals of level zero. -/
def Solver.derives (s : Solver) (conflict : Nat) (pivots : List Lit) (learnt : Clause) : Bool :=
  Decidable.decide learnt.Nodup && learnt.all (fun lit => Decidable.decide (lit.var < s.numVars)) &&
    match (s.liveLits conflict).bind (s.resolveReasons pivots) with
    | some resolvent => resolvent.all fun lit =>
        Decidable.decide (lit ∈ learnt) || Decidable.decide (s.trail.level lit.var = 0)
    | none => false

def Solver.model (s : Solver) : Assignment :=
  fun var => Decidable.decide (s.trail.litVal (Lit.pos var) = 1)

namespace Session

def new (numVars : Nat) : Session where
  solver := Solver.new numVars
  triviallyUnsat := false
  assumptions := []
  phase := .idle none

def addClause (session : Session) (lits : Clause) : Option Session :=
  match session.phase with
  | .idle _ =>
      let added := session.solver.addClause lits
      some { session with
        solver := added.1, triviallyUnsat := session.triviallyUnsat || !added.2, phase := .idle none }
  | _ => none

def finish (session : Session) (s : Solver) (answer : Answer) : Session :=
  { session with solver := s.backtrack 0, phase := .idle (some answer) }

inductive Action where
  | solve (assumptions : List Lit)
  | place
  | stop
  /-- Propagate into a conflict without a level above zero. -/
  | refute
  /-- Propagate into a conflict and learn from it. -/
  | learn (analysis : Analysis)
  /-- Propagate without a conflict and decide a literal. -/
  | branch (lit : Lit)
  /-- Propagate without a conflict when every variable has a value. -/
  | model

def solve (session : Session) (assumptions : List Lit) : Option Session :=
  if session.triviallyUnsat then
    some { session with assumptions := assumptions, phase := .idle (some (.unsat [])) }
  else
    let session := { session with assumptions := assumptions }
    match ((session.solver.ensureVars assumptions).backtrack 0).propagate none with
    | some (s, .conflict _) => some { session with solver := s, phase := .idle (some (.unsat [])) }
    | some (s, _) => some { session with solver := s, phase := .placing 0 }
    | none => none

/-- Place one assumption, or start the search behind the last one. -/
def place (session : Session) (next : Nat) : Option Session :=
  match session.assumptions[next]? with
  | none => some { session with phase := .searching }
  | some lit =>
      let s := session.solver
      if s.trail.litVal lit > 0 then some { session with phase := .placing (next + 1) }
      else if s.trail.litVal lit < 0 then
        some (session.finish s (.unsat (s.extractAssumptionCore session.assumptions next lit)))
      else match (s.decide lit).propagate none with
        | some (s, .conflict id) =>
            some (session.finish s (.unsat (s.analyzeAssumptionConflict session.assumptions id)))
        | some (s, _) => some { session with solver := s, phase := .placing (next + 1) }
        | none => none

/-- Learn from a conflict, retire learned clauses, and restart. -/
def learn (session : Session) (s : Solver) (analysis : Analysis) : Option Session :=
  -- Assumptions beyond the first level are not kept, neither here nor by the restart.
  match ((s.backtrack (max analysis.level 1)).learnClause analysis.learnt).reduceClauseDatabase
      analysis.drop with
  | some s => some { session with solver := if analysis.restart then s.backtrack 0 else s }
  | none => none

def search (session : Session) (action : Action) : Option Session :=
  match action, session.solver.propagate none with
  | .refute, some (s, .conflict id) =>
      if s.analyzeConflictLevel id = 0 then
        some (session.finish s (.unsat (s.analyzeAssumptionConflict session.assumptions id)))
      else none
  | .learn analysis, some (s, .conflict id) =>
      if s.analyzeConflictLevel id ≠ 0 ∧ s.derives id analysis.pivots analysis.learnt = true then
        if analysis.learnt = [] then
          some (session.finish s (.unsat (s.analyzeAssumptionConflict session.assumptions id)))
        else session.learn s analysis
      else none
  | .branch lit, some (s, .fixpoint) =>
      if lit.var < s.numVars ∧ s.trail.isAssigned lit.var = false then
        some { session with solver := s.decide lit }
      else none
  | .model, some (s, .fixpoint) =>
      if (List.range s.numVars).all s.trail.isAssigned then some (session.finish s (.sat s.model))
      else none
  | _, _ => none

def step (session : Session) (action : Action) : Option Session :=
  match session.phase, action with
  | .idle _, .solve assumptions => session.solve assumptions
  | .placing next, .place => session.place next
  | .searching, .stop => some (session.finish session.solver .unknown)
  | .searching, action => session.search action
  | _, _ => none

/-- The sessions that clauses and calls reach, with the formula that was added. -/
inductive Run (permitted : Session → Action → Prop) : Cnf → Session → Prop where
  | new (numVars : Nat) : Run permitted [] (Session.new numVars)
  | add {formula : Cnf} {session next : Session} (before : Run permitted formula session)
      {lits : Clause} (done : session.addClause lits = some next) :
      Run permitted (formula ++ [lits]) next
  | step {formula : Cnf} {session next : Session} (before : Run permitted formula session)
      {action : Action} (allowed : permitted session action)
      (done : session.step action = some next) : Run permitted formula next

/--
The answer of the last call is right.

A model satisfies the formula and the assumptions; a core is made of assumptions and contradicts the
formula.
-/
def Correct (formula : Cnf) (session : Session) : Prop :=
  match session.phase with
  | .idle (some (.sat model)) =>
      Models model formula ∧ ∀ lit ∈ session.assumptions, lit.Holds model
  | .idle (some (.unsat core)) => core ⊆ session.assumptions ∧
      ¬ ∃ assignment, Models assignment formula ∧ ∀ lit ∈ core, lit.Holds assignment
  | _ => True

/--
The step loses no assumption.

No assumption fails because its complement is another assumption, and no backjump or restart
unassigns one.
-/
def Keeps (session : Session) (action : Action) : Prop :=
  match session.phase, action with
  | .placing next, .place => ∀ lit, session.assumptions[next]? = some lit →
      session.solver.trail.litVal lit = -1 → ¬ Root session.solver.trail lit.negate
  | .searching, .learn analysis => ∀ lit ∈ session.assumptions,
      session.solver.trail.level lit.var ≤ max analysis.level 1 ∧
        (analysis.restart = true → session.solver.trail.level lit.var = 0)
  | _, _ => True

end Session

section

variable {s t : Solver} {formula given : Cnf} {placed : List Lit}

theorem UnitSteps.root {live : Nat → Option Clause} {first second : Trail}
    (steps : UnitSteps live first second) (inv : first.Inv) {lit : Lit} (root : Root second lit) :
    Root first lit := by
  induction steps with
  | refl => exact root
  | @unit trail before id lits forced found mem fresh falsified ih =>
    obtain ⟨true_, high, noClause⟩ := root
    have free := (before.inv inv).unassigned_iff.mpr fresh
    -- The forced literal has a reason clause, so the root is another literal.
    have apart : lit.var ≠ forced.var := fun same => by
      refine noClause id ?_
      show ((trail.assignAt forced _ _).varInfo lit.var).reason = _
      rw [Trail.assignAt_reason, if_pos same]
    have value : trail.litVal lit = 1 := by
      have after : (trail.assignAt forced (.propagation id) trail.currentLevel).litVal lit = 1 := true_
      rw [Trail.assignAt_litVal, if_neg (fun same => apart (congrArg Lit.var same)),
        if_neg (fun same => apart ((congrArg Lit.var same).trans (Lit.negate_var _)))] at after
      exact after
    refine ih ⟨value, ?_, fun other same => noClause other ?_⟩
    · have level : (trail.assignAt forced (.propagation id) trail.currentLevel).level lit.var ≠ 0 := high
      rw [Trail.assignAt_level, if_neg apart] at level
      exact level
    · show ((trail.assignAt forced _ _).varInfo lit.var).reason = _
      rw [Trail.assignAt_reason, if_neg apart]
      exact same
  | head _ _ ih => exact ih root

theorem sound_new (numVars : Nat) : Sound [] [] (Solver.new numVars) where
  ready := ready_new (attached_new numVars) rfl
  justified := fun _ true_ => by cases true_
  factual := fun _ true_ => by cases true_
  entailed := fun live => by cases live
  covered := fun _ mem => absurd mem not_mem_nil

theorem Sound.toPlaced (sound : Sound formula given s) (holds : ∀ lit ∈ placed, s.trail.litVal lit = 1)
    (rooted : ∀ lit, Root s.trail lit → lit ∈ placed) : Placed s formula placed :=
  ⟨sound.ready.trail, sound.justified, sound.factual, sound.entailed, holds, rooted⟩

theorem Sound.propagate (sound : Sound formula given s) :
    ∃ t, Progress s t ∧ Sound formula given t ∧
      ((s.propagate none = some (t, .fixpoint) ∧ t.trail.propHead = t.trail.assignments.length) ∨
        ∃ id, s.propagate none = some (t, .conflict id) ∧ Falsified t id) := by
  obtain ⟨t, outcome, result, progress, ends⟩ := propagate_ends none sound.ready
  cases outcome with
  | fixpoint => exact ⟨t, progress, sound.progress progress ends.1, .inl ⟨result, ends.2⟩⟩
  | aborted => exact absurd rfl ends.1
  | conflict id => exact ⟨t, progress, sound.progress progress ends.1, .inr ⟨id, result, ends.2⟩⟩

theorem Sound.resolveReasons (sound : Sound formula given s) {pivots : List Lit} :
    ∀ {clause resolvent : Clause}, s.resolveReasons pivots clause = some resolvent →
      Entails formula clause → (∀ lit ∈ clause, s.trail.litVal lit = -1) →
        Entails formula resolvent ∧ ∀ lit ∈ resolvent, s.trail.litVal lit = -1 := by
  induction pivots with
  | nil =>
    intro clause resolvent done entails false_
    cases done
    exact ⟨entails, false_⟩
  | cons pivot rest ih =>
    intro clause resolvent done entails false_
    unfold Solver.resolveReasons at done
    rw [foldlM_cons] at done
    obtain ⟨next, resolved, later⟩ := Option.bind_eq_some_iff.mp done
    split at resolved
    · rename_i id reason
      split at resolved
      · rename_i true_
        obtain ⟨lits, live, rfl⟩ := Option.map_eq_some_iff.mp resolved
        refine ih later (entails.resolve (sound.entailed live)) fun lit mem => ?_
        -- The other literals of the reason are false.
        rcases mem_resolve.mp mem with ⟨lies, -⟩ | ⟨lies, apart⟩
        · exact false_ lit lies
        · obtain ⟨found, live', -, others⟩ := sound.justified pivot true_ id reason
          rw [live] at live'
          cases live'
          exact (others lit lies apart).1
      · cases resolved
    · cases resolved

theorem Sound.derives (sound : Sound formula given s) {conflict : Nat} {pivots : List Lit}
    {learnt : Clause} (falsified : Falsified s conflict)
    (derived : s.derives conflict pivots learnt = true) :
    learnt.Nodup ∧ (∀ lit ∈ learnt, lit.var < s.numVars) ∧ Entails formula learnt := by
  obtain ⟨lits, live, false_⟩ := falsified
  unfold Solver.derives at derived
  rw [live] at derived
  simp only [Option.bind_some, Bool.and_eq_true, decide_eq_true_eq, all_eq_true] at derived
  obtain ⟨⟨nodup, below⟩, rest⟩ := derived
  refine ⟨nodup, below, ?_⟩
  split at rest
  · rename_i resolvent done
    obtain ⟨entails, falsified⟩ := sound.resolveReasons done (sound.entailed live) false_
    refine entails.strengthen fun lit mem => ?_
    -- A literal that is left out is false at level zero.
    have kept := all_eq_true.mp rest lit mem
    rw [Bool.or_eq_true, decide_eq_true_eq, decide_eq_true_eq] at kept
    refine kept.imp_right fun zero => ?_
    exact ground_entailed sound.ready.trail sound.justified sound.factual sound.entailed
      (sound.ready.trail.false_iff.mp (falsified lit mem)) zero
  · cases rest

theorem Sound.ground_unsat (sound : Sound formula given s) {conflict : Nat}
    (falsified : Falsified s conflict) (level : s.trail.currentLevel = 0) :
    ¬ Satisfiable formula := by
  refine ground_conflict sound.ready.trail sound.justified sound.factual sound.entailed falsified ?_
  obtain ⟨lits, live, false_⟩ := falsified
  -- No literal has a level above zero.
  have none_ : (lits.map fun lit => s.trail.level lit.var).filter (· > 0) = [] := by
    refine filter_eq_nil_iff.mpr fun value mem => ?_
    obtain ⟨lit, lies, rfl⟩ := mem_map.mp mem
    have bound := @Trail.Inv.level_le _ sound.ready.trail lit (by
      rw [false_ lit lies]
      decide)
    rw [level] at bound
    simpa using bound
  unfold Solver.analyzeConflictLevel
  rw [live, Option.getD_some]
  simp only [none_]
  rfl

theorem decide_true {lit : Lit} : (s.decide lit).trail.litVal lit = 1 := by
  show (s.trail.newDecisionLevel.assignAt lit .decision _).litVal lit = 1
  rw [Trail.assignAt_litVal, if_pos rfl]

theorem decide_value (inv : s.trail.Inv) {lit other : Lit}
    (free : s.trail.isAssigned lit.var = false) (defined : s.trail.litVal other ≠ 0) :
    (s.decide lit).trail.litVal other = s.trail.litVal other ∧ other.var ≠ lit.var :=
  inv.newDecisionLevel.assignAt_value free defined

theorem decide_root (inv : s.trail.Inv) {lit other : Lit}
    (free : s.trail.isAssigned lit.var = false) (root : Root (s.decide lit).trail other) :
    Root s.trail other ∨ other = lit := by
  obtain ⟨true_, high, noClause⟩ := root
  have value : (s.trail.newDecisionLevel.assignAt lit .decision
      s.trail.newDecisionLevel.currentLevel).litVal other = 1 := true_
  rw [Trail.assignAt_litVal] at value
  split at value
  · rename_i same
    exact .inr same
  · split at value
    · cases value
    · -- Another true literal was true before, with the same record.
      have defined : s.trail.litVal other ≠ 0 := by
        show s.trail.newDecisionLevel.litVal other ≠ 0
        rw [value]
        decide
      obtain ⟨-, apart⟩ := decide_value inv free defined
      have record : (s.decide lit).trail.varInfo other.var = s.trail.varInfo other.var :=
        Function.update_of_ne apart _ _
      unfold Trail.level at high
      rw [record] at high noClause
      exact .inl ⟨value, high, noClause⟩

theorem backtrack_keeps (inv : s.trail.Inv) {level : Nat} {lit : Lit}
    (true_ : s.trail.litVal lit = 1) (low : s.trail.level lit.var ≤ level) :
    (s.backtrack level).trail.litVal lit = 1 ∧
      (s.backtrack level).trail.level lit.var = s.trail.level lit.var := by
  rcases Nat.lt_or_ge level s.trail.currentLevel with lower | above
  · have value : (s.trail.backtrackTo level).litVal lit = 1 := by
      rw [inv.backtrackTo_value lower, if_pos low]
      exact true_
    exact ⟨value, (inv.backtrackTo_record lower (by rw [value]; decide)).1⟩
  · unfold Solver.backtrack Trail.backtrackTo
    rw [if_pos above]
    exact ⟨true_, rfl⟩

theorem force_keeps (inv : s.trail.Inv) {lit forced : Lit} {reason : Reason} {level : Nat}
    (free : s.trail.isAssigned forced.var = false) (true_ : s.trail.litVal lit = 1) :
    (s.force forced reason level).trail.litVal lit = 1 ∧
      (s.force forced reason level).trail.level lit.var = s.trail.level lit.var := by
  obtain ⟨value, apart⟩ := @Trail.Inv.assignAt_value _ inv forced lit reason level free (by
    rw [true_]
    decide)
  refine ⟨value.trans true_, ?_⟩
  show (s.trail.assignAt forced reason level).level lit.var = _
  rw [Trail.assignAt_level, if_neg apart]

theorem learnClause_keeps (inv : s.trail.Inv) {lit : Lit} {learnt : Clause}
    (true_ : s.trail.litVal lit = 1) :
    (s.learnClause learnt).trail.litVal lit = 1 ∧
      (s.learnClause learnt).trail.level lit.var = s.trail.level lit.var := by
  obtain ⟨trail, -⟩ := @storeClause_fields s (.learnt learnt)
  rw [← trail] at inv true_ ⊢
  unfold Solver.learnClause Solver.assertLearnedClause
  cases learnt with
  | nil => exact ⟨true_, rfl⟩
  | cons asserting others =>
    dsimp only
    split
    · exact ⟨true_, rfl⟩
    · rename_i free
      -- At most the asserting literal is new.
      have free_ := Bool.eq_false_iff.mpr free
      split
      · exact force_keeps inv free_ true_
      · split
        · exact force_keeps inv free_ true_
        · exact ⟨true_, rfl⟩

theorem holds_model (inv : s.trail.Inv) {lit : Lit} (true_ : s.trail.litVal lit = 1) :
    lit.Holds s.model := by
  obtain ⟨var, sign⟩ := lit
  unfold Lit.Holds Solver.model
  cases sign with
  | false => exact decide_eq_true true_
  | true =>
    -- The variable's positive literal is false.
    have opposite : s.trail.litVal (Lit.pos var) = -1 := inv.false_iff.mpr true_
    exact decide_eq_false (by rw [opposite]; decide)

theorem Sound.models (sound : Sound formula given s)
    (idle : s.trail.propHead = s.trail.assignments.length)
    (full : (List.range s.numVars).all s.trail.isAssigned = true) : Models s.model given := by
  have inv := sound.ready.trail
  intro clause mem
  rcases sound.covered clause mem with ⟨lit, lies, true_, -⟩ | tautology |
    ⟨id, lits, original, live, long, sub⟩
  · exact ⟨lit, lies, holds_model inv true_⟩
  · exact tautology _
  · rcases sound.ready.complete idle original live long with ⟨lit, lies, true_⟩ |
      ⟨first, lies, -, -, -, open_, -⟩
    · exact ⟨lit, sub lies, holds_model inv true_⟩
    · -- No literal is open.
      have assigned := all_eq_true.mp full first.var
        (mem_range.mpr (sound.ready.attached.below live first lies))
      rw [inv.unassigned_iff.mpr open_] at assigned
      cases assigned

end

namespace Session

section

variable {formula : Cnf} {session next : Session}

/-- What holds of the phase of a session. -/
def Stands (formula : Cnf) (session : Session) : Prop :=
  match session.phase with
  | .idle _ => (session.triviallyUnsat = false → session.solver.trail.currentLevel = 0) ∧
      Correct formula session
  | .placing next => session.triviallyUnsat = false ∧
      session.solver.trail.propHead = session.solver.trail.assignments.length ∧
      (∀ lit ∈ session.assumptions, lit.var < session.solver.numVars) ∧
      Placed session.solver formula (session.assumptions.take next)
  | .searching => session.triviallyUnsat = false ∧
      ∀ lit ∈ session.assumptions, session.solver.trail.litVal lit = 1

/-- What every session keeps to. -/
structure Inv (formula : Cnf) (session : Session) : Prop where
  contradiction : session.triviallyUnsat = true → ¬ Satisfiable formula
  sound : session.triviallyUnsat = false → Sound formula formula session.solver
  stands : Stands formula session

theorem unsat_core {assumptions core : List Lit} (unsat : ¬ Satisfiable formula)
    (sub : core ⊆ assumptions) : core ⊆ assumptions ∧
      ¬ ∃ m, Models m formula ∧ ∀ lit ∈ core, lit.Holds m :=
  ⟨sub, fun ⟨m, models, _⟩ => unsat ⟨m, models⟩⟩

theorem Inv.finish {s : Solver} {answer : Answer} (open_ : session.triviallyUnsat = false)
    (sound : Sound formula formula s) (correct : Correct formula (session.finish s answer)) :
    Inv formula (session.finish s answer) where
  contradiction := fun trivial_ => by
    rw [show (session.finish s answer).triviallyUnsat = session.triviallyUnsat from rfl, open_] at trivial_
    cases trivial_
  sound := fun _ => sound.backtrack 0
  stands := ⟨fun _ => backtrack_ground s, correct⟩

theorem inv_new (numVars : Nat) : Inv [] (Session.new numVars) where
  contradiction := fun absurd_ => nomatch absurd_
  sound := fun _ => sound_new numVars
  stands := ⟨fun _ => rfl, trivial⟩

theorem Inv.addClause (inv : Inv formula session) {lits : Clause}
    (done : session.addClause lits = some next) : Inv (formula ++ [lits]) next := by
  obtain ⟨s, triviallyUnsat, assumptions, phase⟩ := session
  unfold addClause at done
  cases phase with
  | placing | searching => cases done
  | idle answer =>
    cases done
    -- A formula that has no model has none when it is longer.
    have longer : ¬ Satisfiable formula → ¬ Satisfiable (formula ++ [lits]) :=
      fun unsat ⟨m, models⟩ => unsat ⟨m, (models_append.mp models).1⟩
    cases triviallyUnsat with
    | true => exact ⟨fun _ => longer (inv.contradiction rfl), fun same => (nomatch same),
        fun same => (nomatch same), trivial⟩
    | false =>
      obtain ⟨ground, kept, refuted⟩ := (inv.sound rfl).addClause (inv.stands.1 rfl)
        (show s.addClause lits = ((s.addClause lits).1, (s.addClause lits).2) from rfl)
      refine ⟨fun found => refuted ?_, fun found => kept ?_, fun _ => ground, trivial⟩
      · simpa using found
      · simpa using found

theorem Inv.solve (inv : Inv formula session) {assumptions : List Lit}
    (done : session.solve assumptions = some next) : Inv formula next := by
  obtain ⟨s, triviallyUnsat, old, phase⟩ := session
  unfold solve at done
  cases triviallyUnsat with
  | true =>
    cases done
    have unsat := inv.contradiction rfl
    exact ⟨fun _ => unsat, fun same => (nomatch same), fun same => (nomatch same),
      unsat_core unsat (nil_subset _)⟩
  | false =>
    have start := ((inv.sound rfl).ensureVars assumptions).backtrack 0
    have ground : ((s.ensureVars assumptions).backtrack 0).trail.currentLevel = 0 := backtrack_ground _
    obtain ⟨t, progress, sound, ⟨result, idle⟩ | ⟨id, result, falsified⟩⟩ := start.propagate
    · -- Nothing is decided yet, so there is no root.
      simp only [result] at done
      cases done
      have level : t.trail.currentLevel = 0 :=
        (progress.steps.keeps start.ready.trail).1.trans ground
      refine ⟨fun same => (nomatch same), fun _ => sound, rfl, idle, fun lit mem => ?_,
        sound.toPlaced (fun _ mem => (nomatch mem)) fun lit ⟨true_, high, _⟩ => ?_⟩
      · show lit.var < t.numVars
        rw [progress.numVars]
        exact ensureVars_lt mem
      · have bound := @Trail.Inv.level_le _ sound.ready.trail lit (by
          rw [true_]
          decide)
        exact absurd (Nat.le_zero.mp (level ▸ bound)) high
    · -- A conflict at level zero refutes the formula.
      simp only [result] at done
      cases done
      have level : t.trail.currentLevel = 0 :=
        (progress.steps.keeps start.ready.trail).1.trans ground
      refine ⟨fun same => (nomatch same), fun _ => sound, fun _ => level,
        unsat_core ?_ (nil_subset _)⟩
      exact sound.ground_unsat falsified level

theorem Inv.place (inv : Inv formula session) {index : Nat} (phase : session.phase = .placing index)
    (keeps : Keeps session .place) (done : session.place index = some next) : Inv formula next := by
  obtain ⟨s, triviallyUnsat, assumptions, _⟩ := session
  cases phase
  obtain ⟨open_, idle, below, placed⟩ := inv.stands
  dsimp only at open_ idle below placed
  subst open_
  have sound := inv.sound rfl
  unfold place at done
  dsimp only at done
  split at done
  · -- Every assumption was placed.
    rename_i beyond
    cases done
    have all : assumptions.take index = assumptions :=
      take_of_length_le (getElem?_eq_none_iff.mp beyond)
    exact ⟨fun same => (nomatch same), fun _ => sound, rfl, fun lit mem => placed.holds lit
      (all.symm ▸ mem)⟩
  · rename_i lit found
    have mem := mem_of_getElem? found
    have prefix_ : assumptions.take (index + 1) = assumptions.take index ++ [lit] := by
      rw [take_add_one, found]
      rfl
    -- The assumption is in the list, behind the placed ones.
    have split_ : assumptions = assumptions.take index ++ lit :: assumptions.drop (index + 1) := by
      conv_lhs => rw [← take_append_drop (index + 1) assumptions, prefix_]
      simp
    have length : (assumptions.take index).length = index :=
      length_take_of_le (List.getElem?_eq_some_iff.mp found).1.le
    split at done
    · -- It is true already.
      rename_i pos
      cases done
      have true_ : s.trail.litVal lit = 1 := by
        rcases placed.inv.value_cases lit with value | value | value <;> rw [value] at pos ⊢ <;>
          simp at pos
      refine ⟨fun same => (nomatch same), fun _ => sound, rfl, idle, below, ?_⟩
      rw [prefix_]
      refine sound.toPlaced (fun other lies => ?_) fun other root =>
        mem_append_left _ (placed.rooted other root)
      rcases mem_append.mp lies with old | last
      · exact placed.holds other old
      · exact mem_singleton.mp last ▸ true_
    · rename_i notTrue
      split at done
      · -- It is false, and its complement was derived.
        rename_i negative
        cases done
        have false_ : s.trail.litVal lit = -1 := by
          rcases placed.inv.value_cases lit with value | value | value <;> rw [value] at negative ⊢ <;>
            simp at negative
        refine @Inv.finish _ ⟨s, false, assumptions, .placing index⟩ _ _ rfl sound
          ⟨fun other lies => extractAssumptionCore_mem found lies, ?_⟩
        have refuted := @Placed.failed_unsat _ _ _ (assumptions.drop (index + 1)) placed _ false_
          (keeps lit found false_)
        rw [← split_, length] at refuted
        exact refuted
      · rename_i notFalse
        have undefined : s.trail.litVal lit = 0 := by
          rcases placed.inv.value_cases lit with value | value | value
          · rw [value] at notTrue
            exact absurd (by decide) notTrue
          · rw [value] at notFalse
            exact absurd (by decide) notFalse
          · exact value
        have free := placed.inv.unassigned_iff.mpr undefined
        have decided := sound.decide idle (below lit mem) free
        obtain ⟨t, progress, kept, ends⟩ := decided.propagate
        have inv' := decided.ready.trail
        obtain ⟨-, -, -, same⟩ := progress.steps.keeps inv'
        -- After the decision the assumptions up to this one are true, and the only roots.
        have placed' : Placed t formula (assumptions.take index ++ [lit]) := by
          refine kept.toPlaced (fun other lies => ?_) fun other root => ?_
          · have before : (s.decide lit).trail.litVal other = 1 := by
              rcases mem_append.mp lies with old | last
              · have value := placed.holds other old
                exact (decide_value placed.inv free (by rw [value]; decide)).1.trans value
              · rw [mem_singleton.mp last]
                exact decide_true
            exact (same other (by rw [before]; decide)).1.trans before
          · rcases decide_root placed.inv free (progress.steps.root inv' root) with old | new
            · exact mem_append_left _ (placed.rooted other old)
            · exact mem_append_right _ (new ▸ .head _)
        rcases ends with ⟨result, idle'⟩ | ⟨id, result, falsified⟩
        · simp only [result] at done
          cases done
          refine ⟨fun same => (nomatch same), fun _ => kept, rfl, idle', fun other lies => ?_, ?_⟩
          · show other.var < t.numVars
            rw [progress.numVars]
            exact below other lies
          · exact prefix_ ▸ placed'
        · simp only [result] at done
          cases done
          refine @Inv.finish _ ⟨s, false, assumptions, .placing index⟩ _ _ rfl kept
            ⟨fun other lies => analyzeAssumptionConflict_mem lies, ?_⟩
          have refuted := @Placed.conflict_unsat _ _ _ (assumptions.drop (index + 1)) placed' _ falsified
          rw [append_assoc, singleton_append, ← split_] at refuted
          exact refuted

theorem Inv.learn {s : Solver} (open_ : session.triviallyUnsat = false)
    (phase : session.phase = .searching) (sound : Sound formula formula s) {analysis : Analysis}
    (nodup : analysis.learnt.Nodup) (below : ∀ lit ∈ analysis.learnt, lit.var < s.numVars)
    (entails : Entails formula analysis.learnt)
    (holds : ∀ lit ∈ session.assumptions, s.trail.litVal lit = 1)
    (low : ∀ lit ∈ session.assumptions, s.trail.level lit.var ≤ max analysis.level 1 ∧
      (analysis.restart = true → s.trail.level lit.var = 0))
    (done : session.learn s analysis = some next) : Inv formula next := by
  unfold Session.learn at done
  have back := sound.backtrack (max analysis.level 1)
  have learned := back.learn nodup below entails
  split at done
  · rename_i t reduced
    cases done
    obtain ⟨kept, trail, -⟩ := learned.reduce reduced
    -- Up to here every assumption keeps its value and its level.
    have same : ∀ lit ∈ session.assumptions, t.trail.litVal lit = 1 ∧
        t.trail.level lit.var = s.trail.level lit.var := by
      intro lit mem
      obtain ⟨value, level⟩ := backtrack_keeps sound.ready.trail (holds lit mem) (low lit mem).1
      obtain ⟨value', level'⟩ := @learnClause_keeps _ back.ready.trail lit analysis.learnt value
      rw [trail]
      exact ⟨value', level'.trans level⟩
    cases restart : analysis.restart with
    | false =>
      refine ⟨fun found => ?_, fun _ => kept, ?_⟩
      · exact absurd (open_.symm.trans found) (by decide)
      · unfold Stands
        simp only [phase]
        exact ⟨open_, fun lit mem => (same lit mem).1⟩
    | true =>
      refine ⟨fun found => ?_, fun _ => kept.backtrack 0, ?_⟩
      · exact absurd (open_.symm.trans found) (by decide)
      · unfold Stands
        simp only [phase]
        refine ⟨open_, fun lit mem => ?_⟩
        obtain ⟨value, level⟩ := same lit mem
        exact (backtrack_keeps kept.ready.trail value
          (level.trans ((low lit mem).2 restart)).le).1
  · cases done

theorem Inv.search (inv : Inv formula session) (phase : session.phase = .searching) {action : Action}
    (keeps : Keeps session action) (done : session.search action = some next) : Inv formula next := by
  obtain ⟨s, triviallyUnsat, assumptions, _⟩ := session
  cases phase
  obtain ⟨open_, holds⟩ := inv.stands
  dsimp only at open_ holds
  subst open_
  obtain ⟨t, progress, sound, ends⟩ := (inv.sound rfl).propagate
  obtain ⟨-, -, -, same⟩ := progress.steps.keeps (inv.sound rfl).ready.trail
  -- Propagation keeps the assumptions and their records.
  have kept : ∀ lit ∈ assumptions, t.trail.litVal lit = 1 ∧
      t.trail.level lit.var = s.trail.level lit.var := by
    intro lit mem
    obtain ⟨value, record⟩ := same lit (by rw [holds lit mem]; decide)
    exact ⟨value.trans (holds lit mem), congrArg VarInfo.level record⟩
  unfold search at done
  rcases ends with ⟨result, idle⟩ | ⟨id, result, falsified⟩
  · simp only [result] at done
    cases action with
    | solve | place | stop | refute | learn => cases done
    | branch lit =>
      dsimp only at done
      split at done
      · rename_i chosen
        cases done
        refine ⟨fun found => (nomatch found), fun _ => sound.decide idle chosen.1 chosen.2, rfl,
          fun other mem => ?_⟩
        obtain ⟨value, -⟩ := kept other mem
        exact (decide_value sound.ready.trail chosen.2 (by rw [value]; decide)).1.trans value
      · cases done
    | model =>
      dsimp only at done
      split at done
      · rename_i full
        cases done
        exact @Inv.finish _ ⟨s, false, assumptions, .searching⟩ _ _ rfl sound
          ⟨sound.models idle full, fun lit mem => holds_model sound.ready.trail (kept lit mem).1⟩
      · cases done
  · simp only [result] at done
    cases action with
    | solve | place | stop | branch | model => cases done
    | refute =>
      dsimp only at done
      split at done
      · rename_i zero
        cases done
        exact @Inv.finish _ ⟨s, false, assumptions, .searching⟩ _ _ rfl sound (unsat_core
          (ground_conflict sound.ready.trail sound.justified sound.factual sound.entailed falsified zero)
          fun lit lies => analyzeAssumptionConflict_mem lies)
      · cases done
    | learn analysis =>
      dsimp only at done
      split at done
      · rename_i derived
        obtain ⟨nodup, below, entails⟩ := sound.derives falsified derived.2
        split at done
        · -- The empty clause refutes the formula.
          rename_i empty
          cases done
          rw [empty] at entails
          exact @Inv.finish _ ⟨s, false, assumptions, .searching⟩ _ _ rfl sound (unsat_core
            (entails_nil.mp entails) fun lit lies => analyzeAssumptionConflict_mem lies)
        · refine @Inv.learn _ ⟨s, false, assumptions, .searching⟩ _ _ rfl rfl sound analysis nodup below
            entails (fun lit mem => (kept lit mem).1) (fun lit mem => ?_) done
          rw [(kept lit mem).2]
          exact keeps lit mem
      · cases done

theorem Inv.step (inv : Inv formula session) {action : Action} (keeps : Keeps session action)
    (done : session.step action = some next) : Inv formula next := by
  unfold Session.step at done
  split at done
  · exact inv.solve done
  · rename_i index phase
    exact inv.place phase keeps done
  · -- The budget is used up.
    rename_i phase
    cases done
    have stands := inv.stands
    unfold Stands at stands
    simp only [phase] at stands
    exact Inv.finish stands.1 (inv.sound stands.1) trivial
  · rename_i phase _
    exact inv.search phase keeps done
  · cases done

theorem Run.inv (run : Run Keeps formula session) : Inv formula session := by
  induction run with
  | new numVars => exact inv_new numVars
  | add _ done ih => exact ih.addClause done
  | step _ keeps done ih => exact ih.step keeps done

end

section

inductive Call where
  | add (lits : Clause)
  | step (action : Action)

def perform : Cnf × Session → Call → Option (Cnf × Session)
  | (formula, session), .add lits => (session.addClause lits).map fun next => (formula ++ [lits], next)
  | (formula, session), .step action => (session.step action).map fun next => (formula, next)

/-- Whether the answer of a session is wrong, for a core because of some assignment. -/
def refuted (assignment : Assignment) (formula : Cnf) (session : Session) : Bool :=
  match session.phase with
  | .idle (some (.sat model)) => !session.assumptions.all fun lit => Decidable.decide (lit.Holds model)
  | .idle (some (.unsat core)) => Decidable.decide (Models assignment formula) &&
      core.all fun lit => Decidable.decide (lit.Holds assignment)
  | _ => false

end

end Session

end Nixie.Sat.Search
