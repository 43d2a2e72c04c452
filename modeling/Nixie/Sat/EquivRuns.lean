import Nixie.Sat.AddClause

/-! Runs of rounds, new variables, new clauses and search, and what the rounds preserve. -/

namespace Nixie.Sat

open List

def Solver.image (s : Solver) (var : Nat) : Lit := s.equivSubstitution.getD var (Lit.pos var)

def Solver.imageLit (s : Solver) (lit : Lit) : Lit :=
  if lit.isNeg then (s.image lit.var).negate else s.image lit.var

def Solver.extend (s : Solver) (assignment : Assignment) : Assignment :=
  fun var => (s.image var).value assignment

/-- Level zero is consistent, and no clause asks for another fact. -/
structure Propagated (s : Solver) : Prop where
  consistent : ∀ lit ∈ s.trail, lit.negate ∉ s.trail
  quiet : ∀ clause ∈ s.formula, status s.trail clause = .quiet

/-- The states from which a round keeps its promise. -/
structure RoundCondition (s : Solver) : Prop where
  sized : ∀ lit leader : Lit, lit.var < s.numVars → Leader s lit leader → leader ≠ lit →
    s.equivSubstInited = true → s.equivSubstitution.length = s.numVars
  settled : s.config.enableGateCongruence = true → ∀ lit ∈ s.trail, ∀ leader,
    Leader s lit leader → leader ∈ s.trail

/-- What the search may change between two rounds. -/
structure Searched (s t : Solver) : Prop where
  fields : t = { s with
    clauses := t.clauses
    trail := t.trail
    triviallyUnsat := t.triviallyUnsat }
  same : t.triviallyUnsat = false → ∀ assignment, t.Holds assignment ↔ s.Holds assignment
  conflict : t.triviallyUnsat = true → ¬ s.Satisfiable
  recorded : s.triviallyUnsat = true → t.triviallyUnsat = true
  facts : ∀ lit ∈ s.trail, lit ∈ t.trail
  derived : ∀ lit ∈ t.trail, lit ∈ s.trail ∨
    ∃ clause ∈ s.formula, ∃ other ∈ clause, lit.var = other.var
  learned : ∀ clause ∈ t.formula, ∀ lit ∈ clause,
    ∃ old ∈ s.formula, ∃ other ∈ old, lit.var = other.var

/-- States of a solver after some calls, with the clauses that were added, as they were given. -/
inductive Run (allowed : Solver → Prop) (config : Config) : Cnf → Solver → Prop where
  | new : Run allowed config [] (Solver.new config)
  | newVar {original : Cnf} {s : Solver} (before : Run allowed config original s) :
      Run allowed config original (newVar s)
  | freeze {original : Cnf} {s : Solver} (before : Run allowed config original s)
      (vars : List Nat) :
      Run allowed config original { s with frozenVars := vars ++ s.frozenVars }
  | addClause {original : Cnf} {s : Solver} (before : Run allowed config original s)
      (lits : Clause) : Run allowed config (original ++ [lits]) (addClause s lits).1
  | search {original : Cnf} {s t : Solver} (before : Run allowed config original s)
      (searched : Searched s t) : Run allowed config original t
  /-- A substitution round runs on a propagated state. -/
  | round {original : Cnf} {s : Solver} (before : Run allowed config original s)
      (propagated : Propagated s) (permitted : allowed s) :
      Run allowed config original (substituteEquivalentLiteralsRound s).1

/-- The promise of a round that leads from one state to the next. -/
structure RoundCorrect (original : Cnf) (s t : Solver) : Prop where
  equisatisfiable : t.Satisfiable ↔ s.Satisfiable
  extends_ : t.triviallyUnsat = false → ∀ assignment, t.Holds assignment →
    s.Holds (t.extend assignment)
  original_satisfiable : t.Satisfiable ↔ Satisfiable original
  original_extends : t.triviallyUnsat = false → ∀ assignment, t.Holds assignment →
    Models (t.extend assignment) original

/-- What the table, the clauses and the facts of a run share. -/
structure TableInv (s : Solver) : Prop where
  bounded : s.Bounded
  fresh : s.equivSubstInited = false → s.equivSubstitution = []
  short : s.equivSubstitution.length ≤ s.numVars
  range : ∀ var < s.numVars, (s.image var).var < s.numVars
  root : ∀ var, s.image (s.image var).var = Lit.pos (s.image var).var
  live : ∀ clause ∈ s.formula, ∀ lit ∈ clause, s.image lit.var = Lit.pos lit.var
  facts : ∀ lit ∈ s.trail, s.imageLit lit ∈ s.trail

/-- How the clauses that were added and a state without conflict fit together. -/
structure Tracks (original : Cnf) (s : Solver) : Prop where
  table : TableInv s
  complete : ∀ assignment, s.Holds assignment → Models (s.extend assignment) original
  sound : ∀ assignment, Models assignment original →
    s.Holds assignment ∧ s.extend assignment = assignment

section

variable {s : Solver} {assignment : Assignment}

@[simp] theorem imageLit_pos (var : Nat) : s.imageLit (Lit.pos var) = s.image var := rfl

@[simp] theorem imageLit_negate (lit : Lit) : s.imageLit lit.negate = (s.imageLit lit).negate := by
  unfold Solver.imageLit
  cases sign : lit.isNeg <;> simp [sign]

theorem value_extend (lit : Lit) :
    lit.value (s.extend assignment) = (s.imageLit lit).value assignment := by
  obtain ⟨var, sign⟩ := lit
  cases sign
  · show (Lit.pos var).value (s.extend assignment) = _
    rw [Lit.value_pos]
    rfl
  · show (Lit.pos var).negate.value (s.extend assignment) =
      (s.imageLit (Lit.pos var).negate).value assignment
    rw [Lit.value_negate, Lit.value_pos, imageLit_negate, Lit.value_negate]
    rfl

theorem imageLit_root {lit : Lit} (root : s.image lit.var = Lit.pos lit.var) :
    s.imageLit lit = lit := by
  unfold Solver.imageLit
  obtain ⟨var, sign⟩ := lit
  cases sign <;> simp_all [Lit.pos, Lit.negate]

theorem imageLit_var (lit : Lit) : (s.imageLit lit).var = (s.image lit.var).var := by
  unfold Solver.imageLit
  split <;> simp

theorem resolve_eq_imageLit (root : ∀ var, s.image (s.image var).var = Lit.pos (s.image var).var)
    (lit : Lit) : resolveReintroducedLiteral s lit = s.imageLit lit := by
  have fixed := root lit.var
  unfold resolveReintroducedLiteral
  have image : s.image lit.var = (s.equivSubstitution[lit.var]?).getD (Lit.pos lit.var) := by
    rw [Solver.image, getD_eq_getElem?_getD]
  cases entry : s.equivSubstitution[lit.var]? with
  | none =>
    rw [entry, Option.getD_none] at image
    rw [imageLit_root image]
  | some rep =>
    rw [entry, Option.getD_some] at image
    dsimp only
    split
    · unfold Solver.imageLit
      rw [image]
    · -- A variable that keeps its index is its own positive representative.
      rename_i same
      have same : rep.var = lit.var := by simpa using same
      rw [image, same] at fixed
      rw [imageLit_root (image.trans (image.symm.trans fixed))]

end

section

variable {s : Solver}

theorem quiet_binary {trail : List Lit} (consistent : ∀ lit ∈ trail, lit.negate ∉ trail)
    {false_ other : Lit} (fact : false_.negate ∈ trail) {clause : Clause}
    (binary : clause = [false_, other] ∨ clause = [other, false_])
    (quiet : status trail clause = .quiet) : other ∈ trail := by
  by_contra absent
  have unassigned : false_ ∉ trail := fun mem => consistent _ mem fact
  have value : litValue trail false_ = some false := by simp [litValue, unassigned, fact]
  -- The other literal is open or false, so the clause is a unit clause or falsified.
  have other_value : litValue trail other = none ∨ litValue trail other = some false := by
    unfold litValue
    rw [if_neg absent]
    split
    · exact .inr rfl
    · exact .inl rfl
  unfold status at quiet
  rcases binary with rfl | rfl <;> rcases other_value with open_ | false_value
  · simp [value, open_] at quiet
  · simp [value, false_value] at quiet
  · simp [value, open_] at quiet
  · simp [value, false_value] at quiet

theorem classmate_fact (propagated : Propagated s) (plain : s.config.enableGateCongruence = false)
    {lit other : Lit} (fact : lit ∈ s.trail) (mate : Classmates s lit other) :
    other ∈ s.trail := by
  have path : ∀ {first last : Nat}, Leads s first last → Lit.fromCode first ∈ s.trail →
      Lit.fromCode last ∈ s.trail := by
    intro first last leads start
    induction leads with
    | refl => exact start
    | tail _ next ih =>
      -- The edge is a binary clause whose first literal is false.
      have edge := mem_successors.mp next
      simp only [implicationEdges, plain, Bool.false_eq_true, if_false, append_nil] at edge
      obtain ⟨clause, mem, found⟩ := mem_flatMap.mp edge
      have quiet := propagated.quiet clause mem
      match clause, found, quiet with
      | [left, right], found, quiet =>
        simp only [mem_cons, Prod.mk.injEq, not_mem_nil, or_false] at found
        rcases found with ⟨first_, second_⟩ | ⟨first_, second_⟩
        · rw [second_]
          exact quiet_binary propagated.consistent (first_ ▸ ih) (.inl rfl) quiet
        · rw [second_]
          exact quiet_binary propagated.consistent (first_ ▸ ih) (.inr rfl) quiet
  have reached := path mate.1 (by rwa [Lit.fromCode_code])
  rwa [Lit.fromCode_code] at reached

theorem substitution_fact (bounded : VarsBelow s.numVars s.formula) (propagated : Propagated s)
    (condition : RoundCondition s) {lit : Lit} (fact : lit ∈ s.trail) :
    substitution s lit.code ∈ s.trail := by
  rcases substitution_cases bounded lit with ⟨-, led⟩ | ⟨same, -⟩
  · cases gates : s.config.enableGateCongruence with
    | true => exact condition.settled gates lit fact _ led
    | false => exact classmate_fact propagated gates fact led.classmate
  · rwa [same]

end

namespace RoundEffect

variable {s t : Solver} {assignment : Assignment}

theorem sized (effect : RoundEffect s t) (inv : TableInv s) (condition : RoundCondition s)
    (inited : s.equivSubstInited = true) : s.equivSubstitution.length = s.numVars := by
  obtain ⟨code, lies, differs⟩ := any_eq_true.mp effect.moves
  have small : (Lit.fromCode code).var < s.numVars := code_lt.mp (by simpa using lies)
  rcases substitution_cases inv.bounded.formula (Lit.fromCode code) with ⟨-, led⟩ | ⟨same, -⟩
  · refine condition.sized _ _ small led (fun same => ?_) inited
    rw [Lit.code_fromCode] at same
    simp [same] at differs
  · rw [Lit.code_fromCode] at same
    simp [same] at differs

theorem table_eq (effect : RoundEffect s t) (inv : TableInv s) (condition : RoundCondition s) :
    t.equivSubstitution =
      (List.range s.numVars).map fun var => substitution s (s.image var).code := by
  rw [congrArg Solver.equivSubstitution effect.fields]
  unfold composeTable
  dsimp only
  cases inited : s.equivSubstInited with
  | false =>
    -- Without a table every variable is its own representative.
    have empty := inv.fresh inited
    simp [Solver.image, empty]
  | true =>
    have length := effect.sized inv condition inited
    have whole : resize s.equivSubstitution s.numVars (Lit.pos 0) = s.equivSubstitution := by
      simp [resize, ← length]
    simp only [if_true, whole]
    refine ext_getElem (by simp [length]) fun var first second => ?_
    simp only [length_map] at first
    simp [Solver.image, getD_eq_getElem?_getD, first]

theorem image_eq (effect : RoundEffect s t) (inv : TableInv s) (condition : RoundCondition s)
    (var : Nat) : t.image var = substitution s (s.image var).code := by
  unfold Solver.image
  rw [effect.table_eq inv condition, getD_eq_getElem?_getD]
  by_cases lies : var < s.numVars
  · simp [lies, Solver.image]
  · -- Variables out of range have no entry before or after.
    have missing : s.equivSubstitution.getD var (Lit.pos var) = Lit.pos var := by
      rw [getD_eq_getElem?_getD, getElem?_eq_none (by have := inv.short; omega), Option.getD_none]
    rw [missing, @substitution_outside s inv.bounded.formula (Lit.pos var) lies]
    simp [Nat.le_of_not_lt lies]

theorem imageLit_eq (effect : RoundEffect s t) (inv : TableInv s) (condition : RoundCondition s)
    (lit : Lit) : t.imageLit lit = substitution s (s.imageLit lit).code := by
  unfold Solver.imageLit
  rw [effect.image_eq inv condition]
  split
  · rw [substitution_negate inv.bounded.formula effect.consistent]
  · rfl

theorem satisfies_extend (effect : RoundEffect s t) (inv : TableInv s)
    (condition : RoundCondition s) {clause : Clause} (mem : clause ∈ s.formula) :
    Satisfies (t.extend assignment) clause ↔
      Satisfies assignment (mapClause (substitution s) clause) := by
  have value : ∀ lit ∈ clause, (lit.Holds (t.extend assignment) ↔
      (substitution s lit.code).Holds assignment) := by
    intro lit lies
    rw [Lit.holds_iff_value, value_extend, effect.imageLit_eq inv condition,
      imageLit_root (inv.live clause mem lit lies), ← Lit.holds_iff_value]
  unfold Satisfies mapClause
  simp only [mem_map, exists_exists_and_eq_and]
  exact exists_congr fun lit => and_congr_right fun lies => value lit lies

theorem holds_extend (effect : RoundEffect s t) (inv : TableInv s) (propagated : Propagated s)
    (condition : RoundCondition s) (holds : t.Holds assignment) :
    s.Holds (t.extend assignment) := by
  obtain ⟨facts, mapped⟩ := (effect.holds assignment).mp holds
  refine ⟨fun clause mem => ?_, fun lit fact => ?_⟩
  · exact (effect.satisfies_extend inv condition mem).mpr (mapped clause mem)
  · -- The representative of the recorded representative of a fact is a fact.
    rw [Lit.holds_iff_value, value_extend, effect.imageLit_eq inv condition, ← Lit.holds_iff_value]
    exact facts _ (substitution_fact inv.bounded.formula propagated condition (inv.facts lit fact))

theorem holds_of_old (effect : RoundEffect s t) (inv : TableInv s) (holds : s.Holds assignment) :
    t.Holds assignment :=
  (effect.holds assignment).mpr ⟨holds.2, mapped_holds inv.bounded.formula holds⟩

theorem extend_extend (effect : RoundEffect s t) (inv : TableInv s)
    (condition : RoundCondition s) : s.extend (t.extend assignment) = t.extend assignment := by
  funext var
  show (s.image var).value (t.extend assignment) = (t.image var).value assignment
  rw [value_extend, effect.imageLit_eq inv condition, imageLit_root (inv.root var),
    effect.image_eq inv condition]

theorem extend_eq (effect : RoundEffect s t) (inv : TableInv s) (condition : RoundCondition s)
    (holds : s.Holds assignment) (agrees : s.extend assignment = assignment) :
    t.extend assignment = assignment := by
  funext var
  show (t.image var).value assignment = assignment var
  rw [effect.image_eq inv condition, substitution_value inv.bounded.formula holds.1]
  exact congrFun agrees var

theorem mapped_root (effect : RoundEffect s t) (inv : TableInv s) (condition : RoundCondition s)
    {clause : Clause} (mem : clause ∈ s.formula) {lit : Lit}
    (mapped : lit ∈ mapClause (substitution s) clause) : t.image lit.var = Lit.pos lit.var := by
  obtain ⟨old, lies, rfl⟩ := mem_map.mp mapped
  -- The representative occurs in the clauses, so the old table keeps it.
  have kept : s.image (substitution s old.code).var = Lit.pos (substitution s old.code).var := by
    rcases (substitution_classmate inv.bounded.formula old).occurs
      (P := fun var => s.image var = Lit.pos var) inv.live with same | root
    · rw [← same]
      exact inv.live clause mem old lies
    · exact root
  rw [effect.image_eq inv condition, kept]
  exact substitution_root inv.bounded.formula effect.consistent rfl

theorem tableInv (effect : RoundEffect s t) (inv : TableInv s) (propagated : Propagated s)
    (condition : RoundCondition s) : TableInv t := by
  have number : t.numVars = s.numVars := by
    have same := congrArg Solver.numVars effect.fields
    exact same
  have image := effect.image_eq inv condition
  have below : ∀ {clause lit}, clause ∈ s.formula → lit ∈ mapClause (substitution s) clause →
      lit.var < t.numVars := by
    intro clause lit mem mapped
    obtain ⟨old, lies, rfl⟩ := mem_map.mp mapped
    rw [number]
    exact substitution_var inv.bounded.formula (inv.bounded.formula clause mem old lies)
  refine ⟨⟨fun clause mem lit lies => ?_, fun lit mem => ?_⟩, fun fresh => ?_, ?_,
    fun var lies => ?_, fun var => ?_, fun clause mem lit lies => ?_, fun lit mem => ?_⟩
  · obtain ⟨old, before, mapped⟩ := effect.rewritten clause mem lit lies
    exact below before mapped
  · rcases effect.derived lit mem with old | ⟨clause, before, mapped⟩
    · rw [number]
      exact inv.bounded.trail lit old
    · exact below before mapped
  · rw [congrArg Solver.equivSubstInited effect.fields] at fresh
    cases fresh
  · rw [effect.table_eq inv condition, number]
    simp
  · rw [image, number]
    exact substitution_var inv.bounded.formula (inv.range var (number ▸ lies))
  · -- The new representative occurs in the clauses or is the old one.
    rw [image, image]
    have kept : s.image (substitution s (s.image var).code).var =
        Lit.pos (substitution s (s.image var).code).var := by
      rcases (substitution_classmate inv.bounded.formula (s.image var)).occurs
        (P := fun var => s.image var = Lit.pos var) inv.live with same | root
      · rw [← same]
        exact inv.root var
      · exact root
    rw [kept]
    exact substitution_root inv.bounded.formula effect.consistent rfl
  · obtain ⟨old, before, mapped⟩ := effect.rewritten clause mem lit lies
    exact effect.mapped_root inv condition before mapped
  · rcases effect.derived lit mem with old | ⟨clause, before, mapped⟩
    · rw [effect.imageLit_eq inv condition]
      exact effect.facts _
        (substitution_fact inv.bounded.formula propagated condition (inv.facts lit old))
    · rw [imageLit_root (effect.mapped_root inv condition before mapped)]
      exact mem

end RoundEffect

section

variable {s t : Solver}

theorem TableInv.image_outside (inv : TableInv s) {var : Nat} (outside : s.numVars ≤ var) :
    s.image var = Lit.pos var := by
  rw [Solver.image, getD_eq_getElem?_getD,
    getElem?_eq_none (inv.short.trans outside), Option.getD_none]

theorem tableInv_new (config : Config) : TableInv (Solver.new config) where
  bounded := ⟨fun _ mem => (nomatch mem), fun _ mem => (nomatch mem)⟩
  fresh := fun _ => rfl
  short := le_rfl
  range := fun _ lies => absurd lies (Nat.not_lt_zero _)
  root := fun _ => rfl
  live := fun _ mem => (nomatch mem)
  facts := fun _ mem => (nomatch mem)

theorem TableInv.transfer (inv : TableInv s) (table : t.equivSubstitution = s.equivSubstitution)
    (inited : t.equivSubstInited = s.equivSubstInited) (grows : s.numVars ≤ t.numVars)
    (clauses : ∀ clause ∈ t.formula, ∀ lit ∈ clause,
      lit.var < t.numVars ∧ s.image lit.var = Lit.pos lit.var)
    (derived : ∀ lit ∈ t.trail, lit ∈ s.trail ∨
      lit.var < t.numVars ∧ s.image lit.var = Lit.pos lit.var)
    (facts : ∀ lit ∈ s.trail, lit ∈ t.trail) : TableInv t := by
  have image : ∀ var, t.image var = s.image var := fun var => by simp only [Solver.image, table]
  have imageLit : ∀ lit, t.imageLit lit = s.imageLit lit := fun lit => by
    simp only [Solver.imageLit, image]
  refine ⟨⟨fun clause mem lit lies => (clauses clause mem lit lies).1,
    fun lit mem => ?_⟩, fun fresh => ?_, ?_, fun var lies => ?_, fun var => ?_,
    fun clause mem lit lies => ?_, fun lit mem => ?_⟩
  · rcases derived lit mem with old | new
    · exact (inv.bounded.trail lit old).trans_le grows
    · exact new.1
  · rw [table]
    exact inv.fresh (inited ▸ fresh)
  · rw [table]
    exact inv.short.trans grows
  · rw [image]
    by_cases old : var < s.numVars
    · exact (inv.range var old).trans_le grows
    · rw [inv.image_outside (Nat.le_of_not_lt old)]
      exact lies
  · rw [image, image]
    exact inv.root var
  · rw [image]
    exact (clauses clause mem lit lies).2
  · rw [imageLit]
    rcases derived lit mem with old | new
    · exact facts _ (inv.facts lit old)
    · rw [imageLit_root new.2]
      exact mem

theorem Added.tableInv {resolved : Clause} (added : Added s resolved t) (inv : TableInv s)
    (rooted : ∀ lit ∈ resolved, s.image lit.var = Lit.pos lit.var) : TableInv t := by
  refine inv.transfer (congrArg Solver.equivSubstitution added.fields :)
    (congrArg Solver.equivSubstInited added.fields :) added.grows
    (fun clause mem lit lies => ?_) (fun lit mem => ?_) added.facts
  · rcases added.stored clause mem with old | new
    · exact ⟨(inv.bounded.formula clause old lit lies).trans_le added.grows,
        inv.live clause old lit lies⟩
    · exact ⟨added.inside lit (new lit lies), rooted lit (new lit lies)⟩
  · exact (added.derived lit mem).imp_right fun new => ⟨added.inside lit new, rooted lit new⟩

theorem Searched.tableInv (searched : Searched s t) (inv : TableInv s) : TableInv t := by
  have number : t.numVars = s.numVars := (congrArg Solver.numVars searched.fields :)
  -- Variables of the clauses represent themselves.
  have old {lit : Lit} (about : ∃ clause ∈ s.formula, ∃ other ∈ clause, lit.var = other.var) :
      lit.var < t.numVars ∧ s.image lit.var = Lit.pos lit.var := by
    obtain ⟨clause, before, other, occurs, same⟩ := about
    rw [number, same]
    exact ⟨inv.bounded.formula clause before other occurs, inv.live clause before other occurs⟩
  exact inv.transfer (congrArg Solver.equivSubstitution searched.fields :)
    (congrArg Solver.equivSubstInited searched.fields :) number.ge
    (fun clause mem lit lies => old (searched.learned clause mem lit lies))
    (fun lit mem => (searched.derived lit mem).imp_right old) searched.facts

theorem TableInv.holds_extend (inv : TableInv s) {assignment : Assignment}
    (holds : s.Holds assignment) : s.Holds (s.extend assignment) := by
  refine ⟨fun clause mem => ?_, fun lit fact => ?_⟩
  · -- The variables of the clauses keep their values.
    refine (satisfies_congr fun lit lies => ?_).mp (holds.1 clause mem)
    unfold Solver.extend
    rw [inv.live clause mem lit lies, Lit.value_pos]
  · rw [Lit.holds_iff_value, value_extend, ← Lit.holds_iff_value]
    exact holds.2 _ (inv.facts lit fact)

theorem extend_congr (table : t.equivSubstitution = s.equivSubstitution) : t.extend = s.extend := by
  unfold Solver.extend Solver.image
  rw [table]

end

theorem round_recorded {s : Solver} (recorded : s.triviallyUnsat = true) :
    (substituteEquivalentLiteralsRound s).1.triviallyUnsat = true := by
  have finish : ∀ (t : Solver) (units : List Lit), t.triviallyUnsat = true →
      (finishRound t units).1.triviallyUnsat = true := by
    intro t units recorded
    unfold finishRound
    split
    · rfl
    · split
      · rfl
      · rename_i done
        rw [(propagate_fields done).2.1]
        exact recorded
  unfold substituteEquivalentLiteralsRound
  dsimp only
  split
  · exact recorded
  split
  · rfl
  split
  · exact recorded
  split
  · exact finish _ _ recorded
  · rfl

/-- A state of a run has recorded a conflict of the added clauses, or fits them. -/
def Accounts (original : Cnf) (s : Solver) : Prop :=
  (s.triviallyUnsat = true ∧ ¬ Satisfiable original) ∨
    (s.triviallyUnsat = false ∧ Tracks original s)

namespace Accounts

variable {original : Cnf} {s t : Solver}

theorem satisfiable_iff (accounts : Accounts original s) :
    s.Satisfiable ↔ Satisfiable original := by
  rcases accounts with ⟨conflict, unsat⟩ | ⟨alive, tracks⟩
  · constructor
    · intro ⟨alive, _⟩
      rw [conflict] at alive
      cases alive
    · exact fun sat => absurd sat unsat
  · constructor
    · intro ⟨_, assignment, holds⟩
      exact ⟨_, tracks.complete assignment holds⟩
    · intro ⟨assignment, models⟩
      exact ⟨alive, assignment, (tracks.sound assignment models).1⟩

theorem new (config : Config) : Accounts [] (Solver.new config) := by
  refine .inr ⟨rfl, tableInv_new config, fun _ _ => models_nil, fun assignment _ => ⟨?_, ?_⟩⟩
  · exact ⟨models_nil, fun _ mem => nomatch mem⟩
  · funext var
    exact Lit.value_pos

theorem newVar (accounts : Accounts original s) : Accounts original (newVar s) := by
  refine accounts.imp id fun ⟨alive, tracks⟩ => ⟨alive, ?_, tracks.complete, tracks.sound⟩
  have added : Added s [] (Sat.newVar s) := (widened_newVar s).added fun _ mem => nomatch mem
  exact added.tableInv tracks.table fun _ mem => nomatch mem

theorem freeze (accounts : Accounts original s) (vars : List Nat) :
    Accounts original { s with frozenVars := vars ++ s.frozenVars } := by
  refine accounts.imp id fun ⟨alive, tracks⟩ => ⟨alive, ?_, tracks.complete, tracks.sound⟩
  have inv := tracks.table
  exact ⟨{ inv.bounded with }, inv.fresh, inv.short, inv.range, inv.root,
    inv.live, inv.facts⟩

theorem search (accounts : Accounts original s) (searched : Searched s t) :
    Accounts original t := by
  have sat := accounts.satisfiable_iff
  cases conflict : t.triviallyUnsat with
  | true => exact .inl ⟨conflict, fun original_ => searched.conflict conflict (sat.mpr original_)⟩
  | false =>
    rcases accounts with ⟨recorded, -⟩ | ⟨-, tracks⟩
    · rw [searched.recorded recorded] at conflict
      cases conflict
    · have table : t.equivSubstitution = s.equivSubstitution := by
        have same := congrArg Solver.equivSubstitution searched.fields
        exact same
      have same := searched.same conflict
      refine .inr ⟨conflict, searched.tableInv tracks.table, ?_, ?_⟩
      · intro assignment holds
        rw [extend_congr table]
        exact tracks.complete assignment ((same assignment).mp holds)
      · intro assignment models
        obtain ⟨holds, agrees⟩ := tracks.sound assignment models
        rw [extend_congr table]
        exact ⟨(same assignment).mpr holds, agrees⟩

theorem satisfies_resolved (inv : TableInv s) {assignment : Assignment} {lits : Clause} :
    Satisfies assignment (lits.map (resolveReintroducedLiteral s)) ↔
      Satisfies (s.extend assignment) lits := by
  unfold Satisfies
  simp only [mem_map, exists_exists_and_eq_and]
  refine exists_congr fun lit => and_congr_right fun _ => ?_
  rw [Lit.holds_iff_value, Lit.holds_iff_value, value_extend, resolve_eq_imageLit inv.root]

theorem addClause (accounts : Accounts original s) (lits : Clause) :
    Accounts (original ++ [lits]) (addClause s lits).1 := by
  have added := addClause_added s lits
  rcases accounts with ⟨recorded, unsat⟩ | ⟨alive, tracks⟩
  · refine .inl ⟨added.recorded recorded, fun ⟨assignment, models⟩ => unsat ⟨assignment, ?_⟩⟩
    exact (models_append.mp models).1
  · have holds := fun assignment => @addClause_holds assignment s alive lits
    have resolved := fun assignment =>
      @satisfies_resolved s tracks.table assignment lits
    have table : (Sat.addClause s lits).1.equivSubstitution = s.equivSubstitution := by
      have same := congrArg Solver.equivSubstitution added.fields
      exact same
    -- A model of all added clauses is a model of the state after the call.
    have models_of : ∀ assignment, Models assignment (original ++ [lits]) →
        ((Sat.addClause s lits).1.triviallyUnsat = false ∧
          (Sat.addClause s lits).1.Holds assignment) ∧ s.extend assignment = assignment := by
      intro assignment models
      obtain ⟨old, new⟩ := models_append.mp models
      obtain ⟨before, agrees⟩ := tracks.sound assignment old
      refine ⟨(holds assignment).mpr ⟨before, (resolved assignment).mpr ?_⟩, agrees⟩
      rw [agrees]
      exact (models_cons.mp new).1
    cases conflict : (Sat.addClause s lits).1.triviallyUnsat with
    | true =>
      refine .inl ⟨conflict, fun ⟨assignment, models⟩ => ?_⟩
      have clash := (models_of assignment models).1.1
      rw [conflict] at clash
      cases clash
    | false =>
      refine .inr ⟨conflict, added.tableInv tracks.table ?_, fun assignment models => ?_, ?_⟩
      · intro lit mem
        obtain ⟨source, -, rfl⟩ := mem_map.mp mem
        rw [resolve_eq_imageLit tracks.table.root, imageLit_var]
        exact tracks.table.root source.var
      · obtain ⟨before, satisfied⟩ := (holds assignment).mp ⟨conflict, models⟩
        rw [extend_congr table]
        exact models_append.mpr ⟨tracks.complete assignment before,
          models_cons.mpr ⟨(resolved assignment).mp satisfied, models_nil⟩⟩
      · intro assignment models
        obtain ⟨after, agrees⟩ := models_of assignment models
        rw [extend_congr table]
        exact ⟨after.2, agrees⟩

theorem rewritten (tracks : Tracks original s) (effect : RoundEffect s t)
    (propagated : Propagated s) (condition : RoundCondition s) : Tracks original t where
  table := effect.tableInv tracks.table propagated condition
  complete := by
    intro assignment holds
    have before := effect.holds_extend tracks.table propagated condition holds
    have models := tracks.complete _ before
    rwa [effect.extend_extend tracks.table condition] at models
  sound := by
    intro assignment models
    obtain ⟨before, agrees⟩ := tracks.sound assignment models
    exact ⟨effect.holds_of_old tracks.table before,
      effect.extend_eq tracks.table condition before agrees⟩

theorem round (accounts : Accounts original s) (propagated : Propagated s)
    (condition : RoundCondition s) :
    Accounts original (substituteEquivalentLiteralsRound s).1 := by
  rcases accounts with ⟨recorded, unsat⟩ | ⟨alive, tracks⟩
  · exact .inl ⟨round_recorded recorded, unsat⟩
  · rcases round_cases tracks.table.bounded.formula alive with same | ⟨conflict, none_⟩ |
      ⟨survives, effect⟩
    · rw [same]
      exact .inr ⟨alive, tracks⟩
    · exact .inl ⟨conflict, fun ⟨assignment, models⟩ =>
        none_ assignment (tracks.sound assignment models).1⟩
    · exact .inr ⟨survives, rewritten tracks effect propagated condition⟩

theorem round_correct (accounts : Accounts original s) (propagated : Propagated s)
    (condition : RoundCondition s) :
    RoundCorrect original s (substituteEquivalentLiteralsRound s).1 := by
  have after := accounts.round propagated condition
  refine ⟨after.satisfiable_iff.trans accounts.satisfiable_iff.symm,
    fun survives assignment holds => ?_, after.satisfiable_iff,
    fun survives assignment holds => ?_⟩
  · rcases accounts with ⟨recorded, -⟩ | ⟨alive, tracks⟩
    · rw [round_recorded recorded] at survives
      cases survives
    · rcases round_cases tracks.table.bounded.formula alive with same | ⟨conflict, -⟩ | ⟨-, effect⟩
      · rw [same] at holds ⊢
        exact tracks.table.holds_extend holds
      · rw [conflict] at survives
        cases survives
      · exact effect.holds_extend tracks.table propagated condition holds
  · rcases after with ⟨conflict, -⟩ | ⟨-, tracks⟩
    · rw [conflict] at survives
      cases survives
    · exact tracks.complete assignment holds

end Accounts

theorem Run.accounts {config : Config} {original : Cnf} {s : Solver}
    (run : Run RoundCondition config original s) : Accounts original s := by
  -- Each call keeps the state in step with the clauses added so far.
  induction run with
  | new => exact .new config
  | newVar _ ih => exact ih.newVar
  | freeze _ vars ih => exact ih.freeze vars
  | addClause _ lits ih => exact ih.addClause lits
  | search _ searched ih => exact ih.search searched
  | round _ propagated permitted ih => exact ih.round propagated permitted

/-- In every run whose rounds meet their condition, every further such round keeps its promise. -/
theorem Run.rounds_faithful {config : Config} {original : Cnf} {s : Solver}
    (run : Run RoundCondition config original s) (propagated : Propagated s)
    (condition : RoundCondition s) :
    RoundCorrect original s (substituteEquivalentLiteralsRound s).1 :=
  run.accounts.round_correct propagated condition

section

def plainConfig : Config := { enableGateCongruence := false }

def firstClauses : Cnf := [[.neg 0, .pos 1], [.pos 0, .neg 1]]

/-- Two more equivalent variables, and the first pair excludes the second. -/
def secondClauses : Cnf := [[.neg 2, .pos 3], [.pos 2, .neg 3], [.neg 0, .neg 2]]

def addClauses (s : Solver) (clauses : Cnf) : Solver :=
  clauses.foldl (fun s lits => (addClause s lits).1) s

theorem Run.addClauses {allowed : Solver → Prop} {config : Config} (clauses : Cnf) :
    ∀ {original : Cnf} {s : Solver}, Run allowed config original s →
      Run allowed config (original ++ clauses) (Sat.addClauses s clauses) := by
  induction clauses with
  | nil =>
    intro original s run
    rwa [append_nil]
  | cons lits rest ih =>
    intro original s run
    have step := ih (run.addClause lits)
    rwa [append_assoc] at step

/-- The state after a round over the first clauses. -/
def foldedOnce : Solver :=
  (substituteEquivalentLiteralsRound (addClauses (Solver.new plainConfig) firstClauses)).1

def grown : Solver := addClauses foldedOnce secondClauses

def firstPairTrue : Assignment := fun var => var = 0

instance (s : Solver) : Decidable (Propagated s) :=
  decidable_of_iff
    ((∀ lit ∈ s.trail, lit.negate ∉ s.trail) ∧ ∀ clause ∈ s.formula, status s.trail clause = .quiet)
    ⟨fun ⟨consistent, quiet⟩ => ⟨consistent, quiet⟩, fun p => ⟨p.consistent, p.quiet⟩⟩

instance (assignment : Assignment) (s : Solver) : Decidable (s.Holds assignment) :=
  inferInstanceAs (Decidable (_ ∧ _))

/-- The second round ties the new variables to the first one, and loses a clause. -/
theorem padding_breaks_round : ¬ ∀ (original : Cnf) (s : Solver),
    Run (fun _ => True) plainConfig original s → Propagated s →
      RoundCorrect original s (substituteEquivalentLiteralsRound s).1 := by
  intro promise
  have first : Run (fun _ => True) plainConfig firstClauses
      (addClauses (Solver.new plainConfig) firstClauses) := Run.new.addClauses firstClauses
  have second : Run (fun _ => True) plainConfig (firstClauses ++ secondClauses) grown :=
    (first.round (by decide +kernel) trivial).addClauses secondClauses
  have broken := (promise _ _ second (by decide +kernel)).extends_ (by decide +kernel)
    firstPairTrue (by decide +kernel)
  exact absurd broken (by decide +kernel)

/-- A solver with the variables of both clause lists and the first clauses. -/
def prepared : Solver := addClauses (newVar^[4] (Solver.new plainConfig)) firstClauses

/-- A second round over variables that existed at the first one keeps its promise. -/
theorem preparedRounds_faithful : RoundCorrect (firstClauses ++ secondClauses)
      (addClauses (substituteEquivalentLiteralsRound prepared).1 secondClauses)
      (substituteEquivalentLiteralsRound
        (addClauses (substituteEquivalentLiteralsRound prepared).1 secondClauses)).1 := by
  have plain : ∀ {s : Solver}, s.config = plainConfig →
      s.config.enableGateCongruence = true → False := by
    intro s config enabled
    rw [config] at enabled
    cases enabled
  have first : Run RoundCondition plainConfig firstClauses prepared :=
    (Run.new.newVar.newVar.newVar.newVar).addClauses firstClauses
  have folded := first.round (by decide +kernel)
    ⟨fun _ _ _ _ _ inited => absurd inited (by decide +kernel),
      fun enabled => (plain (by decide +kernel) enabled).elim⟩
  exact (folded.addClauses secondClauses).rounds_faithful (by decide +kernel)
    ⟨fun _ _ _ _ _ _ => by decide +kernel,
      fun enabled => (plain (by decide +kernel) enabled).elim⟩

end

end Nixie.Sat
