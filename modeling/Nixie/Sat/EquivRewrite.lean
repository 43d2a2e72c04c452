import Mathlib.Data.List.Dedup
import Nixie.Sat.EquivClasses

/-! The rewritten clauses and facts say what the mapped clauses say. -/

namespace Nixie.Sat

open List

def mapClause (sub : Nat → Lit) (clause : Clause) : Clause := clause.map fun lit => sub lit.code

def Rewritten.Holds (assignment : Assignment) (clause : Clause) : Rewritten → Prop
  | .kept => Satisfies assignment clause
  | .retired => True
  | .unit lit => lit.Holds assignment
  | .shrunk lits => Satisfies assignment lits
  | .falsified => False

section

variable {assignment : Assignment} {trail : List Lit}

@[simp] theorem mem_sortedLits {lits : List Lit} {lit : Lit} : lit ∈ sortedLits lits ↔ lit ∈ lits := by
  rw [sortedLits, mem_dedup, mem_insertionSort]

theorem zip_tail_ne {lits : List Lit} (distinct : lits.Nodup) {left right : Lit}
    (pair : (left, right) ∈ lits.zip lits.tail) : left ≠ right := by
  induction lits with
  | nil => cases pair
  | cons head rest ih =>
    have fresh := nodup_cons.mp distinct
    match rest, fresh, ih, pair with
    | next :: later, fresh, ih, pair =>
      rw [tail_cons, zip_cons_cons, mem_cons] at pair
      rcases pair with first | further
      · cases first
        exact fun same => fresh.1 (same ▸ mem_cons_self)
      · exact ih fresh.2 further

theorem adjacentComplement_holds {lits : List Lit}
    (found : adjacentComplement (sortedLits lits) = true) : Satisfies assignment lits := by
  obtain ⟨⟨left, right⟩, pair, same⟩ := any_eq_true.mp found
  obtain ⟨first, second⟩ := of_mem_zip pair
  have differ := zip_tail_ne (nodup_dedup _) pair
  -- Different literals of one variable are opposite, so one of them is true.
  have opposite : left = right.negate :=
    (Lit.eq_or_negate (by simpa using same)).resolve_left differ
  by_cases holds : right.Holds assignment
  · exact ⟨right, mem_sortedLits.mp (mem_of_mem_tail second), holds⟩
  · refine ⟨left, mem_sortedLits.mp first, ?_⟩
    rw [opposite, Lit.holds_negate]
    exact holds

theorem filter_open_holds (facts : ∀ lit ∈ trail, lit.Holds assignment) {lits : Clause}
    (unsatisfied : ¬ (lits.any fun lit => litValue trail lit = some true) = true) :
    Satisfies assignment (sortedLits (lits.filter fun lit => litValue trail lit = none)) ↔
      Satisfies assignment lits := by
  constructor
  · intro ⟨lit, mem, holds⟩
    exact ⟨lit, (mem_filter.mp (mem_sortedLits.mp mem)).1, holds⟩
  · intro ⟨lit, mem, holds⟩
    -- A true literal is neither false nor recorded as true, so it is kept.
    refine ⟨lit, mem_sortedLits.mpr (mem_filter.mpr ⟨mem, ?_⟩), holds⟩
    cases value : litValue trail lit with
    | none => simp
    | some sign =>
      cases sign with
      | true => exact absurd (any_eq_true.mpr ⟨lit, mem, by simp [value]⟩) unsatisfied
      | false => exact absurd holds ((litValue_holds facts).2 value)

theorem rewriteClause_holds (facts : ∀ lit ∈ trail, lit.Holds assignment) (sub : Nat → Lit)
    (clause : Clause) :
    (rewriteClause trail sub clause).Holds assignment clause ↔
      Satisfies assignment (mapClause sub clause) := by
  unfold rewriteClause
  dsimp only
  rw [← mapClause]
  split
  · rename_i empty
    have bare : clause = [] := map_eq_nil_iff.mp empty
    rw [bare, mapClause, map_nil]
    rfl
  · split
    · -- A literal of the mapped clause is a fact.
      rename_i satisfied
      obtain ⟨lit, mem, value⟩ := any_eq_true.mp satisfied
      exact ⟨fun _ => ⟨lit, mem, (litValue_holds facts).1 (by simpa using value)⟩, fun _ => trivial⟩
    · rename_i unsatisfied
      have kept := filter_open_holds facts unsatisfied
      split
      · rename_i complement
        obtain ⟨lit, mem, holds⟩ := @adjacentComplement_holds assignment _ complement
        exact ⟨fun _ => ⟨lit, (mem_filter.mp mem).1, holds⟩, fun _ => trivial⟩
      · rw [← kept]
        split
        · rename_i none_
          rw [none_]
          exact ⟨False.elim, fun holds => satisfies_nil holds⟩
        · rename_i lit one
          rw [one]
          simp only [Rewritten.Holds, satisfies_cons, satisfies_nil, or_false]
        · exact Iff.rfl

theorem rewriteClause_occur {sub : Nat → Lit} {clause : Clause} {lit : Lit} :
    (rewriteClause trail sub clause = .unit lit → lit ∈ mapClause sub clause) ∧
      ∀ lits, rewriteClause trail sub clause = .shrunk lits → lit ∈ lits →
        lit ∈ mapClause sub clause := by
  have kept : ∀ {lits : Clause}, lit ∈ sortedLits ((mapClause sub clause).filter
      fun lit => litValue trail lit = none) → lit ∈ mapClause sub clause :=
    fun mem => (mem_filter.mp (mem_sortedLits.mp mem)).1
  unfold rewriteClause
  dsimp only
  rw [← mapClause]
  split
  · simp
  · split
    · simp
    · split
      · simp
      · split
        · simp
        · rename_i single one
          refine ⟨fun same => ?_, by simp⟩
          cases same
          exact @kept [] (by rw [one]; exact .head _)
        · refine ⟨by simp, fun lits same mem => ?_⟩
          cases same
          exact @kept [] mem

theorem rewriteClause_kept {sub : Nat → Lit} {clause : Clause}
    (kept : rewriteClause trail sub clause = .kept) : clause = [] := by
  unfold rewriteClause at kept
  dsimp only at kept
  split at kept
  · rename_i empty
    exact map_eq_nil_iff.mp empty
  · split at kept
    · cases kept
    · split at kept
      · cases kept
      · split at kept <;> cases kept

end

section

variable {assignment : Assignment} {trail : List Lit}

/-- What the outcome of a rewriting asks of an assignment. -/
def Rewriting.Holds (assignment : Assignment) (rewriting : Rewriting) : Prop :=
  rewriting.alive = true ∧ (∀ lit ∈ rewriting.units, lit.Holds assignment) ∧
    ∀ clause ∈ rewriting.clauses, Satisfies assignment clause.lits

theorem rewriteClauses_holds (facts : ∀ lit ∈ trail, lit.Holds assignment) (sub : Nat → Lit)
    (clauses : List DbClause) :
    (rewriteClauses trail sub clauses).Holds assignment ↔
      ∀ clause ∈ clauses, Satisfies assignment (mapClause sub clause.lits) := by
  induction clauses with
  | nil => simp [rewriteClauses, Rewriting.Holds]
  | cons clause rest ih =>
    have here := rewriteClause_holds facts sub clause.lits
    rw [forall_mem_cons, ← here, ← ih, rewriteClauses]
    -- Each outcome adds its own demand to those of the rest.
    cases outcome : rewriteClause trail sub clause.lits with
    | kept =>
      simp only [Rewriting.Holds, Rewritten.Holds, forall_mem_cons]
      tauto
    | retired => simp only [Rewritten.Holds, true_and]
    | unit lit =>
      simp only [Rewriting.Holds, Rewritten.Holds, forall_mem_cons]
      tauto
    | shrunk lits =>
      simp only [Rewriting.Holds, Rewritten.Holds, forall_mem_cons]
      tauto
    | falsified => simp [Rewriting.Holds, Rewritten.Holds]

theorem rewriteClauses_occur {sub : Nat → Lit} {clauses : List DbClause}
    (alive : (rewriteClauses trail sub clauses).alive = true) {lit : Lit}
    (occurs : lit ∈ (rewriteClauses trail sub clauses).units ∨
      ∃ clause ∈ (rewriteClauses trail sub clauses).clauses, lit ∈ clause.lits) :
    ∃ clause ∈ clauses, lit ∈ mapClause sub clause.lits := by
  induction clauses with
  | nil => simp [rewriteClauses] at occurs
  | cons clause rest ih =>
    have occur := @rewriteClause_occur trail sub clause.lits lit
    have later : ((rewriteClauses trail sub rest).alive = true) →
        (lit ∈ (rewriteClauses trail sub rest).units ∨
          ∃ clause ∈ (rewriteClauses trail sub rest).clauses, lit ∈ clause.lits) →
        ∃ other ∈ clause :: rest, lit ∈ mapClause sub other.lits := by
      intro alive' occurs'
      obtain ⟨other, mem, lies⟩ := ih alive' occurs'
      exact ⟨other, .tail _ mem, lies⟩
    rw [rewriteClauses] at alive occurs
    cases outcome : rewriteClause trail sub clause.lits with
    | kept =>
      rw [outcome] at alive occurs
      rcases occurs with unit | ⟨other, mem, lies⟩
      · exact later alive (.inl unit)
      · rcases mem_cons.mp mem with rfl | old
        · rw [rewriteClause_kept outcome] at lies
          cases lies
        · exact later alive (.inr ⟨other, old, lies⟩)
    | retired =>
      rw [outcome] at alive occurs
      exact later alive occurs
    | unit single =>
      rw [outcome] at alive occurs
      rcases occurs with unit | clause_
      · rcases mem_cons.mp unit with rfl | old
        · exact ⟨clause, .head _, occur.1 outcome⟩
        · exact later alive (.inl old)
      · exact later alive (.inr clause_)
    | shrunk lits =>
      rw [outcome] at alive occurs
      rcases occurs with unit | ⟨other, mem, lies⟩
      · exact later alive (.inl unit)
      · rcases mem_cons.mp mem with rfl | old
        · exact ⟨clause, .head _, occur.2 lits outcome lies⟩
        · exact later alive (.inr ⟨other, old, lies⟩)
    | falsified =>
      rw [outcome] at alive
      cases alive

end

section

variable {assignment : Assignment}

theorem assignUnits_holds {units : List Lit} : ∀ {trail : List Lit},
    ((assignUnits trail units).2 = true ∧ ∀ lit ∈ (assignUnits trail units).1, lit.Holds assignment) ↔
      (∀ lit ∈ trail, lit.Holds assignment) ∧ ∀ lit ∈ units, lit.Holds assignment := by
  induction units with
  | nil => simp [assignUnits]
  | cons lit rest ih =>
    intro trail
    unfold assignUnits
    rw [forall_mem_cons]
    cases value : litValue trail lit with
    | none =>
      dsimp only
      rw [ih, forall_mem_append, forall_mem_singleton]
      tauto
    | some sign =>
      cases sign with
      | true =>
        dsimp only
        rw [ih]
        have known := fun facts => (@litValue_holds assignment trail facts lit).1 value
        tauto
      | false =>
        -- The new fact is already false.
        have known := fun facts => (@litValue_holds assignment trail facts lit).2 value
        dsimp only
        simp only [Bool.false_eq_true, false_and, false_iff]
        tauto

theorem assignUnits_mem {units : List Lit} : ∀ {trail : List Lit} {lit : Lit},
    (lit ∈ trail → lit ∈ (assignUnits trail units).1) ∧
      (lit ∈ (assignUnits trail units).1 → lit ∈ trail ∨ lit ∈ units) := by
  induction units with
  | nil => exact ⟨id, .inl⟩
  | cons head rest ih =>
    intro trail lit
    unfold assignUnits
    cases value : litValue trail head with
    | none =>
      obtain ⟨old, new⟩ := @ih (trail ++ [head]) lit
      refine ⟨fun mem => old (mem_append_left _ mem), fun mem => ?_⟩
      rcases new mem with before | later
      · rcases mem_append.mp before with kept | added
        · exact .inl kept
        · exact .inr (mem_singleton.mp added ▸ mem_cons_self)
      · exact .inr (.tail _ later)
    | some sign =>
      cases sign with
      | true =>
        obtain ⟨old, new⟩ := @ih trail lit
        exact ⟨old, fun mem => (new mem).imp_right (.tail _)⟩
      | false => exact ⟨id, .inl⟩

theorem finishRound_holds {s : Solver} {units : List Lit} (alive : s.triviallyUnsat = false) :
    ((finishRound s units).1.triviallyUnsat = false ∧ (finishRound s units).1.Holds assignment) ↔
      s.Holds assignment ∧ ∀ lit ∈ units, lit.Holds assignment := by
  have assigned := @assignUnits_holds assignment units s.trail
  unfold finishRound
  cases result : assignUnits s.trail units with
  | mk trail consistent =>
    rw [result] at assigned
    cases consistent with
    | false =>
      simp only [Bool.false_eq_true, false_and, false_iff] at assigned
      simp only [Bool.true_eq_false, false_and, false_iff, Solver.Holds]
      tauto
    | true =>
      simp only [true_and] at assigned
      have start : ({ s with trail := trail } : Solver).Holds assignment ↔
          s.Holds assignment ∧ ∀ lit ∈ units, lit.Holds assignment := by
        unfold Solver.Holds
        rw [assigned, ← and_assoc]
        rfl
      dsimp only
      cases done : propagate { s with trail := trail } with
      | none =>
        -- A conflict means that no assignment satisfies the state.
        simp only [Bool.true_eq_false, false_and, false_iff, ← start]
        intro holds
        obtain ⟨t, finished, -⟩ := propagate_holds holds
        rw [done] at finished
        cases finished
      | some t =>
        obtain ⟨longer, fields, -⟩ := propagate_fields done
        rw [← start]
        constructor
        · intro ⟨_, holds⟩
          refine ⟨?_, fun lit mem => holds.2 lit (longer lit mem)⟩
          have models := holds.1
          rw [fields] at models
          exact models
        · intro holds
          obtain ⟨other, finished, models⟩ := propagate_holds holds
          rw [done] at finished
          cases finished
          exact ⟨(congrArg Solver.triviallyUnsat fields).trans alive, models⟩

theorem finishRound_fields (s : Solver) (units : List Lit) : (finishRound s units).1 =
      { s with
        trail := (finishRound s units).1.trail
        triviallyUnsat := (finishRound s units).1.triviallyUnsat } := by
  unfold finishRound
  split
  · rfl
  · split
    · rfl
    · rename_i t done
      have fields := (propagate_fields done).2.1
      rw [fields]

theorem finishRound_trail (s : Solver) (units : List Lit) :
    (∀ lit ∈ s.trail, lit ∈ (finishRound s units).1.trail) ∧ ∀ lit ∈ (finishRound s units).1.trail,
        lit ∈ s.trail ∨ lit ∈ units ∨ ∃ clause ∈ s.formula, lit ∈ clause := by
  have assigned := fun lit => @assignUnits_mem units s.trail lit
  unfold finishRound
  cases result : assignUnits s.trail units with
  | mk trail consistent =>
    rw [result] at assigned
    cases consistent with
    | false =>
      refine ⟨fun lit => (assigned lit).1, fun lit mem => ?_⟩
      exact ((assigned lit).2 mem).imp_right .inl
    | true =>
      dsimp only
      cases done : propagate { s with trail := trail } with
      | none =>
        refine ⟨fun lit => (assigned lit).1, fun lit mem => ?_⟩
        exact ((assigned lit).2 mem).imp_right .inl
      | some t =>
        obtain ⟨longer, -, occur⟩ := propagate_fields done
        refine ⟨fun lit mem => longer lit ((assigned lit).1 mem), fun lit mem => ?_⟩
        rcases occur lit mem with old | clause
        · exact ((assigned lit).2 old).imp_right .inl
        · exact .inr (.inr clause)

end

/-- What a round that rewrites the clauses leaves behind. -/
structure RoundEffect (s t : Solver) : Prop where
  consistent : contradictory s (substitution s) = false
  moves : moved s (substitution s) = true
  fields : t = { s with
    clauses := t.clauses
    trail := t.trail
    equivSubstitution := composeTable s (substitution s)
    equivSubstInited := true }
  holds : ∀ assignment, t.Holds assignment ↔ (∀ lit ∈ s.trail, lit.Holds assignment) ∧
      ∀ clause ∈ s.formula, Satisfies assignment (mapClause (substitution s) clause)
  facts : ∀ lit ∈ s.trail, lit ∈ t.trail
  derived : ∀ lit ∈ t.trail, lit ∈ s.trail ∨
    ∃ clause ∈ s.formula, lit ∈ mapClause (substitution s) clause
  rewritten : ∀ clause ∈ t.formula, ∀ lit ∈ clause,
    ∃ old ∈ s.formula, lit ∈ mapClause (substitution s) old

theorem mapped_holds {s : Solver} (bounded : VarsBelow s.numVars s.formula)
    {assignment : Assignment} (holds : s.Holds assignment) :
    ∀ clause ∈ s.formula, Satisfies assignment (mapClause (substitution s) clause) := by
  intro clause mem
  obtain ⟨lit, lies, true_⟩ := holds.1 clause mem
  refine ⟨_, mem_map_of_mem lies, ?_⟩
  rwa [Lit.holds_iff_value, substitution_value bounded holds.1, ← Lit.holds_iff_value]

theorem storeRewriting_holds {s : Solver} (alive : s.triviallyUnsat = false) {sub : Nat → Lit}
    {rewriting : Rewriting} (same : rewriting = rewriteClauses s.trail sub s.clauses)
    (rewritable : rewriting.alive = true) (assignment : Assignment) :
    ((finishRound (storeRewriting s sub rewriting) rewriting.units).1.triviallyUnsat = false ∧
        (finishRound (storeRewriting s sub rewriting) rewriting.units).1.Holds assignment) ↔
      (∀ lit ∈ s.trail, lit.Holds assignment) ∧
        ∀ clause ∈ s.formula, Satisfies assignment (mapClause sub clause) := by
  rw [finishRound_holds (s := storeRewriting s sub rewriting) alive]
  unfold Solver.Holds storeRewriting Solver.formula Models
  simp only [forall_mem_map]
  subst same
  -- Under the facts the rewritten clauses say what the mapped clauses say.
  constructor
  · intro ⟨⟨models, facts⟩, units⟩
    exact ⟨facts, (rewriteClauses_holds facts sub s.clauses).mp ⟨rewritable, units, models⟩⟩
  · intro ⟨facts, mapped⟩
    obtain ⟨-, units, models⟩ := (rewriteClauses_holds facts sub s.clauses).mpr mapped
    exact ⟨⟨models, facts⟩, units⟩

theorem storeRewriting_effect {s : Solver} (alive : s.triviallyUnsat = false)
    (consistent : contradictory s (substitution s) = false)
    (moves : moved s (substitution s) = true) {rewriting : Rewriting}
    (same : rewriting = rewriteClauses s.trail (substitution s) s.clauses)
    (rewritable : rewriting.alive = true) {t : Solver}
    (result : t = (finishRound (storeRewriting s (substitution s) rewriting) rewriting.units).1)
    (survives : t.triviallyUnsat = false) : RoundEffect s t := by
  have fields := finishRound_fields (storeRewriting s (substitution s) rewriting) rewriting.units
  obtain ⟨facts, derived⟩ :=
    finishRound_trail (storeRewriting s (substitution s) rewriting) rewriting.units
  have holds := storeRewriting_holds alive same rewritable
  rw [← result] at fields facts derived holds
  rw [survives] at fields
  have occur : ∀ {lit : Lit}, (lit ∈ rewriting.units ∨ ∃ clause ∈ rewriting.clauses,
      lit ∈ clause.lits) → ∃ clause ∈ s.formula, lit ∈ mapClause (substitution s) clause := by
    intro lit occurs
    obtain ⟨clause, mem, lies⟩ := rewriteClauses_occur (same ▸ rewritable) (by rwa [same] at occurs)
    exact ⟨clause.lits, mem_map_of_mem mem, lies⟩
  have stored : ∀ {clause : Clause}, clause ∈ t.formula →
      ∃ other ∈ rewriting.clauses, clause = other.lits := by
    intro clause mem
    rw [fields] at mem
    obtain ⟨other, lies, rfl⟩ := mem_map.mp mem
    exact ⟨other, lies, rfl⟩
  refine ⟨consistent, moves, ?_, fun assignment => ?_, facts, fun lit mem => ?_, ?_⟩
  · rw [fields]
    simp [storeRewriting, alive]
  · exact ⟨fun models => (holds assignment).mp ⟨survives, models⟩,
      fun mapped => ((holds assignment).mpr mapped).2⟩
  · rcases derived lit mem with old | unit | ⟨clause, lies, occurs⟩
    · exact .inl old
    · exact .inr (occur (.inl unit))
    · obtain ⟨other, kept, rfl⟩ := mem_map.mp lies
      exact .inr (occur (.inr ⟨other, kept, occurs⟩))
  · intro clause mem lit lies
    obtain ⟨other, kept, rfl⟩ := stored mem
    exact occur (.inr ⟨other, kept, lies⟩)

theorem round_cases {s : Solver} (bounded : VarsBelow s.numVars s.formula)
    (alive : s.triviallyUnsat = false) :
    (substituteEquivalentLiteralsRound s).1 = s ∨
      ((substituteEquivalentLiteralsRound s).1.triviallyUnsat = true ∧
        ∀ assignment, ¬ s.Holds assignment) ∨
      ((substituteEquivalentLiteralsRound s).1.triviallyUnsat = false ∧
        RoundEffect s (substituteEquivalentLiteralsRound s).1) := by
  unfold substituteEquivalentLiteralsRound
  dsimp only
  split
  · exact .inl rfl
  split
  · rename_i clash
    exact .inr (.inl ⟨rfl, fun assignment holds => contradictory_unsat bounded clash holds.1⟩)
  rename_i consistent
  split
  · exact .inl rfl
  rename_i moves
  split
  · rename_i rewritable
    -- The clauses survive the rewriting; the new facts may still clash.
    have holds := storeRewriting_holds alive rfl rewritable
    cases survives : (finishRound (storeRewriting s (substitution s)
        (rewriteClauses s.trail (substitution s) s.clauses))
        (rewriteClauses s.trail (substitution s) s.clauses).units).1.triviallyUnsat with
    | true =>
      refine .inr (.inl ⟨rfl, fun assignment models => ?_⟩)
      have clash := ((holds assignment).mpr ⟨models.2, mapped_holds bounded models⟩).1
      rw [survives] at clash
      cases clash
    | false =>
      exact .inr (.inr ⟨rfl, storeRewriting_effect alive (by simpa using consistent)
        (by simpa using moves) rfl rewritable rfl survives⟩)
  · rename_i falsified
    refine .inr (.inl ⟨rfl, fun assignment holds => falsified ?_⟩)
    refine ((rewriteClauses_holds holds.2 (substitution s) s.clauses).mpr ?_).1
    exact fun clause mem => mapped_holds bounded holds _ (mem_map_of_mem mem)

end Nixie.Sat
