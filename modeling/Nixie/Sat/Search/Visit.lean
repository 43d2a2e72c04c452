import Nixie.Sat.Search.Watches

/-! What propagation does: it reorders clauses, moves watches, and assigns unit literals. -/

namespace Nixie.Sat.Search

/-- The trails that unit clauses of a database reach. -/
inductive UnitSteps (live : Nat → Option Clause) (start : Trail) : Trail → Prop where
  | refl : UnitSteps live start start
  /-- A clause with one open literal and no true one assigns it at the current level. -/
  | unit {trail : Trail} (before : UnitSteps live start trail) {id : Nat} {lits : Clause} {lit : Lit}
      (found : live id = some lits) (member : lit ∈ lits) (fresh : trail.litVal lit = 0)
      (falsified : ∀ other ∈ lits, other ≠ lit → trail.litVal other = -1) :
      UnitSteps live start (trail.assign lit (.propagation id))
  | head {trail : Trail} (before : UnitSteps live start trail) (head : Nat) :
      UnitSteps live start { trail with propHead := head }

/-- The live clauses of two states are the same up to the order of their literals. -/
def Rearranged (s t : Solver) : Prop := ∀ id, Option.Rel List.Perm (s.liveLits id) (t.liveLits id)

section

variable {live live' : Nat → Option Clause} {first second third : Trail}

theorem UnitSteps.trans (steps : UnitSteps live first second) (later : UnitSteps live second third) :
    UnitSteps live first third := by
  induction later with
  | refl => exact steps
  | unit _ found mem fresh falsified ih => exact ih.unit found mem fresh falsified
  | head _ head ih => exact ih.head head

theorem UnitSteps.rearrange (same : ∀ id, Option.Rel List.Perm (live id) (live' id))
    (steps : UnitSteps live' first second) : UnitSteps live first second := by
  induction steps with
  | refl => exact .refl
  | @unit trail _ id lits lit found mem fresh falsified ih =>
    have pair := same id
    rw [found] at pair
    cases here : live id with
    | none =>
      rw [here] at pair
      cases pair
    | some old =>
      rw [here] at pair
      cases pair with
      | some perm =>
        exact ih.unit here (perm.mem_iff.mpr mem) fresh fun other lies =>
          falsified other (perm.mem_iff.mp lies)
  | head _ head ih => exact ih.head head

theorem UnitSteps.inv (steps : UnitSteps live first second) (inv : first.Inv) : second.Inv := by
  induction steps with
  | refl => exact inv
  | unit _ _ _ fresh _ ih => exact ih.assignAt _ (ih.unassigned_iff.mpr fresh) le_rfl
  | head _ head ih => exact ih.propHead head

theorem UnitSteps.keeps (steps : UnitSteps live first second) (inv : first.Inv) :
    second.currentLevel = first.currentLevel ∧ second.levelStarts = first.levelStarts ∧
      (∃ later, second.assignments = first.assignments ++ later) ∧
      ∀ lit, first.litVal lit ≠ 0 → second.litVal lit = first.litVal lit ∧
        second.varInfo lit.var = first.varInfo lit.var := by
  induction steps with
  | refl => exact ⟨rfl, rfl, ⟨[], by simp⟩, fun _ _ => ⟨rfl, rfl⟩⟩
  | @unit trail before id lits lit found mem fresh falsified ih =>
    obtain ⟨level, starts, ⟨later, longer⟩, same⟩ := ih
    have inv' := before.inv inv
    refine ⟨level, starts, ⟨later ++ [lit], ?_⟩, fun other defined => ?_⟩
    · unfold Trail.assign Trail.assignAt
      rw [longer, List.append_assoc]
    · obtain ⟨value, record⟩ := same other defined
      -- The newly assigned variable is another one.
      obtain ⟨kept, apart⟩ := @Trail.Inv.assignAt_value _ inv' lit other (.propagation id)
        trail.currentLevel (inv'.unassigned_iff.mpr fresh) (by rw [value]; exact defined)
      refine ⟨kept.trans value, ?_⟩
      unfold Trail.assign Trail.assignAt
      dsimp only
      rw [Function.update_of_ne apart]
      exact record
  | head _ _ ih => exact ih

theorem UnitSteps.old (steps : UnitSteps live first second) (inv : first.Inv) {lit : Lit}
    (defined : second.litVal lit ≠ 0)
    (early : second.trailIndex lit.var < first.assignments.length) : first.litVal lit ≠ 0 := by
  obtain ⟨-, -, ⟨later, longer⟩, -⟩ := steps.keeps inv
  have inv' := steps.inv inv
  -- The true literal of the variable is at its position, which is in the old part.
  have before : ∀ {lit : Lit}, second.litVal lit = 1 →
      second.trailIndex lit.var < first.assignments.length → first.litVal lit = 1 := by
    intro lit true_ early
    have here := inv'.position true_
    rw [longer, List.getElem?_append_left early] at here
    exact inv.mem_iff.mp (List.mem_of_getElem? here)
  rcases inv'.value_cases lit with true_ | false_ | undefined
  · rw [before true_ early]
    decide
  · have flipped := @before lit.negate (inv'.false_iff.mp false_) early
    rw [inv.false_iff.mpr flipped]
    decide
  · exact absurd undefined defined

theorem levelStart_eq {first second : Trail} (starts : second.levelStarts = first.levelStarts)
    (inv : first.Inv) {level : Nat} (bound : level ≤ first.currentLevel) :
    second.levelStart level = first.levelStart level := by
  have found := inv.levelStart bound
  unfold Trail.levelStart at found ⊢
  rw [starts, found, Option.getD_some, Option.getD_some]

end

section

variable {s t u : Solver}

theorem Rearranged.refl (s : Solver) : Rearranged s s := fun id => by
  cases s.liveLits id with
  | none => exact .none
  | some lits => exact .some (List.Perm.refl _)

theorem Rearranged.trans (left : Rearranged s t) (right : Rearranged t u) : Rearranged s u := by
  intro id
  have first := left id
  have second := right id
  cases here : t.liveLits id with
  | none =>
    rw [here] at first second
    cases origin : s.liveLits id with
    | none =>
      rw [origin] at first
      exact second
    | some lits =>
      rw [origin] at first
      cases first
  | some lits =>
    rw [here] at first second
    cases origin : s.liveLits id with
    | none =>
      rw [origin] at first
      cases first
    | some old =>
      rw [origin] at first
      cases target : u.liveLits id with
      | none =>
        rw [target] at second
        cases second
      | some new =>
        rw [target] at second
        cases first with
        | some before =>
          cases second with
          | some after => exact .some (before.trans after)

theorem Rearranged.forward (same : Rearranged s t) {id : Nat} {lits : Clause}
    (live : s.liveLits id = some lits) : ∃ new, t.liveLits id = some new ∧ lits.Perm new := by
  have pair := same id
  rw [live] at pair
  cases target : t.liveLits id with
  | none =>
    rw [target] at pair
    cases pair
  | some new =>
    rw [target] at pair
    cases pair with
    | some perm => exact ⟨new, rfl, perm⟩

theorem Rearranged.backward (same : Rearranged s t) {id : Nat} {lits : Clause}
    (live : t.liveLits id = some lits) : ∃ old, s.liveLits id = some old ∧ old.Perm lits := by
  have pair := same id
  rw [live] at pair
  cases origin : s.liveLits id with
  | none =>
    rw [origin] at pair
    cases pair
  | some old =>
    rw [origin] at pair
    cases pair with
    | some perm => exact ⟨old, rfl, perm⟩

theorem rearranged_setLits {id : Nat} {old new : Clause} (live : s.liveLits id = some old)
    (perm : old.Perm new) : Rearranged s (s.setLits id new) := by
  intro other
  rw [liveLits_setLits]
  split
  · rename_i here
    rw [here, live]
    exact .some perm
  · exact Rearranged.refl s other

end

/--
Every falsified watch before a position of the trail is guarded by a true literal of its clause.

The level of that literal had started when the watch was looked at, so backtracking that keeps the
watch and drops the literal puts the watch back into the queue.
-/
def Guarded (tracked : Nat → Prop) (done : Nat) (s : Solver) : Prop :=
  ∀ id, tracked id → ∀ lits, s.liveLits id = some lits → 2 ≤ lits.length → ∀ watch ∈ lits.take 2,
    s.trail.litVal watch = -1 → s.trail.trailIndex watch.var < done →
      ∃ guard ∈ lits, s.trail.litVal guard = 1 ∧
        s.trail.levelStart (s.trail.level guard.var) ≤ s.trail.trailIndex watch.var

/-- Some literal of the clause is true, if it is live. -/
def Settled (s : Solver) (id : Nat) : Prop :=
  ∀ lits, s.liveLits id = some lits → ∃ lit ∈ lits, s.trail.litVal lit = 1

/-- Every literal of the live clause is false. -/
def Falsified (s : Solver) (id : Nat) : Prop :=
  ∃ lits, s.liveLits id = some lits ∧ ∀ lit ∈ lits, s.trail.litVal lit = -1

/-- A part of propagation, as far as clauses, trail and guards are concerned. -/
structure Advance (s t : Solver) : Prop where
  rearranged : Rearranged s t
  flags : t.clauses.map (fun clause => (clause.learned, clause.deleted)) =
    s.clauses.map fun clause => (clause.learned, clause.deleted)
  steps : UnitSteps s.liveLits s.trail t.trail
  head : t.trail.propHead = s.trail.propHead
  graph : t.binaryGraph = s.binaryGraph
  numVars : t.numVars = s.numVars
  guarded : ∀ {tracked done}, done ≤ s.trail.assignments.length → Guarded tracked done s →
    Guarded tracked done t

section

variable {s t u : Solver} {tracked : Nat → Prop} {done : Nat}

theorem Advance.refl (s : Solver) : Advance s s :=
  ⟨.refl s, rfl, .refl, rfl, rfl, rfl, fun _ guarded => guarded⟩

theorem Advance.trans (first : Advance s t) (second : Advance t u) (inv : s.trail.Inv) :
    Advance s u := by
  refine ⟨first.rearranged.trans second.rearranged, second.flags.trans first.flags,
    first.steps.trans (second.steps.rearrange first.rearranged), second.head.trans first.head,
    second.graph.trans first.graph,
    second.numVars.trans first.numVars, fun bound guarded => ?_⟩
  obtain ⟨-, -, ⟨later, longer⟩, -⟩ := first.steps.keeps inv
  refine second.guarded ?_ (first.guarded bound guarded)
  rw [longer, List.length_append]
  omega

theorem Settled.advance {id : Nat} (settled : Settled s id) (inv : s.trail.Inv)
    (advance : Advance s t) : Settled t id := by
  intro lits live
  obtain ⟨old, origin, perm⟩ := advance.rearranged.backward live
  obtain ⟨lit, mem, true_⟩ := settled old origin
  have kept := ((advance.steps.keeps inv).2.2.2 lit (by rw [true_]; decide)).1
  exact ⟨lit, perm.mem_iff.mp mem, kept.trans true_⟩

theorem Guarded.extend {trail : Trail} (guarded : Guarded tracked done s) (inv : s.trail.Inv)
    (starts : trail.levelStarts = s.trail.levelStarts)
    (same : ∀ lit, s.trail.litVal lit ≠ 0 → trail.litVal lit = s.trail.litVal lit ∧
      trail.varInfo lit.var = s.trail.varInfo lit.var)
    (old : ∀ lit, trail.litVal lit = -1 → trail.trailIndex lit.var < done →
      s.trail.litVal lit ≠ 0) : Guarded tracked done { s with trail := trail } := by
  intro number tracks lits live long watch lies false_ early
  -- A falsified watch at an old position was falsified before.
  obtain ⟨value, record⟩ := same watch (old watch false_ early)
  dsimp only at false_ early
  unfold Trail.trailIndex at early
  rw [record] at early
  obtain ⟨guard, lies', true_, started⟩ :=
    guarded number tracks lits live long watch lies (value ▸ false_) early
  have defined : s.trail.litVal guard ≠ 0 := by
    rw [true_]
    decide
  obtain ⟨value', record'⟩ := same guard defined
  refine ⟨guard, lies', value'.trans true_, ?_⟩
  have began := levelStart_eq starts inv (inv.level_le defined)
  unfold Trail.level at began started ⊢
  unfold Trail.trailIndex at started ⊢
  dsimp only
  rw [record, record', began]
  exact started

theorem advance_unit {id : Nat} {lits : Clause} {lit : Lit} (inv : s.trail.Inv)
    (live : s.liveLits id = some lits) (mem : lit ∈ lits) (fresh : s.trail.litVal lit = 0)
    (falsified : ∀ other ∈ lits, other ≠ lit → s.trail.litVal other = -1) :
    Advance s { s with trail := s.trail.assign lit (.propagation id) } := by
  have steps : UnitSteps s.liveLits s.trail (s.trail.assign lit (.propagation id)) :=
    UnitSteps.refl.unit live mem fresh falsified
  obtain ⟨-, starts, -, same⟩ := steps.keeps inv
  exact ⟨.refl s, rfl, steps, rfl, rfl, rfl, fun bound guarded => guarded.extend inv starts same
    fun watch false_ early => steps.old inv (by rw [false_]; decide) (early.trans_le bound)⟩

theorem advance_setLits {id : Nat} {old new : Clause} (live : s.liveLits id = some old)
    (perm : old.Perm new)
    (watches : ∀ lit ∈ new.take 2, lit ∈ old.take 2 ∨ s.trail.litVal lit ≠ -1) :
    Advance s (s.setLits id new) := by
  refine ⟨rearranged_setLits live perm, ?_, .refl, rfl, rfl, rfl,
    fun {tracked done} _ guarded => ?_⟩
  · unfold Solver.setLits
    dsimp only
    refine List.ext_getElem? fun position => ?_
    rw [List.getElem?_map, List.getElem?_map, List.getElem?_modify]
    cases s.clauses[position]? with
    | none => rfl
    | some clause => by_cases here : id = position <;> simp [here]
  · intro number tracks lits live' long watch lies false_ early
    rw [liveLits_setLits] at live'
    split at live'
    · rename_i here
      rw [live] at live'
      cases live'
      rw [← perm.length_eq] at long
      rcases watches watch lies with before | open_
      · obtain ⟨guard, mem, rest⟩ :=
          guarded number tracks old (here ▸ live) long watch before false_ early
        exact ⟨guard, perm.mem_iff.mp mem, rest⟩
      · exact absurd false_ open_
    · exact guarded number tracks lits live' long watch lies false_ early

end

end Nixie.Sat.Search
