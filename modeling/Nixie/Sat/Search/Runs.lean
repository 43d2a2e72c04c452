import Mathlib.Order.MinMax
import Nixie.Sat.Search.Fixpoint

/-! Runs of decisions, forced assignments, backtracks and propagation over a clause database. -/

namespace Nixie.Sat.Search

open List Option Nat

/-- Live clauses as they are stored, with distinct literals. -/
structure ClauseDb (numVars : Nat) where
  clauses : List StoredClause
  alive : ∀ clause ∈ clauses, clause.deleted = false
  distinct : ∀ clause ∈ clauses, clause.lits.Nodup
  below : ∀ clause ∈ clauses, ∀ lit ∈ clause.lits, lit.var < numVars

/-- Every clause has two literals to watch; a single literal is a fact of level zero instead. -/
def ClauseDb.Watchable {numVars : Nat} (db : ClauseDb numVars) : Prop :=
  ∀ clause ∈ db.clauses, 2 ≤ clause.lits.length

/-- The solver that holds the clauses of a database. -/
def Solver.load {numVars : Nat} (db : ClauseDb numVars) : Solver :=
  db.clauses.foldl Solver.storeClause (Solver.new numVars)

inductive Op where
  | decide (lit : Lit)
  | force (lit : Lit) (reason : Reason) (level : Nat)
  | backtrack (level : Nat)
  | propagate
  /-- Decide a literal, propagate up to a limit, and return to level zero. -/
  | probe (lit : Lit) (limit : Nat)
  | remove (id : Nat)
  deriving DecidableEq, Repr

def Solver.apply (s : Solver) : Op → Option Solver
  | .decide lit => some (s.decide lit)
  | .force lit reason level => some (s.force lit reason level)
  | .backtrack level => some (s.backtrack level)
  | .propagate => (s.propagate none).map Prod.fst
  | .probe lit limit => ((s.decide lit).propagate (some limit)).map fun end_ => end_.1.backtrack 0
  | .remove id => some (s.removeClause id)

/-- What a call asks for by itself: it assigns a free variable, and retires a long idle clause. -/
def Possible (s : Solver) : Op → Prop
  | .decide lit => lit.var < s.numVars ∧ s.trail.isAssigned lit.var = false
  | .force lit _ level => lit.var < s.numVars ∧ s.trail.isAssigned lit.var = false ∧
      level ≤ s.trail.currentLevel
  | .probe lit _ => lit.var < s.numVars ∧ s.trail.isAssigned lit.var = false ∧
      s.trail.currentLevel = 0
  | .remove id => ∃ lits, s.liveLits id = some lits ∧ 3 ≤ lits.length ∧
      s.isLiveReasonClause id lits = false
  | _ => True

/-- The search decides only when nothing is left to propagate. -/
def Allowed (s : Solver) (op : Op) : Prop :=
  Possible s op ∧ match op with
    | .decide _ | .probe _ _ => s.trail.propHead = s.trail.assignments.length
    | _ => True

inductive Reachable (allowed : Solver → Op → Prop) (start : Solver) : Solver → Prop where
  | start : Reachable allowed start start
  | step {s t : Solver} (before : Reachable allowed start s) (op : Op) (permitted : allowed s op)
      (done : s.apply op = some t) : Reachable allowed start t

/-- Exactly one literal of the clause is not false, and it is unassigned. -/
def OpenUnit (trail : Trail) (lits : Clause) : Prop :=
  ∃ lit, lits.filter (fun other => trail.litVal other ≠ -1) = [lit] ∧ trail.litVal lit = 0

/-- Propagation ends, misses no conflict and no unit, and reports falsified clauses only. -/
def Complete (s : Solver) : Prop :=
  ∀ limit, ∃ t outcome, s.propagate limit = some (t, outcome) ∧
    (outcome = .fixpoint → ∀ id lits, t.liveLits id = some lits →
      ¬ (∀ lit ∈ lits, t.trail.litVal lit = -1) ∧ ¬ OpenUnit t.trail lits) ∧
    ∀ id, outcome = .conflict id → Falsified t id

section

variable {s t : Solver} {tracked : Nat → Prop} {done : Nat}

theorem storeClause_fields (clause : StoredClause) :
    (s.storeClause clause).trail = s.trail ∧ (s.storeClause clause).numVars = s.numVars := by
  unfold Solver.storeClause Solver.attachWatchers Solver.addEdge Solver.addWatcher
  dsimp only
  split
  · split <;> exact ⟨rfl, rfl⟩
  · exact ⟨rfl, rfl⟩

theorem removeClause_fields (id : Nat) :
    (s.removeClause id).trail = s.trail ∧ (s.removeClause id).numVars = s.numVars := by
  unfold Solver.removeClause Solver.detach Solver.withList
  dsimp only
  split <;> exact ⟨rfl, rfl⟩

theorem liveLits_removeClause (id other : Nat) : (s.removeClause id).liveLits other =
    if other = id then none else s.liveLits other := by
  unfold Solver.removeClause Solver.liveLits
  dsimp only
  rw [getElem?_modify]
  by_cases same : other = id
  · rw [if_pos same, same]
    cases s.clauses[id]? <;> simp
  · rw [if_neg same]
    simp [Ne.symm same]

theorem ready_new (attached : Attached s) (empty : s.trail = Trail.new) : Ready tracked 0 s where
  trail := empty ▸ Trail.inv_new
  attached := attached
  vars := by
    rw [empty]
    exact fun _ mem => nomatch mem
  head := by
    rw [empty]
    exact zero_le _
  dequeued := zero_le _
  opened := by
    rw [empty]
    intro start mem
    exact (mem_singleton.mp mem).le
  guarded := fun _ _ _ _ _ _ _ _ early => absurd early (not_lt_zero _)

theorem ready_load {numVars : Nat} (db : ClauseDb numVars) : Ready tracked 0 (Solver.load db) := by
  -- Clauses are stored one by one, on an empty trail.
  suffices stored : ∀ {clauses : List StoredClause} {s : Solver}, Attached s →
      s.trail = Trail.new ∧ s.numVars = numVars →
      (∀ clause ∈ clauses, clause.deleted = false ∧ clause.lits.Nodup ∧
        ∀ lit ∈ clause.lits, lit.var < numVars) →
      Attached (clauses.foldl Solver.storeClause s) ∧
        (clauses.foldl Solver.storeClause s).trail = Trail.new by
    obtain ⟨attached, empty⟩ := stored (attached_new numVars) ⟨rfl, rfl⟩ fun clause mem =>
      ⟨db.alive clause mem, db.distinct clause mem, db.below clause mem⟩
    exact ready_new attached empty
  intro clauses
  induction clauses with
  | nil => exact fun attached empty _ => ⟨attached, empty.1⟩
  | cons clause rest ih =>
    intro s attached empty fine
    obtain ⟨alive, distinct, below⟩ := fine clause (.head _)
    obtain ⟨trail, number⟩ := @storeClause_fields s clause
    exact ih (attached.store alive distinct (by rw [empty.2]; exact below))
      ⟨trail.trans empty.1, number.trans empty.2⟩ fun other mem => fine other (.tail _ mem)

theorem Ready.assignAt (ready : Ready tracked done s) {lit : Lit} (reason : Reason) {level : Nat}
    (exists_ : lit.var < s.numVars) (free : s.trail.isAssigned lit.var = false)
    (bound : level ≤ s.trail.currentLevel) :
    Ready tracked done { s with trail := s.trail.assignAt lit reason level } := by
  have length : (s.trail.assignAt lit reason level).assignments.length =
      s.trail.assignments.length + 1 := by
    unfold Trail.assignAt
    simp
  refine ⟨ready.trail.assignAt reason free bound, ready.attached.withTrail _, fun other mem => ?_,
    ?_, ready.dequeued, ready.opened, ready.guarded.extend ready.trail rfl (fun other defined => ?_)
      fun other false_ early undefined => ?_⟩
  · rcases mem_append.mp mem with old | last
    · exact ready.vars other old
    · rw [mem_singleton.mp last]
      exact exists_
  · have head := ready.head
    show s.trail.propHead ≤ (s.trail.assignAt lit reason level).assignments.length
    omega
  · obtain ⟨value, apart⟩ := @Trail.Inv.assignAt_value _ ready.trail lit other reason level free defined
    refine ⟨value, ?_⟩
    unfold Trail.assignAt
    exact Function.update_of_ne apart _ _
  · -- The new literal is behind the examined part.
    rw [Trail.assignAt_trailIndex] at early
    have dequeued := ready.dequeued
    have head := ready.head
    split at early
    · omega
    · rename_i apart
      rw [Trail.assignAt_litVal, if_neg (fun same => apart (congrArg Lit.var same)),
        if_neg (fun same => apart ((congrArg Lit.var same).trans (Lit.negate_var lit))),
        undefined] at false_
      cases false_

theorem Ready.open (ready : Ready tracked done s) (all : done = s.trail.assignments.length) :
    Ready tracked done { s with trail := s.trail.newDecisionLevel } := by
  refine ⟨ready.trail.newDecisionLevel, ready.attached.withTrail _, ready.vars, ready.head,
    ready.dequeued, fun start mem => ?_, ?_⟩
  · rcases mem_append.mp mem with old | last
    · exact ready.opened start old
    · rw [mem_singleton.mp last]
      exact all.ge
  · intro number tracks lits live long watch lies false_ early
    obtain ⟨guard, lies', true_, started⟩ :=
      ready.guarded number tracks lits live long watch lies false_ early
    refine ⟨guard, lies', true_, ?_⟩
    -- The level of the guard existed before.
    have found := ready.trail.levelStart (@Trail.Inv.level_le _ ready.trail guard (by
      rw [true_]
      decide))
    have same : s.trail.newDecisionLevel.levelStart (s.trail.level guard.var) =
        s.trail.levelStart (s.trail.level guard.var) := by
      have inside_ := (List.getElem?_eq_some_iff.mp found).1
      unfold Trail.levelStart Trail.newDecisionLevel
      dsimp only
      rw [getElem?_append_left inside_]
    show s.trail.newDecisionLevel.levelStart (s.trail.level guard.var) ≤ _
    rw [same]
    exact started

theorem Ready.decide (ready : Ready tracked done s) (all : done = s.trail.assignments.length)
    {lit : Lit} (exists_ : lit.var < s.numVars) (free : s.trail.isAssigned lit.var = false) :
    Ready tracked done (s.decide lit) :=
  (ready.open all).assignAt .decision exists_ free le_rfl

theorem Ready.backtrack (ready : Ready tracked done s) {level : Nat}
    (lower : level < s.trail.currentLevel) :
    Ready tracked (min done (s.trail.levelStart (level + 1))) (s.backtrack level) := by
  have inv := ready.trail
  have start := inv.levelStart (succ_le_of_lt lower)
  obtain ⟨kept, -⟩ := inv.backtrackTo_eq lower
  have fields : (s.trail.backtrackTo level).levelStarts = s.trail.levelStarts.take (level + 1) ∧
      (s.trail.backtrackTo level).propHead =
        min s.trail.propHead (s.trail.levelStart (level + 1)) := by
    unfold Trail.backtrackTo
    rw [if_neg (not_le.mpr lower)]
    exact ⟨rfl, rfl⟩
  have began : ∀ {other : Nat}, other ≤ level →
      (s.trail.backtrackTo level).levelStart other = s.trail.levelStart other := by
    intro other small
    unfold Trail.levelStart
    rw [fields.1, getElem?_take_of_lt (lt_succ_of_le small)]
    have found := inv.levelStart (small.trans lower.le)
    rw [found, getD_some, getD_some]
  refine ⟨inv.backtrackTo level, ready.attached.withTrail _, fun lit mem => ?_, ?_, ?_,
    fun other mem => ?_, ?_⟩
  · have member_ : lit ∈ (s.trail.backtrackTo level).assignments := mem
    rw [kept] at member_
    exact ready.vars lit (mem_filter.mp member_).1
  · -- Everything before the boundary is kept.
    have low : s.trail.levelStart (level + 1) ≤ (s.trail.backtrackTo level).assignments.length := by
      have within := inv.within _ (mem_of_getElem? start)
      have same := congrArg length (inv.backtrackTo_take lower)
      rw [length_take, length_take, min_eq_left within] at same
      exact min_eq_left_iff.mp same
    show (s.trail.backtrackTo level).propHead ≤ _
    rw [fields.2]
    exact (min_le_right _ _).trans low
  · show _ ≤ (s.trail.backtrackTo level).propHead
    rw [fields.2]
    exact min_le_min_right _ ready.dequeued
  · have member_ : other ∈ (s.trail.backtrackTo level).levelStarts := mem
    rw [fields.1] at member_
    refine le_min (ready.opened other (mem_of_mem_take member_)) ?_
    obtain ⟨number, found⟩ := getElem?_of_mem member_
    rw [getElem?_take] at found
    split at found
    · rename_i small
      have order := inv.levelStart_mono (le_of_lt small) (succ_le_of_lt lower)
      have here := inv.levelStart ((le_of_lt_succ small).trans lower.le)
      rw [found] at here
      rw [some.inj here]
      exact order
    · cases found
  · intro number tracks lits live long watch lies false_ early
    have false' : (s.trail.backtrackTo level).litVal watch = -1 := false_
    have early' : (s.trail.backtrackTo level).trailIndex watch.var <
      min done (s.trail.levelStart (level + 1)) := early
    have defined : (s.trail.backtrackTo level).litVal watch ≠ 0 := by
      rw [false']
      decide
    have position := inv.backtrackTo_position lower defined (lt_min_iff.mp early').2
    have before : s.trail.litVal watch = -1 := by
      have value := inv.backtrackTo_value lower watch
      rw [false'] at value
      split at value
      · exact value.symm
      · cases value
    obtain ⟨guard, lies', true_, started⟩ := ready.guarded number tracks lits live long watch lies
      before (by rw [position]; exact (lt_min_iff.mp early').1)
    -- The guard's level started before the boundary, so the guard is kept.
    have small : s.trail.level guard.var ≤ level := by
      by_contra high
      have order : s.trail.levelStart (level + 1) ≤ s.trail.levelStart (s.trail.level guard.var) :=
        inv.levelStart_mono (Nat.succ_le_of_lt (Nat.lt_of_not_le high))
          (@Trail.Inv.level_le _ inv guard (by rw [true_]; decide))
      rw [position] at started
      have inside_ := (lt_min_iff.mp early').2
      omega
    have satisfied : (s.trail.backtrackTo level).litVal guard = 1 := by
      rw [inv.backtrackTo_value lower guard, if_pos small]
      exact true_
    obtain ⟨record, -⟩ := @Trail.Inv.backtrackTo_record _ inv level lower guard (by
      rw [satisfied]
      decide)
    refine ⟨guard, lies', satisfied, ?_⟩
    show (s.trail.backtrackTo level).levelStart ((s.trail.backtrackTo level).level guard.var) ≤
      (s.trail.backtrackTo level).trailIndex watch.var
    rw [record, began small, ← position]
    exact started

theorem Ready.remove (ready : Ready tracked done s) {id : Nat} {lits : Clause}
    (live : s.liveLits id = some lits) (long : 3 ≤ lits.length) :
    Ready tracked done (s.removeClause id) := by
  obtain ⟨trail, number⟩ := @removeClause_fields s id
  refine ⟨trail ▸ ready.trail, ready.attached.remove live long, ?_, trail ▸ ready.head,
    trail ▸ ready.dequeued, trail ▸ ready.opened, ?_⟩
  · rw [trail, number]
    exact ready.vars
  · intro other tracks lits' live'
    rw [liveLits_removeClause] at live'
    split at live'
    · cases live'
    · rw [trail]
      exact ready.guarded other tracks lits' live'

end

section

variable {s t u : Solver}

/-- No clause becomes shorter, and none becomes live. -/
def Shrinks (s t : Solver) : Prop :=
  ∀ id lits, t.liveLits id = some lits → ∃ old, s.liveLits id = some old ∧ old.Perm lits

theorem Progress.shrinks (progress : Progress s t) : Shrinks s t := fun _ _ live =>
  progress.rearranged.backward live

theorem Ready.apply {tracked : Nat → Prop} (ready : Ready tracked s.trail.propHead s) {op : Op}
    (permitted : Allowed s op) (done : s.apply op = some t) :
    Ready tracked t.trail.propHead t ∧ Shrinks s t := by
  obtain ⟨possible, idle⟩ := permitted
  have same : Shrinks s s := fun id lits live => ⟨lits, live, List.Perm.refl _⟩
  cases op with
  | decide lit =>
    obtain rfl := some.inj done
    exact ⟨ready.decide idle possible.1 possible.2, same⟩
  | force lit reason level =>
    obtain rfl := some.inj done
    exact ⟨ready.assignAt reason possible.1 possible.2.1 possible.2.2, same⟩
  | backtrack level =>
    obtain rfl := some.inj done
    rcases lt_or_ge level s.trail.currentLevel with lower | above
    · have back := ready.backtrack lower
      have head : (s.backtrack level).trail.propHead =
          min s.trail.propHead (s.trail.levelStart (level + 1)) := by
        unfold Solver.backtrack Trail.backtrackTo
        rw [if_neg (not_le.mpr lower)]
      rw [head]
      exact ⟨back, same⟩
    · have stays : s.backtrack level = s := by
        unfold Solver.backtrack Trail.backtrackTo
        rw [if_pos above]
      rw [stays]
      exact ⟨ready, same⟩
  | propagate =>
    obtain ⟨⟨u, outcome⟩, result, rfl⟩ := map_eq_some_iff.mp done
    obtain ⟨v, outcome', result', progress, ends⟩ := propagate_ends none ready
    rw [result] at result'
    cases result'
    refine ⟨?_, progress.shrinks⟩
    cases outcome with
    | fixpoint => exact ends.1
    | aborted => exact absurd rfl ends.1
    | conflict id => exact ends.1
  | probe lit limit =>
    obtain ⟨⟨u, outcome⟩, result, rfl⟩ := map_eq_some_iff.mp done
    obtain ⟨exists_, free, ground⟩ := possible
    have decided : Ready tracked (s.decide lit).trail.propHead (s.decide lit) :=
      ready.decide idle exists_ free
    obtain ⟨v, outcome', result', progress, ends⟩ := propagate_ends (some limit) decided
    rw [result] at result'
    cases result'
    have level : u.trail.currentLevel = 1 := by
      rw [(progress.steps.keeps decided.trail).1]
      show s.trail.currentLevel + 1 = 1
      rw [ground]
    -- Whatever was examined, the boundary of level one was.
    have before : ∃ examined, Ready tracked examined u := by
      cases outcome with
      | fixpoint => exact ⟨_, ends.1⟩
      | aborted => exact ⟨_, ends.2⟩
      | conflict id => exact ⟨_, ends.1⟩
    obtain ⟨examined, ready'⟩ := before
    have lower : 0 < u.trail.currentLevel := by omega
    have back := ready'.backtrack lower
    have started := ready'.opened _ (mem_of_getElem? (ready'.trail.levelStart
      (succ_le_of_lt lower)))
    have head : (u.backtrack 0).trail.propHead = min examined (u.trail.levelStart (0 + 1)) := by
      have dequeued := ready'.dequeued
      unfold Solver.backtrack Trail.backtrackTo
      rw [if_neg (not_le.mpr lower)]
      dsimp only
      rw [min_eq_right started, min_eq_right (started.trans dequeued)]
    rw [head]
    exact ⟨back, progress.shrinks⟩
  | remove id =>
    obtain rfl := some.inj done
    obtain ⟨lits, live, long, -⟩ := possible
    refine ⟨?_, fun other lits' live' => ?_⟩
    · rw [(@removeClause_fields s id).1]
      exact ready.remove live long
    · rw [liveLits_removeClause] at live'
      split at live'
      · cases live'
      · exact ⟨lits', live', List.Perm.refl _⟩

theorem load_long {numVars : Nat} {db : ClauseDb numVars} (watchable : db.Watchable) {id : Nat}
    {lits : Clause} (live : (Solver.load db).liveLits id = some lits) : 2 ≤ lits.length := by
  have stored : ∀ {clauses : List StoredClause} {s : Solver},
      (∀ id lits, s.liveLits id = some lits → 2 ≤ lits.length) →
      (∀ clause ∈ clauses, 2 ≤ clause.lits.length) → ∀ id lits,
        (clauses.foldl Solver.storeClause s).liveLits id = some lits → 2 ≤ lits.length := by
    intro clauses
    induction clauses with
    | nil => exact fun old _ => old
    | cons clause rest ih =>
      intro s old long
      refine ih (fun id lits found => ?_) fun other mem => long other (.tail _ mem)
      rw [liveLits_storeClause] at found
      split at found
      · split at found
        · cases found
        · cases found
          exact long clause (.head _)
      · exact old id lits found
  exact @stored db.clauses (Solver.new numVars) (fun _ _ found => (nomatch found)) watchable
    id lits live

theorem not_missed {trail : Trail} {lits : Clause} (either : (∃ lit ∈ lits, trail.litVal lit = 1) ∨
    ∃ first ∈ lits, ∃ second ∈ lits, first ≠ second ∧ trail.litVal first = 0 ∧
      trail.litVal second = 0) :
    ¬ (∀ lit ∈ lits, trail.litVal lit = -1) ∧ ¬ OpenUnit trail lits := by
  have lies : ∀ {lit}, lit ∈ lits → trail.litVal lit ≠ -1 → ∀ unit,
      lits.filter (fun other => trail.litVal other ≠ -1) = [unit] → lit = unit := by
    intro lit mem open_ unit single
    have kept : lit ∈ lits.filter fun other => trail.litVal other ≠ -1 :=
      mem_filter.mpr ⟨mem, by simpa using open_⟩
    rwa [single, mem_singleton] at kept
  rcases either with ⟨lit, mem, true_⟩ | ⟨first, mem, second, mem', apart, open_, open'⟩
  · refine ⟨fun all_ => ?_, fun ⟨unit, single, fresh⟩ => ?_⟩
    · rw [all_ lit mem] at true_
      cases true_
    · rw [lies mem (by rw [true_]; decide) unit single, fresh] at true_
      cases true_
  · refine ⟨fun all_ => ?_, fun ⟨unit, single, _⟩ => apart ?_⟩
    · rw [all_ first mem] at open_
      cases open_
    · exact (lies mem (by rw [open_]; decide) unit single).trans
        (lies mem' (by rw [open']; decide) unit single).symm

/-- In every run propagation misses no conflict and no unit, and reports falsified clauses only. -/
theorem reachable_complete {numVars : Nat} {db : ClauseDb numVars} (watchable : db.Watchable)
    {s : Solver} (run : Reachable Allowed (Solver.load db) s) : Complete s := by
  -- Every state of the run is ready, and its live clauses come from the database.
  have invariant : Ready (fun _ => True) s.trail.propHead s ∧ Shrinks (Solver.load db) s := by
    induction run with
    | start =>
      have empty : (Solver.load db).trail.propHead = 0 := Nat.le_zero.mp (by
          have ready := @ready_load (fun _ => True) _ db
          have stored : ∀ {clauses : List StoredClause} {s : Solver}, s.trail.propHead = 0 →
              (clauses.foldl Solver.storeClause s).trail.propHead = 0 := by
            intro clauses
            induction clauses with
            | nil => exact fun zero => zero
            | cons clause rest ih =>
              intro s zero
              exact ih (by rw [(@storeClause_fields s clause).1]; exact zero)
          exact (@stored db.clauses (Solver.new numVars) rfl).le)
      rw [empty]
      exact ⟨ready_load db, fun id lits live => ⟨lits, live, List.Perm.refl _⟩⟩
    | step _ op permitted done ih =>
      obtain ⟨ready, shrinks⟩ := ih.1.apply permitted done
      refine ⟨ready, fun id lits live => ?_⟩
      obtain ⟨middle, found, perm⟩ := shrinks id lits live
      obtain ⟨old, origin, perm'⟩ := ih.2 id middle found
      exact ⟨old, origin, perm'.trans perm⟩
  intro limit
  obtain ⟨t, outcome, result, progress, ends⟩ := propagate_ends limit invariant.1
  refine ⟨t, outcome, result, fun fixpoint id lits live => ?_, fun id conflict => ?_⟩
  · subst fixpoint
    obtain ⟨ready, all⟩ := ends
    obtain ⟨middle, found, perm⟩ := progress.rearranged.backward live
    obtain ⟨old, origin, perm'⟩ := invariant.2 id middle found
    have long : 2 ≤ lits.length := by
      rw [← perm.length_eq, ← perm'.length_eq]
      exact load_long watchable origin
    exact not_missed (ready.complete all trivial live long)
  · subst conflict
    exact ends.2

end

section

def ternary : ClauseDb 3 where
  clauses := [{ lits := [Lit.neg 0, Lit.pos 1, Lit.pos 2], learned := false, deleted := false }]
  alive := by simp
  distinct := by simp [Lit.neg, Lit.pos]
  below := by simp

def single : ClauseDb 1 where
  clauses := [{ lits := [Lit.pos 0], learned := true, deleted := false }]
  alive := by simp
  distinct := by simp
  below := by simp

/-- A literal is forced at a lower level, survives a backtrack, and is propagated again. -/
def forcedRun : List Op :=
  [.decide (Lit.pos 0), .propagate, .decide (Lit.pos 2), .force (Lit.neg 1) .theory 1, .backtrack 1]

/-- Propagation after a forced literal has survived a backtrack is complete. -/
theorem forcedRun_complete :
    ∃ s, forcedRun.foldlM Solver.apply (Solver.load ternary) = some s ∧ Complete s := by
  have watchable : ternary.Watchable := by simp [ClauseDb.Watchable, ternary]
  have first := @Reachable.step Allowed (Solver.load ternary) _ _ .start (.decide (Lit.pos 0))
    ⟨⟨by decide, by decide⟩, by decide⟩ rfl
  have second := first.step .propagate ⟨trivial, trivial⟩ rfl
  have third := second.step (.decide (Lit.pos 2)) ⟨⟨by decide, by decide⟩, by decide⟩ rfl
  have fourth := third.step (.force (Lit.neg 1) .theory 1)
    ⟨⟨by decide, by decide, by decide⟩, trivial⟩ rfl
  have fifth := fourth.step (.backtrack 1) ⟨trivial, trivial⟩ rfl
  exact ⟨_, rfl, reachable_complete watchable fifth⟩

/--
Two kinds of runs miss a unit clause.

A decision over a pending literal parks a watch on the decision, and backtracking does not put the
literal back.
A clause of one literal is not watched at all.
-/
theorem propagate_incomplete :
    (¬ ∀ {numVars : Nat} {db : ClauseDb numVars}, db.Watchable → ∀ {s : Solver},
      Reachable Possible (Solver.load db) s → Complete s) ∧
    ¬ ∀ {numVars : Nat} {db : ClauseDb numVars} {s : Solver},
      Reachable Allowed (Solver.load db) s → Complete s := by
  constructor
  · intro always
    have watchable : ternary.Watchable := by simp [ClauseDb.Watchable, ternary]
    have first := @Reachable.step Possible (Solver.load ternary) _ _ .start (.decide (Lit.pos 0))
      ⟨by decide, by decide⟩ rfl
    have second := first.step (.decide (Lit.pos 1)) ⟨by decide, by decide⟩ rfl
    have third := second.step .propagate trivial rfl
    have fourth := third.step (.backtrack 1) trivial rfl
    have fifth := fourth.step (.force (Lit.neg 1) .theory 1) ⟨by decide, by decide, by decide⟩ rfl
    obtain ⟨t, outcome, result, fixpoint, -⟩ := always watchable fifth none
    cases result
    exact (fixpoint rfl 0 [Lit.neg 0, Lit.pos 2, Lit.pos 1] rfl).2 ⟨Lit.pos 2, by decide, by decide⟩
  · intro always
    obtain ⟨t, outcome, result, fixpoint, -⟩ := always (@Reachable.start Allowed (Solver.load single)) none
    cases result
    exact (fixpoint rfl 0 [Lit.pos 0] rfl).2 ⟨Lit.pos 0, by decide, by decide⟩

end

end Nixie.Sat.Search
