import Nixie.Sat.Search.AddClause

/-! Adding a clause in the middle of a search: literals may have values at any level. -/

namespace Nixie.Sat.Search

open List

/-- What is to be done with a clause before its watches are chosen. -/
inductive PreAttachOutcome where
  | ordinary
  | unconditionalConflict
  /-- Every other literal is false at level zero. -/
  | forceUnitAtLevelZero (lit : Lit)
  deriving DecidableEq, Repr

/--
Scan the literals of a clause: whether one is true at level zero, the highest level of a false
literal, and the other literals.

A literal that is true above level zero counts as undefined, because a backtrack makes it so.
-/
def scanClauseForAttach (trail : Trail) : Clause → Nat → List Lit → Bool × Nat × List Lit
  | [], maxFalseLevel, undefined => (false, maxFalseLevel, undefined)
  | lit :: rest, maxFalseLevel, undefined =>
    if trail.litVal lit > 0 then
      if trail.level lit.var = 0 then (true, maxFalseLevel, undefined)
      else scanClauseForAttach trail rest maxFalseLevel (undefined ++ [lit])
    else if trail.litVal lit < 0 then
      scanClauseForAttach trail rest (max maxFalseLevel (trail.level lit.var)) undefined
    else scanClauseForAttach trail rest maxFalseLevel (undefined ++ [lit])

def PreAttachOutcome.ofUndefined : List Lit → PreAttachOutcome
  | [] => .unconditionalConflict
  | [lit] => .forceUnitAtLevelZero lit
  | _ => .ordinary

namespace Solver

/-- Decide what to do with a clause, and backtrack if its false literals may be taken back. -/
def preCheckEffectiveUnit (s : Solver) (lits : Clause) : Solver × PreAttachOutcome :=
  match scanClauseForAttach s.trail lits 0 [] with
  | (hasTrue, maxFalseLevel, undefined) =>
    if hasTrue || undefined.length ≥ 2 then (s, .ordinary)
    else if maxFalseLevel > 0 then
      let s := s.backtrack 0
      (s, .ofUndefined (scanClauseForAttach s.trail lits 0 []).2.2)
    else match undefined with
      | [] => (s, .unconditionalConflict)
      | lit :: _ =>
          (if s.trail.currentLevel > 0 then s.backtrack 0 else s, .forceUnitAtLevelZero lit)

def addUnit (s : Solver) (lit : Lit) : Solver × Bool :=
  let fact (s : Solver) : Solver := { s with trail := s.trail.assign lit .decision }
  if s.trail.litVal lit < 0 then
    if s.trail.level lit.var = 0 then (s, false) else (fact (s.backtrack 0), true)
  else if s.trail.litVal lit > 0 then
    if s.trail.level lit.var = 0 then (s, true) else (fact (s.backtrack 0), true)
  else (fact (if s.trail.currentLevel > 0 then s.backtrack 0 else s), true)

/-- Store a clause of at least two literals, and force its only literal that can be true. -/
def addLong (s : Solver) (lits : Clause) : Solver × Bool :=
  let original (ordered : Clause) : StoredClause :=
    { lits := ordered, learned := false, deleted := false }
  if lits.length = 2 ∧ ∃ lit ∈ lits, s.trail.litVal lit > 0 ∧ s.trail.level lit.var = 0 then
    (s.storeClause (original lits), true)
  else
    match s.preCheckEffectiveUnit lits with
    | (s, .unconditionalConflict) => (s, false)
    | (s, outcome) =>
      let stored := s.storeClause
        (original (if lits.length = 2 then lits else watchOrder s.trail lits))
      match outcome with
      | .forceUnitAtLevelZero forced =>
          (stored.force forced (.propagation s.clauses.length) 0, true)
      | _ => (stored, true)

/-- Add a clause at any level, after folded variables were resolved. -/
def addClauseMidSearch (s : Solver) (resolve : Lit → Lit) (lits : Clause) : Solver × Bool :=
  let resolved := lits.map resolve
  let s := s.ensureVars resolved
  let lits := sortedLits resolved
  if tautological lits then (s, true)
  else match lits with
    | [] => (s, false)
    | [lit] => s.addUnit lit
    | lits => s.addLong lits

end Solver

/--
The states that calls reach, while clauses and variables are added.

Adding or learning a clause is a backtrack, a stored clause and a forced literal.
-/
inductive Later (start : Solver) : Solver → Prop where
  | start : Later start start
  | call {s t : Solver} (before : Later start s) (op : Op) (permitted : Allowed s op)
      (done : s.apply op = some t) : Later start t
  | store {s : Solver} (before : Later start s) (clause : StoredClause)
      (alive : clause.deleted = false) (nodup : clause.lits.Nodup)
      (below : ∀ lit ∈ clause.lits, lit.var < s.numVars) : Later start (s.storeClause clause)
  | grow {s : Solver} (before : Later start s) (lits : List Lit) : Later start (s.ensureVars lits)

/-- Whenever propagation ends later, the clause is neither falsified nor unit, unless retired. -/
def NeverMissed (start : Solver) (id : Nat) (lits : Clause) : Prop :=
  ∀ s, Later start s → ∀ limit t, s.propagate limit = some (t, .fixpoint) →
    (t.liveLits id).isSome → ¬ (∀ lit ∈ lits, t.trail.litVal lit = -1) ∧ ¬ OpenUnit t.trail lits

/-- The literal has the value at level zero. -/
def AtRoot (trail : Trail) (lit : Lit) (value : Int) : Prop :=
  trail.litVal lit = value ∧ trail.level lit.var = 0

section

variable {s t start : Solver} {id : Nat} {lits : Clause}

/-- The clause is watched, and it is the one that was added. -/
structure Kept (id : Nat) (lits : Clause) (s : Solver) : Prop where
  ready : Ready (· = id) s.trail.propHead s
  stored : id < s.clauses.length
  same : ∀ found, s.liveLits id = some found → lits.Perm found

theorem Progress.length (progress : Progress s t) : t.clauses.length = s.clauses.length := by
  simpa using congrArg List.length progress.flags

theorem apply_length {op : Op} (ready : Ready (· = id) s.trail.propHead s)
    (permitted : Allowed s op) (done : s.apply op = some t) :
    t.clauses.length = s.clauses.length := by
  cases op with
  | decide | force | backtrack =>
    cases done
    rfl
  | propagate =>
    obtain ⟨⟨u, outcome⟩, result, rfl⟩ := Option.map_eq_some_iff.mp done
    obtain ⟨_, _, result', progress, -⟩ := propagate_ends none ready
    rw [result] at result'
    cases result'
    exact progress.length
  | probe lit limit =>
    obtain ⟨⟨u, outcome⟩, result, rfl⟩ := Option.map_eq_some_iff.mp done
    obtain ⟨⟨exists_, free, -⟩, idle⟩ := permitted
    have decided : Ready (· = id) (s.decide lit).trail.propHead (s.decide lit) :=
      ready.decide idle exists_ free
    obtain ⟨_, _, result', progress, -⟩ := propagate_ends (some limit) decided
    rw [result] at result'
    cases result'
    exact progress.length
  | remove other =>
    cases done
    exact length_modify _ _ _

theorem Later.ready {numVars : Nat} (run : Later (Solver.new numVars) s) :
    Ready (fun _ => False) s.trail.propHead s := by
  induction run with
  | start => exact ready_new (attached_new numVars) rfl
  | call _ op permitted done ih => exact (ih.apply permitted done).1
  | @store u _ clause alive nodup below ih =>
    rw [(@storeClause_fields u clause).1]
    exact ih.store alive nodup below fun _ none => none.elim
  | grow _ lits ih => exact ih.ensureVars lits

theorem Kept.later (kept : Kept id lits start) (run : Later start s) : Kept id lits s := by
  induction run with
  | start => exact kept
  | call _ op permitted done ih =>
    obtain ⟨ready, shrinks⟩ := ih.ready.apply permitted done
    refine ⟨ready, (apply_length ih.ready permitted done).symm ▸ ih.stored, fun found live => ?_⟩
    obtain ⟨old, before, perm⟩ := shrinks id found live
    exact (ih.same old before).trans perm
  | @store u _ clause alive nodup below ih =>
    refine ⟨?_, ?_, fun found live => ?_⟩
    · rw [(@storeClause_fields u clause).1]
      exact ih.ready.store alive nodup below fun _ same => same ▸ ih.stored
    · rw [storeClause_clauses, length_append]
      exact Nat.lt_add_right _ ih.stored
    · rw [liveLits_storeClause, if_neg (Nat.ne_of_lt ih.stored)] at live
      exact ih.same found live
  | grow _ lits ih => exact ⟨ih.ready.ensureVars lits, ih.stored, ih.same⟩

theorem Kept.neverMissed (kept : Kept id lits start) (long : 2 ≤ lits.length) :
    NeverMissed start id lits := by
  intro s run limit t result live
  have before := kept.later run
  obtain ⟨_, _, result', progress, ends⟩ := propagate_ends limit before.ready
  rw [result] at result'
  cases result'
  obtain ⟨ready, all⟩ := ends
  obtain ⟨found, live⟩ := Option.isSome_iff_exists.mp live
  obtain ⟨old, live', perm⟩ := progress.rearranged.backward live
  have same := (before.same old live').trans perm
  have members : ∀ {lit}, lit ∈ found → lit ∈ lits := same.mem_iff.mpr
  refine not_missed ?_
  rcases ready.complete all rfl live (same.length_eq ▸ long) with ⟨lit, mem, true_⟩ |
    ⟨first, mem, second, mem', open_⟩
  · exact .inl ⟨lit, members mem, true_⟩
  · exact .inr ⟨first, members mem, second, members mem', open_⟩

end

section

variable {s t : Solver} {tracked : Nat → Prop} {lits : Clause}

theorem backtrack_stays (ground : s.trail.currentLevel = 0) : s.backtrack 0 = s := by
  unfold Solver.backtrack Trail.backtrackTo
  rw [if_pos ground.le]

theorem backtrack_values (inv : s.trail.Inv) (lit : Lit) :
    (s.backtrack 0).trail.litVal lit = if s.trail.level lit.var = 0 then s.trail.litVal lit else 0 := by
  rcases Nat.eq_zero_or_pos s.trail.currentLevel with ground | lower
  · rw [backtrack_stays ground]
    split
    · rfl
    · rename_i high
      by_contra defined
      have level := inv.level_le defined
      omega
  · have value := inv.backtrackTo_value lower lit
    simp only [Nat.le_zero] at value
    exact value

theorem backtrack_root (inv : s.trail.Inv) {lit : Lit}
    (defined : (s.backtrack 0).trail.litVal lit ≠ 0) : (s.backtrack 0).trail.level lit.var = 0 := by
  have level : _ ≤ (s.backtrack 0).trail.currentLevel := (inv.backtrackTo 0).level_le defined
  rw [backtrack_ground] at level
  exact Nat.le_zero.mp level

theorem backtrack_atRoot (inv : s.trail.Inv) {lit : Lit} {value : Int} (defined : value ≠ 0) :
    AtRoot (s.backtrack 0).trail lit value ↔ AtRoot s.trail lit value := by
  have same := backtrack_values inv lit
  constructor
  · rintro ⟨here, -⟩
    rw [here] at same
    split at same
    · rename_i level
      exact ⟨same.symm, level⟩
    · exact absurd same defined
  · rintro ⟨here, level⟩
    rw [if_pos level, here] at same
    exact ⟨same, backtrack_root inv (same ▸ defined)⟩

theorem Ready.ground (ready : Ready tracked s.trail.propHead s) :
    Ready tracked (s.backtrack 0).trail.propHead (s.backtrack 0) :=
  (@Ready.apply s _ _ ready (.backtrack 0) ⟨trivial, trivial⟩ rfl).1

theorem scan_spec {trail : Trail} (inv : trail.Inv) : ∀ {level : Nat} {undefined : List Lit},
    ((scanClauseForAttach trail lits level undefined).1 = true ∧ ∃ lit ∈ lits, AtRoot trail lit 1) ∨
    ∃ level', scanClauseForAttach trail lits level undefined =
        (false, level', undefined ++ lits.filter fun lit => trail.litVal lit ≠ -1) ∧
      (∀ lit ∈ lits, ¬ AtRoot trail lit 1) ∧ level ≤ level' ∧
      ∀ lit ∈ lits, trail.litVal lit = -1 → trail.level lit.var ≤ level' := by
  induction lits with
  | nil => exact fun {level undefined} => .inr ⟨level, by simp [scanClauseForAttach]⟩
  | cons lit rest ih =>
    intro level undefined
    unfold scanClauseForAttach
    rcases inv.value_cases lit with value | value | value
    · by_cases ground : trail.level lit.var = 0
      · exact .inl ⟨by simp [value, ground], lit, .head _, value, ground⟩
      · rcases @ih level (undefined ++ [lit]) with ⟨found, other, mem, fact⟩ |
          ⟨level', same, none_, low, high⟩
        · exact .inl ⟨by simpa [value, ground] using found, other, .tail _ mem, fact⟩
        · exact .inr ⟨level', by simp [value, ground, same], by simpa [AtRoot, ground] using none_, low,
            by simpa [value] using high⟩
    · rcases @ih (max level (trail.level lit.var)) undefined with ⟨found, other, mem, fact⟩ |
        ⟨level', same, none_, low, high⟩
      · exact .inl ⟨by simpa [value] using found, other, .tail _ mem, fact⟩
      · obtain ⟨low, here⟩ := max_le_iff.mp low
        exact .inr ⟨level', by simp [value, same], by simpa [AtRoot, value] using none_, low,
          forall_mem_cons.mpr ⟨fun _ => here, high⟩⟩
    · rcases @ih level (undefined ++ [lit]) with ⟨found, other, mem, fact⟩ |
        ⟨level', same, none_, low, high⟩
      · exact .inl ⟨by simpa [value] using found, other, .tail _ mem, fact⟩
      · exact .inr ⟨level', by simp [value, same], by simpa [AtRoot, value] using none_, low,
          by simpa [value] using high⟩

def PreAttachOutcome.Means (trail : Trail) (lits : Clause) : PreAttachOutcome → Prop
  | .ordinary => ∃ first ∈ lits, ∃ second ∈ lits, first ≠ second ∧ trail.litVal first ≠ -1 ∧
      trail.litVal second ≠ -1
  | .unconditionalConflict => ∀ lit ∈ lits, AtRoot trail lit (-1)
  | .forceUnitAtLevelZero lit => lit ∈ lits ∧ ∀ other ∈ lits, other ≠ lit → AtRoot trail other (-1)

theorem ofUndefined_means {trail : Trail} (nodup : lits.Nodup)
    (root : ∀ lit ∈ lits, trail.litVal lit = -1 → trail.level lit.var = 0) :
    (PreAttachOutcome.ofUndefined (lits.filter fun lit => trail.litVal lit ≠ -1)).Means trail lits := by
  have lies : ∀ lit, lit ∈ lits.filter (fun lit => trail.litVal lit ≠ -1) ↔
      lit ∈ lits ∧ trail.litVal lit ≠ -1 := fun lit => by simp
  match found : lits.filter fun lit => trail.litVal lit ≠ -1 with
  | [] =>
    intro lit mem
    by_contra open_
    have := (lies lit).mpr ⟨mem, fun false_ => open_ ⟨false_, root lit mem false_⟩⟩
    rw [found] at this
    cases this
  | [lit] =>
    refine ⟨((lies lit).mp (found ▸ .head _)).1, fun other mem apart => ?_⟩
    by_contra open_
    have := (lies other).mpr ⟨mem, fun false_ => open_ ⟨false_, root other mem false_⟩⟩
    rw [found, mem_singleton] at this
    exact apart this
  | _ :: _ :: _ =>
    obtain ⟨first, mem, second, mem', apart, open_, open'⟩ :=
      two_kept (fun lit => trail.litVal lit ≠ -1) nodup (by rw [found]; simp)
    exact ⟨first, mem, second, mem', apart, by simpa using open_, by simpa using open'⟩

theorem preCheck_spec (inv : s.trail.Inv) (nodup : lits.Nodup) {outcome : PreAttachOutcome}
    (done : s.preCheckEffectiveUnit lits = (t, outcome)) : (t = s ∨ t = s.backtrack 0) ∧
      ((∃ lit ∈ lits, AtRoot s.trail lit 1) ∧ t = s ∧ outcome = .ordinary ∨
        outcome.Means t.trail lits) := by
  unfold Solver.preCheckEffectiveUnit at done
  rcases @scan_spec lits _ inv 0 [] with ⟨found, satisfied⟩ | ⟨level, scan, none_, -, high⟩
  · -- The clause is satisfied at level zero.
    simp only [found, Bool.true_or, if_true] at done
    cases done
    exact ⟨.inl rfl, .inl ⟨satisfied, rfl, rfl⟩⟩
  · rw [scan, nil_append] at done
    dsimp only at done
    split at done
    · rename_i several
      cases done
      obtain ⟨first, mem, second, mem', apart, open_, open'⟩ :=
        two_kept (fun lit => s.trail.litVal lit ≠ -1) nodup (by simpa using several)
      exact ⟨.inl rfl, .inr ⟨first, mem, second, mem', apart, by simpa using open_,
        by simpa using open'⟩⟩
    · rename_i few
      split at done
      · -- After the backtrack every value is at level zero.
        cases done
        refine ⟨.inr rfl, .inr ?_⟩
        rcases @scan_spec lits _ (inv.backtrackTo 0) 0 [] with ⟨-, lit, mem, root⟩ |
          ⟨level', scan', -⟩
        · exact absurd ((backtrack_atRoot inv (by decide)).mp root) (none_ lit mem)
        · show (PreAttachOutcome.ofUndefined
            (scanClauseForAttach (s.trail.backtrackTo 0) lits 0 []).2.2).Means _ _
          rw [scan', nil_append]
          exact ofUndefined_means nodup fun lit _ false_ =>
            backtrack_root inv (by rw [show (s.backtrack 0).trail.litVal lit = -1 from false_]; decide)
      · rename_i zero
        -- The false literals are at level zero already.
        have means := ofUndefined_means nodup fun lit mem false_ =>
          Nat.le_zero.mp ((high lit mem false_).trans (Nat.le_of_not_lt zero))
        match found : lits.filter fun lit => s.trail.litVal lit ≠ -1 with
        | [] =>
          rw [found] at done means
          cases done
          exact ⟨.inl rfl, .inr means⟩
        | [lit] =>
          rw [found] at done means
          obtain ⟨mem, others⟩ := means
          have back : (if s.trail.currentLevel > 0 then s.backtrack 0 else s) = s.backtrack 0 := by
            split
            · rfl
            · exact (backtrack_stays (by omega)).symm
          cases done
          rw [back]
          exact ⟨.inr rfl, .inr ⟨mem, fun other lies apart =>
            (backtrack_atRoot inv (by decide)).mpr (others other lies apart)⟩⟩
        | _ :: _ :: _ =>
          rw [found] at few
          simp at few

/-- Where a clause stands after it was added. -/
inductive Attachment (id : Nat) (t : Solver) (flag : Bool) (lits : Clause) : Prop where
  | satisfied (lit : Lit) (member : lit ∈ lits) (root : AtRoot t.trail lit 1)
  /-- It is falsified for good, and the formula is known to be unsatisfiable. -/
  | conflict (recorded : flag = false) (root : ∀ lit ∈ lits, AtRoot t.trail lit (-1))
  /-- Its other literals are false at level zero, and so it has been assigned there. -/
  | assigned (lit : Lit) (member : lit ∈ lits) (root : AtRoot t.trail lit 1)
      (others : ∀ other ∈ lits, other ≠ lit → AtRoot t.trail other (-1))
  | tautology (lit : Lit) (member : lit ∈ lits) (complement : lit.negate ∈ lits)
  | watched (stored : Clause) (live : t.liveLits id = some stored)
      (perm : stored.Perm lits) (never : NeverMissed t id stored)

theorem assign_atRoot {trail : Trail} (ground : trail.currentLevel = 0) (lit : Lit) :
    AtRoot (trail.assign lit .decision) lit 1 := by
  refine ⟨?_, ?_⟩
  · rw [Trail.assign, Trail.assignAt_litVal, if_pos rfl]
  · rw [Trail.assign, Trail.assignAt_level, if_pos rfl, ground]

theorem addUnit_placed (inv : s.trail.Inv) {lit : Lit} {flag : Bool}
    (done : s.addUnit lit = (t, flag)) : Attachment s.clauses.length t flag [lit] := by
  have fact : ∀ {u : Solver}, u.trail.currentLevel = 0 →
      Attachment s.clauses.length { u with trail := u.trail.assign lit .decision } true [lit] :=
    fun ground => .satisfied lit (.head _) (assign_atRoot ground lit)
  unfold Solver.addUnit at done
  dsimp only at done
  rcases inv.value_cases lit with value | value | value
  · by_cases root : s.trail.level lit.var = 0
    · simp only [value, root] at done
      cases done
      exact .satisfied lit (.head _) ⟨value, root⟩
    · simp only [value, root] at done
      cases done
      exact fact (backtrack_ground s)
  · by_cases root : s.trail.level lit.var = 0
    · simp only [value, root] at done
      cases done
      exact .conflict rfl fun other mem => (mem_singleton.mp mem) ▸ ⟨value, root⟩
    · simp only [value, root] at done
      cases done
      exact fact (backtrack_ground s)
  · simp only [value] at done
    cases done
    refine fact ?_
    split
    · exact backtrack_ground s
    · omega

theorem Ready.watch (ready : Ready (fun _ => False) s.trail.propHead s) {stored : Clause}
    (perm : stored.Perm lits) (nodup : lits.Nodup) (below : ∀ lit ∈ lits, lit.var < s.numVars)
    (long : 2 ≤ lits.length) (open_ : ∀ watch ∈ stored.take 2, s.trail.litVal watch ≠ -1) :
    Attachment s.clauses.length
      (s.storeClause { lits := stored, learned := false, deleted := false }) true lits := by
  have live : (s.storeClause { lits := stored, learned := false, deleted := false }).liveLits
      s.clauses.length = some stored := by
    rw [liveLits_storeClause, if_pos rfl]
    rfl
  have kept := @Ready.store s _ _ ready { lits := stored, learned := false, deleted := false } rfl
    (perm.nodup_iff.mpr nodup) (fun lit mem => below lit (perm.mem_iff.mp mem))
    fun _ none => none.elim
  obtain ⟨trail, -⟩ := @storeClause_fields s { lits := stored, learned := false, deleted := false }
  refine .watched stored live perm (Kept.neverMissed ⟨?_, ?_, fun found same => ?_⟩
    (perm.length_eq ▸ long))
  · rw [trail]
    refine kept.track fun id same => .inr ?_
    intro number here lits found _ watch lies false_
    rw [here, same, live] at found
    cases found
    rw [trail] at false_
    exact absurd false_ (open_ watch lies)
  · rw [storeClause_clauses]
    simp
  · rw [live] at same
    exact Option.some.inj same ▸ .refl _

theorem addLong_placed (ready : Ready (fun _ => False) s.trail.propHead s) (nodup : lits.Nodup)
    (below : ∀ lit ∈ lits, lit.var < s.numVars) (long : 2 ≤ lits.length) {flag : Bool}
    (done : s.addLong lits = (t, flag)) : Attachment s.clauses.length t flag lits := by
  have inv := ready.trail
  have satisfied : ∀ {stored : StoredClause}, (∃ lit ∈ lits, AtRoot s.trail lit 1) →
      Attachment s.clauses.length (s.storeClause stored) true lits := fun ⟨lit, mem, root⟩ =>
    .satisfied lit mem (by rwa [(@storeClause_fields s _).1])
  unfold Solver.addLong at done
  dsimp only at done
  split at done
  · rename_i permanent
    cases done
    obtain ⟨-, lit, mem, pos, root⟩ := permanent
    refine satisfied ⟨lit, mem, ?_, root⟩
    rcases inv.value_cases lit with value | value | value <;> rw [value] at pos ⊢ <;>
      simp at pos
  · have spec := fun {u outcome} => @preCheck_spec s u lits inv nodup outcome
    split at done
    · rename_i u check
      cases done
      obtain ⟨-, ⟨-, -, none⟩ | means⟩ := spec check
      · cases none
      · exact .conflict rfl means
    · rename_i u outcome _ check
      obtain ⟨state, ⟨root, same, ordinary⟩ | means⟩ := spec check
      · subst same ordinary
        cases done
        exact satisfied root
      · have ready' : Ready (fun _ => False) u.trail.propHead u ∧
            u.clauses.length = s.clauses.length ∧ u.numVars = s.numVars := by
          rcases state with rfl | rfl
          · exact ⟨ready, rfl, rfl⟩
          · exact ⟨ready.ground, rfl, rfl⟩
        obtain ⟨ready', length, number⟩ := ready'
        rw [← length]
        cases outcome with
        | ordinary =>
          cases done
          obtain ⟨first, mem, second, mem', apart, open_, open'⟩ := means
          exact ready'.watch (watches_perm _ _) nodup (number ▸ below) long
            (watches_open ready'.trail mem mem' apart open_ open')
        | unconditionalConflict => exact absurd rfl (by assumption)
        | forceUnitAtLevelZero forced =>
          cases done
          obtain ⟨mem, others⟩ := means
          have trail : ∀ stored, (u.storeClause stored).trail = u.trail :=
            fun stored => (@storeClause_fields u stored).1
          refine .assigned forced mem ?_ fun other lies apart => ?_
          · simp [AtRoot, Solver.force, Trail.assignAt_litVal, Trail.assignAt_level]
          · obtain ⟨false_, root⟩ := others other lies apart
            simp [AtRoot, Solver.force, Trail.assignAt_litVal, Trail.assignAt_level, trail, apart,
              false_, root]

theorem addClauseMidSearch_attached (ready : Ready (fun _ => False) s.trail.propHead s)
    {resolve : Lit → Lit} {flag : Bool} (done : s.addClauseMidSearch resolve lits = (t, flag)) :
    Attachment s.clauses.length t flag (sortedLits (lits.map resolve)) := by
  have grown := ready.ensureVars (lits.map resolve)
  have nodup : (sortedLits (lits.map resolve)).Nodup := nodup_dedup _
  have below : ∀ lit ∈ sortedLits (lits.map resolve), lit.var < (s.ensureVars (lits.map resolve)).numVars :=
    fun lit member => ensureVars_lt (mem_sortedLits.mp member)
  unfold Solver.addClauseMidSearch at done
  dsimp only at done
  split at done
  · rename_i tautology
    obtain ⟨⟨left, right⟩, pair, same⟩ := any_eq_true.mp tautology
    obtain ⟨first, second⟩ := of_mem_zip pair
    have opposite : left = right.negate := by simpa using same
    exact .tautology right (mem_of_mem_tail second) (opposite ▸ first)
  · split at done
    · rename_i empty
      cases done
      exact .conflict rfl fun lit none => by
        rw [empty] at none
        cases none
    · rename_i lit single
      rw [single]
      exact addUnit_placed grown.trail done
    · rename_i notNil notSingle
      refine addLong_placed grown nodup below ?_ done
      match found : sortedLits (lits.map resolve) with
      | [] => exact (notNil found).elim
      | [lit] => exact (notSingle lit found).elim
      | _ :: _ :: _ => simp

theorem decided_attached : ∃ t, ((Solver.new 2).decide (Lit.pos 0)).addClauseMidSearch id
    [Lit.pos 1, Lit.neg 0] = (t, true) ∧ t.trail.currentLevel = 0 ∧
      t.liveLits 0 = some [Lit.neg 0, Lit.pos 1] ∧
      Attachment 0 t true (sortedLits ([Lit.pos 1, Lit.neg 0].map id)) := by
  have run := (@Later.start (Solver.new 2)).call (.decide (Lit.pos 0))
    ⟨⟨by decide, by decide⟩, by decide⟩ rfl
  exact ⟨_, rfl, rfl, rfl, addClauseMidSearch_attached run.ready rfl⟩

end

end Nixie.Sat.Search
