import Nixie.Sat.Search.Runs

/-! Reasons of assigned literals, and what follows from the formula because of them. -/

namespace Nixie.Sat.Search

/--
Every propagated literal has a live reason clause.

The other literals of the clause are false, were assigned before, and have no higher level.
-/
def Justified (live : Nat → Option Clause) (trail : Trail) : Prop :=
  ∀ lit, trail.litVal lit = 1 → ∀ id, (trail.varInfo lit.var).reason = .propagation id →
    ∃ lits, live id = some lits ∧ lit ∈ lits ∧ ∀ other ∈ lits, other ≠ lit →
      trail.litVal other = -1 ∧ trail.trailIndex other.var < trail.trailIndex lit.var ∧
        trail.level other.var ≤ trail.level lit.var

/-- Literals of level zero without a reason clause follow from the formula. -/
def Factual (formula : Cnf) (trail : Trail) : Prop :=
  ∀ lit, trail.litVal lit = 1 → trail.level lit.var = 0 →
    (∀ id, (trail.varInfo lit.var).reason ≠ .propagation id) → Entails formula [lit]

section

variable {live live' : Nat → Option Clause} {trail first second : Trail} {formula : Cnf}

theorem Justified.mono (justified : Justified live trail)
    (kept : ∀ lit, trail.litVal lit = 1 → ∀ id, (trail.varInfo lit.var).reason = .propagation id →
      ∀ lits, live id = some lits → ∃ new, live' id = some new ∧ lits.Perm new) :
    Justified live' trail := by
  intro lit true_ id reason
  obtain ⟨lits, found, mem, others⟩ := justified lit true_ id reason
  obtain ⟨new, found', perm⟩ := kept lit true_ id reason lits found
  exact ⟨new, found', perm.mem_iff.mp mem, fun other lies =>
    others other (perm.mem_iff.mpr lies)⟩

theorem Justified.assignAt (justified : Justified live trail) (inv : trail.Inv) {lit : Lit}
    {reason : Reason} {level : Nat} (free : trail.isAssigned lit.var = false)
    (supported : ∀ id, reason = .propagation id → ∃ lits, live id = some lits ∧ lit ∈ lits ∧
      ∀ other ∈ lits, other ≠ lit → trail.litVal other = -1 ∧ trail.level other.var ≤ level) :
    Justified live (trail.assignAt lit reason level) := by
  -- What a literal of another variable keeps.
  have kept : ∀ {other : Lit}, trail.litVal other ≠ 0 →
      (trail.assignAt lit reason level).litVal other = trail.litVal other ∧
        (trail.assignAt lit reason level).trailIndex other.var = trail.trailIndex other.var ∧
        (trail.assignAt lit reason level).level other.var = trail.level other.var := by
    intro other defined
    obtain ⟨value, apart⟩ := @Trail.Inv.assignAt_value _ inv lit other reason level free defined
    rw [Trail.assignAt_trailIndex, Trail.assignAt_level, if_neg apart, if_neg apart]
    exact ⟨value, rfl, rfl⟩
  intro other true_ id found
  rw [Trail.assignAt_reason] at found
  rw [Trail.assignAt_litVal] at true_
  by_cases here : other = lit
  · subst here
    rw [if_pos rfl] at found
    obtain ⟨lits, clause, mem, others⟩ := supported id found
    refine ⟨lits, clause, mem, fun side lies apart => ?_⟩
    obtain ⟨false_, bound⟩ := others side lies apart
    have defined : trail.litVal side ≠ 0 := by
      rw [false_]
      decide
    obtain ⟨value, index, level_⟩ := kept defined
    refine ⟨value.trans false_, ?_, ?_⟩
    · rw [index, Trail.assignAt_trailIndex, if_pos rfl]
      exact inv.defined_lt defined
    · rw [level_, Trail.assignAt_level, if_pos rfl]
      exact bound
  · rw [if_neg here] at true_
    by_cases flipped : other = lit.negate
    · rw [if_pos flipped] at true_
      cases true_
    · rw [if_neg flipped] at true_
      have defined : trail.litVal other ≠ 0 := by
        rw [true_]
        decide
      obtain ⟨-, apart⟩ := @Trail.Inv.assignAt_value _ inv lit other reason level free defined
      obtain ⟨-, index, level_⟩ := kept defined
      rw [if_neg apart] at found
      obtain ⟨lits, clause, mem, others⟩ := justified other true_ id found
      refine ⟨lits, clause, mem, fun side lies apart_ => ?_⟩
      obtain ⟨false_, before, bound⟩ := others side lies apart_
      obtain ⟨value, index', level_'⟩ := @kept side (by rw [false_]; decide)
      rw [value, index', level_', index, level_]
      exact ⟨false_, before, bound⟩

theorem UnitSteps.justified (steps : UnitSteps live first second) (inv : first.Inv)
    (justified : Justified live first) : Justified live second := by
  induction steps with
  | refl => exact justified
  | unit before found mem fresh falsified ih =>
    have inv' := before.inv inv
    refine ih.assignAt inv' (inv'.unassigned_iff.mpr fresh) fun id same => ?_
    cases same
    refine ⟨_, found, mem, fun other lies apart => ?_⟩
    have false_ := falsified other lies apart
    exact ⟨false_, inv'.level_le (by rw [false_]; decide)⟩
  | head _ _ ih => exact ih

theorem Justified.backtrackTo (justified : Justified live trail) (inv : trail.Inv) (level : Nat) :
    Justified live (trail.backtrackTo level) := by
  rcases Nat.lt_or_ge level trail.currentLevel with lower | above
  · intro lit true_ id found
    have defined : (trail.backtrackTo level).litVal lit ≠ 0 := by
      rw [true_]
      decide
    obtain ⟨record, reason⟩ := inv.backtrackTo_record lower defined
    rw [reason] at found
    have value := inv.backtrackTo_value lower lit
    rw [true_] at value
    split at value
    · rename_i low
      obtain ⟨lits, clause, mem, others⟩ := justified lit value.symm id found
      refine ⟨lits, clause, mem, fun other lies apart => ?_⟩
      obtain ⟨false_, before, bound⟩ := others other lies apart
      -- The other literals have no higher level, so they are kept with it.
      have false' : (trail.backtrackTo level).litVal other = -1 := by
        rw [inv.backtrackTo_value lower other, if_pos (bound.trans low)]
        exact false_
      have after := inv.backtrackTo level
      have order := inv.backtrackTo_order lower (after.false_iff.mp false') true_
        (by rw [Lit.negate_var]; exact before)
      obtain ⟨record', -⟩ := @Trail.Inv.backtrackTo_record _ inv level lower other (by
        rw [false']
        decide)
      rw [Lit.negate_var] at order
      rw [record, record']
      exact ⟨false', order, bound⟩
    · cases value
  · unfold Trail.backtrackTo
    rw [if_pos above]
    exact justified

theorem Factual.assignAt (factual : Factual formula trail) (inv : trail.Inv) {lit : Lit}
    {reason : Reason} {level : Nat} (free : trail.isAssigned lit.var = false)
    (fact : level = 0 → (∀ id, reason ≠ .propagation id) → Entails formula [lit]) :
    Factual formula (trail.assignAt lit reason level) := by
  intro other true_ ground noClause
  rw [Trail.assignAt_reason] at noClause
  rw [Trail.assignAt_level] at ground
  rw [Trail.assignAt_litVal] at true_
  by_cases here : other = lit
  · subst here
    rw [if_pos rfl] at ground noClause
    exact fact ground noClause
  · rw [if_neg here] at true_
    by_cases flipped : other = lit.negate
    · rw [if_pos flipped] at true_
      cases true_
    · rw [if_neg flipped] at true_
      obtain ⟨-, apart⟩ := @Trail.Inv.assignAt_value _ inv lit other reason level free (by
        rw [true_]
        decide)
      rw [if_neg apart] at ground noClause
      exact factual other true_ ground noClause

theorem UnitSteps.factual (steps : UnitSteps live first second) (inv : first.Inv)
    (factual : Factual formula first) : Factual formula second := by
  induction steps with
  | refl => exact factual
  | unit before _ _ fresh _ ih =>
    have inv' := before.inv inv
    exact ih.assignAt inv' (inv'.unassigned_iff.mpr fresh) fun _ noClause =>
      absurd rfl (noClause _)
  | head _ _ ih => exact ih

theorem Factual.backtrackTo (factual : Factual formula trail) (inv : trail.Inv) (level : Nat) :
    Factual formula (trail.backtrackTo level) := by
  rcases Nat.lt_or_ge level trail.currentLevel with lower | above
  · intro lit true_ ground noClause
    obtain ⟨record, reason⟩ := @Trail.Inv.backtrackTo_record _ inv level lower lit (by
      rw [true_]
      decide)
    rw [record] at ground
    rw [reason] at noClause
    have value := inv.backtrackTo_value lower lit
    rw [true_] at value
    split at value
    · exact factual lit value.symm ground noClause
    · cases value
  · unfold Trail.backtrackTo
    rw [if_pos above]
    exact factual

theorem Justified.holds (justified : Justified live trail)
    (entailed : ∀ {id lits}, live id = some lits → Entails formula lits) {m : Assignment}
    (models : Models m formula) {lit : Lit} (true_ : trail.litVal lit = 1) {id : Nat}
    (reason : (trail.varInfo lit.var).reason = .propagation id)
    (before : ∀ lits, live id = some lits → ∀ other ∈ lits, other ≠ lit →
      trail.litVal other = -1 → trail.trailIndex other.var < trail.trailIndex lit.var →
        trail.level other.var ≤ trail.level lit.var → other.negate.Holds m) :
    lit.Holds m := by
  obtain ⟨lits, found, mem, others⟩ := justified lit true_ id reason
  obtain ⟨witness, lies, holds⟩ := entailed found m models
  by_cases here : witness = lit
  · exact here ▸ holds
  · obtain ⟨false_, earlier, bound⟩ := others witness lies here
    exact absurd holds (Lit.holds_negate.mp (before lits found witness lies here false_ earlier bound))

theorem ground_entailed (inv : trail.Inv) (justified : Justified live trail)
    (factual : Factual formula trail)
    (entailed : ∀ {id lits}, live id = some lits → Entails formula lits) {lit : Lit}
    (true_ : trail.litVal lit = 1) (ground : trail.level lit.var = 0) : Entails formula [lit] := by
  intro m models
  -- By induction on the position: a reason only holds earlier literals of level zero.
  suffices holds : ∀ position, ∀ lit : Lit, trail.trailIndex lit.var = position →
      trail.litVal lit = 1 → trail.level lit.var = 0 → lit.Holds m from
    ⟨lit, .head _, holds _ lit rfl true_ ground⟩
  intro position
  induction position using Nat.strong_induction_on with
  | _ position ih =>
    intro lit here true_ ground
    by_cases reason : ∃ id, (trail.varInfo lit.var).reason = .propagation id
    · obtain ⟨id, reason⟩ := reason
      refine justified.holds entailed models true_ reason fun lits _ other _ _ false_ earlier bound => ?_
      refine ih (trail.trailIndex other.var) (here ▸ earlier) other.negate rfl
        (inv.false_iff.mp false_) ?_
      rw [Lit.negate_var]
      omega
    · obtain ⟨fact, single, holds⟩ := factual lit true_ ground
        (fun id same => reason ⟨id, same⟩) m models
      exact List.mem_singleton.mp single ▸ holds

end

end Nixie.Sat.Search
