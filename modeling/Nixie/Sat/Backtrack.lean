import Mathlib.Data.List.NodupEquivFin
import Nixie.Sat.Trail

/-! What assigning and level-filtered backtracking do to values, levels, reasons and positions. -/

namespace Nixie.Sat.Trail

open List

section

variable {trail : Trail}

theorem Inv.mem_iff (inv : Inv trail) {lit : Lit} : lit ∈ trail.assignments ↔ trail.litVal lit = 1 :=
  inv.represents.onTrail lit

theorem Inv.false_iff (inv : Inv trail) {lit : Lit} :
    trail.litVal lit = -1 ↔ trail.litVal lit.negate = 1 :=
  inv.represents.opposite lit

theorem Inv.value_cases (inv : Inv trail) (lit : Lit) :
    trail.litVal lit = 1 ∨ trail.litVal lit = -1 ∨ trail.litVal lit = 0 := by
  -- The literal is on the trail, its negation is, or its variable does not occur.
  by_cases occurs : lit.var ∈ trail.assignments.map Lit.var
  · obtain ⟨other, mem, same⟩ := mem_map.mp occurs
    rcases Lit.eq_or_negate same with rfl | rfl
    · exact .inl (inv.mem_iff.mp mem)
    · exact .inr (.inl (inv.false_iff.mpr (inv.mem_iff.mp mem)))
  · refine .inr (.inr (inv.fits.off lit ?_).1)
    rwa [append_nil]

theorem Inv.unassigned_iff (inv : Inv trail) {lit : Lit} :
    trail.isAssigned lit.var = false ↔ trail.litVal lit = 0 := by
  constructor
  · intro unassigned
    have fresh := inv.fits.fresh unassigned
    exact (inv.fits.off lit (by rwa [append_nil])).1
  · intro undefined
    -- The positive literal is the literal or its negation.
    have pos : trail.litVal (Lit.pos lit.var) = 0 := by
      rcases @Lit.eq_or_negate (Lit.pos lit.var) lit rfl with same | same
      · rw [same, undefined]
      · rw [same]
        rcases inv.value_cases lit.negate with true_ | false_ | undefined_
        · rw [inv.false_iff.mpr true_] at undefined
          cases undefined
        · have flipped := inv.false_iff.mp false_
          rw [Lit.negate_negate, undefined] at flipped
          cases flipped
        · exact undefined_
    unfold isAssigned
    unfold litVal at pos
    rw [pos]
    rfl

theorem Inv.position (inv : Inv trail) {lit : Lit} (true_ : trail.litVal lit = 1) :
    trail.assignments[trail.trailIndex lit.var]? = some lit := by
  obtain ⟨position, found⟩ := getElem?_of_mem (inv.mem_iff.mpr true_)
  rw [inv.fits.indexed position lit found, found]

theorem Inv.position_lt (inv : Inv trail) {lit : Lit} (true_ : trail.litVal lit = 1) :
    trail.trailIndex lit.var < trail.assignments.length :=
  (List.getElem?_eq_some_iff.mp (inv.position true_)).1

theorem Inv.defined_lt (inv : Inv trail) {lit : Lit} (defined : trail.litVal lit ≠ 0) :
    trail.trailIndex lit.var < trail.assignments.length := by
  rcases inv.value_cases lit with true_ | false_ | undefined
  · exact inv.position_lt true_
  · have flipped := inv.position_lt (inv.false_iff.mp false_)
    rwa [Lit.negate_var] at flipped
  · exact absurd undefined defined

theorem Inv.levelStart_mono (inv : Inv trail) {low high : Nat} (order : low ≤ high)
    (bound : high ≤ trail.currentLevel) : trail.levelStart low ≤ trail.levelStart high := by
  rcases Nat.eq_or_lt_of_le order with rfl | less
  · exact le_rfl
  · have first := inv.levelStart (order.trans bound)
    have second := inv.levelStart bound
    obtain ⟨lies, at_⟩ := List.getElem?_eq_some_iff.mp first
    obtain ⟨lies', at_'⟩ := List.getElem?_eq_some_iff.mp second
    rw [← at_, ← at_']
    exact pairwise_iff_getElem.mp inv.sorted low high lies lies' less

theorem Inv.level_le (inv : Inv trail) {lit : Lit} (defined : trail.litVal lit ≠ 0) :
    trail.level lit.var ≤ trail.currentLevel := by
  rcases inv.value_cases lit with true_ | false_ | undefined
  · exact inv.levels lit (inv.mem_iff.mpr true_)
  · have flipped := inv.levels lit.negate (inv.mem_iff.mpr (inv.false_iff.mp false_))
    rwa [Lit.negate_var] at flipped
  · exact absurd undefined defined

end

section

variable {trail : Trail}

theorem assignAt_varInfo (lit other : Lit) (reason : Reason) (level : Nat) :
    (trail.assignAt lit reason level).varInfo other.var = if other.var = lit.var then
      ⟨some (!lit.isNeg), level, reason, trail.assignments.length⟩ else trail.varInfo other.var := by
  unfold assignAt
  dsimp only
  rw [Function.update_apply]

theorem assignAt_level (lit other : Lit) (reason : Reason) (level : Nat) :
    (trail.assignAt lit reason level).level other.var =
      if other.var = lit.var then level else trail.level other.var := by
  rw [Trail.level, assignAt_varInfo]
  split <;> rfl

theorem assignAt_trailIndex (lit other : Lit) (reason : Reason) (level : Nat) :
    (trail.assignAt lit reason level).trailIndex other.var =
      if other.var = lit.var then trail.assignments.length else trail.trailIndex other.var := by
  rw [trailIndex, assignAt_varInfo]
  split <;> rfl

theorem assignAt_reason (lit other : Lit) (reason : Reason) (level : Nat) :
    ((trail.assignAt lit reason level).varInfo other.var).reason =
      if other.var = lit.var then reason else (trail.varInfo other.var).reason := by
  rw [assignAt_varInfo]
  split <;> rfl

theorem Inv.assignAt_value (inv : Inv trail) {lit other : Lit} {reason : Reason} {level : Nat}
    (unassigned : trail.isAssigned lit.var = false) (defined : trail.litVal other ≠ 0) :
    (trail.assignAt lit reason level).litVal other = trail.litVal other ∧ other.var ≠ lit.var := by
  -- The literals of a fresh variable are undefined.
  have apart : other.var ≠ lit.var := by
    intro same
    rw [← same] at unassigned
    exact defined (inv.unassigned_iff.mp unassigned)
  refine ⟨?_, apart⟩
  have pos : other ≠ lit := fun same => apart (congrArg Lit.var same)
  have negative : other ≠ lit.negate := fun same =>
    apart ((congrArg Lit.var same).trans (Lit.negate_var lit))
  rw [assignAt_litVal, if_neg pos, if_neg negative]

end

section

variable {trail : Trail}

theorem Inv.backtrackTo_eq (inv : Inv trail) {level : Nat} (lower : level < trail.currentLevel) :
    (trail.backtrackTo level).assignments =
        trail.assignments.filter (fun lit => decide (trail.level lit.var ≤ level)) ∧
      ∀ lit ∈ (trail.backtrackTo level).assignments,
        (trail.backtrackTo level).level lit.var = trail.level lit.var ∧
          ((trail.backtrackTo level).varInfo lit.var).reason = (trail.varInfo lit.var).reason := by
  have start := inv.levelStart (Nat.succ_le_of_lt lower)
  -- Literals before the boundary are at or below the level, so the filter keeps them.
  have low := inv.low_take start
  obtain ⟨-, appended, same⟩ := filter_eq level
    (inv.fits.split (trail.levelStart (level + 1)) (List.Perm.refl _))
  unfold Trail.backtrackTo
  rw [if_neg (Nat.not_le.mpr lower)]
  dsimp only at appended same ⊢
  refine ⟨?_, same⟩
  have whole : (trail.assignments.take (trail.levelStart (level + 1))).filter
      (fun lit => decide (trail.level lit.var ≤ level)) =
        trail.assignments.take (trail.levelStart (level + 1)) :=
    filter_eq_self.mpr fun lit mem => by simpa using low lit mem
  conv_rhs => rw [← take_append_drop (trail.levelStart (level + 1)) trail.assignments]
  rw [appended, filter_append, whole]
  rfl

theorem Inv.backtrackTo_value (inv : Inv trail) {level : Nat} (lower : level < trail.currentLevel)
    (lit : Lit) : (trail.backtrackTo level).litVal lit =
      if trail.level lit.var ≤ level then trail.litVal lit else 0 := by
  obtain ⟨kept, -⟩ := inv.backtrackTo_eq lower
  have after := inv.backtrackTo level
  have mem : ∀ other : Lit, (trail.backtrackTo level).litVal other = 1 ↔
      trail.litVal other = 1 ∧ trail.level other.var ≤ level := by
    intro other
    rw [← after.mem_iff, kept, mem_filter, inv.mem_iff, decide_eq_true_eq]
  have flipped := mem lit.negate
  rw [Lit.negate_var, ← inv.false_iff, ← after.false_iff] at flipped
  split
  · rename_i low
    rcases inv.value_cases lit with true_ | false_ | undefined
    · rw [true_, mem]
      exact ⟨true_, low⟩
    · rw [false_, flipped]
      exact ⟨false_, low⟩
    · rw [undefined]
      rcases after.value_cases lit with true_ | false_ | undefined_
      · rw [((mem lit).mp true_).1] at undefined
        cases undefined
      · rw [(flipped.mp false_).1] at undefined
        cases undefined
      · exact undefined_
  · rename_i high
    rcases after.value_cases lit with true_ | false_ | undefined
    · exact absurd ((mem lit).mp true_).2 high
    · exact absurd (flipped.mp false_).2 high
    · exact undefined

theorem Inv.backtrackTo_record (inv : Inv trail) {level : Nat} (lower : level < trail.currentLevel)
    {lit : Lit} (defined : (trail.backtrackTo level).litVal lit ≠ 0) :
    (trail.backtrackTo level).level lit.var = trail.level lit.var ∧
      ((trail.backtrackTo level).varInfo lit.var).reason = (trail.varInfo lit.var).reason := by
  obtain ⟨-, same⟩ := inv.backtrackTo_eq lower
  have after := inv.backtrackTo level
  rcases after.value_cases lit with true_ | false_ | undefined
  · exact same lit (after.mem_iff.mpr true_)
  · have flipped := same lit.negate (after.mem_iff.mpr (after.false_iff.mp false_))
    rwa [Lit.negate_var] at flipped
  · exact absurd undefined defined

theorem Inv.backtrackTo_take (inv : Inv trail) {level : Nat} (lower : level < trail.currentLevel) :
    (trail.backtrackTo level).assignments.take (trail.levelStart (level + 1)) =
      trail.assignments.take (trail.levelStart (level + 1)) := by
  have start := inv.levelStart (Nat.succ_le_of_lt lower)
  have within := inv.within _ (mem_of_getElem? start)
  obtain ⟨-, appended, -⟩ := filter_eq level
    (inv.fits.split (trail.levelStart (level + 1)) (List.Perm.refl _))
  unfold Trail.backtrackTo
  rw [if_neg (Nat.not_le.mpr lower)]
  dsimp only at appended ⊢
  rw [appended, take_append_of_le_length (by
    rw [length_take]
    exact le_min le_rfl within), take_take, Nat.min_self]

theorem Inv.backtrackTo_position (inv : Inv trail) {level : Nat}
    (lower : level < trail.currentLevel) {lit : Lit}
    (defined : (trail.backtrackTo level).litVal lit ≠ 0)
    (before : (trail.backtrackTo level).trailIndex lit.var < trail.levelStart (level + 1)) :
    trail.trailIndex lit.var = (trail.backtrackTo level).trailIndex lit.var := by
  have after := inv.backtrackTo level
  -- It is enough to look at the true literal of the variable.
  suffices goal : ∀ {lit : Lit}, (trail.backtrackTo level).litVal lit = 1 →
      (trail.backtrackTo level).trailIndex lit.var < trail.levelStart (level + 1) →
        trail.trailIndex lit.var = (trail.backtrackTo level).trailIndex lit.var by
    rcases after.value_cases lit with true_ | false_ | undefined
    · exact goal true_ before
    · exact @goal lit.negate (after.false_iff.mp false_) before
    · exact absurd undefined defined
  intro lit true_ before
  have here := after.position true_
  have prefix_ := inv.backtrackTo_take lower
  refine inv.fits.indexed _ lit ?_
  rw [← @getElem?_take_of_lt _ trail.assignments _ _ before, ← prefix_, getElem?_take_of_lt before]
  exact here

theorem Inv.backtrackTo_order (inv : Inv trail) {level : Nat} (lower : level < trail.currentLevel)
    {first second : Lit} (early : (trail.backtrackTo level).litVal first = 1)
    (late : (trail.backtrackTo level).litVal second = 1)
    (order : trail.trailIndex first.var < trail.trailIndex second.var) :
    (trail.backtrackTo level).trailIndex first.var <
      (trail.backtrackTo level).trailIndex second.var := by
  have after := inv.backtrackTo level
  obtain ⟨kept, -⟩ := inv.backtrackTo_eq lower
  -- Filtering gives a sublist, and positions in a sublist have the same order.
  have sub : (trail.backtrackTo level).assignments.Sublist trail.assignments := by
    rw [kept]
    exact filter_sublist
  obtain ⟨embed, same⟩ := sublist_iff_exists_orderEmbedding_getElem?_eq.mp sub
  have position : ∀ {lit : Lit}, (trail.backtrackTo level).litVal lit = 1 →
      trail.trailIndex lit.var = embed ((trail.backtrackTo level).trailIndex lit.var) := by
    intro lit true_
    have here := after.position true_
    rw [same] at here
    exact inv.fits.indexed _ lit here
  rw [position early, position late] at order
  exact embed.lt_iff_lt.mp order

end

end Nixie.Sat.Trail
