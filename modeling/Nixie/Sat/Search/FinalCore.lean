import Nixie.Sat.Search.Reasons

/-! The assumptions that a conflict is traced back to. -/

namespace Nixie.Sat.Search

open List Function Option

def Solver.markVars (s : Solver) (lits : List Lit) (seen : Nat → Bool) : Nat → Bool :=
  lits.foldl (fun seen lit =>
    if s.trail.level lit.var > 0 then update seen lit.var true else seen) seen

/-- Walk the trail from the newest literal, resolve marked literals, and collect assumptions. -/
def Solver.finalCoreWalk (s : Solver) (assumptionOf : Nat → Option Lit) :
    List Lit → (Nat → Bool) → List Lit → List Lit
  | [], _, core => core
  | lit :: older, seen, core =>
      if seen lit.var then
        let seen := update seen lit.var false
        if s.trail.level lit.var = 0 then finalCoreWalk s assumptionOf older seen core
        else match (s.trail.varInfo lit.var).reason with
          | .propagation id =>
              let antecedents := ((s.liveLits id).getD []).filter fun other => other.var ≠ lit.var
              finalCoreWalk s assumptionOf older (s.markVars antecedents seen) core
          -- A root above level zero belongs to the core if it is an assumption.
          | _ => match assumptionOf lit.var with
            | some assumption =>
                if lit.var ∈ core.map Lit.var then finalCoreWalk s assumptionOf older seen core
                else finalCoreWalk s assumptionOf older seen (core ++ [assumption])
            | none => finalCoreWalk s assumptionOf older seen core
      else finalCoreWalk s assumptionOf older seen core

def assumptionOf (assumptions : List Lit) (var : Nat) : Option Lit :=
  assumptions.find? fun lit => lit.var == var

/-- Put a literal into a core that has none of its variable. -/
def includeLit (core : List Lit) (lit : Lit) : List Lit :=
  if lit.var ∈ core.map Lit.var then core else core ++ [lit]

/-- Trace some literals back to assumptions, starting with those that are included anyway. -/
def Solver.analyzeFinalCore (s : Solver) (seed include_ assumptions : List Lit) : List Lit :=
  s.finalCoreWalk (assumptionOf assumptions) s.trail.assignments.reverse
    (s.markVars seed fun _ => false) (include_.foldl includeLit [])

/-- The core of an assumption that is false when it is to be placed. -/
def Solver.extractAssumptionCore (s : Solver) (assumptions : List Lit) (index : Nat) (failed : Lit) :
    List Lit :=
  s.analyzeFinalCore [failed] [failed] (assumptions.take (index + 1))

/-- The core of a falsified clause; without one, every assumption is blamed. -/
def Solver.analyzeAssumptionConflict (s : Solver) (assumptions : List Lit) (conflict : Nat) :
    List Lit :=
  let core := s.analyzeFinalCore ((s.liveLits conflict).getD []) [] assumptions
  if core.isEmpty then assumptions else core

/-- The smallest level above zero in a falsified clause, or zero. -/
def Solver.analyzeConflictLevel (s : Solver) (conflict : Nat) : Nat :=
  let levels := (((s.liveLits conflict).getD []).map fun lit => s.trail.level lit.var).filter (· > 0)
  levels.min?.getD 0

section

variable {s : Solver} {seen : Nat → Bool} {assumption : Nat → Option Lit}

/-- A literal above level zero that no clause propagated. -/
def Root (trail : Trail) (lit : Lit) : Prop :=
  trail.litVal lit = 1 ∧ trail.level lit.var ≠ 0 ∧
    ∀ id, (trail.varInfo lit.var).reason ≠ .propagation id

theorem markVars_iff {lits : List Lit} : ∀ {seen : Nat → Bool} {var : Nat},
    s.markVars lits seen var = true ↔
      seen var = true ∨ ∃ lit ∈ lits, lit.var = var ∧ s.trail.level var > 0 := by
  induction lits with
  | nil => simp [Solver.markVars]
  | cons lit rest ih =>
    intro seen var
    have step : s.markVars (lit :: rest) seen = s.markVars rest
        (if s.trail.level lit.var > 0 then update seen lit.var true else seen) := rfl
    rw [step, ih]
    by_cases here : lit.var = var
    · subst here
      split
      · rename_i high
        simp [high]
      · rename_i low
        simp only [mem_cons, exists_eq_or_imp]
        constructor
        · rintro (marked | later)
          · exact .inl marked
          · exact .inr (.inr later)
        · rintro (marked | ⟨-, high⟩ | later)
          · exact .inl marked
          · exact absurd high low
          · exact .inr later
    · have same : (if s.trail.level lit.var > 0 then update seen lit.var true
          else seen) var = seen var := by
        split
        · exact update_of_ne (Ne.symm here) _ _
        · rfl
      rw [same]
      simp [here]

theorem finalCoreWalk_mem : ∀ {older : List Lit} {seen : Nat → Bool} {core : List Lit},
    (∀ lit ∈ core, lit ∈ s.finalCoreWalk assumption older seen core) ∧
      ∀ lit ∈ s.finalCoreWalk assumption older seen core,
        lit ∈ core ∨ ∃ var, assumption var = some lit := by
  intro older
  induction older with
  | nil => exact ⟨fun _ mem => mem, fun _ mem => .inl mem⟩
  | cons lit older ih =>
    intro seen core
    unfold Solver.finalCoreWalk
    dsimp only
    split
    · split
      · exact ih
      · split
        · exact ih
        · split
          · rename_i found
            split
            · exact ih
            · -- The new element is an assumption.
              refine ⟨fun other mem => ih.1 other (mem_append_left _ mem),
                fun other mem => ?_⟩
              rcases ih.2 other mem with old | new
              · rcases mem_append.mp old with before | last
                · exact .inl before
                · rw [mem_singleton.mp last]
                  exact .inr ⟨_, found⟩
              · exact .inr new
          · exact ih
    · exact ih

/-- A list of true literals, newest first, that no older literal is missing from. -/
structure NewestFirst (trail : Trail) (older : List Lit) : Prop where
  true_ : ∀ lit ∈ older, trail.litVal lit = 1
  sorted : older.Pairwise fun first second => trail.trailIndex second.var < trail.trailIndex first.var
  closed : ∀ lit ∈ older, ∀ other, trail.litVal other = 1 →
    trail.trailIndex other.var < trail.trailIndex lit.var → other ∈ older

theorem newestFirst_reverse {trail : Trail} (inv : trail.Inv) :
    NewestFirst trail trail.assignments.reverse where
  true_ := fun lit mem => inv.mem_iff.mp (mem_reverse.mp mem)
  sorted := by
    refine pairwise_reverse.mpr (pairwise_iff_getElem.mpr fun i j first second order => ?_)
    rw [inv.fits.indexed i _ (getElem?_eq_getElem first),
      inv.fits.indexed j _ (getElem?_eq_getElem second)]
    exact order
  closed := fun _ _ other true_ _ => mem_reverse.mpr (inv.mem_iff.mpr true_)

theorem NewestFirst.tail {trail : Trail} {newest : Lit} {older : List Lit}
    (list : NewestFirst trail (newest :: older)) : NewestFirst trail older where
  true_ := fun lit mem => list.true_ lit (.tail _ mem)
  sorted := (pairwise_cons.mp list.sorted).2
  closed := by
    intro lit mem other true_ before
    have bound := (pairwise_cons.mp list.sorted).1 lit mem
    rcases mem_cons.mp (list.closed lit (.tail _ mem) other true_ before) with rfl | later
    · omega
    · exact later

theorem finalCoreWalk_holds {formula : Cnf} {m : Assignment} (inv : s.trail.Inv)
    (justified : Justified s.liveLits s.trail)
    (entailed : ∀ {id lits}, s.liveLits id = some lits → Entails formula lits)
    (models : Models m formula)
    (ground : ∀ lit, s.trail.litVal lit = 1 → s.trail.level lit.var = 0 → lit.Holds m)
    (rooted : ∀ lit, Root s.trail lit → assumption lit.var = some lit) :
    ∀ {older : List Lit} {seen : Nat → Bool} {core : List Lit}, NewestFirst s.trail older →
      (∀ lit, Root s.trail lit → ∀ other ∈ core, other.var = lit.var → other = lit) →
      (∀ lit ∈ s.finalCoreWalk assumption older seen core, lit.Holds m) →
        ∀ lit ∈ older, seen lit.var = true → lit.Holds m := by
  intro older
  induction older with
  | nil => exact fun _ _ _ _ mem => nomatch mem
  | cons newest older ih =>
    intro seen core list agrees all lit mem marked
    have true_ := list.true_ newest (.head _)
    have apart : ∀ other ∈ older, other.var ≠ newest.var := by
      intro other lies same
      have order := (pairwise_cons.mp list.sorted).1 other lies
      rw [same] at order
      omega
    -- Clearing the mark of the newest variable leaves the marks of the older literals.
    have cleared : ∀ other ∈ older, seen other.var = true →
        update seen newest.var false other.var = true := by
      intro other lies marked
      rw [update_of_ne (apart other lies)]
      exact marked
    unfold Solver.finalCoreWalk at all
    dsimp only at all
    split at all
    · rename_i marked_
      split at all
      · -- Level zero.
        rename_i zero
        rcases mem_cons.mp mem with rfl | lies
        · exact ground lit true_ zero
        · exact ih list.tail agrees all lit lies (cleared lit lies marked)
      · rename_i high
        cases reason : (s.trail.varInfo newest.var).reason with
        | propagation id =>
          -- The antecedents are marked, so they are true, and the reason clause does the rest.
          rw [reason] at all
          dsimp only at all
          have older_ := ih list.tail agrees all
          rcases mem_cons.mp mem with rfl | lies
          · refine justified.holds entailed models true_ reason
              fun lits found other inside_ ne false_ before _ => ?_
            have flipped := inv.false_iff.mp false_
            by_cases zero : s.trail.level other.var = 0
            · exact ground _ flipped zero
            · refine older_ other.negate ?_ (markVars_iff.mpr (.inr ⟨other, ?_, rfl,
                Nat.pos_of_ne_zero zero⟩))
              · rcases mem_cons.mp (list.closed lit (.head _) _ flipped before) with same | later
                · rw [← same, Lit.negate_var] at before
                  omega
                · exact later
              · rw [found, getD_some]
                refine mem_filter.mpr ⟨inside_, decide_eq_true fun same => ?_⟩
                rw [same] at before
                omega
          · exact older_ lit lies (markVars_iff.mpr (.inl (cleared lit lies marked)))
        | decision | theory =>
          -- A root is an assumption, and the core holds it.
          have root : Root s.trail newest := ⟨true_, high, fun id same => by
            rw [reason] at same
            cases same⟩
          rw [reason] at all
          dsimp only at all
          rw [rooted newest root] at all
          dsimp only at all
          split at all
          · rename_i present
            rcases mem_cons.mp mem with rfl | lies
            · obtain ⟨other, old, same⟩ := mem_map.mp present
              have equal := agrees lit root other old same
              exact equal ▸ all other (finalCoreWalk_mem.1 other old)
            · exact ih list.tail agrees all lit lies (cleared lit lies marked)
          · rcases mem_cons.mp mem with rfl | lies
            · exact all lit (finalCoreWalk_mem.1 lit (mem_append_right _ (.head _)))
            · refine ih list.tail (fun other root_ old before same => ?_) all lit lies
                (cleared lit lies marked)
              rcases mem_append.mp before with early | last
              · exact agrees other root_ old early same
              · -- Two true literals of one variable are the same.
                rw [mem_singleton.mp last] at same ⊢
                rcases Lit.eq_or_negate same with equal | flipped
                · exact equal
                · rw [flipped, ← inv.false_iff, root_.1] at true_
                  cases true_
    · rename_i unmarked
      rcases mem_cons.mp mem with rfl | lies
      · exact absurd marked unmarked
      · exact ih list.tail agrees all lit lies marked

end

section

variable {s : Solver} {formula : Cnf} {assumptions : List Lit}

theorem assumptionOf_mem {var : Nat} {lit : Lit} (found : assumptionOf assumptions var = some lit) :
    lit ∈ assumptions := mem_of_find?_eq_some found

theorem assumptionOf_root {trail : Trail} (inv : trail.Inv) {placed later : List Lit}
    (holds : ∀ lit ∈ placed, trail.litVal lit = 1) {lit : Lit} (mem : lit ∈ placed) :
    assumptionOf (placed ++ later) lit.var = some lit := by
  unfold assumptionOf
  rw [find?_append]
  -- The first placed assumption about the variable is true, so it is the literal itself.
  cases found : placed.find? fun other => other.var == lit.var with
  | none =>
    have absent := find?_eq_none.mp found lit mem
    simp at absent
  | some other =>
    have same : other.var = lit.var := by simpa using find?_some found
    have true_ := holds other (mem_of_find?_eq_some found)
    rcases Lit.eq_or_negate same with rfl | flipped
    · rfl
    · rw [flipped, ← inv.false_iff, holds lit mem] at true_
      cases true_

theorem analyzeFinalCore_mem {seed include_ : List Lit} {lit : Lit}
    (mem : lit ∈ s.analyzeFinalCore seed include_ assumptions) :
    lit ∈ include_ ∨ lit ∈ assumptions := by
  unfold Solver.analyzeFinalCore at mem
  rcases finalCoreWalk_mem.2 lit mem with old | ⟨var, found⟩
  · left
    -- The initial core only holds included literals.
    have kept : ∀ {list core : List Lit}, lit ∈ list.foldl includeLit core →
        lit ∈ core ∨ lit ∈ list := by
      intro list
      induction list with
      | nil => exact fun lies => .inl lies
      | cons first rest ih =>
        intro core lies
        rcases ih lies with early | later
        · unfold includeLit at early
          split at early
          · exact .inl early
          · rcases mem_append.mp early with before | last
            · exact .inl before
            · exact .inr (mem_singleton.mp last ▸ .head _)
        · exact .inr (.tail _ later)
    rcases kept old with empty | lies
    · cases empty
    · exact lies
  · exact .inr (assumptionOf_mem found)

/-- What placing assumptions as decisions leaves behind. -/
structure Placed (s : Solver) (formula : Cnf) (placed : List Lit) : Prop where
  inv : s.trail.Inv
  justified : Justified s.liveLits s.trail
  factual : Factual formula s.trail
  entailed : ∀ {id lits}, s.liveLits id = some lits → Entails formula lits
  holds : ∀ lit ∈ placed, s.trail.litVal lit = 1
  rooted : ∀ lit, Root s.trail lit → lit ∈ placed

variable {placed later : List Lit}

theorem Placed.seeds (state : Placed s formula placed) {seed include_ : List Lit}
    (false_ : ∀ lit ∈ seed, s.trail.litVal lit = -1)
    (agrees : ∀ lit, Root s.trail lit → ∀ other ∈ include_.foldl includeLit [],
      other.var = lit.var → other = lit) {m : Assignment}
    (models : Models m formula)
    (all : ∀ lit ∈ s.analyzeFinalCore seed include_ (placed ++ later), lit.Holds m) :
    ∀ lit ∈ seed, lit.negate.Holds m := by
  have ground : ∀ lit, s.trail.litVal lit = 1 → s.trail.level lit.var = 0 →
      lit.Holds m := by
    intro lit true_ zero
    obtain ⟨other, single, holds⟩ := ground_entailed state.inv state.justified state.factual
      state.entailed true_ zero m models
    exact mem_singleton.mp single ▸ holds
  intro lit mem
  have flipped := state.inv.false_iff.mp (false_ lit mem)
  by_cases zero : s.trail.level lit.var = 0
  · exact ground _ flipped zero
  · -- The walk starts with the marks of the seeds.
    refine finalCoreWalk_holds state.inv state.justified state.entailed models ground
      (fun root is_root => assumptionOf_root state.inv state.holds (state.rooted root is_root))
      (newestFirst_reverse state.inv) agrees all lit.negate
      (mem_reverse.mpr (state.inv.mem_iff.mpr flipped)) ?_
    exact markVars_iff.mpr (.inr ⟨lit, mem, rfl, Nat.pos_of_ne_zero zero⟩)

theorem Placed.conflict_unsat (state : Placed s formula placed) {conflict : Nat}
    (falsified : Falsified s conflict) : ¬ ∃ m, Models m formula ∧
      ∀ lit ∈ s.analyzeAssumptionConflict (placed ++ later) conflict, lit.Holds m := by
  rintro ⟨m, models, all⟩
  obtain ⟨lits, live, false_⟩ := falsified
  unfold Solver.analyzeAssumptionConflict at all
  rw [live] at all
  dsimp only [getD_some] at all
  have core : ∀ lit ∈ s.analyzeFinalCore lits [] (placed ++ later), lit.Holds m := by
    split at all
    · -- An empty core has nothing to satisfy.
      rename_i empty
      rw [isEmpty_iff.mp empty]
      exact fun _ mem => nomatch mem
    · exact all
  have agrees : ∀ lit, Root s.trail lit → ∀ other ∈ ([] : List Lit).foldl includeLit [],
      other.var = lit.var → other = lit := fun _ _ _ mem => nomatch mem
  have negated := state.seeds false_ agrees models core
  obtain ⟨lit, mem, holds⟩ := state.entailed live m models
  exact Lit.holds_negate.mp (negated lit mem) holds

theorem Placed.failed_unsat (state : Placed s formula placed) {failed : Lit}
    (false_ : s.trail.litVal failed = -1) (derived : ¬ Root s.trail failed.negate) :
    ¬ ∃ m, Models m formula ∧
      ∀ lit ∈ s.extractAssumptionCore (placed ++ failed :: later) placed.length failed,
        lit.Holds m := by
  rintro ⟨m, models, all⟩
  have considered : (placed ++ failed :: later).take (placed.length + 1) = placed ++ [failed] := by
    rw [take_append, take_of_length_le (Nat.le_succ _)]
    simp
  unfold Solver.extractAssumptionCore at all
  rw [considered] at all
  have negated := state.seeds (by simpa using false_) (fun lit root other mem same => by
    -- The failed literal is not a root's variable.
    obtain rfl : other = failed := by simpa [includeLit] using mem
    rcases Lit.eq_or_negate same with equal | flipped
    · exact equal
    · rw [flipped, Lit.negate_negate] at derived
      exact absurd root derived) models all failed (.head _)
  refine Lit.holds_negate.mp negated (all failed ?_)
  exact finalCoreWalk_mem.1 failed (by simp [includeLit])

theorem analyzeAssumptionConflict_mem {conflict : Nat} {lit : Lit}
    (mem : lit ∈ s.analyzeAssumptionConflict assumptions conflict) : lit ∈ assumptions := by
  unfold Solver.analyzeAssumptionConflict at mem
  dsimp only at mem
  split at mem
  · exact mem
  · rcases analyzeFinalCore_mem mem with empty | lies
    · cases empty
    · exact lies

theorem extractAssumptionCore_mem {index : Nat} {failed lit : Lit}
    (lies : assumptions[index]? = some failed)
    (mem : lit ∈ s.extractAssumptionCore assumptions index failed) : lit ∈ assumptions := by
  rcases analyzeFinalCore_mem mem with single | considered
  · rw [mem_singleton.mp single]
    exact mem_of_getElem? lies
  · exact mem_of_mem_take considered

theorem analyzeConflictLevel_zero {conflict : Nat} {lits : Clause}
    (live : s.liveLits conflict = some lits) (zero : s.analyzeConflictLevel conflict = 0) :
    ∀ lit ∈ lits, s.trail.level lit.var = 0 := by
  intro lit mem
  by_contra high
  unfold Solver.analyzeConflictLevel at zero
  rw [live, getD_some] at zero
  -- The list of levels above zero is not empty, so its minimum is above zero.
  have lies : s.trail.level lit.var ∈ (lits.map fun lit => s.trail.level lit.var).filter (· > 0) :=
    mem_filter.mpr ⟨mem_map_of_mem mem, by simpa using Nat.pos_of_ne_zero high⟩
  cases least : ((lits.map fun lit => s.trail.level lit.var).filter (· > 0)).min? with
  | none =>
    rw [min?_eq_none_iff.mp least] at lies
    cases lies
  | some level =>
    have pos := (mem_filter.mp (min?_mem least)).2
    simp only [least, getD_some] at zero
    rw [zero] at pos
    simp at pos

theorem ground_conflict (inv : s.trail.Inv) (justified : Justified s.liveLits s.trail)
    (factual : Factual formula s.trail)
    (entailed : ∀ {id lits}, s.liveLits id = some lits → Entails formula lits) {conflict : Nat}
    (falsified : Falsified s conflict) (zero : s.analyzeConflictLevel conflict = 0) :
    ¬ Satisfiable formula := by
  rintro ⟨m, models⟩
  obtain ⟨lits, live, false_⟩ := falsified
  obtain ⟨lit, mem, holds⟩ := entailed live m models
  obtain ⟨other, single, flipped⟩ := ground_entailed inv justified factual entailed
    (inv.false_iff.mp (false_ lit mem))
    (analyzeConflictLevel_zero live zero lit mem) m models
  rw [mem_singleton.mp single, Lit.holds_negate] at flipped
  exact flipped holds

end

end Nixie.Sat.Search
