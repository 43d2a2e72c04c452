import Nixie.Sat.Search.Sound

/-! Hyper-binary resolution: the binary clauses learned while propagating and after a probe. -/

namespace Nixie.Sat.Search

open List

namespace Solver

def hasBinaryImplication (s : Solver) (premise conclusion : Lit) : Bool :=
  (s.binaryGraph premise).any fun edge => edge.1 = conclusion

def learnBinary (s : Solver) (a b : Lit) : Solver := s.storeClause (.learnt [a, b])

/-- Learn that a literal of the current level alone forces the one that a short clause implied. -/
def checkHyperBinaryResolution (s : Solver) (implied : Lit) (reasonId : Nat) : Solver :=
  match s.clauses[reasonId]? with
  | none => s
  | some reason =>
      let others := reason.lits.filter (· ≠ implied)
      let level := fun lit : Lit => s.trail.level lit.var
      if s.trail.currentLevel < 2 ∨ reason.lits.length < 2 ∨ 4 < reason.lits.length ∨
          others.any fun lit => s.trail.litVal lit ≠ -1 then s
      else match others.filter fun lit => level lit = s.trail.currentLevel with
        | [other] =>
            if (others.any fun lit => level lit ≠ s.trail.currentLevel ∧ 0 < level lit) ∨
                s.hasBinaryImplication other.negate implied then s
            else s.learnBinary other implied
        | _ => s

/-- Learn that the probed literal implies one that a long clause forced, up to a number of times. -/
def deriveStep (r : Lit) (state : Solver × Nat) (q : Lit) : Solver × Nat :=
  match (state.1.trail.varInfo q.var).reason with
  | .propagation id =>
      if 64 ≤ state.2 ∨ ¬(state.1.clauses[id]?).any (fun clause => 2 < clause.lits.length) ∨
          state.1.hasBinaryImplication r q then state
      else (state.1.learnBinary r.negate q, state.2 + 1)
  | _ => state

/-- Go through the literals that the probe of a literal assigned. -/
def deriveHyperBinaries (s : Solver) (r : Lit) : Solver :=
  ((s.trail.assignments.drop ((s.trail.levelStarts.getLast?).getD 0)).foldl (deriveStep r) (s, 0)).1

/-- The assignment satisfies the live clauses. -/
def Satisfied (s : Solver) (m : Assignment) : Prop :=
  ∀ id lits, s.liveLits id = some lits → Satisfies m lits

/-- The literals of level zero hold. -/
def Grounded (s : Solver) (m : Assignment) : Prop :=
  ∀ lit ∈ s.trail.assignments, s.trail.level lit.var = 0 → lit.Holds m

end Solver

open Solver

variable {s t : Solver} {m : Assignment}

theorem storeClause_satisfied (clauses : s.Satisfied m) {clause : StoredClause}
    (entailed : Satisfies m clause.lits) : (s.storeClause clause).Satisfied m := by
  intro id lits live
  rw [liveLits_storeClause] at live
  split at live
  · split at live
    · cases live
    · exact Option.some.inj live ▸ entailed
  · exact clauses id lits live

theorem checkHyperBinaryResolution_satisfied (inv : s.trail.Inv) (clauses : s.Satisfied m)
    (ground : s.Grounded m) {implied : Lit} {id : Nat} {lits : Clause}
    (live : s.liveLits id = some lits) : (s.checkHyperBinaryResolution implied id).Satisfied m := by
  have satisfied := clauses id lits live
  obtain ⟨reason, found, alive⟩ := Option.bind_eq_some_iff.mp live
  split at alive
  · cases alive
  cases alive
  unfold checkHyperBinaryResolution
  rw [found]
  dsimp only
  split
  · exact clauses
  · rename_i short
    split
    · rename_i other single
      split
      · exact clauses
      · rename_i fresh
        refine storeClause_satisfied clauses ?_
        obtain ⟨lit, lies, holds⟩ := satisfied
        by_cases here : lit = implied
        · exact ⟨implied, .tail _ (.head _), here ▸ holds⟩
        · -- Any other literal is false, and of level zero unless it is the one kept.
          have mem : lit ∈ reason.lits.filter (· ≠ implied) :=
            mem_filter.mpr ⟨lies, by simpa using here⟩
          have false_ : s.trail.litVal lit = -1 := by
            by_contra open_
            exact short (.inr (.inr (.inr (any_eq_true.mpr ⟨lit, mem, decide_eq_true open_⟩))))
          by_cases current : s.trail.level lit.var = s.trail.currentLevel
          · have kept : lit ∈ [other] := by
              rw [← single]
              exact mem_filter.mpr ⟨mem, decide_eq_true current⟩
            exact ⟨other, .head _, mem_singleton.mp kept ▸ holds⟩
          · have root : s.trail.level lit.var = 0 := by
              by_contra above
              exact fresh (.inl (any_eq_true.mpr
                ⟨lit, mem, decide_eq_true ⟨current, Nat.pos_of_ne_zero above⟩⟩))
            have fact := ground lit.negate (inv.mem_iff.mpr (inv.false_iff.mp false_)) root
            exact absurd holds (Lit.holds_negate.mp fact)
    · exact clauses

theorem UnitSteps.holds {live : Nat → Option Clause} {first second : Trail}
    (steps : UnitSteps live first second) (inv : first.Inv)
    (clauses : ∀ id lits, live id = some lits → Satisfies m lits)
    (start : ∀ lit ∈ first.assignments, lit.Holds m) : ∀ lit ∈ second.assignments, lit.Holds m := by
  induction steps with
  | refl => exact start
  | @unit trail before id lits forced found lies fresh falsified ih =>
    have inv' := before.inv inv
    intro lit mem
    rcases mem_append.mp mem with old | new
    · exact ih lit old
    · obtain rfl := mem_singleton.mp new
      -- The model satisfies the clause, and not by a literal that is false on the trail.
      obtain ⟨witness, member, holds⟩ := clauses id lits found
      by_cases here : witness = lit
      · exact here ▸ holds
      · have false_ := inv'.false_iff.mp (falsified witness member here)
        exact absurd holds (Lit.holds_negate.mp (ih _ (inv'.mem_iff.mpr false_)))
  | head _ _ ih => exact ih

theorem propagateLoop_progress : ∀ {fuel : Nat} {limit : Option Nat} {s : Solver}
    {outcome : Outcome}, Attached s → s.trail.Inv →
      propagateLoop fuel limit s = some (t, outcome) → Progress s t := by
  intro fuel
  induction fuel with
  | zero => exact fun _ _ ran => nomatch ran
  | succ fuel ih =>
    intro limit s outcome attached inv ran
    unfold propagateLoop Trail.nextToPropagate at ran
    by_cases pending : s.trail.propHead < s.trail.assignments.length
    · have start := progress_head s (s.trail.propHead + 1)
      rw [if_pos pending, getElem?_eq_getElem pending] at ran
      dsimp only at ran
      split at ran
      · cases ran
        exact start
      · have true_ := inv.mem_iff.mp (getElem_mem pending)
        cases result : propagateLit
            { s with trail := { s.trail with propHead := s.trail.propHead + 1 } }
              s.trail.assignments[s.trail.propHead] with
        | mk u conflict =>
          rw [result] at ran
          rcases propagateLit_spec (attached.withTrail _)
              (inv.propHead (s.trail.propHead + 1)) true_ result with
            ⟨rfl, advance, attached', -⟩ | ⟨id, v, rfl, rfl, advance, -⟩
          · exact (start.trans advance.progress).trans
              (ih attached' (advance.steps.inv (inv.propHead _)) ran)
          · cases ran
            exact (start.trans advance.progress).trans (progress_head v _)
    · rw [if_neg pending] at ran
      cases ran
      exact .refl _

theorem deriveHyperBinaries_satisfied {r : Lit} (clauses : s.Satisfied m)
    (implied : ∀ q ∈ s.trail.assignments, Satisfies m [r.negate, q]) :
    (s.deriveHyperBinaries r).Satisfied m := by
  suffices all : ∀ (lits : List Lit) (state : Solver × Nat), state.1.Satisfied m →
      (∀ q ∈ lits, Satisfies m [r.negate, q]) → (lits.foldl (deriveStep r) state).1.Satisfied m from
    all _ _ clauses fun q mem => implied q (mem_of_mem_drop mem)
  intro lits
  induction lits with
  | nil => exact fun _ clauses _ => clauses
  | cons q rest ih =>
    intro state clauses implied
    refine ih _ ?_ fun other mem => implied other (.tail _ mem)
    unfold deriveStep
    split
    · split
      · exact clauses
      · exact storeClause_satisfied clauses (implied q (.head _))
    · exact clauses

/-- What satisfies the live clauses and the literals of level zero also satisfies every binary
clause learned from a live reason in propagation, and every one derived after a probe. -/
theorem hyperBinary_entailed (inv : s.trail.Inv) (clauses : s.Satisfied m)
    (ground : s.Grounded m) :
    (∀ {implied : Lit} {id : Nat} {lits : Clause}, s.liveLits id = some lits →
      (s.checkHyperBinaryResolution implied id).Satisfied m) ∧
    ∀ {r : Lit} {limit : Option Nat} {outcome : Outcome}, Attached s → s.trail.currentLevel = 0 →
      s.trail.isAssigned r.var = false → (s.decide r).propagate limit = some (t, outcome) →
        (t.deriveHyperBinaries r).Satisfied m := by
  refine ⟨checkHyperBinaryResolution_satisfied inv clauses ground, ?_⟩
  intro r limit outcome attached root free ran
  have inv' : (s.decide r).trail.Inv := inv.newDecisionLevel.assignAt _ free le_rfl
  have progress := propagateLoop_progress (attached.withTrail _) inv' ran
  refine deriveHyperBinaries_satisfied (fun id lits live => ?_) fun q mem => ?_
  · obtain ⟨old, found, perm⟩ := progress.rearranged.backward live
    obtain ⟨lit, lies, holds⟩ := clauses id old found
    exact ⟨lit, perm.mem_iff.mp lies, holds⟩
  · by_cases probed : r.Holds m
    · refine ⟨q, by simp, progress.steps.holds inv' clauses (fun lit mem => ?_) q mem⟩
      -- Before the probe all literals are of level zero.
      rcases mem_append.mp mem with old | new
      · exact ground lit old (Nat.le_zero.mp (root ▸ inv.levels lit old))
      · exact mem_singleton.mp new ▸ probed
    · exact ⟨r.negate, by simp, Lit.holds_negate.mpr probed⟩

def probed : Solver :=
  ((new 3).storeClause (.learnt [.neg 0, .pos 1])).storeClause (.learnt [.neg 0, .neg 1, .pos 2])

theorem probed_entailed : ∃ t, (probed.decide (.pos 0)).propagate none = some (t, .fixpoint) ∧
    (t.deriveHyperBinaries (.pos 0)).liveLits 2 = some [.neg 0, .pos 2] ∧
    (t.deriveHyperBinaries (.pos 0)).Satisfied fun _ => true := by
  have clauses : probed.Satisfied fun _ => true :=
    storeClause_satisfied (@storeClause_satisfied (new 3) _ (fun _ _ live => nomatch live) _
      (by decide)) (by decide)
  have attached : Attached probed :=
    ((attached_new 3).store rfl (by decide) (by decide)).store rfl (by decide) (by decide)
  have ground : probed.Grounded fun _ => true := by rintro lit ⟨⟩
  have ran : (probed.decide (.pos 0)).propagate none = some (_, .fixpoint) := rfl
  exact ⟨_, ran, rfl, (hyperBinary_entailed Trail.inv_new clauses ground).2 attached rfl rfl ran⟩

end Nixie.Sat.Search
