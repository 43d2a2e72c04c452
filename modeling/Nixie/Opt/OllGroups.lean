import Nixie.Opt.SearchCorrect

/-! What the core-guided loop starts from, and what the bound of one group says. -/

namespace Nixie.Opt

open List Function

section

variable {lits : List Lit} {next : Nat}

theorem setBound_small (small : lits.length ≤ 1) :
    ((IncrementalTotalizer.new lits next).setBound 1).2.1 = [] ∧
      ((IncrementalTotalizer.new lits next).setBound 1).2.2.boundAssumption = none := by
  have size : (IncrementalTotalizer.new lits next).totalizer.size = lits.length :=
    Totalizer.size_new lits next
  unfold IncrementalTotalizer.setBound
  rw [if_neg (by omega)]
  exact ⟨rfl, rfl⟩

theorem setBound_eq_bound (large : 1 < lits.length) :
    ((IncrementalTotalizer.new lits next).setBound 1).2.1 =
        (MaxSatSolver.Search.bound ⟨Totalizer.new lits next, []⟩ 1).2.clauses ∧
      ((IncrementalTotalizer.new lits next).setBound 1).2.2.boundAssumption =
        (MaxSatSolver.Search.bound ⟨Totalizer.new lits next, []⟩ 1).1 := by
  have size : (IncrementalTotalizer.new lits next).totalizer.size = lits.length :=
    Totalizer.size_new lits next
  unfold IncrementalTotalizer.setBound
  rw [if_pos (by omega)]
  exact ⟨rfl, rfl⟩

theorem countTrue_single (nodup : lits.Nodup) (pos : ∀ lit ∈ lits, lit = .pos lit.var)
    {m : Assignment} {var : Nat} (off : ∀ other, other ≠ var → m other = false) :
    MaxSatSolver.countTrue m lits ≤ 1 := by
  -- A literal that holds is the one of that variable.
  have only : MaxSatSolver.countTrue m lits ≤ lits.count (.pos var) := by
    refine countP_mono_left fun lit mem holds => ?_
    rw [pos lit mem, Lit.value_pos] at holds
    by_contra other
    rw [off lit.var fun same => other (by rw [pos lit mem, same, beq_self_eq_true])] at holds
    cases holds
  exact only.trans (nodup_iff_count.mp nodup _)

/--
Setting the bound one of two or more variables.

The new clauses switch a fresh literal on where more than one variable is on.
Every assignment extends to one in which it is on only there.
-/
theorem setBound_large (below : ∀ lit ∈ lits, lit.var < next) (nodup : lits.Nodup)
    (pos : ∀ lit ∈ lits, lit = .pos lit.var) (large : 1 < lits.length) :
    ∃ lit : Lit, ((IncrementalTotalizer.new lits next).setBound 1).2.2.boundAssumption =
        some lit.negate ∧ next ≤ lit.var ∧
      (∀ m, Models m ((IncrementalTotalizer.new lits next).setBound 1).2.1 →
        1 < MaxSatSolver.countTrue m lits → lit.Holds m) ∧
      ∀ m, ∃ m', Netlist.AgreeBelow next m m' ∧
        Models m' ((IncrementalTotalizer.new lits next).setBound 1).2.1 ∧
        (lit.Holds m' → 1 < MaxSatSolver.countTrue m' lits) := by
  obtain ⟨clauses, assumption⟩ := @setBound_eq_bound lits next large
  obtain ⟨-, lit, found, marked, exact_⟩ :=
    MaxSatSolver.Search.bound_spec (MaxSatSolver.Search.counting_new below) large
  rw [clauses, assumption]
  refine ⟨lit, found, Nat.le_of_not_lt fun old => ?_, marked, exact_⟩
  -- An old literal could hold alone, where no more than one variable is on.
  obtain ⟨m', agree, -, reached⟩ := exact_ fun var => decide (var = lit.var) && !lit.isNeg
  have holds : lit.Holds m' := by
    show m' lit.var = _
    rw [agree lit.var old]
    simp
  have more := reached holds
  have same : MaxSatSolver.countTrue m' lits = MaxSatSolver.countTrue
      (fun var => decide (var = lit.var) && !lit.isNeg) lits := by
    refine countP_congr fun other mem => ?_
    rw [pos other mem, Lit.value_pos, Lit.value_pos, agree other.var (below other mem)]
  have single := @countTrue_single lits nodup pos
    (fun var => decide (var = lit.var) && !lit.isNeg) lit.var fun other ne => by
      simp [ne]
  omega

end

namespace MaxSatSolver

def firstBlock (s : MaxSatSolver) : Nat :=
  freshVar (s.hardClauses ++ s.softClauses.map SoftClause.lits)

def pays (s : MaxSatSolver) (id : Nat) : Lit := .pos (s.firstBlock + id)

/-- Soft clauses that may be paid for, the first of them. -/
def blockedClauses (s : MaxSatSolver) (count : Nat) : Cnf :=
  (List.range count).filterMap fun id => s.softClauses[id]?.map fun c => c.lits ++ [s.pays id]

theorem Fresh.ids {s : MaxSatSolver} (fresh : Fresh s) :
    s.softClauses.map SoftClause.id = List.range s.softClauses.length := by
  induction fresh with
  | withConfig config => rfl
  | addHard fresh lits ih => exact ih
  | @addSoftWeighted s fresh lits weight nonneg ih =>
    -- The new clause takes the next number.
    show (s.softClauses ++ [_]).map SoftClause.id = range (s.softClauses ++ [_]).length
    rw [map_append, ih, length_append, length_singleton, range_succ]
    rfl

end MaxSatSolver

namespace OllState

/-- The first soft clauses have their blocking variables. -/
structure Blocked (s : MaxSatSolver) (count : Nat) (st : OllState) : Prop where
  hard : st.solver.hardClauses = s.hardClauses
  softs : st.solver.softClauses = s.softClauses
  lowerBound : st.solver.lowerBound = s.lowerBound
  nextVar : st.nextVar = s.firstBlock + count
  blockingVars : ∀ id, st.blockingVars id = if id < count then some (s.firstBlock + id) else none
  varToSoft : ∀ var, st.varToSoft var =
    if s.firstBlock ≤ var ∧ var < s.firstBlock + count then some (var - s.firstBlock) else none
  clauses : st.clauses = s.hardClauses ++ s.blockedClauses count
  groups : st.groups = []
  softToGroup : st.softToGroup = fun _ => none

theorem Blocked.block {s : MaxSatSolver} {count : Nat} {st : OllState} (blocked : Blocked s count st)
    (within : count < s.softClauses.length) : Blocked s (count + 1) (st.block count) := by
  have found : s.softClauses[count]? = some s.softClauses[count] := getElem?_eq_getElem within
  unfold OllState.block
  rw [blocked.softs, found]
  refine ⟨blocked.hard, blocked.softs, blocked.lowerBound, ?_, fun id => ?_, fun var => ?_, ?_,
    blocked.groups, blocked.softToGroup⟩
  · show st.nextVar + 1 = _
    rw [blocked.nextVar]
    omega
  · show update st.blockingVars count (some st.nextVar) id = _
    rw [update_apply, blocked.blockingVars, blocked.nextVar]
    -- The new number has the new variable, and other numbers keep theirs.
    by_cases same : id = count
    · rw [if_pos same, same, if_pos (Nat.lt_succ_self count)]
    · rw [if_neg same]
      exact if_congr (by omega) rfl rfl
  · show update st.varToSoft st.nextVar (some count) var = _
    rw [update_apply, blocked.varToSoft, blocked.nextVar]
    by_cases same : var = s.firstBlock + count
    · rw [if_pos same, if_pos (by omega), same, Nat.add_sub_cancel_left]
    · rw [if_neg same]
      exact if_congr (by omega) rfl rfl
  · show st.clauses ++ [_ ++ [Lit.pos st.nextVar]] = _
    rw [blocked.clauses, blocked.nextVar, MaxSatSolver.blockedClauses,
      MaxSatSolver.blockedClauses, range_succ, filterMap_append, append_assoc,
      filterMap_cons, found]
    rfl

end OllState

end Nixie.Opt
