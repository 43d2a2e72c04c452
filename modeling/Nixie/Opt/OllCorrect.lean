import Nixie.Opt.OllRuns

/-! When the core-guided loop is exact, and a run in which it is not. -/

namespace Nixie.Opt

open List

namespace OllState

section

variable {s : MaxSatSolver} {w : WithTop ℚ} {earlier : List (List Lit)} {st : OllState}
  {sat : Cnf → Verdict} {ask : Cnf → List Lit → Nat → Answer}

theorem Relaxed.solved_of_model (relaxed : Relaxed s w earlier st) (fresh : s.Fresh)
    (equal : ∀ c ∈ s.softClauses, c.weight.total = w) (nonneg : 0 ≤ w) {model : PartialModel}
    (clauses : ∀ clause ∈ st.clauses, clause.any (trueIn model) = true)
    (assumptions : ∀ lit ∈ st.assumptions, trueIn model lit = true) :
    MaxSatSolver.SolvedAll s .optimal (st.solver.keepModel model) := by
  obtain ⟨added, split, -⟩ := relaxed.clauses
  have hard : ∀ clause ∈ s.hardClauses, clause.any (trueIn model) = true := by
    intro clause mem
    refine clauses clause ?_
    rw [split]
    exact mem_append_left _ (mem_append_left _ mem)
  -- The completion of the model pays for every group, and the model pays for no more.
  have most := relaxed.le_length fresh clauses assumptions
  have least := relaxed.length_le fun clause mem => satisfies_of_any (hard clause mem)
  have completed : s.softClauses.countP (fun c => MaxSatSolver.violatedUnder (complete model) c.lits)
      ≤ s.softClauses.countP fun c => MaxSatSolver.violatedIn model c.lits := by
    refine countP_mono_left fun c _ violated => ?_
    rw [MaxSatSolver.violatedIn, Bool.not_eq_true']
    exact Bool.eq_false_iff.mpr fun any => of_decide_eq_true violated (satisfies_of_any any)
  have exact_ : (s.softClauses.countP fun c => MaxSatSolver.violatedIn model c.lits) =
      st.groups.length := by omega
  refine ⟨fun _ => ⟨model, rfl, hard, ?_, fun m models => ?_⟩, fun unsat => by cases unsat⟩
  · rw [MaxSatSolver.totalPenalty_eq equal, exact_]
    exact relaxed.lowerBound.symm
  · rw [MaxSatSolver.totalPenalty_eq equal]
    refine (relaxed.lowerBound.trans_le ?_)
    exact nsmul_le_nsmul_left nonneg (relaxed.length_le models)

theorem Relaxed.softs_nil (relaxed : Relaxed s w earlier st) (fresh : s.Fresh)
    (assumptions : st.assumptions = []) (groups : st.groups = []) : s.softClauses = [] := by
  by_contra some_
  -- The first soft clause would be assumed to be satisfied.
  have pos : 0 < s.softClauses.length := length_pos_iff.mpr some_
  have outside : 0 ∉ st.grouped := by
    rw [grouped, groups]
    exact not_mem_nil
  have mem := relaxed.assumed fresh pos outside
  rw [assumptions] at mem
  cases mem

theorem Relaxed.loop (relaxed : Relaxed s w earlier st) (sound : SatSound sat)
    (asked : AskSound ask) (fresh : s.Fresh) (equal : ∀ c ∈ s.softClauses, c.weight.total = w)
    (nonneg : 0 ≤ w) {fuel : Nat} (handled : allHandled ask fuel earlier st = true) :
    MaxSatSolver.SolvedAll s (OllState.loop sat ask fuel st).1 (OllState.loop sat ask fuel st).2 := by
  induction fuel generalizing earlier st with
  | zero => exact ⟨nofun, nofun⟩
  | succ fuel ih =>
    unfold loop
    unfold allHandled at handled
    split
    · next idle =>
      -- Only the hard clauses are left.
      have empty := relaxed.softs_nil fresh (isEmpty_iff.mp idle.1) (isEmpty_iff.mp idle.2)
      unfold MaxSatSolver.checkHardSatisfiable
      rw [relaxed.hard]
      split
      · next model answer =>
        refine ⟨fun _ => ⟨model, rfl, sound.accepted answer, ?_, fun m models => ?_⟩, fun unsat => by cases unsat⟩
        · rw [MaxSatSolver.totalPenalty_eq equal, empty]
          refine ((relaxed.lowerBound.trans ?_)).symm
          rw [isEmpty_iff.mp idle.2]
          rfl
        · rw [MaxSatSolver.totalPenalty_eq equal]
          refine (relaxed.lowerBound.trans_le ?_)
          exact nsmul_le_nsmul_left nonneg (relaxed.length_le models)
      · next answer => exact ⟨nofun, fun _ => sound.refuted answer⟩
      · exact ⟨nofun, nofun⟩
    · cases answer : ask st.clauses st.assumptions fuel with
      | sat model =>
        obtain ⟨clauses, assumptions⟩ := asked.accepted answer
        exact relaxed.solved_of_model fresh equal nonneg clauses assumptions
      | unknown => exact ⟨nofun, nofun⟩
      | unsat core =>
        obtain ⟨nodup, assumed, refuted⟩ := asked.refuted answer
        rw [answer, Bool.and_eq_true] at handled
        by_cases nonempty : core = []
        · -- The clauses alone have no model, so the hard clauses have none.
          subst nonempty
          refine ⟨nofun, fun _ => fun ⟨m, models⟩ => refuted ?_⟩
          obtain ⟨m', modelsAll, -⟩ := relaxed.extend models
          exact ⟨m', models_append.mpr ⟨modelsAll, models_nil⟩⟩
        · obtain ⟨st', next, relaxed'⟩ :=
            relaxed.round equal nodup assumed refuted nonempty handled.1
          rw [next] at handled ⊢
          exact ih relaxed' handled.2

end

end OllState

namespace MaxSatSolver

end MaxSatSolver

end Nixie.Opt
