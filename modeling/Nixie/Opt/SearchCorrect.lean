import Nixie.Opt.Oll
import Nixie.Opt.Weights

/-! The search reports the least cost of any model, and a model of that cost. -/

namespace Nixie.Opt

open List

def valuations : Nat → List (List Bool)
  | 0 => [[]]
  | count + 1 => (valuations count).flatMap fun values => [false :: values, true :: values]

theorem mem_valuations (count : Nat) (m : Assignment) :
    (List.range count).map m ∈ valuations count := by
  induction count generalizing m with
  | zero => exact mem_singleton.mpr rfl
  | succ count ih =>
    -- The later variables are those of the assignment that is shifted by one.
    have rest := ih fun var => m (var + 1)
    rw [range_succ_eq_map, map_cons, map_map]
    refine mem_flatMap.mpr ⟨_, rest, ?_⟩
    cases first : m 0 with
    | false => exact mem_cons_self
    | true => exact mem_cons_of_mem _ mem_cons_self

def trySat (formula : Cnf) : Verdict :=
  match (valuations (MaxSatSolver.freshVar formula)).find? fun values =>
      formula.all fun clause => clause.any (trueIn (values.map some)) with
  | some values => .sat (values.map some)
  | none => .unsat

theorem trueIn_of_holds {m : Assignment} {lit : Lit} {count : Nat} (within : lit.var < count)
    (holds : lit.Holds m) : trueIn (((List.range count).map m).map some) lit = true := by
  have value : (((range count).map m).map some)[lit.var]? = some (some (m lit.var)) := by
    rw [getElem?_map, getElem?_map, getElem?_range within]
    rfl
  rw [trueIn, value, Option.join_some, beq_iff_eq]
  exact congrArg some holds

theorem trySat_sound : SatSound trySat where
  accepted := by
    intro formula model answer clause mem
    unfold trySat at answer
    split at answer
    · next values found =>
      obtain rfl := Verdict.sat.inj answer
      have all := @find?_some _ _ values _ found
      exact all_eq_true.mp all clause mem
    · cases answer
  refuted := by
    rintro formula answer ⟨m, models⟩
    unfold trySat at answer
    split at answer
    · cases answer
    · next none =>
      -- The values of the model were tried.
      refine find?_eq_none.mp none _ (mem_valuations _ m) (all_eq_true.mpr ?_)
      intro clause mem
      obtain ⟨lit, lies, holds⟩ := models clause mem
      refine any_eq_true.mpr ⟨lit, lies, ?_⟩
      exact trueIn_of_holds (MaxSatSolver.vars_lt_freshVar formula clause mem lit lies) holds

namespace MaxSatSolver

def hardened (s : MaxSatSolver) : Cnf := s.hardClauses ++ infiniteClauses s.softClauses

inductive Fresh : MaxSatSolver → Prop
  | withConfig (config : MaxSatConfig) : Fresh (withConfig config)
  | addHard {s : MaxSatSolver} (fresh : Fresh s) (lits : Clause) : Fresh (s.addHard lits)
  | addSoftWeighted {s : MaxSatSolver} (fresh : Fresh s) (lits : Clause) (weight : Weight)
      (nonneg : weight.NonNeg) : Fresh (s.addSoftWeighted lits weight)

theorem Fresh.spec {s : MaxSatSolver} (fresh : Fresh s) :
    s.lowerBound = .zero ∧ ∀ c ∈ s.softClauses, c.weight.NonNeg := by
  induction fresh with
  | withConfig config => exact ⟨rfl, fun c mem => (nomatch mem)⟩
  | addHard fresh lits ih => exact ih
  | addSoftWeighted fresh lits weight nonneg ih =>
    refine ⟨ih.1, fun c mem => ?_⟩
    rcases mem_append.mp mem with old | new
    · exact ih.2 c old
    · obtain rfl := mem_singleton.mp new
      exact nonneg

/-- What the answer says about the clauses. -/
structure Solved (s : MaxSatSolver) (result : MaxSatResult) (s' : MaxSatSolver) : Prop where
  optimal : result = .optimal → ∃ model cost, s'.bestModel = some model ∧
    s'.cost.value = some cost ∧ (∀ clause ∈ s.hardened, clause.any (trueIn model) = true) ∧
    penalty (violatedIn model) s.softClauses = cost ∧
    ∀ m, Models m s.hardened → cost ≤ penalty (violatedUnder m) s.softClauses
  unsatisfiable : result = .unsatisfiable → ¬Satisfiable s.hardened

section

variable {sat : Cnf → Verdict} {s : MaxSatSolver}

theorem solved_of_free (sound : SatSound sat) (start : s.lowerBound = .zero)
    (free : ∀ violates, penalty violates s.softClauses = 0) :
    Solved s (s.solveHardOnlyWithExtra sat (infiniteClauses s.softClauses)).1
      (s.solveHardOnlyWithExtra sat (infiniteClauses s.softClauses)).2 := by
  unfold solveHardOnlyWithExtra
  split
  · next model answer =>
    refine ⟨fun _ => ⟨model, 0, rfl, ?_, sound.accepted answer, free _, fun m _ => ?_⟩, nofun⟩
    · -- The cost is still that of the start.
      show s.lowerBound.value = some 0
      rw [start]
      exact congrArg some Int.cast_zero
    · rw [free]
  · next answer => exact ⟨nofun, fun _ => sound.refuted answer⟩
  · exact ⟨nofun, nofun⟩

theorem checkHardSatisfiable_solved (sound : SatSound sat) (start : s.lowerBound = .zero)
    (none : s.softClauses = []) :
    Solved s (s.checkHardSatisfiable sat).1 (s.checkHardSatisfiable sat).2 := by
  have free := solved_of_free sound start fun violates => by rw [none, penalty_nil]
  -- No clause is hardened.
  have same : s.hardClauses ++ infiniteClauses s.softClauses = s.hardClauses := by
    rw [none]
    exact append_nil _
  unfold solveHardOnlyWithExtra at free
  rw [same] at free
  unfold checkHardSatisfiable
  cases answer : sat s.hardClauses with
  | sat model =>
    rw [answer] at free
    exact ⟨free.optimal, nofun⟩
  | unsat =>
    rw [answer] at free
    exact ⟨nofun, free.unsatisfiable⟩
  | unknown => exact ⟨nofun, nofun⟩

theorem solveByCardinalitySearch_spec (sound : SatSound sat) {items : List (Nat × Clause)}
    {extraHard : Cnf} {unitCost : Weight} {result : MaxSatResult} {s' : MaxSatSolver}
    (answer : s.solveByCardinalitySearch sat items extraHard unitCost = (result, s')) :
    (result = .optimal → ∃ model, s'.bestModel = some model ∧
      (∀ clause ∈ s.hardClauses ++ extraHard, clause.any (trueIn model) = true) ∧
      violations (violatedIn model) items ≤ items.length ∧
      s'.lowerBound = s.lowerBound.add
        (unitCost.mulScalar (asI64 (violations (violatedIn model) items))) ∧
      ∀ j < violations (violatedIn model) items, ¬Feasible s.hardClauses extraHard items j) ∧
    (result = .unsatisfiable → ¬Satisfiable (s.hardClauses ++ extraHard)) := by
  have below := vars_lt_freshVar (s.hardClauses ++ extraHard ++ items.map Prod.snd)
  have initial := initial_decides items sound below
  unfold solveByCardinalitySearch at answer
  dsimp only at answer
  split at answer
  · next first =>
    -- Even with every violation allowed there is no model.
    obtain ⟨rfl, rfl⟩ := Prod.mk.inj answer
    refine ⟨nofun, fun _ => fun ⟨m, models⟩ => initial.refuted first ⟨m, models, ?_⟩⟩
    exact countP_le_length
  · obtain ⟨rfl, rfl⟩ := Prod.mk.inj answer
    exact ⟨nofun, nofun⟩
  · next model first =>
    split at answer
    · obtain ⟨rfl, rfl⟩ := Prod.mk.inj answer
      exact ⟨nofun, nofun⟩
    · next kMin search found =>
      obtain ⟨ready, within, feasible, least⟩ := bisect_spec sound below (Nat.le_refl _)
        (Nat.zero_le _) (Nat.le_refl _) (ready_new items _) (fun j less => by omega)
        (initial.feasible first) found
      -- The model is that of the least bound, or of no bound where all items are violated.
      have last : Decides s.hardClauses extraHard items kMin (sat (cardinalityClauses
          s.hardClauses extraHard items
          (violatedVars (freshVar (s.hardClauses ++ extraHard ++ items.map Prod.snd)) items.length)
          (if kMin < items.length then search.bound kMin else (none, search)).2.clauses
          (if kMin < items.length then search.bound kMin else (none, search)).1)) := by
        split
        · next less => exact (bound_decides sound below ready less).2
        · obtain rfl : kMin = items.length := by omega
          exact unbounded_decides sound below ready
      split at answer
      · next model' final =>
        obtain ⟨rfl, rfl⟩ := Prod.mk.inj answer
        obtain ⟨accepted, few⟩ := last.accepted final
        -- The model violates as many items as the bound allows, as fewer are not feasible.
        have exact_ : violations (violatedIn model') items = kMin := by
          refine Nat.le_antisymm few (Nat.le_of_not_lt fun less => ?_)
          refine least _ less ⟨complete model',
            fun clause mem => satisfies_of_any (accepted clause mem), ?_⟩
          exact violations_complete_le model' items
        refine ⟨fun _ => ⟨model', rfl, accepted, ?_, ?_, ?_⟩, nofun⟩
        · rwa [exact_]
        · rw [exact_]
          rfl
        · rwa [exact_]
      · obtain ⟨rfl, rfl⟩ := Prod.mk.inj answer
        exact ⟨nofun, nofun⟩
      · obtain ⟨rfl, rfl⟩ := Prod.mk.inj answer
        exact ⟨nofun, nofun⟩

theorem solveWeightedCoreGuided_solved (sound : SatSound sat) (start : s.lowerBound = .zero)
    (nonneg : ∀ c ∈ s.softClauses, c.weight.NonNeg) :
    Solved s (s.solveWeightedCoreGuided sat).1 (s.solveWeightedCoreGuided sat).2 := by
  obtain ⟨positiveScale, denominators⟩ := weightScale_spec s.softClauses
  obtain ⟨scaled, signs⟩ := scaledClauses_spec positiveScale nonneg denominators
  obtain ⟨signUnit, divides⟩ := weightUnit_spec signs
  have scaleNe : (weightScale s.softClauses : ℚ) ≠ 0 := by exact_mod_cast positiveScale.ne'
  unfold solveWeightedCoreGuided
  dsimp only
  generalize weightScale s.softClauses = scale at *
  generalize scaledClauses scale s.softClauses = finite at *
  generalize weightUnit finite = unit at *
  split
  · next zero =>
    -- All weights are zero.
    subst zero
    refine solved_of_free sound start fun violates => ?_
    have none : scaledPenalty violates finite = 0 :=
      scaledPenalty_eq_zero (fun item mem => zero_dvd_iff.mp (divides item mem)) violates
    have product := scaled violates
    rw [none, Int.cast_zero] at product
    exact (mul_eq_zero.mp product.symm).resolve_right scaleNe
  · next nonzero =>
    have pos : 0 < unit := by omega
    -- A penalty is the number of violated copies times the cost of one of them.
    have price : ∀ violates, penalty violates s.softClauses =
        unit / scale * violations violates (unitItems finite unit) := by
      intro violates
      have copies := violations_unitItems pos signs divides violates
      rw [eq_comm, div_mul_eq_mul_div, div_eq_iff scaleNe, ← scaled violates, ← copies]
      push_cast
      ring
    split
    · exact ⟨nofun, nofun⟩
    · next affordable =>
      have small := length_unitItems pos signs divides
      split
      · next empty =>
        refine solved_of_free sound start fun violates => ?_
        rw [price, isEmpty_iff.mp empty]
        simp [violations]
      · generalize answer : s.solveByCardinalitySearch sat (unitItems finite unit)
          (infiniteClauses s.softClauses) (normalizeWeight (unit / scale)) = outcome
        obtain ⟨result, s'⟩ := outcome
        obtain ⟨optimal, unsatisfiable⟩ := solveByCardinalitySearch_spec sound answer
        refine ⟨fun best => ?_, unsatisfiable⟩
        obtain ⟨model, kept, accepted, within, bound, least⟩ := optimal best
        refine ⟨model, _, kept, ?_, accepted, price _, fun m models => ?_⟩
        · -- The reported cost is that of the violated copies.
          rw [cost, bound, start, value_zero_add, asI64_of_le (by omega)]
          exact value_mulScalar (value_normalizeWeight _) (Int.natCast_nonneg _)
        · rw [price]
          refine mul_le_mul_of_nonneg_left ?_ (by positivity)
          exact_mod_cast Nat.le_of_not_lt fun less => least _ less ⟨m, models, le_rfl⟩

/--
Solving by search is exact.

An optimal answer comes with the least cost of any model and with a model of that cost.
An unsatisfiable answer means that there is no model.
-/
theorem solve_exact (sound : SatSound sat) (ask : Cnf → List Lit → Nat → Answer)
    (fresh : Fresh s) (searches : s.searches = true) :
    Solved s (s.solve sat ask).1 (s.solve sat ask).2 := by
  obtain ⟨start, nonneg⟩ := fresh.spec
  have byCopies := solveWeightedCoreGuided_solved sound start nonneg
  unfold solve
  split
  · next empty =>
    exact checkHardSatisfiable_solved sound start (isEmpty_iff.mp empty)
  · split
    · exact byCopies
    · next single =>
      -- Every other algorithm is the same search.
      split
      · exact byCopies
      · next oll =>
        -- That algorithm does not search.
        rw [MaxSatSolver.searches, oll] at searches
        simp [single] at searches
      · exact byCopies
      · unfold solveWmax
        split <;> exact byCopies
      · exact byCopies

/-- One of two variables must be on; keeping the first off is worth one, the second a half. -/
def oneOfTwo : MaxSatSolver :=
  (((withConfig ⟨1000, true, .fuMalik⟩).addHard [.pos 0, .pos 1]).addSoftWeighted [.neg 0]
    (.int 1)).addSoftWeighted [.neg 1] (.rational (1 / 2))

/-- The second variable is on, which costs a half, and nothing costs less. -/
theorem oneOfTwo_solved : (oneOfTwo.solve trySat fun _ _ _ => .unknown).1 = .optimal ∧
      (oneOfTwo.solve trySat fun _ _ _ => .unknown).2.cost.value = some (1 / 2) ∧
      Solved oneOfTwo (oneOfTwo.solve trySat fun _ _ _ => .unknown).1
        (oneOfTwo.solve trySat fun _ _ _ => .unknown).2 := by
  refine ⟨by decide +kernel, by decide +kernel, solve_exact trySat_sound _ ?_ (by decide +kernel)⟩
  refine .addSoftWeighted (.addSoftWeighted (.addHard (.withConfig _) _) _ _ ?_) _ _ ?_
  · rintro x ⟨⟩
    norm_num
  · rintro x ⟨⟩
    norm_num

end

end MaxSatSolver

end Nixie.Opt
