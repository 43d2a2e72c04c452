import Mathlib.Algebra.Order.BigOperators.Group.List
import Mathlib.Data.List.Dedup
import Mathlib.Data.List.Perm.Subperm
import Nixie.Opt.OllGroups

/-! Runs of the core-guided loop that bound every soft clause once. -/

namespace Nixie.Opt

open List Option

/-- What is assumed of the SAT solver under assumptions. -/
structure AskSound (ask : Cnf → List Lit → Nat → Answer) : Prop where
  accepted : ∀ {formula assumptions n model}, ask formula assumptions n = .sat model →
    (∀ clause ∈ formula, clause.any (trueIn model) = true) ∧
      ∀ lit ∈ assumptions, trueIn model lit = true
  refuted : ∀ {formula assumptions n core}, ask formula assumptions n = .unsat core →
    core.Nodup ∧ core ⊆ assumptions ∧ ¬Satisfiable (formula ++ core.map fun lit => [lit])

def Weight.total (w : Weight) : WithTop ℚ := w.value

theorem Weight.total_add (a b : Weight) : (a.add b).total = a.total + b.total := by
  -- With infinity on one side both sums are infinite.
  have top : ∀ x : WithTop ℚ, Weight.infinite.total + x = ⊤ := fun x => top_add x
  have top' : ∀ x : WithTop ℚ, x + Weight.infinite.total = ⊤ := fun x => add_top x
  cases a with
  | infinite => exact (top _).symm
  | int m =>
    cases b with
    | infinite => exact (top' _).symm
    | int n => exact congrArg some (Int.cast_add m n)
    | rational r => rfl
  | rational q =>
    cases b with
    | infinite => exact (top' _).symm
    | int n => exact congrArg some (add_comm (n : ℚ) q)
    | rational r => rfl

namespace MaxSatSolver

/-- Total weight of the violated soft clauses, infinite where one of them is. -/
def totalPenalty (violates : Clause → Bool) (softs : List SoftClause) : WithTop ℚ :=
  (softs.map fun c => if violates c.lits then c.weight.total else 0).sum

/-- What the answer says about hard clauses and all soft clauses. -/
structure SolvedAll (s : MaxSatSolver) (result : MaxSatResult) (s' : MaxSatSolver) : Prop where
  optimal : result = .optimal → ∃ model, s'.bestModel = some model ∧
    (∀ clause ∈ s.hardClauses, clause.any (trueIn model) = true) ∧
    totalPenalty (violatedIn model) s.softClauses = s'.cost.total ∧
    ∀ m, Models m s.hardClauses → s'.cost.total ≤ totalPenalty (violatedUnder m) s.softClauses
  unsatisfiable : result = .unsatisfiable → ¬Satisfiable s.hardClauses

def violatesSoft (s : MaxSatSolver) (violates : Clause → Bool) (id : Nat) : Bool :=
  s.softClauses[id]?.any fun c => violates c.lits

theorem totalPenalty_eq {softs : List SoftClause} {w : WithTop ℚ}
    (equal : ∀ c ∈ softs, c.weight.total = w) (violates : Clause → Bool) :
    totalPenalty violates softs = softs.countP (fun c => violates c.lits) • w := by
  induction softs with
  | nil => exact (zero_nsmul w).symm
  | cons c softs ih =>
    have rest := ih fun other lies => equal other (mem_cons_of_mem _ lies)
    rw [totalPenalty, map_cons, sum_cons, ← totalPenalty, rest, countP_cons]
    -- A violated clause adds one weight more.
    by_cases violated : violates c.lits = true
    · rw [if_pos violated, if_pos violated, succ_nsmul', equal c mem_cons_self]
    · rw [if_neg violated, if_neg violated, zero_add, Nat.add_zero]

theorem countP_eq_positions {α : Type} (p : α → Bool) (l : List α) :
    l.countP p = (List.range l.length).countP fun i => l[i]?.any p := by
  induction l with
  | nil => rfl
  | cons a l ih =>
    rw [length_cons, range_succ_eq_map, countP_cons, countP_cons, countP_map, ih]
    rfl

theorem countP_softs (s : MaxSatSolver) (violates : Clause → Bool) :
    s.softClauses.countP (fun c => violates c.lits) =
      (List.range s.softClauses.length).countP (s.violatesSoft violates) :=
  countP_eq_positions _ s.softClauses

end MaxSatSolver

namespace OllState

/--
Whether the loop takes the right step for a core.

The core names a soft clause, and no bound that an earlier core named.
It names one soft clause only where another group has more than one.
-/
def handles (st : OllState) (earlier : List (List Lit)) (core : List Lit) : Bool :=
  core.isEmpty ||
    (!(st.coreSoftIds core).isEmpty &&
      core.all (fun lit => (st.varToSoft lit.var).isSome ||
        earlier.all fun before => !before.contains lit) &&
      (decide ((st.coreSoftIds core).length ≤ 1) ||
        st.groups.all fun group => decide (group.softIds.length ≤ 1)))

/-- Whether the loop takes the right step for every core of a run. -/
def allHandled (ask : Cnf → List Lit → Nat → Answer) : Nat → List (List Lit) → OllState → Bool
  | 0, _, _ => true
  | fuel + 1, earlier, st =>
    match ask st.clauses st.assumptions fuel with
    | .sat _ | .unknown => true
    | .unsat core => st.handles earlier core &&
      match st.round (.unsat core) with
      | .inl _ => true
      | .inr st => allHandled ask fuel (core :: earlier) st

def grouped (st : OllState) : List Nat := st.groups.flatMap OllGroup.softIds

/-- Number of soft clauses of a group that are violated. -/
def payment (s : MaxSatSolver) (m : Assignment) (group : OllGroup) : Nat :=
  group.softIds.countP (s.violatesSoft (MaxSatSolver.violatedUnder m))

/-- The blocking variables say which soft clauses are violated. -/
def chargeSofts (s : MaxSatSolver) (m : Assignment) : Assignment := fun var =>
  if var < s.firstBlock then m var
  else s.violatesSoft (MaxSatSolver.violatedUnder m) (var - s.firstBlock)

def payLits (s : MaxSatSolver) (ids : List Nat) : List Lit := ids.map s.pays

/-- What the clauses of the totalizers say about the groups. -/
structure Bounding (s : MaxSatSolver) (groups : List OllGroup) (clauses : Cnf) : Prop where
  sound : ∀ m, Models m clauses → ∀ group ∈ groups,
    (∀ lit ∈ group.totalizer.boundAssumption, lit.Holds m) →
      MaxSatSolver.countTrue m (payLits s group.softIds) ≤ 1
  extend : ∀ m, ∃ m', Netlist.AgreeBelow (s.firstBlock + s.softClauses.length) m m' ∧
    Models m' clauses ∧ ∀ group ∈ groups, ∀ lit ∈ group.totalizer.boundAssumption,
      MaxSatSolver.countTrue m' (payLits s group.softIds) ≤ 1 → lit.Holds m'
  new : ∀ group ∈ groups, ∀ lit ∈ group.totalizer.boundAssumption,
    s.firstBlock + s.softClauses.length ≤ lit.var
  small : ∀ group ∈ groups, group.softIds.length ≤ 1 → group.totalizer.boundAssumption = none
  none : (∀ group ∈ groups, group.softIds.length ≤ 1) → clauses = []
  unique : ∀ group ∈ groups, ∀ lit ∈ group.totalizer.boundAssumption,
    ∀ other ∈ groups, ∀ lit' ∈ other.totalizer.boundAssumption, lit = lit'

/-- The state of the loop after cores that it handled. -/
structure Relaxed (s : MaxSatSolver) (w : WithTop ℚ) (earlier : List (List Lit))
    (st : OllState) : Prop where
  hard : st.solver.hardClauses = s.hardClauses
  softs : st.solver.softClauses = s.softClauses
  nextVar : st.nextVar = s.firstBlock + s.softClauses.length
  blockingVars : ∀ id, st.blockingVars id =
    if id < s.softClauses.length then some (s.firstBlock + id) else none
  varToSoft : ∀ var, st.varToSoft var =
    if s.firstBlock ≤ var ∧ var < s.firstBlock + s.softClauses.length
      then some (var - s.firstBlock) else none
  clauses : ∃ added, st.clauses =
    s.hardClauses ++ s.blockedClauses s.softClauses.length ++ added ∧ Bounding s st.groups added
  active : ∀ group ∈ st.groups, group.active = true
  softToGroup : ∀ id, st.softToGroup id = none ↔ id ∉ st.grouped
  nodup : st.grouped.Nodup
  within : ∀ id ∈ st.grouped, id < s.softClauses.length
  lowerBound : st.solver.lowerBound.total = st.groups.length • w
  least : ∀ m, Models m s.hardClauses → st.groups.length ≤ (st.groups.map (payment s m)).sum
  each : ∀ m, Models m s.hardClauses →
    (∀ group ∈ st.groups, ∀ lit ∈ group.totalizer.boundAssumption,
      ∀ before ∈ earlier, lit ∉ before) → ∀ group ∈ st.groups, 1 ≤ payment s m group

section

variable {s : MaxSatSolver} {w : WithTop ℚ} {earlier : List (List Lit)} {st : OllState}

theorem models_blockedClauses {m : Assignment} {count : Nat}
    (paid : ∀ id c, s.softClauses[id]? = some c → ¬Satisfies m c.lits →
      m (s.firstBlock + id) = true) : Models m (s.blockedClauses count) := by
  intro clause mem
  obtain ⟨id, -, image⟩ := mem_filterMap.mp mem
  obtain ⟨c, found, rfl⟩ := map_eq_some_iff.mp image
  rw [satisfies_append]
  by_cases holds : Satisfies m c.lits
  · exact .inl holds
  · exact .inr ⟨s.pays id, mem_singleton.mpr rfl, Lit.holds_pos.mpr (paid id c found holds)⟩

/--
A model of the hard clauses extends to the clauses of the loop.

It pays for what it violates, and assumes the bounds that it keeps.
-/
theorem Relaxed.extend (relaxed : Relaxed s w earlier st) {m : Assignment}
    (models : Models m s.hardClauses) : ∃ m', Models m' st.clauses ∧ (∀ id < s.softClauses.length,
        m' (s.firstBlock + id) = s.violatesSoft (MaxSatSolver.violatedUnder m) id) ∧
      ∀ group ∈ st.groups, ∀ lit ∈ group.totalizer.boundAssumption,
        payment s m group ≤ 1 → lit.Holds m' := by
  obtain ⟨added, clauses, bounding⟩ := relaxed.clauses
  have below := MaxSatSolver.vars_lt_freshVar
    (s.hardClauses ++ s.softClauses.map SoftClause.lits)
  -- The blocking variables say what is violated, and the totalizer counts them.
  obtain ⟨m', agree, modelsAdded, bounds⟩ := bounding.extend (chargeSofts s m)
  have old : Netlist.AgreeBelow s.firstBlock m m' := fun var lies => by
    rw [agree var (by omega), chargeSofts, if_pos lies]
  have paid : ∀ id < s.softClauses.length,
      m' (s.firstBlock + id) = s.violatesSoft (MaxSatSolver.violatedUnder m) id := by
    intro id lies
    rw [agree _ (by omega), chargeSofts, if_neg (by omega), Nat.add_sub_cancel_left]
  refine ⟨m', ?_, paid, fun group mem lit bound few => bounds group mem lit bound ?_⟩
  · rw [clauses, models_append, models_append]
    refine ⟨⟨old.models (fun clause mem => below clause (mem_append_left _ mem)) models,
      models_blockedClauses fun id c found violated => ?_⟩, modelsAdded⟩
    obtain ⟨lies, -⟩ := List.getElem?_eq_some_iff.mp found
    rw [paid id lies, MaxSatSolver.violatesSoft, found]
    -- The clause is violated under the given model, too.
    refine decide_eq_true fun satisfied => violated ((satisfies_congr fun lit mem => ?_).mp satisfied)
    exact (old lit.var (below c.lits (mem_append_right _
      (mem_map_of_mem (mem_of_getElem? found))) lit mem)).symm
  · refine Nat.le_trans (Nat.le_of_eq ?_) few
    unfold MaxSatSolver.countTrue payLits payment
    rw [countP_map]
    refine countP_congr fun id lies => ?_
    have small := relaxed.within id (mem_flatMap.mpr ⟨group, mem, lies⟩)
    rw [Function.comp_apply, MaxSatSolver.pays, Lit.value_pos, paid id small]

theorem Relaxed.mem_assumptions (relaxed : Relaxed s w earlier st) {lit : Lit}
    (mem : lit ∈ st.assumptions) :
    (∃ id < s.softClauses.length, id ∉ st.grouped ∧ lit = (s.pays id).negate) ∨
      ∃ group ∈ st.groups, lit ∈ group.totalizer.boundAssumption := by
  rcases mem_append.mp mem with blocking | bound
  · obtain ⟨id, lies, found⟩ := mem_filterMap.mp blocking
    obtain ⟨-, outside⟩ := mem_filter.mp lies
    rw [relaxed.blockingVars] at found
    split at found
    · next small =>
      refine .inl ⟨id, small, (relaxed.softToGroup id).mp (isNone_iff_eq_none.mp outside), ?_⟩
      exact (some.inj found).symm
    · cases found
  · obtain ⟨group, lies, found⟩ := mem_filterMap.mp bound
    rw [relaxed.active group lies] at found
    exact .inr ⟨group, lies, found⟩

theorem Relaxed.assumed (relaxed : Relaxed s w earlier st) (fresh : s.Fresh) {id : Nat}
    (small : id < s.softClauses.length) (outside : id ∉ st.grouped) :
    (s.pays id).negate ∈ st.assumptions := by
  refine mem_append_left _ (mem_filterMap.mpr ⟨id, mem_filter.mpr ⟨?_, ?_⟩, ?_⟩)
  · rw [softIds, relaxed.softs, fresh.ids]
    exact mem_range.mpr small
  · rw [(relaxed.softToGroup id).mpr outside]
    rfl
  · rw [relaxed.blockingVars, if_pos small]
    rfl

theorem Relaxed.assumed_bound (relaxed : Relaxed s w earlier st) {group : OllGroup}
    (mem : group ∈ st.groups) {lit : Lit} (bound : lit ∈ group.totalizer.boundAssumption) :
    lit ∈ st.assumptions :=
  mem_append_right _ (mem_filterMap.mpr
    ⟨group, mem, by rw [relaxed.active group mem]; exact bound⟩)

theorem Relaxed.varToSoft_pays (relaxed : Relaxed s w earlier st) {id : Nat}
    (small : id < s.softClauses.length) : st.varToSoft (s.pays id).negate.var = some id := by
  show st.varToSoft (s.firstBlock + id) = some id
  rw [relaxed.varToSoft, if_pos (by omega), Nat.add_sub_cancel_left]

theorem Relaxed.varToSoft_bound (relaxed : Relaxed s w earlier st) {group : OllGroup}
    (mem : group ∈ st.groups) {lit : Lit} (bound : lit ∈ group.totalizer.boundAssumption) :
    st.varToSoft lit.var = none := by
  obtain ⟨added, -, bounding⟩ := relaxed.clauses
  have := bounding.new group mem lit bound
  rw [relaxed.varToSoft, if_neg (by omega)]

theorem Relaxed.coreSoftIds_spec (relaxed : Relaxed s w earlier st) {core : List Lit}
    (nodup : core.Nodup) (assumed : core ⊆ st.assumptions) :
    (st.coreSoftIds core).Nodup ∧ ∀ id ∈ st.coreSoftIds core,
      id < s.softClauses.length ∧ id ∉ st.grouped := by
  -- A literal that names a soft clause is the opposite of the one that pays for it.
  have named : ∀ lit ∈ core, ∀ id, st.varToSoft lit.var = some id →
      lit = (s.pays id).negate ∧ id < s.softClauses.length ∧ id ∉ st.grouped := by
    intro lit mem id found
    rcases relaxed.mem_assumptions (assumed mem) with
      ⟨other, small, outside, rfl⟩ | ⟨group, lies, bound⟩
    · rw [relaxed.varToSoft_pays small] at found
      obtain rfl := some.inj found
      exact ⟨rfl, small, outside⟩
    · rw [relaxed.varToSoft_bound lies bound] at found
      cases found
  refine ⟨?_, fun id mem => ?_⟩
  · refine pairwise_filterMap.mpr (nodup.imp_of_mem ?_)
    rintro lit other lies lies' ne id found id' found' rfl
    exact ne ((named lit lies id found).1.trans (named other lies' id found').1.symm)
  · obtain ⟨lit, lies, found⟩ := mem_filterMap.mp mem
    exact (named lit lies id found).2

theorem Relaxed.pays_core (relaxed : Relaxed s w earlier st) {core : List Lit}
    (assumed : core ⊆ st.assumptions)
    (refuted : ¬Satisfiable (st.clauses ++ core.map fun lit => [lit])) {m : Assignment}
    (models : Models m s.hardClauses) :
    (∃ id ∈ st.coreSoftIds core, s.violatesSoft (MaxSatSolver.violatedUnder m) id = true) ∨
      ∃ group ∈ st.groups, ∃ lit ∈ group.totalizer.boundAssumption,
        lit ∈ core ∧ 2 ≤ payment s m group := by
  obtain ⟨m', modelsAll, paid, bounds⟩ := relaxed.extend models
  -- Some literal of the core fails in the extended model.
  obtain ⟨lit, mem, fails⟩ : ∃ lit ∈ core, ¬lit.Holds m' := by
    by_contra all
    push Not at all
    refine refuted ⟨m', models_append.mpr ⟨modelsAll, fun clause lies => ?_⟩⟩
    obtain ⟨lit, mem, rfl⟩ := mem_map.mp lies
    exact ⟨lit, mem_singleton.mpr rfl, all lit mem⟩
  rcases relaxed.mem_assumptions (assumed mem) with
    ⟨id, small, -, rfl⟩ | ⟨group, lies, bound⟩
  · refine .inl ⟨id, mem_filterMap.mpr ⟨_, mem, relaxed.varToSoft_pays small⟩, ?_⟩
    rw [Lit.holds_negate, not_not, MaxSatSolver.pays, Lit.holds_pos, paid id small] at fails
    exact fails
  · refine .inr ⟨group, lies, lit, bound, mem, ?_⟩
    by_contra few
    exact fails (bounds group lies lit bound (by omega))

def newGroup (s : MaxSatSolver) (ids : List Nat) : OllGroup where
  softIds := ids
  totalizer := ((IncrementalTotalizer.new (payLits s ids)
    (s.firstBlock + s.softClauses.length)).setBound 1).2.2
  currentBound := 1
  active := true

def newClauses (s : MaxSatSolver) (ids : List Nat) : Cnf :=
  ((IncrementalTotalizer.new (payLits s ids) (s.firstBlock + s.softClauses.length)).setBound 1).2.1

theorem length_payLits (s : MaxSatSolver) (ids : List Nat) :
    (payLits s ids).length = ids.length := length_map ..

theorem Bounding.add_small {groups : List OllGroup} {clauses : Cnf} {ids : List Nat}
    (bounding : Bounding s groups clauses) (small : ids.length ≤ 1) :
    Bounding s (groups ++ [newGroup s ids]) (clauses ++ newClauses s ids) := by
  obtain ⟨empty, unbounded⟩ := @setBound_small (payLits s ids)
    (s.firstBlock + s.softClauses.length) (by rw [length_payLits]; exact small)
  have noBound : (newGroup s ids).totalizer.boundAssumption = Option.none := unbounded
  have same : clauses ++ newClauses s ids = clauses := by
    rw [newClauses, empty, append_nil]
  -- The new group has no bound, and old groups are as they were.
  have old : ∀ group ∈ groups ++ [newGroup s ids], ∀ lit ∈ group.totalizer.boundAssumption,
      group ∈ groups := by
    intro group mem lit bound
    rcases mem_append.mp mem with before | new
    · exact before
    · rw [mem_singleton.mp new, noBound] at bound
      cases bound
  rw [same]
  refine ⟨fun m models group mem holds => ?_, fun m => ?_, fun group mem lit bound =>
    bounding.new group (old group mem lit bound) lit bound, fun group mem few => ?_,
    fun all => bounding.none fun group mem => all group (mem_append_left _ mem),
    fun group mem lit bound other mem' lit' bound' =>
      bounding.unique group (old group mem lit bound) lit bound other
        (old other mem' lit' bound') lit' bound'⟩
  · rcases mem_append.mp mem with before | new
    · exact bounding.sound m models group before holds
    · rw [mem_singleton.mp new]
      refine Nat.le_trans countP_le_length ?_
      rw [length_payLits]
      exact small
  · obtain ⟨m', agree, models, bounds⟩ := bounding.extend m
    exact ⟨m', agree, models, fun group mem lit bound =>
      bounds group (old group mem lit bound) lit bound⟩
  · rcases mem_append.mp mem with before | new
    · exact bounding.small group before few
    · rw [mem_singleton.mp new]
      exact noBound

theorem Bounding.add_large {groups : List OllGroup} {clauses : Cnf} {ids : List Nat}
    (bounding : Bounding s groups clauses) (nodup : ids.Nodup)
    (within : ∀ id ∈ ids, id < s.softClauses.length) (large : 1 < ids.length)
    (single : ∀ group ∈ groups, group.softIds.length ≤ 1) :
    Bounding s (groups ++ [newGroup s ids]) (clauses ++ newClauses s ids) := by
  have empty : clauses ++ newClauses s ids = newClauses s ids := by
    rw [bounding.none single, nil_append]
  have below : ∀ lit ∈ payLits s ids, lit.var < s.firstBlock + s.softClauses.length := by
    intro lit mem
    obtain ⟨id, lies, rfl⟩ := mem_map.mp mem
    have := within id lies
    show s.firstBlock + id < _
    omega
  have ne : (payLits s ids).Nodup := by
    refine List.Nodup.map (fun id id' same => ?_) nodup
    have vars : s.firstBlock + id = s.firstBlock + id' := congrArg Lit.var same
    omega
  have pos : ∀ lit ∈ payLits s ids, lit = .pos lit.var := by
    intro lit mem
    obtain ⟨id, -, rfl⟩ := mem_map.mp mem
    rfl
  obtain ⟨lit, bound, new, marked, exact_⟩ := setBound_large below ne pos
    (by rw [length_payLits]; exact large)
  have bound : (newGroup s ids).totalizer.boundAssumption = some lit.negate := bound
  -- Only the new group has a bound.
  have only : ∀ group ∈ groups ++ [newGroup s ids], ∀ lit' ∈ group.totalizer.boundAssumption,
      group = newGroup s ids ∧ lit' = lit.negate := by
    intro group mem lit' found
    rcases mem_append.mp mem with before | last
    · rw [bounding.small group before (single group before)] at found
      cases found
    · obtain rfl := mem_singleton.mp last
      rw [bound] at found
      exact ⟨rfl, (some.inj found).symm⟩
  rw [empty]
  refine ⟨fun m models group mem holds => ?_, fun m => ?_, fun group mem lit' found => ?_,
    fun group mem few => ?_, fun all => ?_, fun group mem lit' found other mem' lit'' found' =>
      (only group mem lit' found).2.trans (only other mem' lit'' found').2.symm⟩
  · rcases mem_append.mp mem with before | last
    · refine Nat.le_trans countP_le_length ?_
      rw [length_payLits]
      exact single group before
    · obtain rfl := mem_singleton.mp last
      by_contra more
      exact Lit.holds_negate.mp (holds _ bound) (marked m models (Nat.lt_of_not_le more))
  · obtain ⟨m', agree, models, reached⟩ := exact_ m
    refine ⟨m', agree, models, fun group mem lit' found few => ?_⟩
    obtain ⟨rfl, rfl⟩ := only group mem lit' found
    rw [Lit.holds_negate]
    intro holds
    have more := reached holds
    exact absurd few (by show ¬MaxSatSolver.countTrue m' (payLits s ids) ≤ 1; omega)
  · rw [(only group mem lit' found).2]
    exact new
  · rcases mem_append.mp mem with before | last
    · exact bounding.small group before few
    · obtain rfl := mem_singleton.mp last
      exact absurd few (Nat.not_le.mpr large)
  · exact absurd (all _ (mem_append_right _ mem_cons_self)) (Nat.not_le.mpr large)

theorem minWeight_total (equal : ∀ c ∈ st.solver.softClauses, c.weight.total = w)
    {ids : List Nat} (within : ∀ id ∈ ids, id < st.solver.softClauses.length)
    (nonempty : ids ≠ []) : (st.minWeight ids).total = w := by
  -- What was folded so far is infinite or has the common weight.
  have start : Weight.infinite.total = ⊤ ∨ Weight.infinite.total = w := .inl rfl
  have last : ids = [] → Weight.infinite.total = w := fun empty => absurd empty nonempty
  unfold minWeight
  clear nonempty
  generalize Weight.infinite = least at start last ⊢
  induction ids generalizing least with
  | nil => exact last rfl
  | cons id ids ih =>
    have small := within id mem_cons_self
    rw [foldl_cons, getElem?_eq_getElem small]
    dsimp only
    have weight := equal _ (getElem_mem small)
    generalize st.solver.softClauses[id].weight = next at weight
    have total : (least.min next).total = w := by
      unfold Weight.total at start weight ⊢
      unfold Weight.min
      rcases start with infinite | same
      · have none : least.value = none := infinite
        rw [none]
        exact weight
      · cases found : least.value with
        | none => exact weight
        | some x =>
          rw [found] at same
          rw [show next.value = some x from weight.trans same.symm]
          dsimp only
          rw [if_pos le_rfl, found]
          exact same
    exact ih (fun id lies => within id (mem_cons_of_mem _ lies)) _ (.inr total)
      fun _ => total

theorem relax_eq (nextVar : st.nextVar = s.firstBlock + s.softClauses.length)
    (blockingVars : ∀ id, st.blockingVars id =
      if id < s.softClauses.length then some (s.firstBlock + id) else none)
    {ids : List Nat} (nonempty : ids ≠ [])
    (outside : ∀ id ∈ ids, id < s.softClauses.length ∧ st.softToGroup id = none) :
    st.relax ids = { st with
      clauses := st.clauses ++ newClauses s ids
      groups := st.groups ++ [newGroup s ids]
      softToGroup := ids.foldl (fun map id => Function.update map id (some st.groups.length))
        st.softToGroup } := by
  -- None of them is in a group.
  have none : ids.filterMap st.softToGroup = [] :=
    filterMap_eq_nil_iff.mpr fun id lies => (outside id lies).2
  -- Each of them has a blocking variable.
  have lits : st.blockLits ids = payLits s ids := by
    unfold blockLits payLits
    rw [← filterMap_eq_map]
    refine filterMap_congr fun id lies => ?_
    rw [blockingVars, if_pos (outside id lies).1]
    rfl
  have some_ : (payLits s ids).isEmpty = false := by
    rw [payLits, isEmpty_map]
    exact isEmpty_eq_false_iff.mpr nonempty
  have empty : (([] : List Nat).mergeSort (· ≤ ·)).dedup.isEmpty = true := by
    rw [mergeSort_nil, dedup_nil, isEmpty_nil]
  unfold relax
  rw [none]
  dsimp only
  rw [if_pos empty, lits, some_, if_neg Bool.false_ne_true]
  unfold addGroup
  rw [lits, nextVar]
  rfl

theorem foldl_update_none (map : Nat → Option Nat) (value : Nat) (ids : List Nat) (id : Nat) :
    ids.foldl (fun map id => Function.update map id (some value)) map id = none ↔
      id ∉ ids ∧ map id = none := by
  induction ids generalizing map with
  | nil => simp
  | cons first ids ih =>
    rw [foldl_cons, ih, mem_cons, not_or, Function.update_apply]
    by_cases same : id = first
    · simp [same]
    · rw [if_neg same]
      tauto

theorem length_lt_sum {α : Type} {f : α → Nat} : ∀ {l : List α} {a : α}, a ∈ l → 2 ≤ f a →
    (∀ b ∈ l, 1 ≤ f b) → l.length + 1 ≤ (l.map f).sum
  | b :: l, a, mem, twice, each => by
    have rest : l.length ≤ (l.map f).sum := by
      rw [← length_map f]
      exact length_le_sum_of_one_le _ fun n lies => by
        obtain ⟨c, among, rfl⟩ := mem_map.mp lies
        exact each c (mem_cons_of_mem _ among)
    rw [map_cons, sum_cons, length_cons]
    rcases mem_cons.mp mem with rfl | mem
    · omega
    · have := length_lt_sum mem twice fun c lies => each c (mem_cons_of_mem _ lies)
      have := each b mem_cons_self
      omega

theorem handles_spec {core : List Lit} (handled : st.handles earlier core = true)
    (nonempty : core ≠ []) : st.coreSoftIds core ≠ [] ∧
      (∀ lit ∈ core, st.varToSoft lit.var = none → ∀ before ∈ earlier, lit ∉ before) ∧
      ((st.coreSoftIds core).length ≤ 1 ∨ ∀ group ∈ st.groups, group.softIds.length ≤ 1) := by
  have some_ : core.isEmpty = false := isEmpty_eq_false_iff.mpr nonempty
  rw [handles, some_, Bool.false_or, Bool.and_eq_true, Bool.and_eq_true] at handled
  obtain ⟨⟨named, unused⟩, single⟩ := handled
  refine ⟨by simpa using named, fun lit mem bound before lies => ?_, by simpa using single⟩
  have := all_eq_true.mp unused lit mem
  rw [bound, isSome_none, Bool.false_or] at this
  simpa using all_eq_true.mp this before lies

theorem Relaxed.pays_more (relaxed : Relaxed s w earlier st) {core : List Lit}
    (assumed : core ⊆ st.assumptions)
    (refuted : ¬Satisfiable (st.clauses ++ core.map fun lit => [lit]))
    (unused : ∀ lit ∈ core, st.varToSoft lit.var = none → ∀ before ∈ earlier, lit ∉ before)
    {m : Assignment} (models : Models m s.hardClauses) :
    st.groups.length + 1 ≤
      (st.groups.map (payment s m)).sum + payment s m (newGroup s (st.coreSoftIds core)) ∧
    ((∀ group ∈ st.groups, ∀ lit ∈ group.totalizer.boundAssumption, lit ∉ core) →
      1 ≤ payment s m (newGroup s (st.coreSoftIds core))) := by
  rcases relaxed.pays_core assumed refuted models with
    ⟨id, mem, violated⟩ | ⟨group, mem, lit, bound, named, twice⟩
  · -- A soft clause that the core names is violated.
    have pays : 1 ≤ payment s m (newGroup s (st.coreSoftIds core)) :=
      countP_pos_iff.mpr ⟨id, mem, violated⟩
    have := relaxed.least m models
    exact ⟨by omega, fun _ => pays⟩
  · -- A bound that no earlier core named is broken, and it is the only bound.
    obtain ⟨added, -, bounding⟩ := relaxed.clauses
    have each := relaxed.each m models fun other lies lit' bound' before old => by
      rw [← bounding.unique group mem lit bound other lies lit' bound']
      exact unused lit named (relaxed.varToSoft_bound mem bound) before old
    have := length_lt_sum mem twice each
    exact ⟨by omega, fun none => absurd named (none group mem lit bound)⟩

theorem Relaxed.round (relaxed : Relaxed s w earlier st)
    (equal : ∀ c ∈ s.softClauses, c.weight.total = w) {core : List Lit} (nodup : core.Nodup)
    (assumed : core ⊆ st.assumptions)
    (refuted : ¬Satisfiable (st.clauses ++ core.map fun lit => [lit]))
    (nonempty : core ≠ []) (handled : st.handles earlier core = true) :
    ∃ st', st.round (.unsat core) = .inr st' ∧ Relaxed s w (core :: earlier) st' := by
  obtain ⟨named, unused, single⟩ := handles_spec handled nonempty
  obtain ⟨ne, outside⟩ := relaxed.coreSoftIds_spec nodup assumed
  have more := fun m (models : Models m s.hardClauses) =>
    relaxed.pays_more assumed refuted unused models
  have least : (st.minWeight (st.coreSoftIds core)).total = w :=
    minWeight_total (by rw [relaxed.softs]; exact equal)
      (fun id lies => by rw [relaxed.softs]; exact (outside id lies).1) named
  unfold OllState.round
  dsimp only
  rw [if_neg (by simp [nonempty, named])]
  generalize st.coreSoftIds core = ids at *
  rw [@relax_eq s { st with solver := { st.solver with
      lowerBound := st.solver.lowerBound.add (st.minWeight ids) } } relaxed.nextVar
    relaxed.blockingVars ids named fun id lies =>
    ⟨(outside id lies).1, (relaxed.softToGroup id).mpr (outside id lies).2⟩]
  obtain ⟨added, clauses, bounding⟩ := relaxed.clauses
  have flat : (st.groups ++ [newGroup s ids]).flatMap OllGroup.softIds = st.grouped ++ ids := by
    rw [flatMap_append, flatMap_singleton]
    rfl
  refine ⟨_, rfl, {
    hard := relaxed.hard
    softs := relaxed.softs
    nextVar := relaxed.nextVar
    blockingVars := relaxed.blockingVars
    varToSoft := relaxed.varToSoft
    clauses := ?_
    active := ?_
    softToGroup := fun id => ?_
    nodup := ?_
    within := ?_
    lowerBound := ?_
    least := fun m models => ?_
    each := fun m models free => ?_ }⟩
  · refine ⟨added ++ newClauses s ids, by rw [← append_assoc, ← clauses], ?_⟩
    -- Either the new group has one soft clause, or all others have.
    by_cases small : ids.length ≤ 1
    · exact bounding.add_small small
    · exact bounding.add_large ne (fun id lies => (outside id lies).1) (by omega)
        (single.resolve_left small)
  · intro group mem
    rcases mem_append.mp mem with before | last
    · exact relaxed.active group before
    · rw [mem_singleton.mp last]
      rfl
  · show foldl _ st.softToGroup ids id = none ↔ id ∉ flatMap _ _
    rw [foldl_update_none, flat, mem_append, not_or, relaxed.softToGroup]
    exact and_comm
  · show (flatMap _ _).Nodup
    rw [flat]
    exact nodup_append'.mpr ⟨relaxed.nodup, ne,
      fun id old new => (outside id new).2 old⟩
  · show ∀ id ∈ flatMap _ _, _
    rw [flat]
    intro id mem
    rcases mem_append.mp mem with old | new
    · exact relaxed.within id old
    · exact (outside id new).1
  · show (st.solver.lowerBound.add _).total = (st.groups ++ [_]).length • w
    rw [Weight.total_add, least, relaxed.lowerBound, length_append, length_singleton, succ_nsmul]
  · show (st.groups ++ [_]).length ≤ ((st.groups ++ [_]).map _).sum
    rw [length_append, length_singleton, map_append, sum_append]
    exact (more m models).1
  · intro group mem
    -- No core named a bound, so every core was paid for by the soft clauses that it named.
    have before : ∀ group ∈ st.groups, ∀ lit ∈ group.totalizer.boundAssumption,
        ∀ core' ∈ core :: earlier, lit ∉ core' := fun group lies =>
      free group (mem_append_left _ lies)
    rcases mem_append.mp mem with old | last
    · exact relaxed.each m models (fun group lies lit bound core' among =>
        before group lies lit bound core' (mem_cons_of_mem _ among)) group old
    · rw [mem_singleton.mp last]
      exact (more m models).2 fun group lies lit bound =>
        before group lies lit bound core mem_cons_self

theorem Relaxed.length_le (relaxed : Relaxed s w earlier st) {m : Assignment}
    (models : Models m s.hardClauses) : st.groups.length ≤
      s.softClauses.countP fun c => MaxSatSolver.violatedUnder m c.lits := by
  rw [MaxSatSolver.countP_softs]
  -- The soft clauses of the groups are different.
  have flat : (st.groups.map (payment s m)).sum =
      st.grouped.countP (s.violatesSoft (MaxSatSolver.violatedUnder m)) := by
    rw [grouped, countP_flatMap]
    rfl
  refine (relaxed.least m models).trans (flat.trans_le ?_)
  refine List.Subperm.countP_le _ (List.Nodup.subperm relaxed.nodup fun id mem => ?_)
  exact mem_range.mpr (relaxed.within id mem)

theorem Relaxed.le_length (relaxed : Relaxed s w earlier st) (fresh : s.Fresh)
    {model : PartialModel} (clauses : ∀ clause ∈ st.clauses, clause.any (trueIn model) = true)
    (assumptions : ∀ lit ∈ st.assumptions, trueIn model lit = true) :
    (s.softClauses.countP fun c => MaxSatSolver.violatedIn model c.lits) ≤ st.groups.length := by
  rw [MaxSatSolver.countP_softs]
  obtain ⟨added, split, bounding⟩ := relaxed.clauses
  -- A violated soft clause is paid for.
  have paid : ∀ id, s.violatesSoft (MaxSatSolver.violatedIn model) id = true →
      id < s.softClauses.length ∧ trueIn model (s.pays id) = true := by
    intro id violated
    obtain ⟨c, found, off⟩ := (any_eq_true _ _).mp violated
    obtain ⟨small, -⟩ := List.getElem?_eq_some_iff.mp found
    have mem : c.lits ++ [s.pays id] ∈ st.clauses := by
      rw [split]
      refine mem_append_left _ (mem_append_right _ (mem_filterMap.mpr
        ⟨id, mem_range.mpr small, by rw [found]; rfl⟩))
    have on := clauses _ mem
    rw [any_append, Bool.or_eq_true] at on
    rcases on with on | on
    · rw [MaxSatSolver.violatedIn, on] at off
      cases off
    · exact ⟨small, by simpa using on⟩
  -- So it is in a group, since the others are assumed to be satisfied.
  have lies : ∀ id, s.violatesSoft (MaxSatSolver.violatedIn model) id = true →
      id ∈ st.grouped := by
    intro id violated
    by_contra outside
    obtain ⟨small, on⟩ := paid id violated
    have off := holds_of_trueIn (assumptions _ (relaxed.assumed fresh small outside))
    exact Lit.holds_negate.mp off (holds_of_trueIn on)
  have few : ∀ group ∈ st.groups,
      group.softIds.countP (fun id => Lit.value (complete model) (s.pays id)) ≤ 1 := by
    intro group mem
    have kept := bounding.sound (complete model) (fun clause among => satisfies_of_any
      (clauses clause (by rw [split]; exact mem_append_right _ among))) group mem
      fun lit bound => holds_of_trueIn (assumptions lit (relaxed.assumed_bound mem bound))
    rwa [MaxSatSolver.countTrue, payLits, countP_map] at kept
  calc (List.range s.softClauses.length).countP (s.violatesSoft (MaxSatSolver.violatedIn model))
      ≤ st.grouped.countP fun id => Lit.value (complete model) (s.pays id) := by
        rw [countP_eq_length_filter, countP_eq_length_filter]
        refine List.Subperm.length_le (List.Nodup.subperm (nodup_range.filter _) fun id mem => ?_)
        obtain ⟨-, violated⟩ := mem_filter.mp mem
        exact mem_filter.mpr ⟨lies id violated,
          Lit.holds_iff_value.mp (holds_of_trueIn (paid id violated).2)⟩
    _ = (st.groups.map fun group => group.softIds.countP
          fun id => Lit.value (complete model) (s.pays id)).sum := by
        rw [grouped, countP_flatMap]
        rfl
    _ ≤ st.groups.length := by
        refine (sum_le_card_nsmul _ 1 fun n mem => ?_).trans ?_
        · obtain ⟨group, among, rfl⟩ := mem_map.mp mem
          exact few group among
        · rw [length_map, nsmul_one, Nat.cast_id]

end

end OllState

end Nixie.Opt
