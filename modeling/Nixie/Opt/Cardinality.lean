import Nixie.Opt.SearchLaws

/-! The search finds the least number of items that must be violated. -/

namespace Nixie.Opt

open Netlist List

/-- What is assumed of the SAT solver. -/
structure SatSound (sat : Cnf → Verdict) : Prop where
  accepted : ∀ {formula model}, sat formula = .sat model →
    ∀ clause ∈ formula, clause.any (trueIn model) = true
  refuted : ∀ {formula}, sat formula = .unsat → ¬Satisfiable formula

def complete (model : PartialModel) : Assignment := fun var => model[var]?.join.getD false

theorem holds_of_trueIn {model : PartialModel} {lit : Lit} (on : trueIn model lit = true) :
    lit.Holds (complete model) := by
  -- The variable has the value that the literal asks for.
  have value : model[lit.var]?.join = some !lit.isNeg := by simpa [trueIn] using on
  rw [Lit.Holds, complete, value, Option.getD_some]

theorem satisfies_of_any {model : PartialModel} {clause : Clause}
    (any : clause.any (trueIn model) = true) : Satisfies (complete model) clause := by
  obtain ⟨lit, mem, on⟩ := any_eq_true.mp any
  exact ⟨lit, mem, holds_of_trueIn on⟩

theorem SatSound.models {sat : Cnf → Verdict} (sound : SatSound sat) {formula : Cnf}
    {model : PartialModel} (answer : sat formula = .sat model) :
    Models (complete model) formula :=
  fun clause mem => satisfies_of_any (sound.accepted answer clause mem)

namespace MaxSatSolver

theorem vars_lt_freshVar (formula : Cnf) : VarsBelow (freshVar formula) formula := by
  -- Both folds only grow, and each literal is passed once.
  have inner : ∀ (clause : Clause) (next : Nat),
      next ≤ clause.foldl (fun next lit => max next (lit.var + 1)) next ∧
        ∀ lit ∈ clause, lit.var < clause.foldl (fun next lit => max next (lit.var + 1)) next := by
    intro clause
    induction clause with
    | nil => exact fun next => ⟨Nat.le_refl _, fun lit mem => absurd mem not_mem_nil⟩
    | cons first rest ih =>
      intro next
      obtain ⟨grown, lies⟩ := ih (max next (first.var + 1))
      refine ⟨by rw [foldl_cons]; omega, fun lit mem => ?_⟩
      rw [foldl_cons]
      rcases mem_cons.mp mem with rfl | mem
      · omega
      · exact lies lit mem
  have outer : ∀ (formula : Cnf) (next : Nat),
      next ≤ formula.foldl (fun next clause =>
          clause.foldl (fun next lit => max next (lit.var + 1)) next) next ∧
        VarsBelow (formula.foldl (fun next clause =>
          clause.foldl (fun next lit => max next (lit.var + 1)) next) next) formula := by
    intro formula
    induction formula with
    | nil => exact fun next => ⟨Nat.le_refl _, fun clause mem => absurd mem not_mem_nil⟩
    | cons first rest ih =>
      intro next
      obtain ⟨grownFirst, insideFirst⟩ := inner first next
      obtain ⟨grown, lies⟩ := ih (first.foldl (fun next lit => max next (lit.var + 1)) next)
      refine ⟨by rw [foldl_cons]; omega, fun clause mem lit within => ?_⟩
      rw [foldl_cons]
      rcases mem_cons.mp mem with rfl | mem
      · exact Nat.lt_of_lt_of_le (insideFirst lit within) grown
      · exact lies clause mem lit within
  exact (outer formula 0).2

def violations (violates : Clause → Bool) (items : List (Nat × Clause)) : Nat :=
  items.countP fun item => violates item.2

def violatedUnder (m : Assignment) (clause : Clause) : Bool := decide (¬Satisfies m clause)

/-- No literal of the clause is true in the model. -/
def violatedIn (model : PartialModel) (clause : Clause) : Bool := !clause.any (trueIn model)

/-- The variables of the items, from a first one on. -/
def violatedVars (first count : Nat) : List Nat := (List.range count).map (first + ·)

theorem violatedVars_succ (first count : Nat) :
    violatedVars first (count + 1) = first :: violatedVars (first + 1) count := by
  rw [violatedVars, range_succ_eq_map, map_cons, map_map, violatedVars]
  simp only [Nat.add_zero, cons.injEq, true_and]
  refine map_congr_left fun i _ => ?_
  show first + (i + 1) = first + 1 + i
  omega

theorem violations_le {violates : Clause → Bool} {m : Assignment} :
    ∀ (items : List (Nat × Clause)) (vars : List Nat), items.length = vars.length →
      (∀ pair ∈ items.zip vars, violates pair.1.2 = true → m pair.2 = true) →
      violations violates items ≤ countTrue m (vars.map Lit.pos)
  | [], _, _, _ => Nat.zero_le _
  | item :: items, [], length, _ => by simp at length
  | item :: items, var :: vars, length, paid => by
    have rest := violations_le items vars (by simpa using length)
      fun pair mem => paid pair (mem_cons_of_mem _ mem)
    have first := paid (item, var) mem_cons_self
    unfold violations countTrue at rest ⊢
    rw [countP_cons, map_cons, countP_cons, Lit.value_pos]
    cases violated : violates item.2 with
    | false =>
      simp only [Bool.false_eq_true, if_false]
      omega
    | true =>
      simp only [first violated, if_true]
      omega

def charge (m : Assignment) (items : List (Nat × Clause)) (first : Nat) : Assignment :=
  fun var => if var < first then m var
    else match items[var - first]? with
      | some item => violatedUnder m item.2
      | none => m var

theorem charge_agree (m : Assignment) (items : List (Nat × Clause)) (first : Nat) :
    AgreeBelow first m (charge m items first) :=
  fun _ within => if_pos within

theorem countTrue_charge {m m' : Assignment} (items : List (Nat × Clause)) (first : Nat)
    (charged : ∀ i item, items[i]? = some item → m' (first + i) = violatedUnder m item.2) :
    countTrue m' ((violatedVars first items.length).map Lit.pos) =
      violations (violatedUnder m) items := by
  induction items generalizing first with
  | nil => rfl
  | cons item items ih =>
    have rest := ih (first + 1) fun i other found => by
      rw [Nat.add_assoc, Nat.add_comm 1 i]
      exact charged (i + 1) other found
    have value : m' first = violatedUnder m item.2 := charged 0 item rfl
    rw [length_cons, violatedVars_succ, map_cons]
    unfold countTrue violations at rest ⊢
    rw [countP_cons, countP_cons, rest, Lit.value_pos, value]

section

variable {hard extraHard : Cnf} {items : List (Nat × Clause)} {first k : Nat} {clauses : Cnf}

theorem models_cardinality {m : Assignment} {violated : List Nat} {atMost : Option Lit} :
    Models m (cardinalityClauses hard extraHard items violated clauses atMost) ↔
      Models m (hard ++ extraHard) ∧
      (∀ pair ∈ items.zip violated, Satisfies m pair.1.2 ∨ m pair.2 = true) ∧
      Models m clauses ∧ ∀ lit ∈ atMost, lit.Holds m := by
  unfold cardinalityClauses
  rw [models_append, models_append, models_append]
  have paid : Models m ((items.zip violated).map fun pair => pair.1.2 ++ [Lit.pos pair.2]) ↔
      ∀ pair ∈ items.zip violated, Satisfies m pair.1.2 ∨ m pair.2 = true := by
    simp only [Models, forall_mem_map, satisfies_append, satisfies_cons, Lit.holds_pos,
      satisfies_nil, or_false]
  have bound : Models m (atMost.toList.map fun lit => [lit]) ↔ ∀ lit ∈ atMost, lit.Holds m := by
    simp only [Models, forall_mem_map, satisfies_cons, satisfies_nil, or_false,
      Option.mem_toList, Option.mem_def]
  rw [paid, bound]
  tauto

def Feasible (hard extraHard : Cnf) (items : List (Nat × Clause)) (k : Nat) : Prop :=
  ∃ m, Models m (hard ++ extraHard) ∧ violations (violatedUnder m) items ≤ k

theorem Feasible.mono {j : Nat} (feasible : Feasible hard extraHard items j) (le : j ≤ k) :
    Feasible hard extraHard items k := by
  obtain ⟨m, models, few⟩ := feasible
  exact ⟨m, models, few.trans le⟩

theorem charge_models {m m' : Assignment}
    (below : VarsBelow first (hard ++ extraHard ++ items.map Prod.snd))
    (models : Models m (hard ++ extraHard))
    (agree : AgreeBelow (first + items.length) (charge m items first) m') :
    Models m' (hard ++ extraHard) ∧ (∀ pair ∈ items.zip (violatedVars first items.length),
        Satisfies m' pair.1.2 ∨ m' pair.2 = true) ∧
      countTrue m' ((violatedVars first items.length).map Lit.pos) =
        violations (violatedUnder m) items := by
  have old : AgreeBelow first m m' :=
    (charge_agree m items first).trans (agree.mono (Nat.le_add_right _ _))
  have belowHard : VarsBelow first (hard ++ extraHard) :=
    fun clause mem => below clause (mem_append_left _ mem)
  -- The variable of an item says whether the item is violated.
  have charged : ∀ i item, items[i]? = some item → m' (first + i) = violatedUnder m item.2 := by
    intro i item found
    obtain ⟨within, -⟩ := List.getElem?_eq_some_iff.mp found
    rw [agree (first + i) (by omega), charge, if_neg (by omega), Nat.add_sub_cancel_left, found]
  refine ⟨old.models belowHard models, fun pair mem => ?_, countTrue_charge items first charged⟩
  obtain ⟨i, within, same⟩ := getElem_of_mem mem
  have both := getElem?_eq_getElem within
  rw [same, getElem?_zip_eq_some] at both
  obtain ⟨found, var⟩ := both
  have place : pair.2 = first + i := by
    rw [violatedVars, getElem?_map, Option.map_eq_some_iff] at var
    obtain ⟨j, position, sum⟩ := var
    obtain ⟨_, index⟩ := List.getElem?_eq_some_iff.mp position
    rw [getElem_range] at index
    rw [index]
    exact sum.symm
  rw [place, charged i pair.1 found, violatedUnder]
  by_cases holds : Satisfies m pair.1.2
  · -- A satisfied item stays so.
    refine .inl ((satisfies_congr fun lit lies => ?_).mp holds)
    have within := below pair.1.2
      (mem_append_right _ (mem_map_of_mem (mem_of_getElem? found))) lit lies
    exact (old lit.var within).symm
  · exact .inr (decide_eq_true holds)

end

section

variable {hard extraHard : Cnf} {items : List (Nat × Clause)} {first k : Nat}
  {sat : Cnf → Verdict} {search : Search}

def violatedLits (first count : Nat) : List Lit := (violatedVars first count).map Lit.pos

theorem length_violatedVars (first count : Nat) : (violatedVars first count).length = count := by
  rw [violatedVars, length_map, length_range]

theorem length_violatedLits (first count : Nat) : (violatedLits first count).length = count := by
  rw [violatedLits, length_map, length_violatedVars]

theorem violatedLits_lt (first count : Nat) :
    ∀ lit ∈ violatedLits first count, lit.var < first + count := by
  intro lit mem
  obtain ⟨var, lies, rfl⟩ := mem_map.mp mem
  obtain ⟨i, within, rfl⟩ := mem_map.mp lies
  have := mem_range.mp within
  rw [Lit.pos_var]
  omega

/-- All clauses of the totalizer were taken, and it counts the variables of the items. -/
structure Ready (items : List (Nat × Clause)) (first : Nat) (search : Search) : Prop where
  counting : search.Counting (violatedLits first items.length) (first + items.length)
  taken : search.totalizer.clauses = []

theorem ready_new (items : List (Nat × Clause)) (first : Nat) : Ready items first
    ⟨Totalizer.new (violatedLits first items.length) (first + items.length), []⟩ where
  counting := Search.counting_new (violatedLits_lt first items.length)
  taken := rfl

theorem violatedIn_le {clauses : Cnf} {atMost : Option Lit} {model : PartialModel}
    (accepted : ∀ clause ∈ cardinalityClauses hard extraHard items
      (violatedVars first items.length) clauses atMost, clause.any (trueIn model) = true) :
    violations (violatedIn model) items ≤
      countTrue (complete model) (violatedLits first items.length) := by
  refine violations_le items _ (length_violatedVars first items.length).symm
    fun pair mem violated => ?_
  -- Only the variable of a violated item can be true in its clause.
  have lies : pair.1.2 ++ [Lit.pos pair.2] ∈ cardinalityClauses hard extraHard items
      (violatedVars first items.length) clauses atMost := by
    unfold cardinalityClauses
    exact mem_append_left _ (mem_append_left _ (mem_append_right _
      (mem_map_of_mem mem)))
  have any := accepted _ lies
  rw [any_append, Bool.or_eq_true] at any
  rcases any with on | on
  · rw [violatedIn, on] at violated
    cases violated
  · rw [any_cons, any_nil, Bool.or_false] at on
    exact Lit.holds_pos.mp (holds_of_trueIn on)

/-- What the answer for a bound tells. -/
structure Decides (hard extraHard : Cnf) (items : List (Nat × Clause)) (k : Nat)
    (verdict : Verdict) : Prop where
  accepted : ∀ {model}, verdict = .sat model →
    (∀ clause ∈ hard ++ extraHard, clause.any (trueIn model) = true) ∧
      violations (violatedIn model) items ≤ k
  refuted : verdict = .unsat → ¬Feasible hard extraHard items k

theorem violations_complete_le (model : PartialModel) (items : List (Nat × Clause)) :
    violations (violatedUnder (complete model)) items ≤ violations (violatedIn model) items := by
  refine countP_mono_left fun item _ violated => ?_
  -- What is violated under the completion has no true literal in the model.
  have off : ¬Satisfies (complete model) item.2 := of_decide_eq_true violated
  rw [violatedIn, Bool.not_eq_true']
  exact Bool.eq_false_iff.mpr fun any => off (satisfies_of_any any)

theorem Decides.feasible {verdict : Verdict} {model : PartialModel}
    (decides : Decides hard extraHard items k verdict) (answer : verdict = .sat model) :
    Feasible hard extraHard items k := by
  obtain ⟨accepted, few⟩ := decides.accepted answer
  exact ⟨complete model, fun clause mem => satisfies_of_any (accepted clause mem),
    (violations_complete_le model items).trans few⟩

theorem mem_cardinalityClauses_of_hard {clauses : Cnf} {violated : List Nat}
    {atMost : Option Lit} {clause : Clause} (mem : clause ∈ hard ++ extraHard) :
    clause ∈ cardinalityClauses hard extraHard items violated clauses atMost := by
  unfold cardinalityClauses
  exact mem_append_left _ (mem_append_left _ (mem_append_left _ mem))

theorem bound_decides (sound : SatSound sat)
    (below : VarsBelow first (hard ++ extraHard ++ items.map Prod.snd))
    (ready : Ready items first search) (within : k < items.length) :
    Ready items first (search.bound k).2 ∧
      Decides hard extraHard items k (sat (cardinalityClauses hard extraHard items
        (violatedVars first items.length) (search.bound k).2.clauses (search.bound k).1)) := by
  have fits : k < (violatedLits first items.length).length := by
    rw [length_violatedLits]
    exact within
  obtain ⟨counting, lit, found, marked, exact⟩ := Search.bound_spec ready.counting fits
  rw [found]
  refine ⟨⟨counting, rfl⟩, ⟨fun {model} answer => ?_, fun answer => ?_⟩⟩
  · have accepted := sound.accepted answer
    refine ⟨fun clause mem => accepted clause (mem_cardinalityClauses_of_hard mem),
      Nat.le_trans (violatedIn_le accepted) ?_⟩
    -- The completion satisfies the totalizer, and the literal of the bound.
    have models := sound.models answer
    obtain ⟨-, -, modelsTotalizer, bound⟩ := models_cardinality.mp models
    by_contra more
    exact Lit.holds_negate.mp (bound lit.negate rfl) (marked _ modelsTotalizer (by omega))
  · rintro ⟨m, models, few⟩
    -- Charge the violations, and let the totalizer count them.
    obtain ⟨m', agree, modelsTotalizer, reached⟩ := exact (charge m items first)
    obtain ⟨modelsHard, paid, count⟩ := charge_models below models agree
    refine sound.refuted answer ⟨m', models_cardinality.mpr
      ⟨modelsHard, paid, modelsTotalizer, fun other mem => ?_⟩⟩
    obtain rfl := Option.some.inj mem
    rw [Lit.holds_negate]
    intro on
    have more := reached on
    rw [violatedLits, count] at more
    omega

theorem unbounded_decides (sound : SatSound sat)
    (below : VarsBelow first (hard ++ extraHard ++ items.map Prod.snd))
    (ready : Ready items first search) :
    Decides hard extraHard items items.length (sat (cardinalityClauses hard extraHard items
      (violatedVars first items.length) search.clauses none)) where
  accepted := fun {model} answer =>
    ⟨fun clause mem => sound.accepted answer clause (mem_cardinalityClauses_of_hard mem),
      countP_le_length⟩
  refuted := by
    rintro answer ⟨m, models, -⟩
    obtain ⟨m', agree, modelsTotalizer⟩ := ready.counting.extend ready.taken (charge m items first)
    obtain ⟨modelsHard, paid, -⟩ := charge_models below models agree
    exact sound.refuted answer ⟨m', models_cardinality.mpr
      ⟨modelsHard, paid, modelsTotalizer, fun lit mem => absurd mem.symm (Option.some_ne_none lit)⟩⟩

variable (items) in
theorem initial_decides (sound : SatSound sat)
    (below : VarsBelow first (hard ++ extraHard ++ items.map Prod.snd)) :
    Decides hard extraHard items items.length (sat (cardinalityClauses hard extraHard items
      (violatedVars first items.length) [] none)) :=
  unbounded_decides sound below (ready_new items first)

/--
Halving the interval.

Below it nothing is feasible, and its upper end is.
-/
theorem bisect_spec (sound : SatSound sat)
    (below : VarsBelow first (hard ++ extraHard ++ items.map Prod.snd)) {fuel lo hi : Nat}
    (enough : hi - lo ≤ fuel) (le : lo ≤ hi) (within : hi ≤ items.length)
    (ready : Ready items first search) (infeasible : ∀ j < lo, ¬Feasible hard extraHard items j)
    (feasible : Feasible hard extraHard items hi) {kMin : Nat} {search' : Search}
    (found : bisect (fun clauses atMost => sat (cardinalityClauses hard extraHard items
      (violatedVars first items.length) clauses atMost)) fuel lo hi search = some (kMin, search')) :
    Ready items first search' ∧ kMin ≤ items.length ∧ Feasible hard extraHard items kMin ∧
      ∀ j < kMin, ¬Feasible hard extraHard items j := by
  induction fuel generalizing lo hi search with
  | zero =>
    obtain ⟨rfl, rfl⟩ := Prod.mk.inj (Option.some.inj found)
    obtain rfl : lo = hi := by omega
    exact ⟨ready, within, feasible, infeasible⟩
  | succ fuel ih =>
    unfold bisect at found
    split at found
    · next open_ =>
      dsimp only at found
      obtain ⟨ready', decides⟩ := bound_decides (k := lo + (hi - lo) / 2) sound below ready
        (by omega)
      split at found
      · next model answer =>
        -- The middle is feasible, so the upper half is left.
        exact ih (by omega) (by omega) (by omega) ready' infeasible (decides.feasible answer) found
      · next answer =>
        -- The middle is not feasible, and nothing below it is.
        refine ih (by omega) (by omega) within ready' (fun j less possible => ?_) feasible found
        exact decides.refuted answer (possible.mono (by omega))
      · cases found
    · obtain ⟨rfl, rfl⟩ := Prod.mk.inj (Option.some.inj found)
      obtain rfl : lo = hi := by omega
      exact ⟨ready, within, feasible, infeasible⟩

end

end MaxSatSolver

end Nixie.Opt
