import Nixie.Datalog.Evaluate
import Nixie.Datalog.Stratify

/-! The perfect model of a program, and what one stratum contributes to it. -/

namespace Nixie.Datalog

open List

variable {Rel Var V : Type*} {program : Program Rel Var V}
  {facts : List (Rel × List V)}

namespace Program

open Classical
/-- The strata with the relations that no rule derives below them. -/
noncomputable def fullLevel (program : Program Rel Var V) (r : Rel) : Nat :=
  if program.Derived r then program.level r + 1 else 0

theorem fullLevel_of_derived {r : Rel} (derived : program.Derived r) :
    program.fullLevel r = program.level r + 1 :=
  if_pos derived

theorem fullLevel_of_base {r : Rel} (base : ¬program.Derived r) : program.fullLevel r = 0 :=
  if_neg base

def factTuples (program : Program Rel Var V) (facts : List (Rel × List V)) : Interp Rel (List V) :=
  fun r => { tuple | Accepts program.schema r tuple ∧ (r, tuple) ∈ facts }

/-- The values of the facts and the constants of the heads. -/
def domain (program : Program Rel Var V) (facts : List (Rel × List V)) : List V :=
  facts.flatMap (·.2) ++ program.rules.flatMap (·.head.terms.filterMap Term.asConst)

def width (program : Program Rel Var V) (facts : List (Rel × List V)) : Nat :=
  (facts.map (·.2.length) ++ program.rules.map (·.head.terms.length)).sum

/-- Tuples of known values, in the relations of the heads and the facts. -/
def tupleSpace (program : Program Rel Var V) (facts : List (Rel × List V)) :
    Interp Rel (List V) := fun r =>
  { tuple | r ∈ facts.map (·.1) ++ program.rules.map (·.head.relation) ∧
    tuple.length ≤ program.width facts ∧ ∀ v ∈ tuple, v ∈ program.domain facts }

theorem tupleSpace_finite : (Relations.graph (program.tupleSpace facts)).Finite := by
  let rels := { r | r ∈ facts.map (·.1) ++ program.rules.map (·.head.relation) }
  let values := { v | v ∈ program.domain facts }
  have finiteValues : Finite values := finite_toSet _
  have lists := finite_length_le values (program.width facts)
  have product := (finite_toSet (facts.map (·.1) ++
    program.rules.map (·.head.relation))).prod (lists.image (map Subtype.val))
  refine product.subset ?_
  rintro ⟨r, tuple⟩ ⟨mem, short, known⟩
  refine ⟨mem, tuple.attach.map fun v => ⟨v.1, known v.1 v.2⟩, ?_, ?_⟩
  · simpa using short
  · simp

theorem factTuples_le_tupleSpace : program.factTuples facts ≤ program.tupleSpace facts := by
  rintro r tuple ⟨-, fact⟩
  refine ⟨mem_append_left _ (mem_map.mpr ⟨_, fact, rfl⟩), ?_, fun v mem => ?_⟩
  · exact le_sum_of_mem (mem_append_left _ (mem_map.mpr ⟨_, fact, rfl⟩))
  · exact mem_append_left _ (mem_flatMap.mpr ⟨_, fact, mem⟩)

variable [LinearOrder V]

def consequence (program : Program Rel Var V) (facts : List (Rel × List V)) :
    Consequence Rel (List V) where
  pos r := { q | ∃ rule ∈ program.rules, rule.head.relation = r ∧
    ∃ atom ∈ rule.body, atom.positiveRelation = some q }
  neg r := { q | ∃ rule ∈ program.rules, rule.head.relation = r ∧
    ∃ atom ∈ rule.body, atom.negatedRelation = some q }
  step P N := fun r => { tuple | Accepts program.schema r tuple ∧ ((r, tuple) ∈ facts ∨
    ∃ rule ∈ program.rules, rule.head.relation = r ∧ rule.Fires P N tuple) }
  mono := by
    rintro P P' N le r tuple ⟨accepted, fact | ⟨rule, member, head, fires⟩⟩
    · exact ⟨accepted, .inl fact⟩
    · exact ⟨accepted, .inr ⟨rule, member, head, fires.mono le⟩⟩
  depends := by
    intro P P' N N' r pos neg
    have same : ∀ rule ∈ program.rules, rule.head.relation = r → ∀ tuple,
        rule.Fires P N tuple ↔ rule.Fires P' N' tuple := by
      intro rule member head tuple
      have pos' : ∀ atom ∈ rule.body, ∀ q, atom.positiveRelation = some q → P q = P' q :=
        fun atom used q eq => pos q ⟨rule, member, head, atom, used, eq⟩
      have neg' : ∀ atom ∈ rule.body, ∀ q, atom.negatedRelation = some q → N q = N' q :=
        fun atom used q eq => neg q ⟨rule, member, head, atom, used, eq⟩
      exact ⟨Rule.Fires.congr pos' neg', Rule.Fires.congr
        (fun atom used q eq => (pos' atom used q eq).symm)
        fun atom used q eq => (neg' atom used q eq).symm⟩
    ext tuple
    refine and_congr_right fun _ => or_congr_right ?_
    refine exists_congr fun rule => and_congr_right fun member => and_congr_right fun head => ?_
    exact same rule member head tuple

/-- The perfect model: stratum by stratum what the rules derive and nothing else. -/
noncomputable def perfectModel (program : Program Rel Var V) (facts : List (Rel × List V)) :
    Interp Rel (List V) :=
  Consequence.stratifiedModel (program.consequence facts) program.fullLevel

variable (facts) in
theorem stratifies_fullLevel (acyclic : ¬program.CycleWithNegation) :
    (program.consequence facts).Stratifies program.fullLevel := by
  have strata : program.Strata program.level :=
    leveling_leastLevel (program.exists_strata_iff.mpr acyclic)
  constructor
  · rintro r q ⟨rule, mem, head, used⟩
    rw [fullLevel_of_derived ⟨rule, mem, head⟩]
    by_cases derived : program.Derived q
    · rw [fullLevel_of_derived derived]
      exact Nat.succ_le_succ (strata.pos ⟨derived, rule, mem, head, used⟩)
    · rw [fullLevel_of_base derived]
      exact Nat.zero_le _
  · rintro r q ⟨rule, mem, head, used⟩
    rw [fullLevel_of_derived ⟨rule, mem, head⟩]
    by_cases derived : program.Derived q
    · rw [fullLevel_of_derived derived]
      exact Nat.succ_lt_succ (strata.neg ⟨derived, rule, mem, head, used⟩)
    · rw [fullLevel_of_base derived]
      exact Nat.succ_pos _

variable (facts) in
theorem stable_iff (acyclic : ¬program.CycleWithNegation) (M : Interp Rel (List V)) :
    (program.consequence facts).Stable M ↔ M = program.perfectModel facts := by
  have strata := stratifies_fullLevel facts acyclic
  constructor
  · exact Consequence.eq_stratifiedModel strata
  · rintro rfl
    exact Consequence.stratifiedModel_stable strata

variable (facts) in
theorem perfectModel_step (acyclic : ¬program.CycleWithNegation) :
    (program.consequence facts).step (program.perfectModel facts) (program.perfectModel facts) =
      program.perfectModel facts := by
  have stable := (stable_iff facts acyclic _).mpr rfl
  have fixed := (program.consequence facts).step_least (program.perfectModel facts)
  rwa [stable] at fixed

theorem perfectModel_base (acyclic : ¬program.CycleWithNegation) {r : Rel}
    (base : ¬program.Derived r) : program.perfectModel facts r = program.factTuples facts r := by
  rw [← perfectModel_step facts acyclic]
  ext tuple
  refine and_congr_right fun _ => or_iff_left ?_
  rintro ⟨rule, mem, head, -⟩
  exact base ⟨rule, mem, head⟩

theorem factTuples_le_perfectModel (acyclic : ¬program.CycleWithNegation) :
    program.factTuples facts ≤ program.perfectModel facts := by
  rw [← perfectModel_step facts acyclic]
  exact fun r tuple mem => ⟨mem.1, .inl mem.2⟩

theorem perfectModel_le_upto (acyclic : ¬program.CycleWithNegation) {P : Interp Rel (List V)}
    {k : Nat} (closed : ∀ q, program.fullLevel q ≤ k →
      (program.consequence facts).step P (program.perfectModel facts) q ≤ P q)
    {r : Rel} (within : program.fullLevel r ≤ k) : program.perfectModel facts r ≤ P r := by
  have stable := (stable_iff facts acyclic _).mpr rfl
  rw [← stable]
  exact Consequence.least_le_upto (stratifies_fullLevel facts acyclic) closed within

theorem tupleSpace_closed (safe : ∀ rule ∈ program.rules, rule.Safe)
    (N : Interp Rel (List V)) {rule : Rule Rel Var V} (mem : rule ∈ program.rules)
    {tuple : List V} (fires : rule.Fires (program.tupleSpace facts) N tuple) :
    tuple ∈ program.tupleSpace facts rule.head.relation := by
  obtain ⟨θ, holds, derived⟩ := fires
  refine ⟨mem_append_right _ (mem_map.mpr ⟨rule, mem, rfl⟩), ?_, fun v used => ?_⟩
  · rw [← derived.length_eq]
    exact le_sum_of_mem (mem_append_right _ (mem_map.mpr ⟨rule, mem, rfl⟩))
  · -- A value of the head is a constant of it, or was matched in the body.
    obtain ⟨term, inHead, value⟩ := Relations.forall₂_right derived used
    cases term with
    | wildcard => cases value
    | const constant =>
      obtain rfl := Option.some.inj value
      exact mem_append_right _ (mem_flatMap.mpr ⟨rule, mem, mem_filterMap.mpr ⟨_, inHead, rfl⟩⟩)
    | var name =>
      obtain rfl := Option.some.inj value
      have bound := (safe rule mem).head
        (mem_flatMap.mpr ⟨_, inHead, mem_singleton_self name⟩)
      obtain ⟨atom, inBody, binds⟩ := mem_flatMap.mp bound
      cases atom with
      | negated rel terms => cases binds
      | comparison left op right => cases binds
      | positive rel terms =>
        obtain ⟨row, ⟨-, -, known⟩, fits⟩ := holds _ inBody
        obtain ⟨term, inTerms, isName⟩ := mem_flatMap.mp binds
        obtain ⟨v, inRow, fit⟩ := Relations.forall₂_left fits inTerms
        cases term with
        | wildcard => cases isName
        | const constant => cases isName
        | var other =>
          obtain rfl := mem_singleton.mp isName
          exact (show θ name = v from fit) ▸ known v inRow

end Program

end Nixie.Datalog

/-! Evaluating the strata in turn: what one stratum adds to the ones before it. -/

namespace Nixie.Datalog

open List

variable {Rel Var V : Type*} {program : Program Rel Var V} {facts : List (Rel × List V)}

def AtLevel (program : Program Rel Var V) (k : Nat) (rules : List (Rule Rel Var V)) : Prop :=
  ∀ rule ∈ rules, rule ∈ program.rules ∧ program.level rule.head.relation = k

/-- The rules of a stratum are applied until nothing is new. -/
def Program.Iterated [DecidableEq Rel] (program : Program Rel Var V) (semiNaive : Bool)
    (k : Nat) : Prop :=
  semiNaive = true ∧ ∃ rule ∈ program.rules, program.level rule.head.relation = k ∧
    rule.isRecursive = true

/-- A program that can be stratified, of safe rules over created relations. -/
structure Program.Admissible (program : Program Rel Var V) : Prop where
  safe : ∀ rule ∈ program.rules, rule.Safe
  created : ∀ rule ∈ program.rules, ∀ atom ∈ rule.body, Relations.Created program.schema atom
  acyclic : ¬program.CycleWithNegation

theorem Program.Admissible.strata (admissible : program.Admissible) :
    program.Strata program.level :=
  leveling_leastLevel (program.exists_strata_iff.mpr admissible.acyclic)

theorem Program.Admissible.negated_low (admissible : program.Admissible)
    {rule : Rule Rel Var V} (mem : rule ∈ program.rules) {atom : Atom Rel Var V}
    (used : atom ∈ rule.body) {q : Rel} (negated : atom.negatedRelation = some q) :
    program.fullLevel q ≤ program.level rule.head.relation := by
  by_cases derived : program.Derived q
  · rw [fullLevel_of_derived derived]
    exact admissible.strata.neg ⟨derived, rule, mem, rfl, atom, used, negated⟩
  · rw [fullLevel_of_base derived]
    exact Nat.zero_le _

theorem AtLevel.other {k : Nat} {rules : List (Rule Rel Var V)} (at_level : AtLevel program k rules)
    {q : Rel} (apart : program.fullLevel q ≠ k + 1) :
    ∀ rule ∈ rules, rule.head.relation ≠ q := by
  rintro rule mem rfl
  obtain ⟨known, level⟩ := at_level rule mem
  exact apart (by rw [Program.fullLevel_of_derived ⟨rule, known, rfl⟩, level])

theorem AtLevel.layer (admissible : program.Admissible) {k : Nat} {rules : List (Rule Rel Var V)}
    (at_level : AtLevel program k rules) {relations : Relations Rel V}
    (schema : relations.schema = program.schema) :
    Relations.Layer rules relations.interp relations where
  safe := fun rule mem => admissible.safe rule (at_level rule mem).1
  created := fun rule mem => schema ▸ admissible.created rule (at_level rule mem).1
  known := fun _ _ _ _ _ _ => rfl
  apart := by
    intro rule mem atom used q negated
    obtain ⟨known, level⟩ := at_level rule mem
    have low := admissible.negated_low known used negated
    exact at_level.other (by omega)

variable [DecidableEq Rel] {config : EngineConfig}

def strataFrom (order : HashOrder program) (map : StratumMap Rel) (k n : Nat) :
    List (Stratum Rel Var V) :=
  (List.range' k n).map fun s =>
    { rules := order.rules.filter fun rule => map rule.head.relation = s,
      recursiveDeps := ((order.rules.filter fun rule => map rule.head.relation = s).filter
        (·.isRecursive)).map (·.head.relation) }

theorem buildStrata_eq (order : HashOrder program) (map : StratumMap Rel) :
    buildStrata order map = strataFrom order map 0 ((order.relations.map map).foldr max 0 + 1) := by
  rw [buildStrata, strataFrom, range_eq_range']

theorem le_foldr_max {values : List Nat} {n : Nat} (mem : n ∈ values) : n ≤ values.foldr max 0 := by
  induction values with
  | nil => cases mem
  | cons first rest ih =>
    rcases mem_cons.mp mem with rfl | mem
    · exact Nat.le_max_left _ _
    · exact (ih mem).trans (Nat.le_max_right _ _)

theorem level_le_max (order : HashOrder program) {r : Rel} (derived : program.Derived r) :
    program.level r ≤ (order.relations.map program.level).foldr max 0 :=
  le_foldr_max (mem_map.mpr ⟨r, order.mem_relations.mpr derived, rfl⟩)

/-- The stratum of a level. -/
noncomputable def stratumAt (order : HashOrder program) (k : Nat) : Stratum Rel Var V :=
  { rules := order.rules.filter fun rule => program.level rule.head.relation = k,
    recursiveDeps := ((order.rules.filter fun rule =>
      program.level rule.head.relation = k).filter (·.isRecursive)).map (·.head.relation) }

theorem strataFrom_succ (order : HashOrder program) (k n : Nat) :
    strataFrom order program.level k (n + 1) =
      stratumAt order k :: strataFrom order program.level (k + 1) n := rfl

theorem strataFrom_add (order : HashOrder program) (k m n : Nat) :
    strataFrom order program.level k (m + n) =
      strataFrom order program.level k m ++ strataFrom order program.level (k + m) n := by
  rw [strataFrom, strataFrom, strataFrom, ← map_append, range'_append_1]

theorem stratumAt_atLevel (order : HashOrder program) (k : Nat) :
    AtLevel program k (stratumAt order k).rules := by
  intro rule mem
  obtain ⟨known, level⟩ := mem_filter.mp mem
  exact ⟨order.rules_perm.mem_iff.mp known, of_decide_eq_true level⟩

theorem mem_stratumAt (order : HashOrder program) {k : Nat} {rule : Rule Rel Var V}
    (mem : rule ∈ program.rules) (level : program.level rule.head.relation = k) :
    rule ∈ (stratumAt order k).rules :=
  mem_filter.mpr ⟨order.rules_perm.mem_iff.mpr mem, decide_eq_true level⟩

theorem iterated_iff (order : HashOrder program) (k : Nat) :
    config.semiNaive = true ∧ (stratumAt order k).recursiveDeps ≠ [] ↔
      program.Iterated config.semiNaive k := by
  refine and_congr_right fun _ => ⟨fun some_rule => ?_, ?_⟩
  · obtain ⟨r, mem⟩ := exists_mem_of_ne_nil _ some_rule
    obtain ⟨rule, mem, -⟩ := mem_map.mp mem
    obtain ⟨mem, recursive⟩ := mem_filter.mp mem
    obtain ⟨known, level⟩ := stratumAt_atLevel order k rule mem
    exact ⟨rule, known, level, recursive⟩
  · rintro ⟨rule, mem, level, recursive⟩
    exact ne_nil_of_mem (mem_map.mpr ⟨rule,
      mem_filter.mpr ⟨mem_stratumAt order mem level, recursive⟩, rfl⟩)

/-- A stratified engine has the strata of the least levels. -/
def Engine.Stratified (program : Program Rel Var V) (engine : Engine Rel Var V) : Prop :=
  engine.strata = none ∨ ∃ order : HashOrder program,
    engine.strata = some (buildStrata order program.level)

theorem Engine.Stratified.ensureStrata {engine : Engine Rel Var V}
    (stratified : engine.Stratified program) {order : HashOrder program} (settles : Settles order) :
    ∃ order' : HashOrder program,
      engine.ensureStrata order = .ok (buildStrata order' program.level) := by
  rcases stratified with none | ⟨order', found⟩
  · exact ⟨order, by rw [Engine.ensureStrata, none, stratify_eq_ok order settles]⟩
  · exact ⟨order', by rw [Engine.ensureStrata, found]⟩

/-- Visit the rules of a program in a given order. -/
def HashOrder.ofRules {rules : List (Rule Rel Var V)} (perm : rules.Perm program.rules) :
    HashOrder program where
  relations := (program.rules.map (·.head.relation)).dedup
  positive r := ((program.rules.filter (·.head.relation = r)).flatMap
    (·.body.filterMap (·.positiveRelation))).dedup
  negative r := ((program.rules.filter (·.head.relation = r)).flatMap
    (·.body.filterMap (·.negatedRelation))).dedup
  rules := rules
  drain tuples := tuples
  relations_perm := .refl _
  positive_perm _ := .refl _
  negative_perm _ := .refl _
  rules_perm := perm
  mem_drain _ _ := .rfl

theorem exists_order {k : Nat} {rules : List (Rule Rel Var V)}
    (perm : rules.Perm (program.rules.filter fun rule => program.level rule.head.relation = k)) :
    ∃ order : HashOrder program, (stratumAt order k).rules = rules := by
  -- The rules of the stratum come first.
  let others := program.rules.filter fun rule => !decide (program.level rule.head.relation = k)
  have all : (rules ++ others).Perm program.rules :=
    (perm.append_right others).trans (filter_append_perm _ _)
  refine ⟨.ofRules all, ?_⟩
  have kept : rules.filter (fun rule => program.level rule.head.relation = k) = rules := by
    refine filter_eq_self.mpr fun rule mem => ?_
    exact (mem_filter.mp (perm.mem_iff.mp mem)).2
  have dropped : others.filter (fun rule => program.level rule.head.relation = k) = [] := by
    refine filter_eq_nil_iff.mpr fun rule mem => ?_
    simpa using (mem_filter.mp mem).2
  change (rules ++ others).filter _ = rules
  rw [filter_append, kept, dropped, append_nil]

variable [DecidableEq Var] [LinearOrder V] {order : HashOrder program}

section

variable {stratum : Stratum Rel Var V} {rest : List (Stratum Rel Var V)}
  {result : EvaluationResult} {relations : Relations Rel V}

theorem evaluateStrata_skip (empty : stratum.rules = []) :
    evaluateStrata order config (stratum :: rest) result relations =
      evaluateStrata order config rest result relations := by
  rw [evaluateStrata, if_pos (isEmpty_iff.mpr empty)]

theorem evaluateStrata_error (some_rule : stratum.rules ≠ []) {e : EvaluationError Rel}
    (failed : (evaluateStratum order config stratum relations).1 = .error e) :
    evaluateStrata order config (stratum :: rest) result relations =
      (.error e, (evaluateStratum order config stratum relations).2) := by
  rw [evaluateStrata, if_neg (mt List.isEmpty_iff.mp some_rule)]
  cases out : evaluateStratum order config stratum relations with
  | mk report relations' =>
    rw [out] at failed
    obtain rfl : report = .error e := failed
    rfl

theorem evaluateStrata_ok (some_rule : stratum.rules ≠ []) {report : Nat × Nat}
    (done : (evaluateStratum order config stratum relations).1 = .ok report) :
    evaluateStrata order config (stratum :: rest) result relations =
      evaluateStrata order config rest
        ⟨result.iterations + report.1, result.newTuples + report.2⟩
        (evaluateStratum order config stratum relations).2 := by
  rw [evaluateStrata, if_neg (mt List.isEmpty_iff.mp some_rule)]
  cases out : evaluateStratum order config stratum relations with
  | mk report' relations' =>
    rw [out] at done
    obtain rfl : report' = .ok report := done
    rfl

end

theorem evaluateStrata_append (first : List (Stratum Rel Var V))
    {rest : List (Stratum Rel Var V)} {last : EvaluationResult} {final : Relations Rel V} :
    ∀ {result : EvaluationResult} {relations : Relations Rel V},
      evaluateStrata order config (first ++ rest) result relations = (.ok last, final) →
      ∃ middle relations', evaluateStrata order config first result relations =
          (.ok middle, relations') ∧
        evaluateStrata order config rest middle relations' = (.ok last, final) := by
  induction first with
  | nil => exact fun {result relations} done => ⟨result, relations, rfl, done⟩
  | cons stratum first ih =>
    intro result relations done
    rw [cons_append] at done
    by_cases empty : stratum.rules = []
    · rw [evaluateStrata_skip empty] at done ⊢
      exact ih done
    · cases out : (evaluateStratum order config stratum relations).1 with
      | error e =>
        rw [evaluateStrata_error empty out] at done
        cases done
      | ok report =>
        rw [evaluateStrata_ok empty out] at done ⊢
        exact ih done

variable [Inhabited V]

variable (config order) in
theorem evaluateStratum_spec (admissible : program.Admissible) {k : Nat}
    {stratum : Stratum Rel Var V} (at_level : AtLevel program k stratum.rules)
    {relations : Relations Rel V} (schema : relations.schema = program.schema) :
    Relations.Evaluated stratum.rules relations.interp relations
        (evaluateStratum order config stratum relations) ∧
      (config.semiNaive = true ∧ stratum.recursiveDeps ≠ [] →
        ∀ result, (evaluateStratum order config stratum relations).1 = .ok result →
          ClosedUnder program.schema relations.interp stratum.rules
            (evaluateStratum order config stratum relations).2.interp) ∧
      (¬(config.semiNaive = true ∧ stratum.recursiveDeps ≠ []) →
        (evaluateStratum order config stratum relations).2.interp =
          applyInTurn program.schema relations.interp stratum.rules relations.interp) := by
  have layer := at_level.layer admissible schema
  rw [evaluateStratum]
  by_cases iterated : config.semiNaive = true ∧ stratum.recursiveDeps ≠ []
  · have chosen : (!stratum.recursiveDeps.isEmpty && config.semiNaive) = true := by
      simp [iterated.1, iterated.2]
    rw [if_pos chosen]
    obtain ⟨evaluated, closed⟩ := Relations.evaluateSemiNaive_spec order config.maxIterations layer
    exact ⟨evaluated, fun _ => schema ▸ closed, fun once => absurd iterated once⟩
  · have chosen : ¬(!stratum.recursiveDeps.isEmpty && config.semiNaive) = true := by
      simpa [and_comm] using iterated
    rw [if_neg chosen]
    obtain ⟨count, relations', done, schema', interp, -⟩ :=
      Relations.evaluateOnce_spec order stratum.rules (fun _ mem => mem) layer
    rw [done]
    exact ⟨⟨schema', 1, interp⟩, fun more => absurd more iterated, fun _ => schema ▸ interp⟩

variable (facts config order) in
theorem evaluateStratum_ends (admissible : program.Admissible) {k : Nat}
    {stratum : Stratum Rel Var V} (at_level : AtLevel program k stratum.rules)
    {relations : Relations Rel V} (schema : relations.schema = program.schema)
    (enough : (Relations.graph (program.tupleSpace facts)).ncard + 1 < config.maxIterations)
    (within : relations.interp ≤ program.tupleSpace facts) :
    ∃ result, (evaluateStratum order config stratum relations).1 = .ok result := by
  have layer := at_level.layer admissible schema
  have closed : ClosedUnder relations.schema relations.interp stratum.rules
      (program.tupleSpace facts) := fun rule mem tuple _ fires =>
    Program.tupleSpace_closed admissible.safe _ (at_level rule mem).1 fires
  rw [evaluateStratum]
  split_ifs
  · exact Relations.evaluateSemiNaive_ends Program.tupleSpace_finite enough layer closed within
  · obtain ⟨count, relations', done, -⟩ :=
      Relations.evaluateOnce_spec order stratum.rules (fun _ mem => mem) layer
    rw [done]
    exact ⟨_, rfl⟩

variable (config order) in
theorem evaluateStrata_frame (admissible : program.Admissible) (n : Nat) :
    ∀ (k : Nat) (result : EvaluationResult) {relations : Relations Rel V},
      relations.schema = program.schema →
      let out := evaluateStrata order config (strataFrom order program.level k n) result relations
      out.2.schema = program.schema ∧ ∀ r, program.fullLevel r ≤ k ∨ k + n < program.fullLevel r →
          out.2.interp r = relations.interp r := by
  induction n with
  | zero => exact fun _ _ _ schema => ⟨schema, fun _ _ => rfl⟩
  | succ n ih =>
    intro k result relations schema
    rw [strataFrom_succ]
    have at_level := stratumAt_atLevel order k
    by_cases empty : (stratumAt order k).rules = []
    · rw [evaluateStrata_skip empty]
      obtain ⟨schema', other⟩ := ih (k + 1) result schema
      exact ⟨schema', fun r apart => other r (by omega)⟩
    · obtain ⟨⟨schema', rounds, reached⟩, -⟩ :=
        evaluateStratum_spec config order admissible at_level schema
      rw [schema] at schema'
      have kept : ∀ r, program.fullLevel r ≠ k + 1 →
          (evaluateStratum order config (stratumAt order k) relations).2.interp r =
            relations.interp r := by
        intro r apart
        rw [reached]
        exact rounds_other (at_level.other apart) rounds
      cases out : (evaluateStratum order config (stratumAt order k) relations).1 with
      | error e =>
        rw [evaluateStrata_error empty out]
        exact ⟨schema', fun r apart => kept r (by omega)⟩
      | ok report =>
        rw [evaluateStrata_ok empty out]
        obtain ⟨schema'', other⟩ := ih (k + 1) _ schema'
        exact ⟨schema'', fun r apart => (other r (by omega)).trans (kept r (by omega))⟩

variable (config order) in
theorem evaluateStrata_ends (admissible : program.Admissible)
    (enough : (Relations.graph (program.tupleSpace facts)).ncard + 1 < config.maxIterations)
    (n : Nat) :
    ∀ (k : Nat) (result : EvaluationResult) {relations : Relations Rel V},
      relations.schema = program.schema → relations.interp ≤ program.tupleSpace facts →
      ∃ last final, evaluateStrata order config (strataFrom order program.level k n) result
        relations = (.ok last, final) := by
  induction n with
  | zero => exact fun _ result relations _ _ => ⟨result, relations, rfl⟩
  | succ n ih =>
    intro k result relations schema within
    rw [strataFrom_succ]
    have at_level := stratumAt_atLevel order k
    by_cases empty : (stratumAt order k).rules = []
    · rw [evaluateStrata_skip empty]
      exact ih _ _ schema within
    · obtain ⟨report, done⟩ := evaluateStratum_ends facts config order
        admissible at_level schema enough within
      obtain ⟨⟨schema', rounds, reached⟩, -⟩ :=
        evaluateStratum_spec config order admissible at_level schema
      rw [evaluateStrata_ok empty done]
      refine ih _ _ (schema'.trans schema) ?_
      rw [reached]
      exact rounds_le (fun rule mem tuple _ fires => Program.tupleSpace_closed admissible.safe _
        (at_level rule mem).1 fires) rounds within

end Nixie.Datalog
