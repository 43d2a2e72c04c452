import Mathlib.Tactic.FinCases
import Nixie.Datalog.Strata

/-! Exactly when evaluation leaves the perfect model, whatever the order of the hash maps. -/

namespace Nixie.Datalog

open List Nat

variable {Rel Var V : Type*} [LinearOrder V] {program : Program Rel Var V}
  {facts : List (Rel × List V)}

open Classical
/-- The model below a stratum, and the facts in it and above. -/
noncomputable def Program.beforeLevel (program : Program Rel Var V) (facts : List (Rel × List V))
    (k : Nat) : Interp Rel (List V) :=
  fun r => if program.fullLevel r ≤ k then program.perfectModel facts r
    else program.factTuples facts r

/-- Applying the rules of a stratum once in turn, in any order, derives all of the model in it. -/
def Program.OnePass (program : Program Rel Var V) (facts : List (Rel × List V)) (k : Nat) : Prop :=
  ∀ rules : List (Rule Rel Var V),
    rules.Perm (program.rules.filter fun rule => program.level rule.head.relation = k) →
    ∀ r, program.Derived r → program.level r = k → program.perfectModel facts r ≤
        applyInTurn program.schema (program.perfectModel facts) rules
          (program.beforeLevel facts k) r

section

variable [DecidableEq Rel]

theorem applyInTurn_of_apart {schema : Rel → Option (List V → Bool)} {N : Interp Rel (List V)}
    {start : Interp Rel (List V)} {r : Rel} (rules : List (Rule Rel Var V))
    (heads : ∀ rule ∈ rules, rule.head.relation = r)
    (apart : ∀ rule ∈ rules, rule.isRecursive = false) :
    ∀ {P : Interp Rel (List V)}, (∀ q, q ≠ r → P q = start q) →
      ∀ tuple ∈ applyInTurn schema N rules P r, tuple ∈ P r ∨
        Accepts schema r tuple ∧ ∃ rule ∈ rules, rule.Fires start N tuple := by
  induction rules with
  | nil => exact fun _ tuple mem => .inl mem
  | cons rule rest ih =>
    intro P same tuple mem
    have head := heads rule mem_cons_self
    have same' : ∀ q, q ≠ r → applyRule schema N rule P q = start q := by
      intro q other
      rw [← same q other]
      refine Set.union_eq_left.mpr ?_
      rintro t ⟨eq, -, -⟩
      exact absurd (eq.symm.trans head) other
    rcases ih (fun rule mem => heads rule (mem_cons_of_mem _ mem))
      (fun rule mem => apart rule (mem_cons_of_mem _ mem)) same' tuple mem with
      (old | ⟨-, accepted, fires⟩) | ⟨accepted, rule', mem', fires⟩
    · exact .inl old
    · refine .inr ⟨accepted, rule, mem_cons_self, ?_⟩
      refine fires.congr (fun atom used q positive => same q fun eq => ?_) fun _ _ _ _ => rfl
      -- The body would read the relation of the head.
      have recursive : rule.isRecursive = true :=
        any_eq_true.mpr ⟨atom, used, by simp [positive, eq, head]⟩
      exact absurd recursive (by simp [apart rule mem_cons_self])
    · exact .inr ⟨accepted, rule', mem_cons_of_mem _ mem', fires⟩

theorem onePass_iff {k : Nat} (apart : ∀ rule ∈ program.rules,
      program.level rule.head.relation = k → rule.isRecursive = false) :
    program.OnePass facts k ↔ ∀ r, program.Derived r → program.level r = k →
      program.perfectModel facts r ≤ (program.consequence facts).step
        (program.beforeLevel facts k) (program.perfectModel facts) r := by
  constructor
  · intro once r derived level tuple mem
    -- The rules of the relation come first, so that they find nothing new of the stratum.
    let stratum := program.rules.filter fun rule => program.level rule.head.relation = k
    let own := stratum.filter fun rule => rule.head.relation = r
    let others := stratum.filter fun rule => !decide (rule.head.relation = r)
    have perm : (own ++ others).Perm stratum := filter_append_perm _ _
    have found := once (own ++ others) perm r derived level mem
    have known : ∀ rule ∈ own, rule ∈ program.rules ∧ program.level rule.head.relation = k ∧
        rule.head.relation = r := by
      intro rule mem
      obtain ⟨lies, head⟩ := mem_filter.mp mem
      obtain ⟨known, level⟩ := mem_filter.mp lies
      exact ⟨known, of_decide_eq_true level, of_decide_eq_true head⟩
    rw [applyInTurn_append, applyInTurn_other others fun rule mem head => by
      simpa [head] using (mem_filter.mp mem).2] at found
    have start : ∀ t ∈ program.beforeLevel facts k r, t ∈ program.factTuples facts r := by
      have high : ¬program.fullLevel r ≤ k := by
        rw [Program.fullLevel_of_derived derived, level]
        exact not_succ_le_self k
      intro t mem
      rwa [Program.beforeLevel, if_neg high] at mem
    rcases applyInTurn_of_apart own (fun rule mem => (known rule mem).2.2)
      (fun rule mem => apart rule (known rule mem).1 (known rule mem).2.1)
      (fun _ _ => rfl) tuple found with old | ⟨accepted, rule, mem, fires⟩
    · exact ⟨(start tuple old).1, .inl (start tuple old).2⟩
    · exact ⟨accepted, .inr ⟨rule, (known rule mem).1, (known rule mem).2.2, fires⟩⟩
  · intro step rules perm r derived level tuple mem
    rcases step r derived level mem with ⟨accepted, fact | ⟨rule, known, rfl, fires⟩⟩
    · have high : ¬program.fullLevel r ≤ k := by
        rw [Program.fullLevel_of_derived derived, level]
        exact not_succ_le_self k
      refine le_applyInTurn rules r ?_
      rw [Program.beforeLevel, if_neg high]
      exact ⟨accepted, fact⟩
    · have here : rule ∈ rules := perm.mem_iff.mpr (mem_filter.mpr ⟨known, decide_eq_true level⟩)
      exact mem_applyInTurn here accepted fires

end

/-- Relations between the facts and the perfect model. -/
structure Sound (program : Program Rel Var V) (facts : List (Rel × List V))
    (relations : Relations Rel V) : Prop where
  schema : relations.schema = program.schema
  above : program.factTuples facts ≤ relations.interp
  below : relations.interp ≤ program.perfectModel facts

/-- The relations below a stratum are those of the perfect model. -/
def CompleteBelow (program : Program Rel Var V) (facts : List (Rel × List V)) (k : Nat)
    (relations : Relations Rel V) : Prop :=
  ∀ r, program.fullLevel r ≤ k → relations.interp r = program.perfectModel facts r

variable {relations : Relations Rel V}

theorem Sound.completeBelow_zero (admissible : program.Admissible)
    (sound : Sound program facts relations) : CompleteBelow program facts 0 relations := by
  intro r low
  have base : ¬program.Derived r := by
    intro derived
    rw [Program.fullLevel_of_derived derived] at low
    exact not_succ_le_zero _ low
  refine le_antisymm (sound.below r) ?_
  rw [Program.perfectModel_base admissible.acyclic base]
  exact sound.above r

theorem CompleteBelow.closed_model (admissible : program.Admissible) {k : Nat}
    (complete : CompleteBelow program facts k relations)
    {rules : List (Rule Rel Var V)} (at_level : AtLevel program k rules) :
    ClosedUnder program.schema relations.interp rules (program.perfectModel facts) := by
  intro rule mem tuple accepted fires
  obtain ⟨known, level⟩ := at_level rule mem
  rw [← Program.perfectModel_step facts admissible.acyclic]
  refine ⟨accepted, .inr ⟨rule, known, rfl, ?_⟩⟩
  refine fires.congr (fun _ _ _ _ => rfl) fun atom used q negated => ?_
  exact complete q (level ▸ admissible.negated_low known used negated)

theorem Sound.complete_of_closed (admissible : program.Admissible) {k : Nat}
    {relations' : Relations Rel V} (sound : Sound program facts relations')
    (complete : CompleteBelow program facts k relations)
    (kept : ∀ r, program.fullLevel r ≤ k → relations'.interp r = relations.interp r)
    {rules : List (Rule Rel Var V)}
    (all : ∀ rule ∈ program.rules, program.level rule.head.relation = k → rule ∈ rules)
    (closed : ClosedUnder program.schema relations.interp rules relations'.interp) :
    CompleteBelow program facts (k + 1) relations' := by
  intro r low
  refine le_antisymm (sound.below r) ?_
  -- Up to the stratum the relations are closed under derivation.
  refine Program.perfectModel_le_upto admissible.acyclic (k := k + 1) (fun q within => ?_) low
  have strata := Program.stratifies_fullLevel facts admissible.acyclic
  rcases lt_or_eq_of_le within with below | here
  · have below : program.fullLevel q ≤ k := Nat.lt_succ_iff.mp below
    have same : (program.consequence facts).step relations'.interp (program.perfectModel facts) q =
        (program.consequence facts).step (program.perfectModel facts)
          (program.perfectModel facts) q := by
      refine (program.consequence facts).depends (fun p mem => ?_) fun _ _ => rfl
      have lower := (strata.pos mem).trans below
      rw [kept p lower, complete p lower]
    rw [same, Program.perfectModel_step facts admissible.acyclic, kept q below, complete q below]
  · rintro tuple ⟨accepted, fact | ⟨rule, mem, rfl, fires⟩⟩
    · exact sound.above q ⟨accepted, fact⟩
    · have level : program.level rule.head.relation = k := by
        rw [Program.fullLevel_of_derived ⟨rule, mem, rfl⟩] at here
        exact succ.inj here
      refine closed rule (all rule mem level) tuple accepted ?_
      refine fires.congr (fun _ _ _ _ => rfl) fun atom used q negated => ?_
      exact (complete q (level ▸ admissible.negated_low mem used negated)).symm

theorem Sound.complete_of_onePass (admissible : program.Admissible) {k : Nat}
    {relations' : Relations Rel V} (before : Sound program facts relations)
    (sound : Sound program facts relations') (complete : CompleteBelow program facts k relations)
    (kept : ∀ r, program.fullLevel r ≤ k → relations'.interp r = relations.interp r)
    {rules : List (Rule Rel Var V)} (at_level : AtLevel program k rules)
    (perm : rules.Perm (program.rules.filter fun rule => program.level rule.head.relation = k))
    (once : program.OnePass facts k) (interp : relations'.interp =
      applyInTurn program.schema relations.interp rules relations.interp) :
    CompleteBelow program facts (k + 1) relations' := by
  intro r low
  rcases lt_or_eq_of_le low with below | here
  · have below : program.fullLevel r ≤ k := Nat.lt_succ_iff.mp below
    rw [kept r below, complete r below]
  · have derived : program.Derived r := by
      by_contra base
      rw [Program.fullLevel_of_base base] at here
      exact succ_ne_zero _ here.symm
    have level : program.level r = k := by
      rw [Program.fullLevel_of_derived derived] at here
      exact succ.inj here
    refine le_antisymm (sound.below r) ?_
    have start : program.beforeLevel facts k ≤ relations.interp := by
      intro q
      rw [Program.beforeLevel]
      split_ifs with lower
      · exact (complete q lower).ge
      · exact before.above q
    have same : applyInTurn program.schema relations.interp rules relations.interp =
        applyInTurn program.schema (program.perfectModel facts) rules relations.interp := by
      refine applyInTurn_congr rules fun rule mem atom used q negated => ?_
      obtain ⟨known, level⟩ := at_level rule mem
      exact complete q (level ▸ admissible.negated_low known used negated)
    rw [interp, same]
    exact (once rules perm r derived level).trans (applyInTurn_mono rules start r)

variable [DecidableEq Rel]

theorem start_spec (program : Program Rel Var V) (config : EngineConfig)
    (facts : List (Rel × List V)) :
    (Engine.start program config facts).relations.schema = program.schema ∧
      (Engine.start program config facts).relations.interp = program.factTuples facts := by
  -- Facts are inserted from the left, so that the relations are any that hold some.
  have inserted : ∀ (facts : List (Rel × List V)) (relations : Relations Rel V),
      relations.schema = program.schema →
      let last := facts.foldl (fun relations fact => (relations.insert fact.1 fact.2).2) relations
      last.schema = program.schema ∧
        last.interp = fun r => relations.interp r ∪ program.factTuples facts r := by
    intro facts
    induction facts with
    | nil =>
      intro relations schema
      exact ⟨schema, by simp [Program.factTuples]⟩
    | cons fact rest ih =>
      intro relations schema
      have step := Relations.insert_inserted relations fact.1 fact.2
      obtain ⟨schema', interp⟩ := ih _ (step.schema.trans schema)
      refine ⟨schema', interp.trans ?_⟩
      rw [step.interp, schema]
      funext r
      ext tuple
      have here : (r, tuple) = fact ↔ fact.1 = r ∧ tuple = fact.2 := by
        rw [Prod.ext_iff, eq_comm (a := r)]
      simp only [Program.factTuples, Set.mem_union, Set.mem_ofPred_eq, mem_cons, here,
        Set.mem_singleton_iff]
      tauto
  obtain ⟨schema, interp⟩ := inserted facts ⟨program.schema, fun _ => []⟩ rfl
  refine ⟨schema, interp.trans ?_⟩
  funext r
  simp [Relations.interp]

variable [DecidableEq Var]

inductive FirstOk (program : Program Rel Var V) : Engine Rel Var V → Relations Rel V → Prop
  | done (order : HashOrder program) {engine engine' : Engine Rel Var V}
      {result : EvaluationResult} (ok : engine.evaluate order = (.ok result, engine')) :
      FirstOk program engine engine'.relations
  | again (order : HashOrder program) {engine engine' : Engine Rel Var V}
      {e : EvaluationError Rel} {final : Relations Rel V}
      (failed : engine.evaluate order = (.error e, engine')) (later : FirstOk program engine' final) :
      FirstOk program engine final

/-- The program is not rejected, and evaluation leaves the perfect model, in every order. -/
def Meets (program : Program Rel Var V) (facts : List (Rel × List V)) (semiNaive : Bool) : Prop :=
  (∀ order : HashOrder program, stratify order ≠ .error .cycleWithNegation) ∧
    ∀ (maxIterations : Nat) (final : Relations Rel V),
      FirstOk program (Engine.start program ⟨maxIterations, semiNaive⟩ facts) final →
      ∀ r, program.Derived r →
        ∀ tuple, tuple ∈ final.tuples r ↔ tuple ∈ program.perfectModel facts r

theorem Meets.settles {semiNaive : Bool} (meets : Meets program facts semiNaive)
    (order : HashOrder program) : Settles order := by
  by_contra broken
  exact meets.1 order (stratify_eq_error order broken)

variable [Inhabited V] {order : HashOrder program} {config : EngineConfig}

variable (order) in
theorem evaluateStrata_sound (admissible : program.Admissible)
    (once : ∀ k, ¬program.Iterated config.semiNaive k → program.OnePass facts k) (order' : HashOrder program)
    (n : Nat) :
    ∀ (k : Nat) (result : EvaluationResult) {relations : Relations Rel V},
      Sound program facts relations → CompleteBelow program facts k relations →
      let out := evaluateStrata order config (strataFrom order' program.level k n) result relations
      Sound program facts out.2 ∧
        ∀ last, out.1 = .ok last → CompleteBelow program facts (k + n) out.2 := by
  induction n with
  | zero => exact fun _ _ _ sound complete => ⟨sound, fun _ _ => complete⟩
  | succ n ih =>
    intro k result relations sound complete
    rw [strataFrom_succ]
    have at_level := stratumAt_atLevel order' k
    have all : ∀ rule ∈ program.rules, program.level rule.head.relation = k →
        rule ∈ (stratumAt order' k).rules := fun _ => mem_stratumAt order'
    have next : k + 1 + n = k + (n + 1) := by omega
    by_cases empty : (stratumAt order' k).rules = []
    · rw [evaluateStrata_skip empty]
      have closed : ClosedUnder program.schema relations.interp (stratumAt order' k).rules
          relations.interp := by
        rw [empty]
        exact fun _ mem => nomatch mem
      have complete' := sound.complete_of_closed admissible complete (fun _ _ => rfl) all closed
      exact next ▸ ih _ _ sound complete'
    · obtain ⟨⟨schema, rounds, reached⟩, iterated, single⟩ :=
        evaluateStratum_spec config order admissible at_level sound.schema
      have sound' : Sound program facts
          (evaluateStratum order config (stratumAt order' k) relations).2 := by
        refine ⟨schema.trans sound.schema, ?_, ?_⟩
        · rw [reached]
          exact sound.above.trans (le_rounds rounds)
        · rw [reached, sound.schema]
          exact rounds_le (complete.closed_model admissible at_level) rounds sound.below
      have kept : ∀ r, program.fullLevel r ≤ k →
          (evaluateStratum order config (stratumAt order' k) relations).2.interp r =
            relations.interp r := by
        intro r low
        rw [reached]
        exact rounds_other (at_level.other (by omega)) rounds
      cases out : (evaluateStratum order config (stratumAt order' k) relations).1 with
      | error e =>
        rw [evaluateStrata_error empty out]
        exact ⟨sound', fun _ done => nomatch done⟩
      | ok report =>
        rw [evaluateStrata_ok empty out]
        rw [iterated_iff] at iterated single
        have complete' : CompleteBelow program facts (k + 1)
            (evaluateStratum order config (stratumAt order' k) relations).2 := by
          by_cases many : program.Iterated config.semiNaive k
          · exact sound'.complete_of_closed admissible complete kept all (iterated many _ out)
          · have perm := order'.rules_perm.filter fun rule =>
              decide (program.level rule.head.relation = k)
            exact sound.complete_of_onePass admissible sound' complete kept at_level perm
              (once k many) (single many)
        exact next ▸ ih _ _ sound' complete'

theorem buildStrata_sound (admissible : program.Admissible)
    (once : ∀ k, ¬program.Iterated config.semiNaive k → program.OnePass facts k)
    (order order' : HashOrder program) (sound : Sound program facts relations) :
    let out := evaluateStrata order config (buildStrata order' program.level) ⟨0, 0⟩ relations
    Sound program facts out.2 ∧
      ∀ last, out.1 = .ok last → out.2.interp = program.perfectModel facts := by
  rw [buildStrata_eq]
  obtain ⟨sound', complete⟩ := evaluateStrata_sound order admissible once order' _
    0 ⟨0, 0⟩ sound (sound.completeBelow_zero admissible)
  refine ⟨sound', fun last done => funext fun r => complete last done r ?_⟩
  by_cases derived : program.Derived r
  · rw [Program.fullLevel_of_derived derived, zero_add]
    exact succ_le_succ (level_le_max order' derived)
  · rw [Program.fullLevel_of_base derived]
    exact zero_le _

theorem evaluate_spec (admissible : program.Admissible) (settles : Settles order)
    {engine : Engine Rel Var V}
    (once : ∀ k, ¬program.Iterated engine.config.semiNaive k → program.OnePass facts k)
    (stratified : engine.Stratified program) (sound : Sound program facts engine.relations) :
    (engine.evaluate order).2.config = engine.config ∧
      (engine.evaluate order).2.Stratified program ∧
      Sound program facts (engine.evaluate order).2.relations ∧
      ∀ result, (engine.evaluate order).1 = .ok result →
        (engine.evaluate order).2.relations.interp = program.perfectModel facts := by
  obtain ⟨order', strata⟩ := stratified.ensureStrata settles
  obtain ⟨sound', perfect⟩ := buildStrata_sound admissible once order order' sound
  rw [Engine.evaluate, strata]
  exact ⟨rfl, .inr ⟨order', rfl⟩, sound', perfect⟩

theorem firstOk_perfect (admissible : program.Admissible)
    (settles : ∀ order : HashOrder program, Settles order)
    {engine : Engine Rel Var V} {final : Relations Rel V} (runs : FirstOk program engine final)
    (once : ∀ k, ¬program.Iterated engine.config.semiNaive k → program.OnePass facts k)
    (stratified : engine.Stratified program) (sound : Sound program facts engine.relations) :
    final.interp = program.perfectModel facts := by
  induction runs with
  | done order ok =>
    obtain ⟨-, -, -, perfect⟩ := evaluate_spec admissible (settles order) once stratified sound
    rw [ok] at perfect
    exact perfect _ rfl
  | again order failed later ih =>
    obtain ⟨config, stratified', sound', -⟩ :=
      evaluate_spec admissible (settles order) once stratified sound
    rw [failed] at config stratified' sound'
    exact ih (by rw [config]; exact once) stratified' sound'

theorem evaluateStrata_at (admissible : program.Admissible) {k n : Nat}
    (some_rule : (stratumAt order k).rules ≠ [])
    (schema : relations.schema = program.schema) {last : EvaluationResult} {final : Relations Rel V}
    (done : evaluateStrata order config (strataFrom order program.level 0 (k + (n + 1))) ⟨0, 0⟩
      relations = (.ok last, final)) :
    ∃ before : Relations Rel V, before.schema = program.schema ∧
      (∀ r, program.fullLevel r ≤ k → before.interp r = final.interp r) ∧
      (∀ r, program.fullLevel r = 0 ∨ k < program.fullLevel r →
        before.interp r = relations.interp r) ∧
      ∀ r, program.fullLevel r = k + 1 → final.interp r =
        (evaluateStratum order config (stratumAt order k) before).2.interp r := by
  rw [strataFrom_add, zero_add, strataFrom_succ] at done
  obtain ⟨middle, before, first, rest⟩ := evaluateStrata_append _ done
  obtain ⟨schema', kept⟩ := evaluateStrata_frame config order admissible k 0
    ⟨0, 0⟩ schema
  rw [first] at schema' kept
  have at_level := stratumAt_atLevel order k
  obtain ⟨⟨schema'', rounds, reached⟩, -⟩ :=
    evaluateStratum_spec config order admissible at_level schema'
  cases out : (evaluateStratum order config (stratumAt order k) before).1 with
  | error e =>
    rw [evaluateStrata_error some_rule out] at rest
    cases rest
  | ok report =>
    rw [evaluateStrata_ok some_rule out] at rest
    obtain ⟨-, later⟩ := evaluateStrata_frame config order admissible n
      (k + 1) ⟨middle.iterations + report.1, middle.newTuples + report.2⟩
      (schema''.trans schema')
    rw [rest] at later
    refine ⟨before, schema', fun r low => ?_, fun r apart => kept r (by omega),
      fun r here => later r (by omega)⟩
    rw [later r (by omega), reached]
    exact (rounds_other (at_level.other (by omega)) rounds).symm

variable (facts config) in
theorem evaluate_ends (admissible : program.Admissible) (settles : Settles order)
    (enough : (Relations.graph (program.tupleSpace facts)).ncard + 1 < config.maxIterations) :
    ∃ last final, evaluateStrata order config (buildStrata order program.level) ⟨0, 0⟩
        (Engine.start program config facts).relations = (.ok last, final) ∧
      FirstOk program (Engine.start program config facts) final := by
  obtain ⟨schema, interp⟩ := start_spec program config facts
  obtain ⟨last, final, done⟩ := evaluateStrata_ends config order
    admissible enough ((order.relations.map program.level).foldr max 0 + 1) 0
    ⟨0, 0⟩ schema (interp ▸ Program.factTuples_le_tupleSpace)
  rw [← buildStrata_eq] at done
  refine ⟨last, final, done, ?_⟩
  have fresh : (Engine.start program config facts).ensureStrata order =
      .ok (buildStrata order program.level) := stratify_eq_ok order settles
  have ok : (Engine.start program config facts).evaluate order = (.ok last,
      { Engine.start program config facts with
        strata := some (buildStrata order program.level), relations := final }) := by
    rw [Engine.evaluate, fresh]
    have same : (Engine.start program config facts).config = config := rfl
    simp only [same, done]
  exact .done order ok

theorem onePass_of_meets (admissible : program.Admissible) {semiNaive : Bool}
    (meets : Meets program facts semiNaive) {k : Nat} (single : ¬program.Iterated semiNaive k) :
    program.OnePass facts k := by
  intro rules perm r derived level
  obtain ⟨order, here⟩ := exists_order perm
  let config : EngineConfig := ⟨(Relations.graph (program.tupleSpace facts)).ncard + 2, semiNaive⟩
  obtain ⟨schema, interp⟩ := start_spec program config facts
  obtain ⟨last, final, done, ok⟩ := evaluate_ends facts config admissible
    (meets.settles order) (lt_succ_self _)
  rw [buildStrata_eq] at done
  -- All relations end as in the model, those that no rule derives included.
  have perfect : ∀ q, final.interp q = program.perfectModel facts q := by
    intro q
    by_cases derived : program.Derived q
    · ext tuple
      exact meets.2 _ final ok q derived tuple
    · obtain ⟨-, kept⟩ := evaluateStrata_frame config order admissible _
        0 ⟨0, 0⟩ schema
      rw [done] at kept
      rw [kept q (.inl (Program.fullLevel_of_base derived).le), interp,
        Program.perfectModel_base admissible.acyclic derived]
  obtain ⟨above, total⟩ := Nat.exists_eq_add_of_le (level ▸ level_le_max order derived)
  have some_rule : (stratumAt order k).rules ≠ [] := by
    obtain ⟨rule, mem, head⟩ := derived
    exact ne_nil_of_mem (mem_stratumAt order mem (head ▸ level))
  rw [total, add_assoc] at done
  obtain ⟨before, schema', low, high, reached⟩ := evaluateStrata_at admissible some_rule schema done
  have start : before.interp = program.beforeLevel facts k := by
    funext q
    rw [Program.beforeLevel]
    split_ifs with lower
    · rw [low q lower, perfect]
    · rw [high q (.inr (Nat.lt_of_not_le lower)), interp]
  have at_level := stratumAt_atLevel order k
  obtain ⟨-, -, once⟩ := evaluateStratum_spec config order admissible at_level schema'
  rw [iterated_iff] at once
  have top : program.fullLevel r = k + 1 := by rw [Program.fullLevel_of_derived derived, level]
  rw [← perfect r, reached r top, once single, here, start]
  refine (congrFun (applyInTurn_congr rules fun rule mem atom used q negated => ?_) r).le
  obtain ⟨known, level⟩ := at_level rule (here ▸ mem)
  exact if_pos (level ▸ admissible.negated_low known used negated)

/-- Evaluation meets the perfect model exactly where the permitted passes find the strata and one
pass suffices in every stratum that is not iterated. -/
theorem meets_perfectModel_iff (admissible : program.Admissible) (semiNaive : Bool) :
    Meets program facts semiNaive ↔ (∀ order : HashOrder program, Settles order) ∧
        ∀ k, ¬program.Iterated semiNaive k → program.OnePass facts k := by
  constructor
  · exact fun meets => ⟨meets.settles, fun _ => onePass_of_meets admissible meets⟩
  · rintro ⟨settles, once⟩
    refine ⟨fun order rejected => ?_, fun maxIterations final runs r _ tuple => ?_⟩
    · rw [stratify_eq_ok order (settles order)] at rejected
      cases rejected
    · obtain ⟨schema, interp⟩ := start_spec program ⟨maxIterations, semiNaive⟩ facts
      have sound : Sound program facts
          (Engine.start program ⟨maxIterations, semiNaive⟩ facts).relations :=
        ⟨schema, interp.ge, interp ▸ Program.factTuples_le_perfectModel admissible.acyclic⟩
      have perfect := firstOk_perfect admissible settles runs once (.inl rfl) sound
      rw [← perfect]
      exact Iff.rfl

/-- Paths: an edge, or an edge and then a path. -/
def pathProgram : Program Nat Nat Nat where
  rules := [⟨⟨1, [.var 0, .var 1]⟩, [.positive 0 [.var 0, .var 1]]⟩,
    ⟨⟨1, [.var 0, .var 2]⟩, [.positive 0 [.var 0, .var 1], .positive 1 [.var 1, .var 2]]⟩]
  schema := fun r => if r ≤ 1 then some fun tuple => tuple.length = 2 else none

theorem strata_zero {Rel Var V : Type*} {program : Program Rel Var V}
    (positive : ∀ rule ∈ program.rules, ∀ atom ∈ rule.body, atom.negatedRelation = none) :
    program.Strata fun _ => 0 := by
  refine ⟨fun _ => le_refl 0, fun {r q} dep => ?_⟩
  obtain ⟨-, rule, mem, -, atom, used, negated⟩ := dep
  exact absurd ((positive rule mem atom used).symm.trans negated) (by simp)

theorem pathProgram_positive : ∀ rule ∈ pathProgram.rules, ∀ atom ∈ rule.body,
    atom.negatedRelation = none := by
  decide

theorem pathProgram_admissible : pathProgram.Admissible where
  safe := by
    intro rule mem
    fin_cases mem
    · exact ⟨⟨by decide, trivial⟩, by decide⟩
    · exact ⟨⟨by decide, by decide, trivial⟩, by decide⟩
  created := by
    have created : ∀ rule ∈ pathProgram.rules, ∀ atom ∈ rule.body,
        (∀ q ∈ atom.positiveRelation, (pathProgram.schema q).isSome) ∧
          ∀ q ∈ atom.negatedRelation, (pathProgram.schema q).isSome := by
      decide
    exact fun rule mem atom used => Relations.created_iff.mpr (created rule mem atom used)
  acyclic := (Program.exists_strata_iff _).mp ⟨_, strata_zero pathProgram_positive⟩

/-- Evaluation finds all paths. -/
theorem pathProgram_meets : Meets pathProgram [(0, [1, 2]), (0, [2, 3])] true := by
  refine (meets_perfectModel_iff pathProgram_admissible true).mpr ⟨fun order => ?_, fun k single => ?_⟩
  · exact settles_of_sum_le order (strata_zero pathProgram_positive) (by simp)
  · -- All rules are in the lowest stratum, and one of them is recursive.
    rintro rules - r ⟨rule, member, rfl⟩ level
    have head : rule.head.relation = 1 := by
      fin_cases member
      · rfl
      · rfl
    exact absurd ⟨rfl, _, mem_cons_of_mem _ mem_cons_self, head ▸ level, by decide⟩ single

/-- A chain: what is in the first relation is in the second, and so in the third. -/
def chainProgram : Program Nat Nat Nat where
  rules := [⟨⟨2, [.var 0]⟩, [.positive 1 [.var 0]]⟩, ⟨⟨1, [.var 0]⟩, [.positive 0 [.var 0]]⟩]
  schema := fun r => if r ≤ 2 then some fun tuple => tuple.length = 1 else none

/-- With the rule of the third relation first evaluation misses what it derives. -/
theorem chainProgram_incomplete :
    chainProgram.Admissible ∧ ¬Meets chainProgram [(0, [7])] true := by
  have positive : ∀ rule ∈ chainProgram.rules, ∀ atom ∈ rule.body,
      atom.negatedRelation = none := by
    decide
  have acyclic : ¬chainProgram.CycleWithNegation :=
    (Program.exists_strata_iff _).mp ⟨_, strata_zero positive⟩
  refine ⟨⟨?_, ?_, acyclic⟩, fun meets => ?_⟩
  · intro rule member
    fin_cases member
    · exact ⟨⟨by decide, trivial⟩, by decide⟩
    · exact ⟨⟨by decide, trivial⟩, by decide⟩
  · have created : ∀ rule ∈ chainProgram.rules, ∀ atom ∈ rule.body,
        (∀ q ∈ atom.positiveRelation, (chainProgram.schema q).isSome) ∧
          ∀ q ∈ atom.negatedRelation, (chainProgram.schema q).isSome := by
      decide
    exact fun rule member atom used => Relations.created_iff.mpr (created rule member atom used)
  · let order : HashOrder chainProgram := .ofRules (.refl _)
    let engine := Engine.start chainProgram ⟨10000, true⟩ [(0, [7])]
    have ok : (engine.evaluate order).1 = .ok ⟨1, 1⟩ := rfl
    have empty : (engine.evaluate order).2.relations.tuples 2 = [] := rfl
    have runs : FirstOk chainProgram engine (engine.evaluate order).2.relations :=
      .done order (Prod.ext ok rfl)
    -- The model has the tuple in each of the relations.
    have step := Program.perfectModel_step [(0, [7])] acyclic
    have first : [7] ∈ chainProgram.perfectModel [(0, [7])] 0 := by
      rw [← step]
      exact ⟨⟨_, rfl, rfl⟩, .inl mem_cons_self⟩
    have second : [7] ∈ chainProgram.perfectModel [(0, [7])] 1 := by
      rw [← step]
      refine ⟨⟨_, rfl, rfl⟩, .inr ⟨_, mem_cons_of_mem _ mem_cons_self, rfl,
        fun _ => 7, ?_, .cons rfl .nil⟩⟩
      rintro atom member
      obtain rfl := mem_singleton.mp member
      exact ⟨[7], first, .cons rfl .nil⟩
    have third : [7] ∈ chainProgram.perfectModel [(0, [7])] 2 := by
      rw [← step]
      refine ⟨⟨_, rfl, rfl⟩, .inr ⟨_, mem_cons_self, rfl, fun _ => 7, ?_, .cons rfl .nil⟩⟩
      rintro atom member
      obtain rfl := mem_singleton.mp member
      exact ⟨[7], second, .cons rfl .nil⟩
    have missed := (meets.2 10000 _ runs 2 ⟨_, mem_cons_self, rfl⟩ [7]).mpr third
    rw [empty] at missed
    cases missed

end Nixie.Datalog
