import Nixie.Datalog.Matching

/-! Evaluating the rules of a stratum, once or until nothing is new. -/

namespace Nixie.Datalog

open List Function

variable {Rel Var V : Type*}

/-- The schema of a created relation accepts a tuple. -/
def Accepts (schema : Rel → Option (List V → Bool)) (r : Rel) (tuple : List V) : Prop :=
  ∃ accepts, schema r = some accepts ∧ accepts tuple = true

namespace Relations

/-- What inserting tuples does, and that the count tells whether anything was new. -/
structure Inserted (rel : Rel) (added : Set (List V)) (relations relations' : Relations Rel V)
    (count : Nat) : Prop where
  schema : relations'.schema = relations.schema
  interp : relations'.interp = fun r =>
    relations.interp r ∪ { tuple | rel = r ∧ Accepts relations.schema r tuple ∧ tuple ∈ added }
  count : count = 0 ↔ relations'.interp = relations.interp

variable {relations : Relations Rel V}

theorem Inserted.none {rel : Rel} : Inserted rel ∅ relations relations 0 where
  schema := rfl
  interp := by simp
  count := by simp

theorem Inserted.trans {rel : Rel} {added added' : Set (List V)} {s s' s'' : Relations Rel V}
    {m n : Nat} (first : Inserted rel added s s' m) (second : Inserted rel added' s' s'' n) :
    Inserted rel (added ∪ added') s s'' (m + n) where
  schema := second.schema.trans first.schema
  interp := by
    rw [second.interp, first.interp, first.schema]
    funext r
    ext tuple
    simp only [Set.mem_union, Set.mem_ofPred_eq]
    tauto
  count := by
    have grows : s.interp ≤ s'.interp := by
      rw [first.interp]
      exact fun r tuple mem => .inl mem
    have grows' : s'.interp ≤ s''.interp := by
      rw [second.interp]
      exact fun r tuple mem => .inl mem
    rw [Nat.add_eq_zero_iff, first.count, second.count]
    constructor
    · rintro ⟨same, same'⟩
      exact same'.trans same
    · intro same
      have middle : s'.interp = s.interp := le_antisymm (grows'.trans same.le) grows
      exact ⟨middle, same.trans middle.symm⟩

/-- Rules that can be evaluated together: what they negate is known, and none of them derives it. -/
structure Layer (rules : List (Rule Rel Var V)) (N : Interp Rel (List V))
    (relations : Relations Rel V) : Prop where
  safe : ∀ rule ∈ rules, rule.Safe
  created : ∀ rule ∈ rules, ∀ atom ∈ rule.body, Created relations.schema atom
  known : ∀ rule ∈ rules, ∀ atom ∈ rule.body, ∀ q, atom.negatedRelation = some q →
    N q = relations.interp q
  apart : ∀ rule ∈ rules, ∀ atom ∈ rule.body, ∀ q, atom.negatedRelation = some q →
    ∀ rule' ∈ rules, rule'.head.relation ≠ q

variable {rules : List (Rule Rel Var V)}

theorem Layer.after {relations' : Relations Rel V}
    (layer : Layer rules N relations) (schema : relations'.schema = relations.schema)
    (other : ∀ q, (∀ rule ∈ rules, rule.head.relation ≠ q) →
      relations'.interp q = relations.interp q) : Layer rules N relations' where
  safe := layer.safe
  created := schema ▸ layer.created
  known := fun rule mem atom used q negated =>
    (layer.known rule mem atom used q negated).trans
      (other q (layer.apart rule mem atom used q negated)).symm
  apart := layer.apart

def graph (P : Interp Rel (List V)) : Set (Rel × List V) := { p | p.2 ∈ P p.1 }

theorem graph_mono {P P' : Interp Rel (List V)} (le : P ≤ P') : graph P ⊆ graph P' :=
  fun p mem => le p.1 mem

theorem ncard_diff_lt {P P' C : Interp Rel (List V)} (finite : (graph C).Finite) (le : P ≤ P')
    (within : P' ≤ C) (grew : P' ≠ P) :
    (graph C \ graph P').ncard < (graph C \ graph P).ncard := by
  refine Set.ncard_lt_ncard ⟨Set.sdiff_subset_sdiff_right (graph_mono le), fun sub => ?_⟩
    (finite.subset Set.sdiff_subset)
  refine grew (le_antisymm (fun r tuple mem => ?_) le)
  by_contra absent
  exact (sub (show (r, tuple) ∈ graph C \ graph P from ⟨within r mem, absent⟩)).2 mem

end Relations

variable [LinearOrder V]

def applyRule (schema : Rel → Option (List V → Bool)) (N : Interp Rel (List V))
    (rule : Rule Rel Var V) (P : Interp Rel (List V)) : Interp Rel (List V) := fun r =>
  P r ∪ { tuple | rule.head.relation = r ∧ Accepts schema r tuple ∧ rule.Fires P N tuple }

/-- What rules add when each is applied once, to what the rules before it added. -/
def applyInTurn (schema : Rel → Option (List V → Bool)) (N : Interp Rel (List V)) :
    List (Rule Rel Var V) → Interp Rel (List V) → Interp Rel (List V)
  | [], P => P
  | rule :: rest, P => applyInTurn schema N rest (applyRule schema N rule P)

section

variable {schema : Rel → Option (List V → Bool)} {N : Interp Rel (List V)}
  {P P' C : Interp Rel (List V)} {rules : List (Rule Rel Var V)} {rule : Rule Rel Var V}

/-- Every accepted tuple that a rule fires on is there. -/
def ClosedUnder (schema : Rel → Option (List V → Bool)) (N : Interp Rel (List V))
    (rules : List (Rule Rel Var V)) (C : Interp Rel (List V)) : Prop :=
  ∀ rule ∈ rules, ∀ tuple, Accepts schema rule.head.relation tuple → rule.Fires C N tuple →
    tuple ∈ C rule.head.relation

theorem le_applyRule : P ≤ applyRule schema N rule P := fun _ _ mem => .inl mem

theorem le_applyInTurn (rules : List (Rule Rel Var V)) :
    ∀ {P}, P ≤ applyInTurn schema N rules P := by
  induction rules with
  | nil => exact fun {P} => le_refl P
  | cons rule rest ih => exact fun {P} => le_applyRule.trans ih

theorem applyRule_mono (le : P ≤ P') : applyRule schema N rule P ≤ applyRule schema N rule P' := by
  rintro r tuple (mem | ⟨head, accepted, fires⟩)
  · exact .inl (le r mem)
  · exact .inr ⟨head, accepted, fires.mono le⟩

theorem applyInTurn_mono (rules : List (Rule Rel Var V)) :
    ∀ {P P'}, P ≤ P' → applyInTurn schema N rules P ≤ applyInTurn schema N rules P' := by
  induction rules with
  | nil => exact fun le => le
  | cons rule rest ih => exact fun le => ih (applyRule_mono le)

theorem applyInTurn_le (rules : List (Rule Rel Var V)) :
    ∀ {P}, ClosedUnder schema N rules C → P ≤ C → applyInTurn schema N rules P ≤ C := by
  induction rules with
  | nil => exact fun _ le => le
  | cons rule rest ih =>
    intro P closed le
    refine ih (fun rule mem => closed rule (mem_cons_of_mem _ mem)) ?_
    rintro r tuple (mem | ⟨rfl, accepted, fires⟩)
    · exact le r mem
    · exact closed rule mem_cons_self tuple accepted (fires.mono le)

theorem applyInTurn_other (rules : List (Rule Rel Var V)) {r : Rel} :
    ∀ {P}, (∀ rule ∈ rules, rule.head.relation ≠ r) → applyInTurn schema N rules P r = P r := by
  induction rules with
  | nil => exact fun _ => rfl
  | cons rule rest ih =>
    intro P other
    rw [applyInTurn, ih fun rule mem => other rule (mem_cons_of_mem _ mem)]
    refine Set.union_eq_left.mpr ?_
    rintro tuple ⟨head, -, -⟩
    exact absurd head (other rule mem_cons_self)

theorem applyInTurn_append (first : List (Rule Rel Var V)) {rest : List (Rule Rel Var V)} :
    ∀ {P}, applyInTurn schema N (first ++ rest) P =
      applyInTurn schema N rest (applyInTurn schema N first P) := by
  induction first with
  | nil => exact rfl
  | cons rule first ih => exact ih

theorem mem_applyInTurn (mem : rule ∈ rules) {tuple : List V}
    (accepted : Accepts schema rule.head.relation tuple) :
    ∀ {P}, rule.Fires P N tuple →
      tuple ∈ applyInTurn schema N rules P rule.head.relation := by
  induction rules with
  | nil => cases mem
  | cons first rest ih =>
    intro P fires
    rcases mem_cons.mp mem with rfl | mem
    · exact le_applyInTurn rest _ (.inr ⟨rfl, accepted, fires⟩)
    · exact ih mem (fires.mono le_applyRule)

theorem closedUnder_of_fixed (rules : List (Rule Rel Var V)) :
    ∀ {P}, applyInTurn schema N rules P = P → ClosedUnder schema N rules P := by
  induction rules with
  | nil => exact fun _ _ mem => nomatch mem
  | cons rule rest ih =>
    intro P fixed
    -- The rounds only add, so that no rule of it added anything.
    have here : applyRule schema N rule P = P :=
      le_antisymm ((le_applyInTurn rest).trans fixed.le) le_applyRule
    rw [applyInTurn, here] at fixed
    intro rule' mem tuple accepted fires
    rcases mem_cons.mp mem with rfl | mem
    · rw [← here]
      exact .inr ⟨rfl, accepted, fires⟩
    · exact ih fixed rule' mem tuple accepted fires

theorem applyInTurn_congr {N' : Interp Rel (List V)} (rules : List (Rule Rel Var V)) :
    ∀ {P}, (∀ rule ∈ rules, ∀ atom ∈ rule.body, ∀ q, atom.negatedRelation = some q → N q = N' q) →
      applyInTurn schema N rules P = applyInTurn schema N' rules P := by
  induction rules with
  | nil => exact fun _ => rfl
  | cons rule rest ih =>
    intro P same
    have here : applyRule schema N rule P = applyRule schema N' rule P := by
      have both : ∀ tuple, rule.Fires P N tuple ↔ rule.Fires P N' tuple := by
        have agree := same rule mem_cons_self
        exact fun tuple => ⟨Rule.Fires.congr (fun _ _ _ _ => rfl) agree,
          Rule.Fires.congr (fun _ _ _ _ => rfl) fun a used q eq => (agree a used q eq).symm⟩
      funext r
      simp only [applyRule, both]
    rw [applyInTurn, applyInTurn, here, ih fun rule mem => same rule (mem_cons_of_mem _ mem)]

def rounds (schema : Rel → Option (List V → Bool)) (N : Interp Rel (List V))
    (rules : List (Rule Rel Var V)) (k : Nat) : Interp Rel (List V) → Interp Rel (List V) :=
  (applyInTurn schema N rules)^[k]

theorem rounds_succ (k : Nat) (P : Interp Rel (List V)) :
    rounds schema N rules (k + 1) P = rounds schema N rules k (applyInTurn schema N rules P) :=
  iterate_succ_apply ..

theorem le_rounds (k : Nat) : ∀ {P}, P ≤ rounds schema N rules k P := by
  induction k with
  | zero => exact fun {P} => le_refl P
  | succ k ih => exact fun {P} => rounds_succ k P ▸ (le_applyInTurn rules).trans ih

theorem rounds_le (closed : ClosedUnder schema N rules C) (k : Nat) :
    ∀ {P}, P ≤ C → rounds schema N rules k P ≤ C := by
  induction k with
  | zero => exact fun le => le
  | succ k ih => exact fun {P} le => rounds_succ k P ▸ ih (applyInTurn_le rules closed le)

theorem rounds_other {r : Rel} (other : ∀ rule ∈ rules, rule.head.relation ≠ r) (k : Nat) :
    ∀ {P}, rounds schema N rules k P r = P r := by
  induction k with
  | zero => exact rfl
  | succ k ih =>
    intro P
    rw [rounds_succ, ih, applyInTurn_other rules other]

end

namespace Relations

theorem Layer.round {rules : List (Rule Rel Var V)} {N : Interp Rel (List V)}
    {relations relations' : Relations Rel V} (layer : Layer rules N relations)
    (schema : relations'.schema = relations.schema)
    (interp : relations'.interp = applyInTurn relations.schema N rules relations.interp) :
    Layer rules N relations' :=
  layer.after schema fun q other => by rw [interp, applyInTurn_other rules other]

section

variable [DecidableEq Rel]

theorem insert_inserted (relations : Relations Rel V) (rel : Rel) (tuple : List V) :
    Inserted rel {tuple} relations (relations.insert rel tuple).2
      (if (relations.insert rel tuple).1 then 1 else 0) := by
  rw [insert]
  cases found : relations.schema rel with
  | none =>
    -- A relation that was not created accepts nothing.
    refine ⟨rfl, ?_, by simp⟩
    funext r
    refine (Set.union_eq_left.mpr ?_).symm
    rintro t ⟨rfl, ⟨accepts, created, -⟩, -⟩
    exact absurd (found.symm.trans created) (by simp)
  | some accepts =>
    by_cases fresh : accepts tuple ∧ tuple ∉ relations.tuples rel
    · simp only [if_pos fresh]
      have interp : interp (mk relations.schema
          (update relations.tuples rel (relations.tuples rel ++ [tuple]))) =
          fun r => relations.interp r ∪
            { t | rel = r ∧ Accepts relations.schema r t ∧ t ∈ ({tuple} : Set (List V)) } := by
        funext r
        ext t
        by_cases same : r = rel
        · subst same
          simp only [interp, update_self, mem_append, mem_singleton,
            Set.mem_ofPred_eq, Set.mem_union, Set.mem_singleton_iff, true_and]
          refine or_congr_right ⟨?_, fun both => both.2⟩
          rintro rfl
          exact ⟨⟨accepts, found, fresh.1⟩, rfl⟩
        · have other : rel ≠ r := fun eq => same eq.symm
          simp [interp, update_of_ne same, other]
      refine ⟨rfl, interp, ?_⟩
      simp only [if_true, Nat.one_ne_zero, false_iff]
      intro unchanged
      have here : tuple ∈ relations.interp rel := by
        rw [← unchanged, interp]
        exact .inr ⟨rfl, ⟨accepts, found, fresh.1⟩, rfl⟩
      exact fresh.2 here
    · simp only [if_neg fresh]
      refine ⟨rfl, ?_, by simp⟩
      funext r
      refine (Set.union_eq_left.mpr ?_).symm
      rintro t ⟨rfl, ⟨accepts', created, accepted⟩, rfl⟩
      obtain rfl := Option.some.inj (found.symm.trans created)
      by_contra absent
      exact fresh ⟨accepted, absent⟩

theorem insertAll_inserted (rel : Rel) (tuples : List (List V)) :
    ∀ relations : Relations Rel V, Inserted rel { tuple | tuple ∈ tuples } relations
      (relations.insertAll rel tuples).2 (relations.insertAll rel tuples).1 := by
  induction tuples with
  | nil =>
    intro relations
    simpa [insertAll] using Inserted.none
  | cons tuple rest ih =>
    intro relations
    have both := (insert_inserted relations rel tuple).trans
      (ih (relations.insert rel tuple).2)
    have added : { t | t ∈ tuple :: rest } = {tuple} ∪ { t | t ∈ rest } := by
      ext t
      simp
    rw [added, insertAll]
    cases inserted : relations.insert rel tuple with
    | mk fresh relations' =>
      rw [inserted] at both
      cases fresh with
      | false => simpa using both
      | true => simpa [Nat.add_comm] using both

end

variable [DecidableEq Rel] [DecidableEq Var] [Inhabited V] {program : Program Rel Var V}
  {order : HashOrder program} {N : Interp Rel (List V)}

variable (order) in
theorem insertRule_spec {rule : Rule Rel Var V} (layer : Layer rules N relations)
    (mem : rule ∈ rules) :
    ∃ derived, relations.evaluateRule order rule = .ok derived ∧
      Inserted rule.head.relation { tuple | tuple ∈ derived } relations
        (relations.insertAll rule.head.relation derived).2
        (relations.insertAll rule.head.relation derived).1 ∧
      (relations.insertAll rule.head.relation derived).2.interp =
        applyRule relations.schema N rule relations.interp := by
  obtain ⟨derived, done, fires⟩ :=
    evaluateRule_spec order (layer.safe rule mem) (layer.created rule mem)
  have inserted := insertAll_inserted rule.head.relation derived relations
  refine ⟨derived, done, inserted, ?_⟩
  rw [inserted.interp]
  have known := layer.known rule mem
  have same : ∀ tuple, tuple ∈ derived ↔ rule.Fires relations.interp N tuple := fun tuple =>
    (fires tuple).trans ⟨Rule.Fires.congr (fun _ _ _ _ => rfl) fun a used q negated =>
      (known a used q negated).symm, Rule.Fires.congr (fun _ _ _ _ => rfl) known⟩
  funext r
  simp only [applyRule, Set.mem_ofPred_eq, same]

variable (order) in
theorem evaluateOnce_spec (rest : List (Rule Rel Var V)) (sub : ∀ rule ∈ rest, rule ∈ rules) :
    ∀ {relations : Relations Rel V}, Layer rules N relations →
      ∃ count relations', evaluateOnce order rest relations = (.ok count, relations') ∧
        relations'.schema = relations.schema ∧
        relations'.interp = applyInTurn relations.schema N rest relations.interp ∧
        (count = 0 ↔ relations'.interp = relations.interp) := by
  induction rest with
  | nil => exact fun {relations} _ => ⟨0, relations, rfl, rfl, rfl, by simp⟩
  | cons rule rest ih =>
    intro relations layer
    have here := sub rule mem_cons_self
    obtain ⟨derived, done, inserted, applied⟩ := insertRule_spec order layer here
    have next : Layer rules N (relations.insertAll rule.head.relation derived).2 := by
      refine layer.after inserted.schema fun q other => ?_
      rw [applied]
      exact applyInTurn_other [rule] fun rule' mem =>
        mem_singleton.mp mem ▸ other rule here
    obtain ⟨count, relations', rest_done, schema, interp, unchanged⟩ :=
      ih (fun rule mem => sub rule (mem_cons_of_mem _ mem)) next
    refine ⟨(relations.insertAll rule.head.relation derived).1 + count, relations', ?_,
      schema.trans inserted.schema, ?_, ?_⟩
    · rw [evaluateOnce, done]
      simp only [rest_done]
    · rw [interp, applied, inserted.schema]
      rfl
    · rw [Nat.add_eq_zero_iff, inserted.count, unchanged, applied]
      constructor
      · rintro ⟨same, same'⟩
        exact same'.trans same
      · intro same
        have back : relations'.interp ≤ relations.interp := same.le
        rw [interp] at back
        have middle : applyRule relations.schema N rule relations.interp = relations.interp := by
          refine le_antisymm (fun r tuple mem => ?_) le_applyRule
          exact back r (le_applyInTurn rest r (applied ▸ mem))
        exact ⟨middle, same.trans middle.symm⟩

/-- What an evaluation leaves: some rounds were applied. -/
structure Evaluated {α : Type*} (rules : List (Rule Rel Var V)) (N : Interp Rel (List V))
    (relations : Relations Rel V) (out : Except (EvaluationError Rel) α × Relations Rel V) :
    Prop where
  schema : out.2.schema = relations.schema
  reached : ∃ k, out.2.interp = rounds relations.schema N rules k relations.interp

variable {rules : List (Rule Rel Var V)}

variable (order) in
theorem evaluateLoop_spec (left : Nat) : ∀ {relations : Relations Rel V}, Layer rules N relations →
      Evaluated rules N relations (evaluateLoop order rules left relations) ∧
      ∀ result, (evaluateLoop order rules left relations).1 = .ok result →
        ClosedUnder relations.schema N rules (evaluateLoop order rules left relations).2.interp := by
  induction left with
  | zero =>
    intro relations layer
    exact ⟨⟨rfl, 0, rfl⟩, fun _ done => nomatch done⟩
  | succ left ih =>
    intro relations layer
    obtain ⟨count, relations', done, schema, interp, unchanged⟩ :=
      evaluateOnce_spec order rules (fun _ mem => mem) layer
    rw [evaluateLoop, done]
    by_cases nothing : count = 0
    · simp only [if_pos nothing]
      have same := unchanged.mp nothing
      refine ⟨⟨schema, 0, same⟩, fun _ _ => ?_⟩
      rw [same]
      exact closedUnder_of_fixed rules (interp.symm.trans same)
    · simp only [if_neg nothing]
      obtain ⟨⟨schema', k, reached⟩, closed⟩ := ih (layer.round schema interp)
      rw [schema] at reached closed
      have total : ∃ k, (evaluateLoop order rules left relations').2.interp =
          rounds relations.schema N rules k relations.interp :=
        ⟨k + 1, by rw [reached, interp, rounds_succ]⟩
      cases rest : evaluateLoop order rules left relations' with
      | mk result last =>
        rw [rest] at total schema' closed
        cases result with
        | error e => exact ⟨⟨schema'.trans schema, total⟩, fun _ done => nomatch done⟩
        | ok report => exact ⟨⟨schema'.trans schema, total⟩, fun _ _ => closed report rfl⟩

variable (order) in
theorem evaluateLoop_ends {C : Interp Rel (List V)} (finite : (graph C).Finite) (left : Nat) :
    ∀ {relations : Relations Rel V}, Layer rules N relations →
      ClosedUnder relations.schema N rules C → relations.interp ≤ C →
      (graph C \ graph relations.interp).ncard < left →
      ∃ result, (evaluateLoop order rules left relations).1 = .ok result := by
  induction left with
  | zero => exact fun _ _ _ few => absurd few (Nat.not_lt_zero _)
  | succ left ih =>
    intro relations layer closed within few
    obtain ⟨count, relations', done, schema, interp, unchanged⟩ :=
      evaluateOnce_spec order rules (fun _ mem => mem) layer
    rw [evaluateLoop, done]
    by_cases nothing : count = 0
    · simp only [if_pos nothing]
      exact ⟨_, rfl⟩
    · simp only [if_neg nothing]
      have within' : relations'.interp ≤ C := interp ▸ applyInTurn_le rules closed within
      have fewer := ncard_diff_lt finite (interp ▸ le_applyInTurn rules) within'
        fun same => nothing (unchanged.mpr same)
      obtain ⟨report, rest⟩ := ih (layer.round schema interp) (schema ▸ closed) within' (by omega)
      cases tail : evaluateLoop order rules left relations' with
      | mk result last =>
        rw [tail] at rest
        obtain rfl : result = .ok report := rest
        exact ⟨_, rfl⟩

variable (order) in
theorem evaluateSemiNaive_spec (maxIterations : Nat) (layer : Layer rules N relations) :
    Evaluated rules N relations (evaluateSemiNaive order maxIterations rules relations) ∧
      ∀ result, (evaluateSemiNaive order maxIterations rules relations).1 = .ok result →
        ClosedUnder relations.schema N rules
          (evaluateSemiNaive order maxIterations rules relations).2.interp := by
  obtain ⟨count, relations', done, schema, interp, -⟩ :=
    evaluateOnce_spec order rules (fun _ mem => mem) layer
  obtain ⟨⟨schema', k, reached⟩, closed⟩ :=
    evaluateLoop_spec order (maxIterations - 1) (layer.round schema interp)
  rw [schema] at reached closed
  have total : ∃ k, (evaluateLoop order rules (maxIterations - 1) relations').2.interp =
      rounds relations.schema N rules k relations.interp :=
    ⟨k + 1, by rw [reached, interp, rounds_succ]⟩
  rw [evaluateSemiNaive, done]
  cases rest : evaluateLoop order rules (maxIterations - 1) relations' with
  | mk result last =>
    rw [rest] at total schema' closed
    simp only [rest]
    cases result with
    | error e => exact ⟨⟨schema'.trans schema, total⟩, fun _ done => nomatch done⟩
    | ok report => exact ⟨⟨schema'.trans schema, total⟩, fun _ _ => closed report rfl⟩

theorem evaluateSemiNaive_ends {C : Interp Rel (List V)} (finite : (graph C).Finite)
    {maxIterations : Nat} (enough : (graph C).ncard + 1 < maxIterations)
    (layer : Layer rules N relations)
    (closed : ClosedUnder relations.schema N rules C) (within : relations.interp ≤ C) :
    ∃ result, (evaluateSemiNaive order maxIterations rules relations).1 = .ok result := by
  obtain ⟨count, relations', done, schema, interp, -⟩ :=
    evaluateOnce_spec order rules (fun _ mem => mem) layer
  have within' : relations'.interp ≤ C := interp ▸ applyInTurn_le rules closed within
  have few := Set.ncard_le_ncard (Set.sdiff_subset (s := graph C) (t := graph relations'.interp))
    finite
  obtain ⟨report, rest⟩ := evaluateLoop_ends order finite (maxIterations - 1)
    (layer.round schema interp) (schema ▸ closed) within' (by omega)
  rw [evaluateSemiNaive, done]
  cases tail : evaluateLoop order rules (maxIterations - 1) relations' with
  | mk result last =>
    rw [tail] at rest
    obtain rfl : result = .ok report := rest
    simp only [tail]
    exact ⟨_, rfl⟩

end Relations

end Nixie.Datalog
