import Nixie.Ast.BuilderLaws
import Nixie.Solver.Pigeonhole

/-! When the clauses for bounded integer terms follow from the instances. -/

namespace Nixie.Ast.Pigeonhole

open List

inductive Fact where
  | domain (var : Term) (lo hi : Int)
  | diseq (lhs rhs : Term)
  deriving DecidableEq

mutual

/-- The facts in a term, each with the guards of the implications above it. -/
def facts : Term → List (List Term × Fact)
  | .node .implies [guard, consequent] =>
    (facts consequent).map fun (guards, fact) => (guard :: guards, fact)
  | .node .and args =>
    factsAll args ++ (domainOf args).toList.map fun (var, lo, hi) => ([], .domain var lo hi)
  | .node .not [.node .eq [lhs, rhs]] => [([], .diseq lhs rhs)]
  | _ => []

def factsAll : List Term → List (List Term × Fact)
  | [] => []
  | arg :: rest => facts arg ++ factsAll rest

end

theorem factsAll_eq (args : List Term) : factsAll args = args.flatMap facts := by
  -- The second function only spells out the map.
  induction args with
  | nil => rw [factsAll, flatMap_nil]
  | cons arg rest ih => rw [factsAll, ih, flatMap_cons]

def Fact.domain? : Fact → Option (Term × Int × Int)
  | .domain var lo hi => some (var, lo, hi)
  | .diseq _ _ => none

def Fact.diseq? : Fact → Option (Term × Term)
  | .domain _ _ _ => none
  | .diseq lhs rhs => some (lhs, rhs)

def Found.extend (found : Found) (all : List (List Term × Fact)) : Found where
  domains := (all.filterMap (·.2.domain?)).reverse ++ found.domains
  diseqPairs := found.diseqPairs ++ all.filterMap (·.2.diseq?)

@[simp] theorem Found.extend_nil (found : Found) : found.extend [] = found := by
  simp [Found.extend]

theorem Found.extend_append (found : Found) (first second : List (List Term × Fact)) :
    found.extend (first ++ second) = (found.extend first).extend second := by
  simp [Found.extend]

theorem Found.extend_guard (found : Found) (guard : Term) (all : List (List Term × Fact)) :
    found.extend (all.map fun (guards, fact) => (guard :: guards, fact)) = found.extend all := by
  simp only [Found.extend, filterMap_map]
  rfl

/-- The facts in a pending unit of the scan. -/
def ScanTask.facts : ScanTask → List (List Term × Fact)
  | .scan term => Pigeonhole.facts term
  | .recordDomain var lo hi => [([], .domain var lo hi)]

theorem facts_eq_nil {term : Term} (bound : isBound term = true) : facts term = [] := by
  unfold isBound at bound
  split at bound
  · rw [facts] <;> simp
  · rw [facts] <;> simp
  · cases bound

theorem facts_conjunctionTasks (args : List Term) :
    (conjunctionTasks args).flatMap ScanTask.facts = facts (.node .and args) := by
  have nested : ((args.filter (!isBound ·)).map ScanTask.scan).flatMap ScanTask.facts =
      args.flatMap facts := by
    induction args with
    | nil => rfl
    | cons arg rest ih =>
      rw [filter_cons, flatMap_cons]
      cases bound : isBound arg with
      | true => simpa [facts_eq_nil bound] using ih
      | false => simpa [ScanTask.facts] using ih
  rw [conjunctionTasks, flatMap_append, nested, facts, factsAll_eq]
  cases domainOf args <;> rfl

theorem scanLoop_eq (stack : List ScanTask) (found : Found) :
    scanLoop stack found = found.extend (stack.flatMap ScanTask.facts) := by
  fun_induction scanLoop stack found with
  | case1 => simp
  | case2 var lo hi stack found ih =>
    rw [ih, flatMap_cons, Found.extend_append]
    simp [Found.extend, ScanTask.facts, Fact.domain?, Fact.diseq?]
  | case3 guard consequent stack found ih =>
    rw [ih, flatMap_cons, flatMap_cons, Found.extend_append, Found.extend_append]
    simp only [ScanTask.facts]
    rw [facts, Found.extend_guard]
  | case4 args stack found ih =>
    rw [ih, flatMap_append, flatMap_cons, facts_conjunctionTasks]
    rfl
  | case5 lhs rhs stack found ih =>
    rw [ih, flatMap_cons, Found.extend_append, ScanTask.facts, facts]
    simp [Found.extend, Fact.domain?, Fact.diseq?]
  | case6 term stack found implies and not ih =>
    have none : facts term = [] := by
      unfold facts
      split <;> simp_all
    rw [ih, flatMap_cons, ScanTask.facts, none, nil_append]

theorem scanForPigeonhole_eq (term : Term) (found : Found) :
    scanForPigeonhole term found = found.extend (facts term) := by
  rw [scanForPigeonhole, scanLoop_eq]
  simp [ScanTask.facts]

theorem asI64_eq {term : Term} {value : Int} (eq : asI64 term = some value) :
    term = mkInt value := by
  unfold asI64 at eq
  split at eq
  · unfold toI64 at eq
    split at eq
    · rw [Option.some.inj eq, mkInt]
    · cases eq
  · cases eq

/-- Each bound is stated by one of the arguments. -/
structure Bounds.From (bounds : Bounds) (args : List Term) : Prop where
  lower : ∀ var lo, bounds.lower = some (var, lo) →
    .node .ge [var, mkInt lo] ∈ args ∨ .node .le [mkInt lo, var] ∈ args
  upper : ∀ var hi, bounds.upper = some (var, hi) →
    .node .le [var, mkInt hi] ∈ args ∨ .node .ge [mkInt hi, var] ∈ args

variable {args : List Term}

theorem Bounds.From.note {bounds : Bounds} (stated : bounds.From args)
    {arg : Term} (mem : arg ∈ args) : (bounds.note arg).From args := by
  -- Each of the four updates stores what the argument says.
  unfold Bounds.note
  split
  · rename_i lhs rhs
    have first {value : Int} (eq : asI64 rhs = some value) :
        Bounds.From { bounds with lower := some (lhs, value) } args := by
      rw [asI64_eq eq] at mem
      refine ⟨fun var lo same => ?_, stated.upper⟩
      obtain ⟨rfl, rfl⟩ := Prod.mk.inj (Option.some.inj same)
      exact .inl mem
    have second {value : Int} (eq : asI64 lhs = some value) (inner : Bounds)
        (stated : inner.From args) :
        Bounds.From { inner with upper := some (rhs, value) } args := by
      rw [asI64_eq eq] at mem
      refine ⟨stated.lower, fun var hi same => ?_⟩
      obtain ⟨rfl, rfl⟩ := Prod.mk.inj (Option.some.inj same)
      exact .inr mem
    dsimp only
    split
    · refine second ‹_› _ ?_
      split
      · exact first ‹_›
      · exact stated
    · split
      · exact first ‹_›
      · exact stated
  · rename_i lhs rhs
    have first {value : Int} (eq : asI64 rhs = some value) :
        Bounds.From { bounds with upper := some (lhs, value) } args := by
      rw [asI64_eq eq] at mem
      refine ⟨stated.lower, fun var hi same => ?_⟩
      obtain ⟨rfl, rfl⟩ := Prod.mk.inj (Option.some.inj same)
      exact .inl mem
    have second {value : Int} (eq : asI64 lhs = some value) (inner : Bounds)
        (stated : inner.From args) :
        Bounds.From { inner with lower := some (rhs, value) } args := by
      rw [asI64_eq eq] at mem
      refine ⟨fun var lo same => ?_, stated.upper⟩
      obtain ⟨rfl, rfl⟩ := Prod.mk.inj (Option.some.inj same)
      exact .inr mem
    dsimp only
    split
    · refine second ‹_› _ ?_
      split
      · exact first ‹_›
      · exact stated
    · split
      · exact first ‹_›
      · exact stated
  · exact stated

theorem Bounds.From.foldl {bounds : Bounds} {all : List Term} (stated : bounds.From all)
    (lies : args ⊆ all) : (args.foldl Bounds.note bounds).From all := by
  induction args generalizing bounds with
  | nil => exact stated
  | cons arg rest ih =>
    exact ih (stated.note (lies mem_cons_self))
      fun _ mem => lies (mem_cons_of_mem _ mem)

variable {var : Term}

theorem domainOf_spec {lo hi : Int} (eq : domainOf args = some (var, lo, hi)) :
    (.node .ge [var, mkInt lo] ∈ args ∨ .node .le [mkInt lo, var] ∈ args) ∧
      (.node .le [var, mkInt hi] ∈ args ∨ .node .ge [mkInt hi, var] ∈ args) := by
  have stated : (args.foldl Bounds.note ⟨none, none⟩).From args :=
    Bounds.From.foldl ⟨fun _ _ eq => (nomatch eq), fun _ _ eq => (nomatch eq)⟩ (List.Subset.refl _)
  unfold domainOf at eq
  dsimp only at eq
  split at eq
  · rename_i lower upper
    split at eq
    · rename_i same
      obtain ⟨rfl, both⟩ := Prod.mk.inj (Option.some.inj eq)
      obtain ⟨rfl, rfl⟩ := Prod.mk.inj both
      exact ⟨stated.lower _ _ lower, stated.upper _ _ (same ▸ upper)⟩
    · cases eq
  · cases eq

theorem domainOf_sorted {lo hi : Int}
    (eq : domainOf args = some (var, lo, hi)) (each : ∀ arg ∈ args, arg.IsFormula) :
    var.WellSorted ∧ var.sort = .int := by
  -- It is compared with an integer constant.
  rcases (domainOf_spec eq).1 with mem | mem
  · obtain ⟨sorted, -, same, -⟩ :=
      (isFormula_comparison (show Kind.IsComparison .ge from trivial)).mp (each _ mem)
    exact ⟨sorted, by rw [same, sort_int]⟩
  · obtain ⟨-, sorted, same, -⟩ :=
      (isFormula_comparison (show Kind.IsComparison .le from trivial)).mp (each _ mem)
    exact ⟨sorted, by rw [← same, sort_int]⟩

theorem facts_sorted {term : Term} (formula : term.IsFormula) {guards : List Term}
    {lo hi : Int} (mem : (guards, .domain var lo hi) ∈ facts term) :
    var.WellSorted ∧ var.sort = .int := by
  induction term using Term.induct generalizing guards with
  | var name sort => simp [facts] at mem
  | bind binder scopes args _ => simp [facts] at mem
  | node kind args ih =>
    unfold facts at mem
    split at mem
    · rename_i guard consequent shape
      obtain ⟨rfl, rfl⟩ := Term.node.inj shape
      obtain ⟨⟨guards, fact⟩, lies, same⟩ := mem_map.mp mem
      obtain ⟨-, rfl⟩ := Prod.mk.inj same
      exact ih consequent (by simp) (isFormula_implies.mp formula).2 lies
    · rename_i args shape
      obtain ⟨rfl, rfl⟩ := Term.node.inj shape
      have each := isFormula_and.mp formula
      rcases mem_append.mp mem with mem | mem
      · obtain ⟨arg, lies, mem⟩ := mem_flatMap.mp (factsAll_eq args ▸ mem)
        exact ih arg lies (each arg lies) mem
      · -- The domain of the conjunction itself.
        obtain ⟨⟨var, lo, hi⟩, found, same⟩ := mem_map.mp mem
        obtain ⟨rfl, rfl, rfl⟩ := Fact.domain.inj (Prod.mk.inj same).2
        exact domainOf_sorted (Option.mem_toList.mp found) each
    · simp at mem
    · simp at mem

section

variable {I : Interp} {ν : I.Assignment}

theorem facts_diseq {term : Term} (holds : (term.eval I ν).holds) {guards : List Term}
    {lhs rhs : Term} (mem : (guards, .diseq lhs rhs) ∈ facts term)
    (guarded : ∀ guard ∈ guards, (guard.eval I ν).holds) : lhs.eval I ν ≠ rhs.eval I ν := by
  induction term using Term.induct generalizing guards with
  | var name sort => simp [facts] at mem
  | bind binder scopes args _ => simp [facts] at mem
  | node kind args ih =>
    unfold facts at mem
    split at mem
    · rename_i guard consequent shape
      obtain ⟨rfl, rfl⟩ := Term.node.inj shape
      obtain ⟨⟨inner, fact⟩, lies, same⟩ := mem_map.mp mem
      obtain ⟨rfl, rfl⟩ := Prod.mk.inj same
      obtain ⟨head, tail⟩ := forall_mem_cons.mp guarded
      exact ih consequent (by simp) ((holds_implies _ _).mp holds head) lies tail
    · rename_i args shape
      obtain ⟨rfl, rfl⟩ := Term.node.inj shape
      rcases mem_append.mp mem with mem | mem
      · obtain ⟨arg, lies, mem⟩ := mem_flatMap.mp (factsAll_eq args ▸ mem)
        exact ih arg lies ((holds_and _).mp holds arg lies) mem guarded
      · simp at mem
    · rename_i lhs rhs shape
      obtain ⟨rfl, rfl⟩ := Term.node.inj shape
      obtain ⟨-, same⟩ := Prod.mk.inj (mem_singleton.mp mem)
      obtain ⟨rfl, rfl⟩ := Fact.diseq.inj same
      simpa using holds
    · simp at mem

theorem domainOf_holds {lo hi : Int}
    (eq : domainOf args = some (var, lo, hi)) (holds : ∀ arg ∈ args, (arg.eval I ν).holds) :
    (lo : ℝ) ≤ (var.eval I ν).toReal ∧ (var.eval I ν).toReal ≤ hi := by
  obtain ⟨lower, upper⟩ := domainOf_spec eq
  constructor
  · rcases lower with mem | mem <;> simpa using holds _ mem
  · rcases upper with mem | mem <;> simpa using holds _ mem

theorem holds_mkEq_int (lawful : I.Lawful) (respects : I.Respects ν) {before : InternOrder}
    (sorted : var.WellSorted) (sort : var.sort = .int) (value : Int) :
    ((mkEq before var (mkInt value)).eval I ν).holds ↔ var.eval I ν = .num value := by
  have equation : (Term.node .eq [var, mkInt value]).IsFormula :=
    isFormula_eq.mpr ⟨sorted, wellSorted_int value, by rw [sort, sort_int]⟩
  rw [(mkEq_standsFor before _ _).eval_eq equation.1 lawful respects, holds_eq, eval_int]

end

/-- One of the literals has its polarity. -/
def Clause.Holds (clause : Clause) (I : Interp) (ν : I.Assignment) : Prop :=
  ∃ literal ∈ clause, (literal.1.eval I ν).holds ↔ literal.2 = true

/-- Every model of the instances satisfies the clause. -/
def Entails (instances : List Term) (clause : Clause) : Prop :=
  ∀ I : Interp, I.Lawful → ∀ ν, I.Respects ν → (∀ inst ∈ instances, (inst.eval I ν).holds) →
    clause.Holds I ν

/-- The instances that are scanned are those before a false one. -/
def scanned (instances : List Term) : List Term := instances.takeWhile (· ≠ mkFalse)

def allFacts (instances : List Term) : List (List Term × Fact) := (scanned instances).flatMap facts

/-- The last domain that the instances state for a term. -/
def lastDomain (instances : List Term) (var : Term) : Option (Int × Int) :=
  ((allFacts instances).filterMap (·.2.domain?)).reverse.lookup var

/-- A value that two domains share, where they share few enough of them. -/
def Shared (domain domain' : Int × Int) (value : Int) : Prop :=
  max domain.1 domain'.1 ≤ value ∧ value ≤ min domain.2 domain'.2 ∧
    subI64 (min domain.2 domain'.2) (max domain.1 domain'.1) ≤ 20

/--
Terms that are said to differ under guards only share no value where a guard is false.

Only disequalities count whose sides both have domains.
-/
def GuardsSuffice (instances : List Term) : Prop :=
  ∀ guards lhs rhs, (guards, .diseq lhs rhs) ∈ allFacts instances →
    ∀ domain, lastDomain instances lhs = some domain →
    ∀ domain', lastDomain instances rhs = some domain' → ∀ value, Shared domain domain' value →
    ∀ I : Interp, I.Lawful → ∀ ν, I.Respects ν → (∀ inst ∈ instances, (inst.eval I ν).holds) →
      (∃ guard ∈ guards, ¬(guard.eval I ν).holds) →
      ¬(lhs.eval I ν = .num value ∧ rhs.eval I ν = .num value)

@[simp] theorem mem_intRange {lo hi value : Int} :
    value ∈ intRange lo hi ↔ lo ≤ value ∧ value ≤ hi := by
  simp only [intRange, mem_map, mem_range]
  constructor
  · rintro ⟨offset, bound, rfl⟩
    omega
  · intro bounds
    exact ⟨(value - lo).toNat, by omega, by omega⟩

theorem collectInstances_eq (before : InternOrder) (instances : List Term) (found : Found)
    (clauses : List Clause) :
    collectInstances before instances found clauses = (found.extend (allFacts instances),
        clauses ++ (scanned instances).flatMap (addIntDomainClauses before) ++
          if mkFalse ∈ instances then [[]] else []) := by
  induction instances generalizing found clauses with
  | nil => simp [collectInstances, scanned, allFacts]
  | cons inst rest ih =>
    rw [collectInstances]
    split
    · subst inst
      simp [scanned, allFacts]
    · rename_i live
      have longer : scanned (inst :: rest) = inst :: scanned rest := by
        simp [scanned, live]
      rw [ih, scanForPigeonhole_eq]
      simp only [allFacts, longer, flatMap_cons, Found.extend_append, mem_cons,
        eq_comm (a := mkFalse), live, false_or, append_assoc]

variable {I : Interp} {ν : I.Assignment} {before : InternOrder}

theorem addIntDomainClauses_holds (lawful : I.Lawful) (respects : I.Respects ν) {inst : Term}
    (formula : inst.IsFormula) (holds : (inst.eval I ν).holds) {clause : Clause}
    (mem : clause ∈ addIntDomainClauses before inst) : clause.Holds I ν := by
  unfold addIntDomainClauses at mem
  split at mem
  · rename_i args
    have each := isFormula_and.mp formula
    split at mem
    · rename_i var lo hi eq
      split at mem
      · obtain rfl := mem_singleton.mp mem
        obtain ⟨sorted, sort⟩ := domainOf_sorted eq each
        obtain ⟨lower, upper⟩ := domainOf_holds eq ((holds_and _).mp holds)
        -- The value is an integer between the bounds, and every such integer has its literal.
        have has := Interp.eval_hasSort lawful sorted ν respects
        rw [sort] at has
        obtain ⟨value, same⟩ := has
        rw [same, Value.toReal_num] at lower upper
        have lies : value ∈ intRange lo hi :=
          mem_intRange.mpr ⟨by exact_mod_cast lower, by exact_mod_cast upper⟩
        refine ⟨_, mem_map_of_mem lies, ?_⟩
        simpa using (holds_mkEq_int lawful respects sorted sort value).mpr same
      · simp at mem
    · simp at mem
  · simp at mem

theorem lastDomain_sorted {instances : List Term} (each : ∀ inst ∈ instances, inst.IsFormula)
    {domain : Int × Int} (found : lastDomain instances var = some domain) :
    var.WellSorted ∧ var.sort = .int := by
  have mem : (var, domain) ∈ ((allFacts instances).filterMap (·.2.domain?)).reverse := by
    obtain ⟨before, after, split, -⟩ := lookup_eq_some_iff.mp found
    rw [split]
    simp
  obtain ⟨⟨guards, fact⟩, lies, stated⟩ := mem_filterMap.mp (mem_reverse.mp mem)
  obtain ⟨inst, scanned, lies⟩ := mem_flatMap.mp lies
  cases fact with
  | diseq lhs rhs => simp [Fact.domain?] at stated
  | domain var' lo hi =>
    obtain rfl : var' = var := (Prod.mk.inj (Option.some.inj stated)).1
    exact facts_sorted (each inst ((takeWhile_sublist _).mem scanned)) lies

theorem mem_exclusions {instances : List Term} {lhs rhs : Term} {clause : Clause} :
    clause ∈ exclusions before ((⟨[], []⟩ : Found).extend (allFacts instances)) (lhs, rhs) ↔
      ∃ domain, lastDomain instances lhs = some domain ∧
        ∃ domain', lastDomain instances rhs = some domain' ∧
        ∃ value, Shared domain domain' value ∧ clause =
          [(mkEq before lhs (mkInt value), false), (mkEq before rhs (mkInt value), false)] := by
  have domains : ((⟨[], []⟩ : Found).extend (allFacts instances)).domains =
      ((allFacts instances).filterMap (·.2.domain?)).reverse := by simp [Found.extend]
  simp only [exclusions, domains, ← lastDomain.eq_1]
  cases lastDomain instances lhs with
  | none => simp
  | some domain =>
    cases lastDomain instances rhs with
    | none => simp
    | some domain' =>
      simp only [Option.some.injEq, exists_eq_left', Shared]
      split
      · rename_i short
        simp only [mem_map, mem_intRange]
        constructor
        · rintro ⟨value, ⟨lower, upper⟩, rfl⟩
          exact ⟨value, ⟨lower, upper, short.2⟩, rfl⟩
        · rintro ⟨value, ⟨lower, upper, -⟩, rfl⟩
          exact ⟨value, ⟨lower, upper⟩, rfl⟩
      · rename_i long
        simp only [not_mem_nil, false_iff, not_exists, not_and]
        rintro value ⟨lower, upper, short⟩
        exact absurd ⟨lower.trans upper, short⟩ long

theorem exclusion_holds (lawful : I.Lawful) (respects : I.Respects ν) {lhs rhs : Term}
    (left : lhs.WellSorted ∧ lhs.sort = .int) (right : rhs.WellSorted ∧ rhs.sort = .int)
    (value : Int) :
    Clause.Holds [(mkEq before lhs (mkInt value), false), (mkEq before rhs (mkInt value), false)]
      I ν ↔ ¬(lhs.eval I ν = .num value ∧ rhs.eval I ν = .num value) := by
  simp only [Clause.Holds, mem_cons, not_mem_nil, or_false, exists_eq_or_imp,
    exists_eq_left, Bool.false_eq_true, iff_false,
    holds_mkEq_int lawful respects left.1 left.2, holds_mkEq_int lawful respects right.1 right.2]
  tauto

theorem mem_pigeonholeClauses {instances : List Term} {clause : Clause} :
    clause ∈ pigeonholeClauses before instances ↔
      (∃ inst ∈ scanned instances, clause ∈ addIntDomainClauses before inst) ∨
        (mkFalse ∈ instances ∧ clause = []) ∨
        ∃ guards lhs rhs, (guards, .diseq lhs rhs) ∈ allFacts instances ∧ clause ∈
          exclusions before ((⟨[], []⟩ : Found).extend (allFacts instances)) (lhs, rhs) := by
  have pairs (pair : Term × Term) : pair ∈ ((⟨[], []⟩ : Found).extend (allFacts instances)).diseqPairs
      ↔ ∃ guards, (guards, .diseq pair.1 pair.2) ∈ allFacts instances := by
    simp only [Found.extend, nil_append, mem_filterMap]
    constructor
    · rintro ⟨⟨guards, fact⟩, mem, stated⟩
      cases fact with
      | domain var lo hi => simp [Fact.diseq?] at stated
      | diseq lhs rhs =>
        obtain rfl := Option.some.inj stated
        exact ⟨guards, mem⟩
    · rintro ⟨guards, mem⟩
      exact ⟨_, mem, rfl⟩
  -- Without pairs or without domains no exclusion is built anyway.
  have total : clause ∈ pigeonholeClauses before instances ↔
      clause ∈ (collectInstances before instances ⟨[], []⟩ []).2 ∨ clause ∈
        addPigeonholeExclusionsFrom before ((⟨[], []⟩ : Found).extend (allFacts instances)) := by
    rw [pigeonholeClauses, collectInstances_eq]
    dsimp only
    split
    · rename_i empty
      refine ⟨.inl, fun mem => mem.elim id fun mem => ?_⟩
      obtain ⟨pair, lies, mem⟩ := mem_flatMap.mp mem
      rcases Bool.or_eq_true_iff.mp empty with empty | empty
      · rw [isEmpty_iff.mp empty] at lies
        cases lies
      · rw [exclusions, isEmpty_iff.mp empty] at mem
        cases mem
    · exact mem_append
  rw [total, collectInstances_eq, nil_append, mem_append, mem_flatMap, or_assoc,
    addPigeonholeExclusionsFrom, mem_flatMap]
  refine or_congr_right (or_congr ?_ ?_)
  · split <;> simp [*]
  · constructor
    · rintro ⟨pair, lies, mem⟩
      obtain ⟨guards, lies⟩ := (pairs pair).mp lies
      exact ⟨guards, pair.1, pair.2, lies, mem⟩
    · rintro ⟨guards, lhs, rhs, lies, mem⟩
      exact ⟨(lhs, rhs), (pairs (lhs, rhs)).mpr ⟨guards, lies⟩, mem⟩

/-- All clauses follow from the instances if and only if the guards do not matter. -/
theorem pigeonholeClauses_entailed_iff {instances : List Term}
    (each : ∀ inst ∈ instances, inst.IsFormula) :
    (∀ clause ∈ pigeonholeClauses before instances, Entails instances clause) ↔
      GuardsSuffice instances := by
  have live {inst : Term} (member : inst ∈ scanned instances) : inst ∈ instances :=
    (takeWhile_sublist _).mem member
  constructor
  · intro entailed guards lhs rhs diseq domain found domain' found' value shared I lawful ν respects
      model _
    -- The clause for this value is among those that are added.
    have holds := entailed _ (mem_pigeonholeClauses.mpr (.inr (.inr ⟨guards, lhs, rhs, diseq,
      mem_exclusions.mpr ⟨domain, found, domain', found', value, shared, rfl⟩⟩))) I lawful ν
      respects model
    exact (exclusion_holds lawful respects (lastDomain_sorted each found)
      (lastDomain_sorted each found') value).mp holds
  · intro suffice clause member I lawful ν respects model
    rcases mem_pigeonholeClauses.mp member with ⟨inst, inside, member⟩ | ⟨false_, -⟩ |
      ⟨guards, lhs, rhs, diseq, member⟩
    · exact addIntDomainClauses_holds lawful respects (each inst (live inside))
        (model inst (live inside)) member
    · exact absurd (model _ false_) (by simp)
    · obtain ⟨domain, found, domain', found', value, shared, rfl⟩ := mem_exclusions.mp member
      refine (exclusion_holds lawful respects (lastDomain_sorted each found)
        (lastDomain_sorted each found') value).mpr ?_
      by_cases guarded : ∀ guard ∈ guards, (guard.eval I ν).holds
      · -- The disequality itself holds.
        obtain ⟨inst, inside, fact⟩ := mem_flatMap.mp diseq
        rintro ⟨left, right⟩
        exact facts_diseq (model inst (live inside)) fact guarded (left.trans right.symm)
      · push Not at guarded
        exact suffice guards lhs rhs diseq domain found domain' found' value shared I lawful ν
          respects model guarded

def pigeonX : Term := .var "x" .int

def pigeonY : Term := .var "y" .int

/-- Two bounded integers, which differ if a guard is true. -/
def guardedInstances : List Term :=
  [mkImplies (.var "g" .bool) (mkNot (.node .eq [pigeonX, pigeonY])),
    mkAnd [mkGe pigeonX (mkInt 0), mkLe pigeonX (mkInt 3)],
    mkAnd [mkGe pigeonY (mkInt 0), mkLe pigeonY (mkInt 3)]]

theorem guardedInstances_isFormula : ∀ inst ∈ guardedInstances, inst.IsFormula := by
  have comparison {kind : Kind} (kinds : kind.IsComparison) (name : Name) (value : Int) :
      (Term.node kind [.var name .int, mkInt value]).IsFormula :=
    (isFormula_comparison kinds).mpr
      ⟨.var _ _, wellSorted_int _, by simp, .inl (Term.sort_var _ _)⟩
  have equation : (Term.node .eq [pigeonX, pigeonY]).IsFormula :=
    isFormula_eq.mpr ⟨.var _ _, .var _ _, rfl⟩
  intro inst mem
  simp only [guardedInstances, mem_cons, not_mem_nil, or_false] at mem
  rcases mem with rfl | rfl | rfl
  · exact isFormula_implies.mpr ⟨⟨.var _ _, rfl⟩, isFormula_not.mpr ⟨_, rfl, equation⟩⟩
  · have lower := comparison (show Kind.IsComparison .ge from trivial) "x" 0
    have upper := comparison (show Kind.IsComparison .le from trivial) "x" 3
    exact isFormula_and.mpr (forall_mem_cons.mpr ⟨lower, forall_mem_singleton.mpr upper⟩)
  · have lower := comparison (show Kind.IsComparison .ge from trivial) "y" 0
    have upper := comparison (show Kind.IsComparison .le from trivial) "y" 3
    exact isFormula_and.mpr (forall_mem_cons.mpr ⟨lower, forall_mem_singleton.mpr upper⟩)

theorem guardedInstances_model :
    ∀ inst ∈ guardedInstances, (inst.eval Interp.trees Interp.treeAssignment).holds := by
  have zero (name : Name) : Interp.treeAssignment (name, .int) = .num 0 := rfl
  have guard : Interp.treeAssignment ("g", .bool) = .bool False := rfl
  intro inst mem
  simp only [guardedInstances, mem_cons, not_mem_nil, or_false] at mem
  rcases mem with rfl | rfl | rfl
  · simp [mkImplies, mkTrue, mkFalse, mkNot, guard]
  · simp [mkAnd, flattenAnd, mkGe, mkLe, pigeonX, zero]
  · simp [mkAnd, flattenAnd, mkGe, mkLe, pigeonY, zero]

/-- Some clause does not follow: the guard may be false. -/
theorem guardedInstances_not_entailed :
    ¬∀ clause ∈ pigeonholeClauses (fun _ _ => true) guardedInstances,
      Entails guardedInstances clause := by
  intro entailed
  have diseq : ([.var "g" .bool], .diseq pigeonX pigeonY) ∈ allFacts guardedInstances := by
    decide
  have left : lastDomain guardedInstances pigeonX = some (0, 3) := by decide
  have right : lastDomain guardedInstances pigeonY = some (0, 3) := by decide
  have shared : Shared (0, 3) (0, 3) 0 := ⟨by decide, by decide, by decide⟩
  -- The clause that excludes the common value zero is false there.
  have holds := entailed _ (mem_pigeonholeClauses.mpr (.inr (.inr ⟨_, _, _, diseq,
    mem_exclusions.mpr ⟨_, left, _, right, 0, shared, rfl⟩⟩))) Interp.trees Interp.trees_lawful
    Interp.treeAssignment Interp.treeAssignment_respects guardedInstances_model
  have differ := (exclusion_holds Interp.trees_lawful Interp.treeAssignment_respects
    ⟨.var _ _, rfl⟩ ⟨.var _ _, rfl⟩ 0).mp holds
  have zero (name : Name) : (Term.var name .int).eval Interp.trees Interp.treeAssignment =
      .num (0 : ℤ) := by
    rw [Term.eval_var]
    exact congrArg Value.num Int.cast_zero.symm
  exact differ ⟨zero "x", zero "y"⟩

theorem guardedInstances_entailed_iff :
    (∀ clause ∈ pigeonholeClauses (fun _ _ => true) guardedInstances,
      Entails guardedInstances clause) ↔ GuardsSuffice guardedInstances :=
  pigeonholeClauses_entailed_iff guardedInstances_isFormula

end Nixie.Ast.Pigeonhole
