import Nixie.Opt.OllRuns
import Nixie.Sat.Equiv

/-! Preprocessing of weighted soft clauses: what each rule does to the cost of an assignment. -/

namespace Nixie.Opt

open List MaxSatSolver

def Weight.ge (a b : Weight) : Bool :=
  match a.value, b.value with
  | none, _ => true
  | some _, none => false
  | some x, some y => decide (y ≤ x)

def Weight.isInfinite : Weight → Bool
  | .infinite => true
  | _ => false

def SoftClause.new (id : Nat) (lits : Clause) (weight : Weight) : SoftClause where
  id := id
  lits := lits
  weight := weight
  value := none

namespace Preprocessor

/-- Whether a literal and its complement occur, given the variables seen with either sign. -/
def isTautology : Clause → List Nat → List Nat → Bool
  | [], _, _ => false
  | lit :: rest, seenPos, seenNeg =>
    if lit.isNeg then seenPos.contains lit.var || isTautology rest seenPos (lit.var :: seenNeg)
    else seenNeg.contains lit.var || isTautology rest (lit.var :: seenPos) seenNeg

def simplifyClause (clause : SoftClause) : SoftClause :=
  .new clause.id clause.lits.eraseDups clause.weight

def removeTautologies (softs : List SoftClause) : List SoftClause :=
  softs.filterMap fun clause =>
    if isTautology clause.lits [] [] then none
    else
      let simplified := simplifyClause clause
      if simplified.lits = [] then none else some simplified

def normalized (lits : Clause) : Clause :=
  lits.insertionSort fun left right => left.code ≤ right.code

/-- Entries of a map from literals to the first clause with them and the sum of the weights. -/
abbrev ClauseMap := List (Clause × Nat × Weight)

/-- Add the weight to the entry of the literals, or enter them. -/
def enter (lits : Clause) (id : Nat) (weight : Weight) : ClauseMap → ClauseMap
  | [] => [(lits, id, weight)]
  | (key, first, sum) :: rest =>
    if key = lits then (key, first, sum.add weight) :: rest
    else (key, first, sum) :: enter lits id weight rest

/-- Merge clauses with the same literals; a map lists its entries in any order. -/
def mergeDuplicates (iterate : ClauseMap → ClauseMap)
    (softs : List SoftClause) : List SoftClause :=
  let clauseMap := softs.foldl
    (fun entries clause => enter (normalized clause.lits) clause.id clause.weight entries) []
  (iterate clauseMap).map fun (lits, id, weight) => .new id lits weight

/-- Make clauses of infinite weight hard, as no threshold is set. -/
def hardenHighWeight (softs : List SoftClause) : List SoftClause × Cnf :=
  (softs.filter fun clause => !clause.weight.isInfinite,
    (softs.filter fun clause => clause.weight.isInfinite).map SoftClause.lits)

/-- Whether the literals of the first clause occur in the second one. -/
def subsumes (a b : Clause) : Bool :=
  !decide (a.length > b.length) && a.all fun lit => b.contains lit

/-- Remove a clause that contains another one of at least its weight. -/
def removeSubsumed (softs : List SoftClause) : List SoftClause :=
  (softs.zipIdx.filter fun (clause, i) => !softs.zipIdx.any fun (other, j) =>
    i ≠ j && subsumes other.lits clause.lits && other.weight.ge clause.weight).map Prod.fst

/-- Drop the clauses that a hard literal satisfies, and its complement from the others. -/
def propagateUnit (softs : List SoftClause) (unit : Lit) : List SoftClause :=
  softs.filterMap fun clause =>
    if unit ∈ clause.lits then none
    else if unit.negate ∈ clause.lits then
      some (.new clause.id (clause.lits.filter (· ≠ unit.negate)) clause.weight)
    else some clause

def unitPropagation (softs : List SoftClause) (hard : Cnf) : List SoftClause :=
  (hard.filterMap fun clause => match clause with
    | [unit] => some unit
    | _ => none).foldl propagateUnit softs

/-- The soft clauses and the new hard clauses in the default configuration. -/
def preprocess (iterate : ClauseMap → ClauseMap)
    (softs : List SoftClause) : List SoftClause × Cnf :=
  let (softs, hard) := hardenHighWeight (mergeDuplicates iterate (removeTautologies softs))
  (unitPropagation (removeSubsumed softs) hard, hard)

def cost (m : Assignment) (softs : List SoftClause) : WithTop ℚ := totalPenalty (violatedUnder m) softs

/-- The assignment satisfies the hard clauses, and none that does costs less. -/
def Optimal (hard : Cnf) (softs : List SoftClause) (m : Assignment) : Prop :=
  Models m hard ∧ ∀ m', Models m' hard → cost m softs ≤ cost m' softs

section

variable {m : Assignment} {softs : List SoftClause}

@[simp] theorem cost_nil : cost m [] = 0 := rfl

@[simp] theorem cost_cons (clause : SoftClause) : cost m (clause :: softs) =
    (if violatedUnder m clause.lits then clause.weight.total else 0) + cost m softs := rfl

theorem violatedUnder_congr {first second : Clause} (same : ∀ lit, lit ∈ first ↔ lit ∈ second) :
    violatedUnder m first = violatedUnder m second := by
  simp [violatedUnder, Satisfies, same]

theorem isTautology_iff {lits : Clause} : ∀ {seenPos seenNeg : List Nat},
    isTautology lits seenPos seenNeg = true ↔ (∃ lit ∈ lits, lit.negate ∈ lits) ∨
      ∃ lit ∈ lits, lit.var ∈ if lit.isNeg then seenPos else seenNeg := by
  induction lits with
  | nil => simp [isTautology]
  | cons head rest ih =>
    intro seenPos seenNeg
    -- A complement in the rest has the variable that was seen last.
    have complement : (∃ lit ∈ rest, lit.var = head.var ∧ lit.isNeg = !head.isNeg) ↔
        head.negate ∈ rest := by
      constructor
      · rintro ⟨⟨var, isNeg⟩, mem, rfl, rfl⟩
        exact mem
      · exact fun mem => ⟨_, mem, rfl, rfl⟩
    unfold isTautology
    cases sign : head.isNeg <;> simp [ih, sign] <;> grind [Lit.negate_negate]

theorem cost_removeTautologies : cost m softs = cost m (removeTautologies softs) +
    ((softs.filter fun clause => clause.lits = []).map fun clause => clause.weight.total).sum := by
  induction softs with
  | nil => simp [removeTautologies]
  | cons clause rest ih =>
    rw [cost_cons, ih]
    unfold removeTautologies at ih ⊢
    cases tautology : isTautology clause.lits [] [] with
    | true =>
      obtain ⟨lit, mem, complement⟩ := (isTautology_iff.mp tautology).resolve_right (by simp)
      have satisfied : violatedUnder m clause.lits = false := by
        by_cases holds : lit.Holds m
        · simpa [violatedUnder] using ⟨lit, mem, holds⟩
        · simpa [violatedUnder] using ⟨_, complement, Lit.holds_negate.mpr holds⟩
      have full : clause.lits ≠ [] := ne_nil_of_mem mem
      simp [tautology, satisfied, full]
    | false =>
      have same : violatedUnder m clause.lits.eraseDups = violatedUnder m clause.lits :=
        violatedUnder_congr fun lit => mem_eraseDups
      by_cases empty : clause.lits = []
      · simp [simplifyClause, SoftClause.new, empty, violatedUnder, add_left_comm]
      · have full : clause.lits.eraseDups ≠ [] := by
          obtain ⟨lit, mem⟩ := exists_mem_of_ne_nil _ empty
          exact ne_nil_of_mem (mem_eraseDups.mpr mem)
        simp [tautology, simplifyClause, SoftClause.new, empty, full, same, add_assoc]

def entered (counts : Clause → Bool) (entries : ClauseMap) : WithTop ℚ :=
  (entries.map fun entry => if counts entry.1 then entry.2.2.total else 0).sum

theorem enter_spec (lits : Clause) (id : Nat) (weight : Weight)
    (entries : ClauseMap) :
    (∀ counts, entered counts (enter lits id weight entries) =
      (if counts lits then weight.total else 0) + entered counts entries) ∧
      (∀ key, key ∈ (enter lits id weight entries).map Prod.fst ↔
        key = lits ∨ key ∈ entries.map Prod.fst) ∧
      ((entries.map Prod.fst).Nodup → ((enter lits id weight entries).map Prod.fst).Nodup) := by
  induction entries with
  | nil => simp [enter, entered]
  | cons entry rest ih =>
    obtain ⟨key, first, sum⟩ := entry
    obtain ⟨sums, members, nodup⟩ := ih
    unfold enter
    by_cases same : key = lits
    · subst same
      refine ⟨fun counts => ?_, by simp, by simp⟩
      cases counted : counts key <;> simp [entered, counted, Weight.total_add, add_left_comm, add_assoc]
    · rw [if_neg same]
      refine ⟨fun counts => ?_, fun other => ?_, fun distinct => ?_⟩
      · have rest_ := sums counts
        simp only [entered] at rest_ ⊢
        rw [map_cons, sum_cons, rest_, map_cons, sum_cons, add_left_comm]
      · simp [members, or_left_comm]
      · obtain ⟨fresh, distinct⟩ := nodup_cons.mp distinct
        refine nodup_cons.mpr ⟨fun lies => ?_, nodup distinct⟩
        rcases (members key).mp lies with here | there
        · exact same here
        · exact fresh there

theorem mergeDuplicates_spec {iterate : ClauseMap → ClauseMap}
    (perm : ∀ entries, (iterate entries).Perm entries) (softs : List SoftClause) :
    (∀ counts, totalPenalty counts (mergeDuplicates iterate softs) =
      totalPenalty (fun lits => counts (normalized lits)) softs) ∧
      ((mergeDuplicates iterate softs).map SoftClause.lits).Nodup ∧
      ∀ clause ∈ mergeDuplicates iterate softs, ∃ old ∈ softs, clause.lits = normalized old.lits := by
  have fold : ∀ (softs : List SoftClause) (entries : ClauseMap), (entries.map Prod.fst).Nodup →
      (∀ counts, entered counts (softs.foldl (fun entries clause =>
          enter (normalized clause.lits) clause.id clause.weight entries) entries) =
        totalPenalty (fun lits => counts (normalized lits)) softs + entered counts entries) ∧
      ((softs.foldl (fun entries clause =>
        enter (normalized clause.lits) clause.id clause.weight entries) entries).map Prod.fst).Nodup ∧
      ∀ key ∈ (softs.foldl (fun entries clause =>
          enter (normalized clause.lits) clause.id clause.weight entries) entries).map Prod.fst,
        key ∈ entries.map Prod.fst ∨ ∃ old ∈ softs, key = normalized old.lits := by
    intro softs
    induction softs with
    | nil => exact fun entries distinct => ⟨fun counts => (zero_add _).symm, distinct, fun _ => .inl⟩
    | cons clause rest ih =>
      intro entries distinct
      obtain ⟨sums, members, nodup⟩ := enter_spec (normalized clause.lits) clause.id clause.weight entries
      obtain ⟨total, distinct', keys⟩ := ih _ (nodup distinct)
      refine ⟨fun counts => ?_, distinct', fun key lies => ?_⟩
      · rw [foldl_cons, total, sums, totalPenalty, totalPenalty, map_cons, sum_cons]
        exact (add_left_comm _ _ _).trans (add_assoc _ _ _).symm
      · rcases keys key lies with before | ⟨old, mem, same⟩
        · rcases (members key).mp before with here | there
          · exact .inr ⟨clause, .head _, here⟩
          · exact .inl there
        · exact .inr ⟨old, .tail _ mem, same⟩
  obtain ⟨total, distinct, keys⟩ := fold softs [] nodup_nil
  have lits : (mergeDuplicates iterate softs).map SoftClause.lits = (iterate _).map Prod.fst :=
    map_map
  refine ⟨fun counts => ?_, ?_, fun clause lies => ?_⟩
  · refine Eq.trans ?_ ((total counts).trans (add_zero _))
    exact (congrArg sum map_map).trans ((perm _).map _).sum_eq
  · rw [lits]
    exact ((perm _).map _).nodup_iff.mpr distinct
  · have mem := mem_map_of_mem (f := SoftClause.lits) lies
    rw [lits] at mem
    exact (keys _ (((perm _).map _).mem_iff.mp mem)).resolve_left (by simp)

theorem total_infinite {weight : Weight} : weight.total = ⊤ ↔ weight.isInfinite = true := by
  cases weight with
  | infinite => exact iff_of_true rfl rfl
  | int | rational => exact iff_of_false WithTop.coe_ne_top (by simp [Weight.isInfinite])

theorem cost_hardenHighWeight : cost m softs =
    if Models m (hardenHighWeight softs).2 then cost m (hardenHighWeight softs).1 else ⊤ := by
  induction softs with
  | nil => simp [hardenHighWeight]
  | cons clause rest ih =>
    unfold hardenHighWeight at ih ⊢
    rw [cost_cons, ih]
    cases infinite : clause.weight.isInfinite with
    | true =>
      have top := total_infinite.mpr infinite
      by_cases satisfied : Satisfies m clause.lits <;> simp [infinite, violatedUnder, satisfied, top]
    | false =>
      by_cases rest_ : Models m ((rest.filter fun clause => clause.weight.isInfinite).map SoftClause.lits)
      · simp [infinite, rest_]
      · simp [infinite, rest_]

theorem sum_filter {α : Type} {keep : α → Bool} {value : α → WithTop ℚ} : ∀ {list : List α},
    (∀ x ∈ list, keep x = false → value x = 0) →
      ((list.filter keep).map value).sum = (list.map value).sum := by
  intro list
  induction list with
  | nil => exact fun _ => rfl
  | cons x rest ih =>
    intro none_
    have later := ih fun y mem => none_ y (.tail _ mem)
    cases kept : keep x with
    | true => simp [kept, later]
    | false => simp [kept, later, none_ x (.head _) kept]

theorem cost_removeSubsumed (light : ∀ (i j : Nat) (a b : SoftClause), i ≠ j →
    softs[i]? = some b → softs[j]? = some a → subsumes a.lits b.lits = true →
    a.weight.ge b.weight = true → b.weight.total = 0) :
    cost m (removeSubsumed softs) = cost m softs := by
  have whole : softs = softs.zipIdx.map Prod.fst := (zipIdx_map_fst 0 softs).symm
  conv_rhs => rw [whole]
  unfold cost totalPenalty removeSubsumed
  rw [map_map, map_map]
  refine sum_filter fun x mem dropped => ?_
  obtain ⟨y, mem', found⟩ := any_eq_true.mp (by simpa only [Bool.not_eq_false'] using dropped)
  simp only [Bool.and_eq_true, decide_eq_true_eq] at found
  obtain ⟨⟨apart, contained⟩, heavy⟩ := found
  have zero := light x.2 y.2 y.1 x.1 apart (mem_zipIdx_iff_getElem?.mp mem)
    (mem_zipIdx_iff_getElem?.mp mem') contained heavy
  simp [zero]

theorem cost_propagateUnit {unit : Lit} (holds : unit.Holds m) :
    cost m (propagateUnit softs unit) = cost m softs := by
  induction softs with
  | nil => rfl
  | cons clause rest ih =>
    unfold propagateUnit at ih ⊢
    rw [cost_cons, filterMap_cons, ← ih]
    by_cases satisfied : unit ∈ clause.lits
    · have fine : violatedUnder m clause.lits = false := by
        simpa [violatedUnder] using ⟨unit, satisfied, holds⟩
      simp [satisfied, fine]
    · by_cases falsified : unit.negate ∈ clause.lits
      · have same : violatedUnder m (clause.lits.filter (· ≠ unit.negate)) =
            violatedUnder m clause.lits := by
          -- The complement is false, so no satisfied clause is satisfied by it.
          have drop : Satisfies m (clause.lits.filter (· ≠ unit.negate)) ↔ Satisfies m clause.lits := by
            constructor
            · rintro ⟨lit, mem, holds'⟩
              exact ⟨lit, mem_of_mem_filter mem, holds'⟩
            · rintro ⟨lit, mem, holds'⟩
              refine ⟨lit, mem_filter.mpr ⟨mem, decide_eq_true fun here => ?_⟩, holds'⟩
              exact Lit.holds_negate.mp (here ▸ holds') holds
          simp only [violatedUnder, drop]
        simp only [satisfied, falsified, if_false, if_true, cost_cons, SoftClause.new, same]
      · simp [satisfied, falsified]

theorem cost_unitPropagation {hard : Cnf} (models : Models m hard) :
    cost m (unitPropagation softs hard) = cost m softs := by
  have all : ∀ (units : List Lit) (softs : List SoftClause), (∀ unit ∈ units, unit.Holds m) →
      cost m (units.foldl propagateUnit softs) = cost m softs := by
    intro units
    induction units with
    | nil => exact fun _ _ => rfl
    | cons unit rest ih => exact fun softs holds =>
        (ih _ fun other mem => holds other (.tail _ mem)).trans (cost_propagateUnit (holds unit (.head _)))
  refine all _ _ fun unit mem => ?_
  obtain ⟨clause, lies, found⟩ := mem_filterMap.mp mem
  split at found
  · obtain rfl := Option.some.inj found
    obtain ⟨lit, only, holds⟩ := models _ lies
    rwa [← mem_singleton.mp only]
  · cases found

def mergedLits (lits : Clause) : Clause := normalized lits.eraseDups

/-- The weight of the soft clauses that are merged with a clause of these literals. -/
def group (softs : List SoftClause) (lits : Clause) : WithTop ℚ :=
  totalPenalty (fun other => mergedLits other = mergedLits lits) softs

/-- No clause of nonzero weight contains another one of at least its weight that is not hard. -/
def KeepsCost (softs : List SoftClause) : Prop :=
  ∀ a ∈ softs, ∀ b ∈ softs, a.lits ≠ [] → isTautology b.lits [] [] = false → a.lits ⊆ b.lits →
    mergedLits a.lits ≠ mergedLits b.lits → group softs b.lits ≤ group softs a.lits →
    group softs a.lits = ⊤ ∨ group softs b.lits = 0

theorem mem_mergedLits {lits : Clause} {lit : Lit} : lit ∈ mergedLits lits ↔ lit ∈ lits :=
  ((perm_insertionSort _ _).mem_iff).trans mem_eraseDups

theorem ge_iff {a b : Weight} : a.ge b = true ↔ b.total ≤ a.total := by
  unfold Weight.ge Weight.total
  cases a.value with
  | none => exact iff_of_true (by cases b.value <;> rfl) le_top
  | some x =>
    cases b.value with
    | none => exact iff_of_false (by simp) (not_le.mpr (WithTop.coe_lt_top x))
    | some y => exact decide_eq_true_iff.trans WithTop.coe_le_coe.symm

theorem mem_removeTautologies {clause : SoftClause} : clause ∈ removeTautologies softs ↔
    ∃ old ∈ softs, isTautology old.lits [] [] = false ∧ old.lits ≠ [] ∧
      simplifyClause old = clause := by
  have empty : ∀ lits : Clause, lits.eraseDups = [] ↔ lits = [] := fun lits => by
    simp [eq_nil_iff_forall_not_mem, mem_eraseDups]
  unfold removeTautologies
  rw [mem_filterMap]
  refine exists_congr fun old => and_congr_right fun _ => ?_
  cases isTautology old.lits [] [] <;> by_cases full : old.lits = [] <;>
    simp [simplifyClause, SoftClause.new, empty, full]

theorem total_removeTautologies {key : Clause} (full : key ≠ [])
    (plain : ∀ lit ∈ key, lit.negate ∉ key) :
    totalPenalty (fun lits => normalized lits = key) (removeTautologies softs) =
      totalPenalty (fun lits => mergedLits lits = key) softs := by
  induction softs with
  | nil => rfl
  | cons clause rest ih =>
    unfold totalPenalty removeTautologies at ih ⊢
    rw [filterMap_cons, map_cons, sum_cons, ← ih]
    cases tautology : isTautology clause.lits [] [] with
    | true =>
      obtain ⟨lit, mem, complement⟩ := (isTautology_iff.mp tautology).resolve_right (by simp)
      have other : mergedLits clause.lits ≠ key := fun same =>
        plain lit (same ▸ mem_mergedLits.mpr mem) (same ▸ mem_mergedLits.mpr complement)
      simp [other]
    | false =>
      by_cases empty : clause.lits.eraseDups = []
      · have other : mergedLits clause.lits ≠ key := fun same =>
          full (same ▸ by simp [mergedLits, empty, normalized])
        simp [simplifyClause, SoftClause.new, empty, other]
      · by_cases same : normalized clause.lits.eraseDups = key <;>
          simp [simplifyClause, SoftClause.new, empty, mergedLits, same]

theorem total_single {clause : SoftClause} (distinct : (softs.map SoftClause.lits).Nodup)
    (mem : clause ∈ softs) :
    totalPenalty (fun lits => lits = clause.lits) softs = clause.weight.total := by
  induction softs with
  | nil => cases mem
  | cons head rest ih =>
    obtain ⟨fresh, distinct⟩ := nodup_cons.mp distinct
    unfold totalPenalty at ih ⊢
    rw [map_cons, sum_cons]
    rcases mem_cons.mp mem with rfl | later
    · have others : ∀ other ∈ rest, other.lits ≠ clause.lits := fun other lies same =>
        fresh (same ▸ mem_map_of_mem lies)
      have zero : ∀ x ∈ rest.map fun other =>
          if decide (other.lits = clause.lits) then other.weight.total else 0, x = 0 := by
        intro x lies
        obtain ⟨other, found, rfl⟩ := mem_map.mp lies
        simp [others other found]
      rw [sum_eq_zero zero]
      simp
    · have other : head.lits ≠ clause.lits := fun same =>
        fresh (same ▸ mem_map_of_mem later)
      simpa [other] using ih distinct later

theorem merged_group {iterate : ClauseMap → ClauseMap}
    (perm : ∀ entries, (iterate entries).Perm entries) {clause : SoftClause}
    (mem : clause ∈ mergeDuplicates iterate (removeTautologies softs)) :
    ∃ old ∈ softs, isTautology old.lits [] [] = false ∧ old.lits ≠ [] ∧
      clause.lits = mergedLits old.lits ∧ clause.weight.total = group softs old.lits := by
  obtain ⟨sums, distinct, origin⟩ := mergeDuplicates_spec perm (removeTautologies softs)
  obtain ⟨simplified, lies, lits⟩ := origin clause mem
  obtain ⟨old, mem', tautology, full, rfl⟩ := mem_removeTautologies.mp lies
  have lits' : clause.lits = mergedLits old.lits := lits
  refine ⟨old, mem', tautology, full, lits', ?_⟩
  rw [← total_single distinct mem, sums, group, lits', total_removeTautologies]
  · obtain ⟨lit, lies⟩ := exists_mem_of_ne_nil _ full
    exact ne_nil_of_mem (mem_mergedLits.mpr lies)
  · intro lit lies complement
    have found := (@isTautology_iff old.lits [] []).mpr
      (.inl ⟨lit, mem_mergedLits.mp lies, mem_mergedLits.mp complement⟩)
    rw [tautology] at found
    cases found

theorem hardened_light {iterate : ClauseMap → ClauseMap}
    (perm : ∀ entries, (iterate entries).Perm entries) (keeps : KeepsCost softs) (i j : Nat)
    (a b : SoftClause) (apart : i ≠ j)
    (found : (hardenHighWeight (mergeDuplicates iterate (removeTautologies softs))).1[i]? = some b)
    (found' : (hardenHighWeight (mergeDuplicates iterate (removeTautologies softs))).1[j]? = some a)
    (contained : subsumes a.lits b.lits = true) (heavy : a.weight.ge b.weight = true) :
    b.weight.total = 0 := by
  have kinds : ((hardenHighWeight (mergeDuplicates iterate (removeTautologies softs))).1.map
      SoftClause.lits).Nodup :=
    (filter_sublist.map _).nodup (mergeDuplicates_spec perm (removeTautologies softs)).2.1
  obtain ⟨lies, finite⟩ := mem_filter.mp (mem_of_getElem? found')
  obtain ⟨a', memberA, -, full, litsA, weightA⟩ := merged_group perm lies
  obtain ⟨b', memberB, plain, -, litsB, weightB⟩ :=
    merged_group perm (mem_of_mem_filter (mem_of_getElem? found))
  have sub : a'.lits ⊆ b'.lits := fun lit there => by
    have mem := all_eq_true.mp (Bool.and_eq_true_iff.mp contained).2 lit
      (litsA ▸ mem_mergedLits.mpr there)
    exact mem_mergedLits.mp (litsB ▸ by simpa using mem)
  have ne : mergedLits a'.lits ≠ mergedLits b'.lits := by
    -- The same literals would stand at two places.
    intro same
    have foundLits := congrArg (Option.map SoftClause.lits) found
    have foundLits' := congrArg (Option.map SoftClause.lits) found'
    rw [← getElem?_map, Option.map_some] at foundLits foundLits'
    have below := (List.getElem?_eq_some_iff.mp foundLits).1
    exact apart ((getElem?_inj below kinds).mp (by rw [foundLits, foundLits', litsA, litsB, same]))
  rw [weightB]
  refine (keeps a' memberA b' memberB full plain sub ne ?_).resolve_left fun top => ?_
  · rw [← weightA, ← weightB]
    exact ge_iff.mp heavy
  · rw [← weightA, total_infinite] at top
    simp [top] at finite

theorem preprocess_optimal (iterate : ClauseMap → ClauseMap)
    (perm : ∀ entries, (iterate entries).Perm entries) (keeps : KeepsCost softs) {further : Cnf}
    (optimal : Optimal (further ++ (preprocess iterate softs).2) (preprocess iterate softs).1 m) :
    Optimal further softs m := by
  obtain ⟨sums, -⟩ := mergeDuplicates_spec perm (removeTautologies softs)
  -- What preprocessing takes from the cost is the same for every assignment.
  have whole : ∀ m, cost m softs = (if Models m (preprocess iterate softs).2 then
      cost m (preprocess iterate softs).1 else ⊤) +
        ((softs.filter fun clause => clause.lits = []).map fun clause => clause.weight.total).sum := by
    intro m
    have same : cost m (mergeDuplicates iterate (removeTautologies softs)) =
        cost m (removeTautologies softs) := by
      refine (sums (violatedUnder m)).trans ?_
      unfold cost totalPenalty
      refine congrArg List.sum (map_congr_left fun clause _ => ?_)
      have sorted : violatedUnder m (normalized clause.lits) = violatedUnder m clause.lits :=
        violatedUnder_congr fun lit => (perm_insertionSort _ _).mem_iff
      simp only [sorted]
    rw [cost_removeTautologies, ← same, cost_hardenHighWeight]
    refine congrArg (· + _) ?_
    unfold preprocess
    dsimp only
    split
    · rename_i models
      rw [cost_unitPropagation models, cost_removeSubsumed]
      exact hardened_light perm keeps
    · rfl
  obtain ⟨models, least⟩ := optimal
  obtain ⟨models, hard⟩ := models_append.mp models
  refine ⟨models, fun m' models' => ?_⟩
  rw [whole m, whole m', if_pos hard]
  refine add_le_add_left ?_ _
  split
  · rename_i hard'
    exact least m' (models_append.mpr ⟨models', hard'⟩)
  · exact le_top

end

section

/-- The second clause contains the first one and is not heavier, and the third one opposes both. -/
def contained : List SoftClause :=
  [.new 0 [.pos 0] (.int 5), .new 1 [.pos 0, .pos 1] (.int 3), .new 2 [.neg 0] (.int 6)]

/-- The clause that contains the other one is heavier. -/
def heavier : List SoftClause :=
  [.new 0 [.pos 0] (.int 3), .new 1 [.pos 0, .pos 1] (.int 5), .new 2 [.neg 1] .infinite]

theorem total_int_add (x y : Int) :
    (Weight.int x).total + (Weight.int y).total = (Weight.int (x + y)).total :=
  (Weight.total_add (.int x) (.int y)).symm

theorem total_int_le {x y : Int} : (Weight.int x).total ≤ (Weight.int y).total ↔ x ≤ y :=
  WithTop.coe_le_coe.trans Int.cast_le

theorem heavier_keeps : KeepsCost heavier := by
  intro a memberA b memberB full plain sub ne heavy
  have lists : ∀ c ∈ heavier, c.lits = [.pos 0] ∨ c.lits = [.pos 0, .pos 1] ∨ c.lits = [.neg 1] := by
    decide
  have groups : group heavier [.pos 0] = (Weight.int 3).total + (0 + (0 + 0)) ∧
      group heavier [.pos 0, .pos 1] = 0 + ((Weight.int 5).total + (0 + 0)) := ⟨rfl, rfl⟩
  -- Only the first clause is contained in another one, which is heavier.
  rcases lists a memberA with here | here | here <;> rcases lists b memberB with there | there | there <;>
    rw [here, there] at sub ne heavy <;>
    first
    | exact absurd rfl ne
    | exact absurd sub (by decide)
    | skip
  rw [groups.1, groups.2] at heavy
  simp [total_int_le] at heavy

theorem heavier_optimal : Optimal [[.neg 0]] heavier fun _ => false := by
  refine preprocess_optimal id (fun _ => .refl _) heavier_keeps ?_
  have after : preprocess id heavier =
      ([.new 0 [.pos 0] (.int 3), .new 1 [.pos 0] (.int 5)], [[.neg 1]]) := rfl
  rw [after]
  refine ⟨by decide, fun m' models => ?_⟩
  have value : m' 0 = false := by simpa [Lit.Holds] using models [.neg 0] (.head _)
  simp [SoftClause.new, violatedUnder, Satisfies, Lit.Holds, value]

theorem preprocess_not_optimal : ¬ ∀ iterate : ClauseMap → ClauseMap,
    (∀ entries, (iterate entries).Perm entries) → ∀ softs (further : Cnf) (m : Assignment),
      Optimal (further ++ (preprocess iterate softs).2) (preprocess iterate softs).1 m →
        Optimal further softs m := by
  intro always
  have after : preprocess id contained =
      ([.new 0 [.pos 0] (.int 5), .new 2 [.neg 0] (.int 6)], []) := rfl
  have least := always id (fun _ => .refl _) contained [[.neg 1]] (fun _ => false) (by
    rw [after]
    refine ⟨by decide, fun m' _ => ?_⟩
    cases value : m' 0 <;>
      simp [SoftClause.new, violatedUnder, Satisfies, Lit.Holds, value, total_int_le])
  have better := least.2 (fun var => var = 0) (by decide)
  simp [contained, SoftClause.new, violatedUnder, Satisfies, Lit.Holds, total_int_add,
    total_int_le] at better

end

end Preprocessor

end Nixie.Opt
