import Mathlib.Algebra.Order.BigOperators.Group.List
import Mathlib.Data.Set.Finite.List
import Nixie.Datalog.Program
import Nixie.Logic.Stratified

/-! Stratification finds the least strata, if the permitted passes are enough. -/

namespace Nixie.Datalog

open List Function Nat

variable {Rel Var V : Type*}

namespace Program

def Derived (program : Program Rel Var V) (r : Rel) : Prop :=
  ∃ rule ∈ program.rules, rule.head.relation = r

/-- A derived relation that a relation is derived from. -/
def PosDep (program : Program Rel Var V) (r q : Rel) : Prop :=
  program.Derived q ∧ ∃ rule ∈ program.rules, rule.head.relation = r ∧
    ∃ atom ∈ rule.body, atom.positiveRelation = some q

/-- A derived relation that a relation is derived from the absence of. -/
def NegDep (program : Program Rel Var V) (r q : Rel) : Prop :=
  program.Derived q ∧ ∃ rule ∈ program.rules, rule.head.relation = r ∧
    ∃ atom ∈ rule.body, atom.negatedRelation = some q

abbrev Strata (program : Program Rel Var V) (σ : Rel → Nat) : Prop :=
  Leveling program.PosDep program.NegDep σ

/-- A cycle of dependencies through a negation. -/
abbrev CycleWithNegation (program : Program Rel Var V) : Prop :=
  NegativeCycle program.PosDep program.NegDep

/-- The least stratum of a relation. -/
noncomputable abbrev level (program : Program Rel Var V) : Rel → Nat :=
  leastLevel program.PosDep program.NegDep

theorem exists_strata_iff (program : Program Rel Var V) :
    (∃ σ, program.Strata σ) ↔ ¬program.CycleWithNegation := by
  -- Both ends of a negative dependency are heads.
  let heads := { r | r ∈ program.rules.map (·.head.relation) }
  have finite : heads.Finite := finite_toSet _
  refine exists_leveling_iff ((finite.prod finite).subset ?_)
  rintro ⟨r, q⟩ ⟨⟨rule, mem, head⟩, rule', mem', head', -⟩
  exact ⟨mem_map.mpr ⟨rule', mem', head'⟩, mem_map.mpr ⟨rule, mem, head⟩⟩

end Program

variable [DecidableEq Rel] {program : Program Rel Var V} (order : HashOrder program)

namespace HashOrder

theorem mem_relations {r : Rel} : r ∈ order.relations ↔ program.Derived r := by
  rw [order.relations_perm.mem_iff, mem_dedup, mem_map]
  rfl

theorem mem_positive {r q : Rel} : q ∈ order.positive r ↔
    ∃ rule ∈ program.rules, rule.head.relation = r ∧
      ∃ atom ∈ rule.body, atom.positiveRelation = some q := by
  rw [(order.positive_perm r).mem_iff, mem_dedup, mem_flatMap]
  simp only [mem_filter, decide_eq_true_eq, mem_filterMap, and_assoc]

theorem mem_negative {r q : Rel} : q ∈ order.negative r ↔
    ∃ rule ∈ program.rules, rule.head.relation = r ∧
      ∃ atom ∈ rule.body, atom.negatedRelation = some q := by
  rw [(order.negative_perm r).mem_iff, mem_dedup, mem_flatMap]
  simp only [mem_filter, decide_eq_true_eq, mem_filterMap, and_assoc]

end HashOrder

theorem StratumMap.insert_insert (map : StratumMap Rel) (rel : Rel) (a b : Nat) :
    (map.insert rel a).insert rel b = map.insert rel b := by
  unfold StratumMap.insert
  exact update_idem ..

@[simp] theorem StratumMap.insert_same (map : StratumMap Rel) (rel : Rel) (a : Nat) :
    map.insert rel a rel = a :=
  update_self ..

theorem StratumMap.insert_other {map : StratumMap Rel} {rel r : Rel} {a : Nat} (other : r ≠ rel) :
    map.insert rel a r = map r :=
  update_of_ne other ..

/-- One relation at most is raised, and then the change is noted. -/
def Raises (map : StratumMap Rel) (changed : Bool) (rel : Rel)
    (state : StratumMap Rel × Bool) : Prop :=
  state = (map, changed) ∨ ∃ stratum, map rel < stratum ∧ state = (map.insert rel stratum, true)

section

variable {order} {map : StratumMap Rel} {changed : Bool} {rel dep : Rel}
  {state : StratumMap Rel × Bool}

theorem Raises.le (raises : Raises map changed rel state) : map rel ≤ state.1 rel := by
  rcases raises with rfl | ⟨stratum, higher, rfl⟩
  · exact le_refl _
  · simpa using higher.le

theorem Raises.insert (raises : Raises map changed rel state) {stratum : Nat}
    (higher : map rel < stratum) : Raises map changed rel (state.1.insert rel stratum, true) := by
  refine .inr ⟨stratum, higher, ?_⟩
  rcases raises with rfl | ⟨old, _, rfl⟩
  · rfl
  · rw [StratumMap.insert_insert]

theorem raisePositive_raises (raises : Raises map changed rel state) :
    Raises map changed rel (raisePositive order rel (map rel) state dep) := by
  rw [raisePositive]
  split_ifs with higher
  · exact raises.insert higher.2
  · exact raises

theorem raiseNegative_raises (raises : Raises map changed rel state) :
    Raises map changed rel (raiseNegative order rel state dep) := by
  rw [raiseNegative]
  split_ifs with higher
  · exact raises.insert (lt_succ_of_le (raises.le.trans higher.2))
  · exact raises

theorem raise_raises (order : HashOrder program) (map : StratumMap Rel) (changed : Bool)
    (rel : Rel) : Raises map changed rel (raise order (map, changed) rel) := by
  refine foldlRecOn (order.negative rel) (raiseNegative order rel) ?_
    fun _ raises _ _ => raiseNegative_raises raises
  exact foldlRecOn (order.positive rel) (raisePositive order rel (map rel)) (.inl rfl)
    fun _ raises _ _ => raisePositive_raises raises

theorem raise_le {σ : Rel → Nat} (strata : program.Strata σ) (below : ∀ r, state.1 r ≤ σ r) :
    ∀ r, (raise order state rel).1 r ≤ σ r := by
  have stored : ∀ {map : StratumMap Rel} {stratum : Nat}, (∀ r, map r ≤ σ r) →
      stratum ≤ σ rel → ∀ r, map.insert rel stratum r ≤ σ r := by
    intro map stratum below within r
    by_cases same : r = rel
    · subst same
      simpa using within
    · rw [StratumMap.insert_other same]
      exact below r
  refine foldlRecOn (motive := fun s => ∀ r, s.1 r ≤ σ r) (order.negative rel)
    (raiseNegative order rel) ?_ fun state below dep mem => ?_
  · refine foldlRecOn (motive := fun s => ∀ r, s.1 r ≤ σ r) (order.positive rel)
      (raisePositive order rel (state.1 rel)) below fun state below dep mem => ?_
    rw [raisePositive]
    split_ifs with higher
    · have step := strata.pos ⟨order.mem_relations.mp higher.1, order.mem_positive.mp mem⟩
      exact stored below ((below dep).trans step)
    · exact below
  · rw [raiseNegative]
    split_ifs with higher
    · have step := strata.neg ⟨order.mem_relations.mp higher.1, order.mem_negative.mp mem⟩
      exact stored below (lt_of_le_of_lt (below dep) step)
    · exact below

/-- A step that notes a change wherever it makes one. -/
def Notes {σ α : Type*} (op : σ × Bool → α → σ × Bool) : Prop :=
  ∀ state a, op state a = state ∨ (op state a).2 = true

theorem Notes.foldl {σ α : Type*} {op : σ × Bool → α → σ × Bool} (notes : Notes op)
    (l : List α) :
    ∀ {state}, (l.foldl op state).2 = false →
      l.foldl op state = state ∧ ∀ a ∈ l, op state a = state := by
  induction l with
  | nil => exact fun _ => ⟨rfl, fun _ mem => nomatch mem⟩
  | cons a rest ih =>
    intro state unchanged
    obtain ⟨same, all⟩ := ih unchanged
    have still : (op state a).2 = false := by
      rw [foldl_cons, same] at unchanged
      exact unchanged
    have here : op state a = state := (notes state a).resolve_right (by simp [still])
    rw [here] at same all
    refine ⟨by rw [foldl_cons, here, same], fun b mem => ?_⟩
    rcases mem_cons.mp mem with rfl | mem
    · exact here
    · exact all b mem

theorem raisePositive_notes : Notes (raisePositive order rel (map rel)) := by
  intro state dep
  rw [raisePositive]
  split_ifs
  · exact .inr rfl
  · exact .inl rfl

theorem raiseNegative_notes : Notes (raiseNegative order rel) := by
  intro state dep
  rw [raiseNegative]
  split_ifs
  · exact .inr rfl
  · exact .inl rfl

/-- The strata obey the dependencies of one relation. -/
def Obeys (program : Program Rel Var V) (map : StratumMap Rel) (r : Rel) : Prop :=
  (∀ q, program.PosDep r q → map q ≤ map r) ∧ ∀ q, program.NegDep r q → map q < map r

variable (state) in
theorem raise_unchanged (still : (raise order state rel).2 = false) :
    raise order state rel = state ∧ Obeys program state.1 rel := by
  obtain ⟨sameNeg, neg⟩ := raiseNegative_notes.foldl _ still
  rw [raise, sameNeg] at still
  obtain ⟨samePos, pos⟩ := raisePositive_notes.foldl _ still
  rw [samePos] at sameNeg neg still
  refine ⟨by rw [raise, samePos, sameNeg], fun q dep => ?_, fun q dep => ?_⟩
  · -- A higher dependency would have been noted.
    by_contra higher
    have fired := pos q (order.mem_positive.mpr dep.2)
    rw [raisePositive, if_pos ⟨order.mem_relations.mpr dep.1, not_le.mp higher⟩] at fired
    exact absurd (congrArg Prod.snd fired) (by simp [still])
  · by_contra higher
    have fired := neg q (order.mem_negative.mpr dep.2)
    rw [raiseNegative, if_pos ⟨order.mem_relations.mpr dep.1, not_lt.mp higher⟩] at fired
    exact absurd (congrArg Prod.snd fired) (by simp [still])

theorem foldl_eq_self {σ α : Type*} {op : σ → α → σ} {state : σ} (l : List α)
    (same : ∀ a ∈ l, op state a = state) : l.foldl op state = state := by
  induction l with
  | nil => rfl
  | cons a rest ih =>
    rw [foldl_cons, same a mem_cons_self]
    exact ih fun b mem => same b (mem_cons_of_mem _ mem)

theorem raise_of_obeys (obeys : Obeys program state.1 rel) : raise order state rel = state := by
  have pos : (order.positive rel).foldl (raisePositive order rel (state.1 rel)) state = state := by
    refine foldl_eq_self _ fun q mem => if_neg fun higher => ?_
    have dep := obeys.1 q ⟨order.mem_relations.mp higher.1, order.mem_positive.mp mem⟩
    exact absurd higher.2 (Nat.not_lt_of_le dep)
  rw [raise, pos]
  refine foldl_eq_self _ fun q mem => if_neg fun higher => ?_
  have dep := obeys.2 q ⟨order.mem_relations.mp higher.1, order.mem_negative.mp mem⟩
  exact absurd higher.2 (Nat.not_le_of_lt dep)

/-- What a pass does: nothing sinks, and where it notes a change something rose. -/
def Rises (order : HashOrder program) (state state' : StratumMap Rel × Bool) : Prop :=
  (∀ r, state.1 r ≤ state'.1 r) ∧
    (state'.2 = true → state.2 = true ∨ ∃ r ∈ order.relations, state.1 r < state'.1 r)

theorem raise_rises (mem : rel ∈ order.relations) : Rises order state (raise order state rel) := by
  rcases raise_raises order state.1 state.2 rel with same | ⟨stratum, higher, same⟩
  · have same : raise order state rel = state := same
    rw [same]
    exact ⟨fun _ => le_refl _, .inl⟩
  · have same : raise order state rel = (StratumMap.insert state.1 rel stratum, true) := same
    rw [same]
    refine ⟨fun r => ?_, fun _ => .inr ⟨rel, mem, by simpa using higher⟩⟩
    by_cases here : r = rel
    · subst here
      simpa using higher.le
    · exact (StratumMap.insert_other here).ge

theorem Rises.trans {s s' s'' : StratumMap Rel × Bool} (first : Rises order s s')
    (second : Rises order s' s'') : Rises order s s'' := by
  refine ⟨fun r => (first.1 r).trans (second.1 r), fun changed => ?_⟩
  rcases second.2 changed with earlier | ⟨r, mem, rose⟩
  · rcases first.2 earlier with before | ⟨r, mem, rose⟩
    · exact .inl before
    · exact .inr ⟨r, mem, lt_of_lt_of_le rose (second.1 r)⟩
  · exact .inr ⟨r, mem, lt_of_le_of_lt (first.1 r) rose⟩

theorem pass_rises (order : HashOrder program) (map : StratumMap Rel) :
    Rises order (map, false) (pass order map) :=
  foldlRecOn (motive := Rises order (map, false)) order.relations (raise order)
    ⟨fun _ => le_refl _, .inl⟩ fun _ rises _ mem => rises.trans (raise_rises mem)

theorem pass_le {σ : Rel → Nat} (strata : program.Strata σ) (below : ∀ r, map r ≤ σ r) :
    ∀ r, (pass order map).1 r ≤ σ r :=
  foldlRecOn (motive := fun s => ∀ r, s.1 r ≤ σ r) order.relations (raise order) below
    fun _ below _ _ => raise_le strata below

theorem strata_iff_obeys (order : HashOrder program) :
    program.Strata map ↔ ∀ r ∈ order.relations, Obeys program map r := by
  constructor
  · exact fun strata r _ => ⟨fun _ dep => strata.pos dep, fun _ dep => strata.neg dep⟩
  · intro obeys
    have derived : ∀ {r q}, program.PosDep r q ∨ program.NegDep r q → r ∈ order.relations := by
      rintro r q (⟨-, rule, mem, head, -⟩ | ⟨-, rule, mem, head, -⟩)
      · exact order.mem_relations.mpr ⟨rule, mem, head⟩
      · exact order.mem_relations.mpr ⟨rule, mem, head⟩
    exact ⟨fun dep => (obeys _ (derived (.inl dep))).1 _ dep,
      fun dep => (obeys _ (derived (.inr dep))).2 _ dep⟩

theorem pass_eq (order : HashOrder program) (map : StratumMap Rel) :
    (program.Strata map → pass order map = (map, false)) ∧
      (¬program.Strata map → (pass order map).2 = true) := by
  constructor
  · intro strata
    exact foldl_eq_self _ fun r mem =>
      raise_of_obeys ((strata_iff_obeys order).mp strata r mem)
  · intro broken
    by_contra still
    have still : (pass order map).2 = false := by simpa using still
    have notes : Notes (raise order) := fun state rel => by
      by_cases changed : (raise order state rel).2 = true
      · exact .inr changed
      · exact .inl (raise_unchanged _ (by simpa using changed)).1
    obtain ⟨-, all⟩ := notes.foldl order.relations still
    refine broken ((strata_iff_obeys order).mpr fun r mem => ?_)
    have same := all r mem
    exact (raise_unchanged (map, false) (by rw [same])).2

end

def passes (k : Nat) (map : StratumMap Rel) : StratumMap Rel :=
  (fun map => (pass order map).1)^[k] map

theorem passes_succ (k : Nat) (map : StratumMap Rel) :
    passes order (k + 1) map = passes order k (pass order map).1 :=
  iterate_succ_apply ..

theorem passes_add (k more : Nat) (map : StratumMap Rel) :
    passes order (k + more) map = passes order more (passes order k map) := by
  rw [add_comm]
  exact iterate_add_apply ..

theorem passes_of_strata {map : StratumMap Rel} (strata : program.Strata map) (k : Nat) :
    passes order k map = map := by
  induction k with
  | zero => rfl
  | succ k ih => rw [passes_succ, (pass_eq order map).1 strata, ih]

theorem settle_spec (n : Nat) (map : StratumMap Rel) :
    ((settle order (n + 2) map).2 ≠ 0 ↔ program.Strata (passes order n map)) ∧
      (program.Strata (passes order n map) →
        (settle order (n + 2) map).1 = passes order n map) := by
  induction n generalizing map with
  | zero =>
    by_cases strata : program.Strata map
    · have same : settle order 2 map = (map, 1) := by
        rw [settle, (pass_eq order map).1 strata]
        rfl
      rw [same]
      exact ⟨⟨fun _ => strata, fun _ => one_ne_zero⟩, fun _ => rfl⟩
    · have changed := (pass_eq order map).2 strata
      have last : (settle order 2 map).2 = 0 := by
        simp only [settle, changed, if_true]
        split_ifs <;> rfl
      exact ⟨⟨fun left => absurd last left, fun found => absurd found strata⟩,
        fun found => absurd found strata⟩
  | succ n ih =>
    by_cases strata : program.Strata map
    · have same : settle order (n + 3) map = (map, n + 2) := by
        rw [settle, (pass_eq order map).1 strata]
        rfl
      rw [same, passes_of_strata order strata]
      exact ⟨⟨fun _ => strata, fun _ => succ_ne_zero _⟩, fun _ => rfl⟩
    · have next : settle order (n + 3) map = settle order (n + 2) (pass order map).1 := by
        rw [settle]
        exact if_pos ((pass_eq order map).2 strata)
      rw [next, passes_succ]
      exact ih _

/-- The passes that stratification needs at most before the last one that confirms. -/
def Settles (order : HashOrder program) : Prop := program.Strata (passes order 98 fun _ => 0)

theorem stratify_eq_error (broken : ¬Settles order) :
    stratify order = .error .cycleWithNegation := by
  have none : (settle order 100 fun _ => 0).2 = 0 := by
    by_contra left
    exact broken ((settle_spec order 98 _).1.mp left)
  rw [stratify]
  exact if_pos none

theorem passes_eq_level (settles : Settles order) :
    passes order 98 (fun _ => 0) = program.level := by
  funext r
  have bounded : ∀ {σ : Rel → Nat}, program.Strata σ → ∀ k r, passes order k (fun _ => 0) r ≤ σ r :=
    by
    intro σ strata k
    induction k with
    | zero => exact fun r => zero_le _
    | succ k ih =>
      rw [passes, iterate_succ_apply']
      exact pass_le strata ih
  exact le_antisymm (bounded (leveling_leastLevel ⟨_, settles⟩) 98 r) (leastLevel_le settles r)

theorem stratify_eq_ok (settles : Settles order) :
    stratify order = .ok (buildStrata order program.level) := by
  obtain ⟨found, same⟩ := settle_spec order 98 fun _ => 0
  rw [stratify]
  simp only [found.mpr settles, if_false]
  rw [same settles, passes_eq_level order settles]

theorem settles_of_sum_le {σ : Rel → Nat} (strata : program.Strata σ)
    (small : (order.relations.map σ).sum ≤ 98) : Settles order := by
  by_contra broken
  have unsettled : ∀ k ≤ 98, ¬program.Strata (passes order k fun _ => 0) := by
    intro k within found
    obtain ⟨more, total⟩ := Nat.exists_eq_add_of_le within
    have same := passes_of_strata order found more
    rw [← passes_add, ← total] at same
    exact broken (same ▸ found : program.Strata (passes order 98 fun _ => 0))
  have grows : ∀ k ≤ 99, (∀ r, passes order k (fun _ => 0) r ≤ σ r) ∧
      k ≤ (order.relations.map (passes order k fun _ => 0)).sum := by
    intro k
    induction k with
    | zero => exact fun _ => ⟨fun _ => zero_le _, zero_le _⟩
    | succ k ih =>
      intro within
      obtain ⟨below, sum⟩ := ih (by omega)
      have next : passes order (k + 1) (fun _ => 0) =
          (pass order (passes order k fun _ => 0)).1 := iterate_succ_apply' ..
      rw [next]
      obtain ⟨le, rose⟩ := pass_rises order (passes order k fun _ => 0)
      have changed := (pass_eq order _).2 (unsettled k (by omega))
      obtain ⟨r, mem, higher⟩ := (rose changed).resolve_left (by simp)
      have more := sum_lt_sum _ _ (fun r _ => le r) ⟨r, mem, higher⟩
      exact ⟨pass_le strata below, succ_le_of_lt (lt_of_le_of_lt sum more)⟩
  obtain ⟨below, sum⟩ := grows 99 (le_refl _)
  have bound := sum_le_sum fun r (_ : r ∈ order.relations) => below r
  omega

end Nixie.Datalog
