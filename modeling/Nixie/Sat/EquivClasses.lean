import Nixie.Sat.Equiv

/-! The representatives of a round: leaders of the cycles of the implication graph. -/

namespace Nixie.Sat

open Tarjan List

/-- Every variable of the state is below its bound. -/
structure Solver.Bounded (s : Solver) : Prop where
  formula : VarsBelow s.numVars s.formula
  trail : ∀ lit ∈ s.trail, lit.var < s.numVars

/-- One packed literal leads to another along implications. -/
abbrev Leads (s : Solver) (source target : Nat) : Prop :=
  Reach (successors (implicationEdges s)) source target

/-- Two literals lead to each other along implications. -/
def Classmates (s : Solver) (left right : Lit) : Prop :=
  Connected (successors (implicationEdges s)) left.code right.code

/-- No literal of the class has a frozen variable. -/
def Unfrozen (s : Solver) (lit : Lit) : Prop :=
  ∀ other, Classmates s lit other → other.var ∉ s.frozenVars

/-- The leader is the smallest literal of an unfrozen class. -/
structure Leader (s : Solver) (lit leader : Lit) : Prop where
  unfrozen : Unfrozen s lit
  classmate : Classmates s lit leader
  least : ∀ other, Classmates s lit other → leader.code ≤ other.code

section

variable {s : Solver}

variable {conclusion : Lit}

theorem binaryEdges_skew {formula : Cnf} {premise : Lit}
    (edge : (premise, conclusion) ∈ binaryEdges formula) :
    (conclusion.negate, premise.negate) ∈ binaryEdges formula := by
  obtain ⟨clause, mem, found⟩ := mem_flatMap.mp edge
  refine mem_flatMap.mpr ⟨clause, mem, ?_⟩
  -- The two edges of a clause are the contrapositives of each other.
  match clause, found with
  | [left, right], found =>
    simp only [mem_cons, Prod.mk.injEq, not_mem_nil, or_false] at found ⊢
    rcases found with ⟨rfl, rfl⟩ | ⟨rfl, rfl⟩
    · exact .inr ⟨rfl, Lit.negate_negate left⟩
    · exact .inl ⟨rfl, Lit.negate_negate right⟩

theorem binaryEdges_occur {formula : Cnf} {premise : Lit}
    (edge : (premise, conclusion) ∈ binaryEdges formula) :
    ∃ clause ∈ formula, premise.negate ∈ clause ∧ conclusion ∈ clause := by
  obtain ⟨clause, mem, found⟩ := mem_flatMap.mp edge
  refine ⟨clause, mem, ?_⟩
  match clause, found with
  | [left, right], found =>
    simp only [mem_cons, Prod.mk.injEq, not_mem_nil, or_false] at found
    rcases found with ⟨rfl, rfl⟩ | ⟨rfl, rfl⟩ <;> simp

variable {m : Assignment}

theorem implicationEdges_holds (models : Models m s.formula)
    {premise : Lit} (edge : (premise, conclusion) ∈ implicationEdges s)
    (holds : premise.Holds m) : conclusion.Holds m := by
  rcases mem_append.mp edge with binary | congruent
  · exact binaryEdges_holds models binary holds
  · split at congruent
    · have same := congruenceEdges_holds models congruent
      rwa [Lit.holds_iff_value, ← same, ← Lit.holds_iff_value]
    · cases congruent

theorem implicationEdges_skew {premise : Lit} (edge : (premise, conclusion) ∈ implicationEdges s) :
    (conclusion.negate, premise.negate) ∈ implicationEdges s := by
  rcases mem_append.mp edge with binary | congruent
  · exact mem_append_left _ (binaryEdges_skew binary)
  · refine mem_append_right _ ?_
    split at congruent
    · rename_i enabled
      rw [if_pos enabled]
      exact congruenceEdges_skew congruent
    · cases congruent

theorem implicationEdges_vars {P : Nat → Prop}
    (occurring : ∀ clause ∈ s.formula, ∀ lit ∈ clause, P lit.var) {premise : Lit}
    (edge : (premise, conclusion) ∈ implicationEdges s) : P premise.var ∧ P conclusion.var := by
  rcases mem_append.mp edge with binary | congruent
  · obtain ⟨clause, mem, left, right⟩ := binaryEdges_occur binary
    exact ⟨occurring clause mem premise.negate left, occurring clause mem conclusion right⟩
  · split at congruent
    · exact congruenceEdges_vars occurring congruent
    · cases congruent

theorem mem_successors {edges : List (Lit × Lit)} {source target : Nat} :
    target ∈ successors edges source ↔ (Lit.fromCode source, Lit.fromCode target) ∈ edges := by
  unfold successors
  simp only [mem_map, mem_filter, decide_eq_true_eq, Prod.exists]
  constructor
  · intro ⟨premise, conclusion, ⟨edge, first⟩, second⟩
    subst first second
    simpa using edge
  · intro edge
    exact ⟨_, _, ⟨edge, Lit.code_fromCode source⟩, Lit.code_fromCode target⟩

end

section

variable {s : Solver}

theorem code_lt {lit : Lit} {bound : Nat} : lit.code < 2 * bound ↔ lit.var < bound := by
  unfold Lit.code
  have bit := Bool.toNat_lt lit.isNeg
  omega

theorem successors_lt (bounded : VarsBelow s.numVars s.formula) {source target : Nat}
    (next : target ∈ successors (implicationEdges s) source) : target < 2 * s.numVars := by
  have ends := implicationEdges_vars (P := fun var => var < s.numVars) bounded (mem_successors.mp next)
  have packed := code_lt.mpr ends.2
  rwa [Lit.code_fromCode] at packed

theorem leads_holds (models : Models m s.formula)
    {source target : Nat} (leads : Leads s source target)
    (holds : (Lit.fromCode source).Holds m) : (Lit.fromCode target).Holds m := by
  induction leads with
  | refl => exact holds
  | tail _ next ih => exact implicationEdges_holds models (mem_successors.mp next) ih

theorem leads_skew {source target : Lit} (leads : Leads s source.code target.code) :
    Leads s target.negate.code source.negate.code := by
  have general : ∀ {first last : Nat}, Leads s first last →
      Leads s (Lit.fromCode last).negate.code (Lit.fromCode first).negate.code := by
    intro first last path
    induction path with
    | refl => exact .refl
    | tail _ next ih =>
      refine .head (mem_successors.mpr ?_) ih
      simpa using implicationEdges_skew (mem_successors.mp next)
  simpa using general leads

namespace Classmates

theorem refl (lit : Lit) : Classmates s lit lit := ⟨.refl, .refl⟩

theorem symm {left right : Lit} (class_ : Classmates s left right) : Classmates s right left :=
  ⟨class_.2, class_.1⟩

theorem trans {left middle right : Lit} (first : Classmates s left middle)
    (second : Classmates s middle right) : Classmates s left right :=
  ⟨first.1.trans second.1, second.2.trans first.2⟩

theorem negate {left right : Lit} (class_ : Classmates s left right) :
    Classmates s left.negate right.negate :=
  ⟨leads_skew class_.2, leads_skew class_.1⟩

theorem value (models : Models m s.formula) {left right : Lit}
    (class_ : Classmates s left right) : left.value m = right.value m := by
  have forth := leads_holds models class_.1
  have back := leads_holds models class_.2
  rw [Lit.fromCode_code, Lit.fromCode_code, Lit.holds_iff_value, Lit.holds_iff_value] at forth back
  exact Bool.eq_iff_iff.mpr ⟨forth, back⟩

theorem occurs {P : Nat → Prop} (occurring : ∀ clause ∈ s.formula, ∀ lit ∈ clause, P lit.var)
    {left right : Lit} (class_ : Classmates s left right) : left = right ∨ P right.var := by
  rcases Relation.ReflTransGen.cases_tail class_.1 with same | ⟨before, -, last⟩
  · exact .inl (Lit.code_injective same).symm
  · have ends := implicationEdges_vars (P := P) occurring (mem_successors.mp last)
    rw [Lit.fromCode_code] at ends
    exact .inr ends.2

end Classmates

theorem Unfrozen.negate {lit : Lit} (unfrozen : Unfrozen s lit) : Unfrozen s lit.negate := by
  intro other class_
  have opposite := class_.negate
  rw [Lit.negate_negate] at opposite
  exact unfrozen other.negate opposite

theorem Leader.transfer {left right leader : Lit} (class_ : Classmates s left right)
    (leads : Leader s left leader) : Leader s right leader where
  unfrozen := fun other mate => leads.unfrozen other (class_.trans mate)
  classmate := class_.symm.trans leads.classmate
  least := fun other mate => leads.least other (class_.trans mate)

theorem Leader.unique {lit first second : Lit} (left : Leader s lit first)
    (right : Leader s lit second) : first = second :=
  Lit.code_injective (Nat.le_antisymm (left.least _ right.classmate) (right.least _ left.classmate))

end

section

variable {s : Solver}

theorem foldComponents_value (frozen : List Nat) (code : Nat) :
    ∀ (components : List (List Nat)) (sub : Nat → Lit),
      (∃ component ∈ components, foldable frozen component = true ∧ code ∈ component ∧
        components.foldl (foldComponent frozen) sub code = representative component) ∨
      ((∀ component ∈ components, code ∈ component → foldable frozen component = false) ∧
        components.foldl (foldComponent frozen) sub code = sub code) := by
  intro components
  induction components with
  | nil => exact fun sub => .inr ⟨by simp, rfl⟩
  | cons component rest ih =>
    intro sub
    rw [foldl_cons]
    rcases ih (foldComponent frozen sub component) with found | ⟨absent, same⟩
    · obtain ⟨other, mem, found⟩ := found
      exact .inl ⟨other, .tail _ mem, found⟩
    · -- No later component holds the code, so this one decides.
      rw [same]
      unfold foldComponent
      by_cases folds : foldable frozen component = true
      · by_cases lies : code ∈ component
        · exact .inl ⟨component, .head _, folds, lies, by simp [folds, lies]⟩
        · refine .inr ⟨fun other mem => ?_, by simp [folds, lies]⟩
          rcases mem_cons.mp mem with rfl | later
          · exact fun lies' => absurd lies' lies
          · exact absent other later
      · refine .inr ⟨fun other mem => ?_, by simp [folds]⟩
        rcases mem_cons.mp mem with rfl | later
        · exact fun _ => by simpa using folds
        · exact absent other later

theorem components_classes (bounded : VarsBelow s.numVars s.formula) :
    (∀ lit : Lit, lit.var < s.numVars →
      ∃ component ∈ components (successors (implicationEdges s)) (2 * s.numVars),
        lit.code ∈ component) ∧
    ∀ component ∈ components (successors (implicationEdges s)) (2 * s.numVars),
      ∀ lit : Lit, lit.code ∈ component →
        lit.var < s.numVars ∧ ∀ other : Lit, other.code ∈ component ↔ Classmates s lit other := by
  have spec := components_spec fun node _ next => @successors_lt s bounded node _
  refine ⟨fun lit lies => spec.1 _ (code_lt.mpr lies), fun component mem lit lies => ?_⟩
  obtain ⟨small, class_⟩ := spec.2 component mem _ lies
  exact ⟨code_lt.mp small, fun other => class_ _⟩

theorem representative_least {component : List Nat} {code : Nat} (mem : code ∈ component) :
    (representative component).code ∈ component ∧
      ∀ other ∈ component, (representative component).code ≤ other := by
  obtain ⟨least, found⟩ := Option.isSome_iff_exists.mp
    (isSome_min?_of_mem mem)
  unfold representative
  rw [found, Option.getD_some, Lit.code_fromCode]
  exact (min?_eq_some_iff).mp found

theorem foldable_iff {frozen component : List Nat} : foldable frozen component = true ↔
      1 < component.length ∧ ∀ code ∈ component, (Lit.fromCode code).var ∉ frozen := by
  simp [foldable]

theorem substitution_cases (bounded : VarsBelow s.numVars s.formula) (lit : Lit) :
    (lit.var < s.numVars ∧ Leader s lit (substitution s lit.code)) ∨
      (substitution s lit.code = lit ∧ ∀ leader, lit.var < s.numVars → ¬ Leader s lit leader) := by
  obtain ⟨covered, classes⟩ := components_classes bounded
  unfold substitution
  rcases foldComponents_value s.frozenVars lit.code
    (components (successors (implicationEdges s)) (2 * s.numVars)) Lit.fromCode with
    ⟨component, mem, folds, lies, same⟩ | ⟨absent, same⟩
  · -- The component is the class of the literal, and its smallest code is the leader.
    obtain ⟨small, class_⟩ := classes component mem lit lies
    obtain ⟨leader, least⟩ := representative_least lies
    rw [same]
    refine .inl ⟨small, fun other mate => ?_, (class_ _).mp leader, fun other mate => ?_⟩
    · have free := (foldable_iff.mp folds).2 _ ((class_ other).mpr mate)
      rwa [Lit.fromCode_code] at free
    · exact least _ ((class_ other).mpr mate)
  · rw [same, Lit.fromCode_code]
    by_cases small : lit.var < s.numVars
    · obtain ⟨component, mem, lies⟩ := covered lit small
      obtain ⟨-, class_⟩ := classes component mem lit lies
      have unfolded := absent component mem lies
      by_cases free : Unfrozen s lit
      · -- An unfrozen class that is not folded has one literal.
        have short : component.length ≤ 1 := by
          by_contra long
          have folds : foldable s.frozenVars component = true := by
            refine foldable_iff.mpr ⟨by omega, fun code other => ?_⟩
            refine free (Lit.fromCode code) ((class_ _).mp ?_)
            rwa [Lit.code_fromCode]
          rw [folds] at unfolded
          cases unfolded
        refine .inl ⟨small, free, .refl lit, fun other mate => ?_⟩
        have both := (class_ other).mpr mate
        have same : lit.code = other.code := by
          match component, short, lies, both with
          | [only], _, lies, both =>
            rw [mem_singleton] at lies both
            rw [lies, both]
        exact same.le
      · exact .inr ⟨rfl, fun leader _ leads => free leads.unfrozen⟩
    · exact .inr ⟨rfl, fun leader lies => absurd lies small⟩

theorem substitution_leader (bounded : VarsBelow s.numVars s.formula) {lit leader : Lit}
    (lies : lit.var < s.numVars) (leads : Leader s lit leader) :
    substitution s lit.code = leader := by
  rcases substitution_cases bounded lit with ⟨-, led⟩ | ⟨-, unled⟩
  · exact led.unique leads
  · exact absurd leads (unled leader lies)

theorem substitution_classmate (bounded : VarsBelow s.numVars s.formula) (lit : Lit) :
    Classmates s lit (substitution s lit.code) := by
  rcases substitution_cases bounded lit with ⟨-, led⟩ | ⟨same, -⟩
  · exact led.classmate
  · rw [same]
    exact .refl lit

theorem substitution_var (bounded : VarsBelow s.numVars s.formula) {lit : Lit}
    (lies : lit.var < s.numVars) : (substitution s lit.code).var < s.numVars := by
  rcases (substitution_classmate bounded lit).occurs (P := fun var => var < s.numVars) bounded
    with same | below
  · rwa [← same]
  · exact below

theorem substitution_outside (bounded : VarsBelow s.numVars s.formula) {lit : Lit}
    (outside : ¬ lit.var < s.numVars) : substitution s lit.code = lit := by
  rcases substitution_cases bounded lit with ⟨lies, -⟩ | ⟨same, -⟩
  · exact absurd lies outside
  · exact same

theorem substitution_idem (bounded : VarsBelow s.numVars s.formula) (lit : Lit) :
    substitution s (substitution s lit.code).code = substitution s lit.code := by
  rcases substitution_cases bounded lit with ⟨lies, led⟩ | ⟨same, -⟩
  · exact substitution_leader bounded (substitution_var bounded lies) (led.transfer led.classmate)
  · rw [same, same]

theorem substitution_value (bounded : VarsBelow s.numVars s.formula) {m : Assignment}
    (models : Models m s.formula) (lit : Lit) :
    (substitution s lit.code).value m = lit.value m :=
  ((substitution_classmate bounded lit).value models).symm

theorem contradictory_unsat (bounded : VarsBelow s.numVars s.formula)
    (found : contradictory s (substitution s) = true) :
    ¬ Models m s.formula := by
  intro models
  obtain ⟨var, -, same⟩ := any_eq_true.mp found
  have joined : substitution s (Lit.pos var).code = substitution s (Lit.neg var).code := by
    simpa using same
  have values : (Lit.pos var).value m = (Lit.neg var).value m := by
    rw [← substitution_value bounded models, joined, substitution_value bounded models]
  rw [← Lit.negate_pos, Lit.value_negate] at values
  simp at values

theorem opposite_contradictory (bounded : VarsBelow s.numVars s.formula) {lit leader : Lit}
    (lies : lit.var < s.numVars) (leads : Leader s lit leader)
    (opposite : Classmates s lit leader.negate) : contradictory s (substitution s) = true := by
  have small : leader.var < s.numVars := by
    rcases leads.classmate.occurs (P := fun var => var < s.numVars) bounded with same | below
    · exact same ▸ lies
    · exact below
  -- Both polarities of the leader's variable have the leader as representative.
  have left := substitution_leader bounded small (leads.transfer leads.classmate)
  have right := @substitution_leader s bounded leader.negate _ small (leads.transfer opposite)
  refine any_eq_true.mpr ⟨leader.var, mem_range.mpr small, decide_eq_true ?_⟩
  obtain ⟨var, sign⟩ := leader
  cases sign
  · exact left.trans right.symm
  · exact right.trans left.symm

theorem code_le_negate {left right : Lit} (var : left.var ≠ right.var)
    (bound : left.code ≤ right.negate.code) : left.negate.code ≤ right.code := by
  unfold Lit.code at bound ⊢
  have first := Bool.toNat_lt left.isNeg
  have second := Bool.toNat_lt left.negate.isNeg
  have third := Bool.toNat_lt right.negate.isNeg
  simp only [Lit.negate_var] at bound ⊢
  omega

theorem Leader.negate (bounded : VarsBelow s.numVars s.formula)
    (consistent : contradictory s (substitution s) = false) {lit leader : Lit}
    (lies : lit.var < s.numVars) (leads : Leader s lit leader) :
    Leader s lit.negate leader.negate := by
  refine ⟨leads.unfrozen.negate, leads.classmate.negate, fun other mate => ?_⟩
  have opposite : Classmates s lit other.negate := by
    have turned := mate.negate
    rwa [Lit.negate_negate] at turned
  by_cases var : leader.var = other.var
  · rcases Lit.eq_or_negate var with same | flipped
    · -- Then the class holds a literal and its negation.
      have clash := opposite_contradictory bounded lies leads (same ▸ opposite)
      rw [consistent] at clash
      cases clash
    · rw [flipped, Lit.negate_negate]
  · exact code_le_negate var (leads.least _ opposite)

theorem substitution_negate (bounded : VarsBelow s.numVars s.formula)
    (consistent : contradictory s (substitution s) = false) (lit : Lit) :
    substitution s lit.negate.code = (substitution s lit.code).negate := by
  rcases substitution_cases bounded lit with ⟨lies, led⟩ | ⟨same, unled⟩
  · exact substitution_leader bounded lies (led.negate bounded consistent lies)
  · rw [same]
    rcases substitution_cases bounded lit.negate with ⟨lies, led⟩ | ⟨same', -⟩
    · have back := led.negate bounded consistent lies
      rw [Lit.negate_negate] at back
      exact absurd back (unled _ lies)
    · exact same'

theorem substitution_root (bounded : VarsBelow s.numVars s.formula)
    (consistent : contradictory s (substitution s) = false) {lit leader : Lit}
    (leads : substitution s lit.code = leader) :
    substitution s (Lit.pos leader.var).code = Lit.pos leader.var := by
  have fixed : substitution s leader.code = leader := leads ▸ substitution_idem bounded lit
  obtain ⟨var, sign⟩ := leader
  cases sign
  · exact fixed
  · -- The negation of a fixed literal is fixed.
    have flipped := substitution_negate bounded consistent (Lit.neg var)
    rwa [show substitution s (Lit.neg var).code = Lit.neg var from fixed] at flipped

end

end Nixie.Sat
