import Mathlib.Logic.Relation
import Nixie.Solver.Encode

/-! Truth values of Boolean terms, and what the defining clauses of one gate say about them. -/

namespace Nixie

open List

namespace Tseitin

theorem pairs_map {α β : Type} (f : α → β) (items : List α) :
    pairs (items.map f) = (pairs items).map fun pair => (f pair.1, f pair.2) := by
  -- Each element pairs with the same later elements on both sides.
  induction items with
  | nil => rfl
  | cons a rest ih => simp [pairs, ih, Function.comp_def]

theorem zip_map_self {α β : Type} (f : α → β) (items : List α) :
    items.zip (items.map f) = items.map fun item => (item, f item) := by
  induction items with
  | nil => rfl
  | cons a rest ih => simp [ih]

theorem mem_of_mem_pairs {α : Type} {items : List α} {pair : α × α}
    (mem : pair ∈ pairs items) : pair.1 ∈ items ∧ pair.2 ∈ items := by
  -- A pair starts at its first member's position and looks to the right.
  induction items with
  | nil => cases mem
  | cons a rest ih =>
    simp only [pairs, mem_append, mem_map] at mem
    rcases mem with ⟨b, later, rfl⟩ | deeper
    · exact ⟨by simp, by simp [later]⟩
    · obtain ⟨left, right⟩ := ih deeper
      exact ⟨by simp [left], by simp [right]⟩

def isAtom : Term → Bool
  | .tru => false
  | .fls => false
  | .not _ => false
  | .and _ => false
  | .or _ => false
  | .xor _ _ => false
  | .implies _ _ => false
  | .ite _ _ _ => false
  | .eq lhs _ => lhs.sort ≠ .bool
  | .distinct _ => false
  | _ => true

/-- Conjunctions and disjunctions, the gates that may omit a direction. -/
def isPolarised : Term → Bool
  | .and _ => true
  | .or _ => true
  | _ => false

/-- An if-then-else, whose equalities need more than an atom. -/
def isIte : Term → Bool
  | .ite _ _ _ => true
  | _ => false

section

variable (termId : Term → Nat) (atoms : Term → Bool)

/-- Truth of an equality built from two operands with the given truths. -/
def eqValue (lhs : Term) (lhsValue : Bool) (rhs : Term) (rhsValue : Bool) : Bool :=
  if lhs.sort = .bool then lhsValue == rhsValue
  else match mkEq termId lhs rhs with
    | .tru => true
    | .fls => false
    | atom => atoms atom

mutual

/-- Truth of a Boolean term under an assignment of its atoms. -/
def value : Term → Bool
  | .tru => true
  | .fls => false
  | .not arg => !value arg
  | .and args => (values args).all id
  | .or args => (values args).any id
  | .xor lhs rhs => value lhs != value rhs
  | .implies lhs rhs => !value lhs || value rhs
  | .ite cond thenBr elseBr => if value cond then value thenBr else value elseBr
  | .eq lhs rhs => if lhs.sort = .bool then value lhs == value rhs else atoms (.eq lhs rhs)
  | .distinct args => (pairs (args.zip (values args))).all fun pair =>
      !eqValue termId atoms pair.1.1 pair.1.2 pair.2.1 pair.2.2
  | atom => atoms atom

def values : List Term → List Bool
  | [] => []
  | term :: rest => value term :: values rest

end

theorem values_eq_map (args : List Term) :
    values termId atoms args = args.map (value termId atoms) := by
  induction args with
  | nil => rfl
  | cons term rest ih => simp [values, ih]

end

mutual

def Propositional : Term → Prop
  -- Operands of a theory equality are not if-then-else terms, which other passes remove.
  | .tru => True
  | .fls => True
  | .var _ sort => sort = .bool
  | .not arg => Propositional arg
  | .and args => AllPropositional args
  | .or args => AllPropositional args
  | .xor lhs rhs => Propositional lhs ∧ Propositional rhs
  | .implies lhs rhs => Propositional lhs ∧ Propositional rhs
  | .ite cond thenBr elseBr => Propositional cond ∧ Propositional thenBr ∧ Propositional elseBr
  | .eq lhs rhs =>
      lhs.sort = rhs.sort ∧ (lhs.sort = .bool → Propositional lhs ∧ Propositional rhs) ∧
        (lhs.sort ≠ .bool → isIte lhs = false ∧ isIte rhs = false)
  | .distinct args =>
      2 ≤ args.length ∧ (∀ arg ∈ args, ∀ other ∈ args, arg.sort = other.sort) ∧
        (∀ arg ∈ args, arg.sort ≠ .bool → isIte arg = false) ∧ BoolPropositional args
  | .le _ _ => True
  | .lt _ _ => True
  | .ge _ _ => True
  | .gt _ _ => True
  | .apply _ _ sort => sort = .bool
  | _ => False

def AllPropositional : List Term → Prop
  | [] => True
  | term :: rest => Propositional term ∧ AllPropositional rest

/-- Every listed term of Boolean sort is a Boolean term. -/
def BoolPropositional : List Term → Prop
  | [] => True
  | term :: rest => (term.sort = .bool → Propositional term) ∧ BoolPropositional rest

end

theorem allPropositional_iff {args : List Term} :
    AllPropositional args ↔ ∀ arg ∈ args, Propositional arg := by
  induction args with
  | nil => simp [AllPropositional]
  | cons term rest ih => simp [AllPropositional, ih]

theorem boolPropositional_iff {args : List Term} :
    BoolPropositional args ↔ ∀ arg ∈ args, arg.sort = .bool → Propositional arg := by
  induction args with
  | nil => simp [BoolPropositional]
  | cons term rest ih => simp [BoolPropositional, ih]

section

variable {termId : Term → Nat} {atoms : Term → Bool}

theorem mkEq_cases (lhs rhs : Term) : (mkEq termId lhs rhs = .tru ∧ lhs = rhs) ∨
      (mkEq termId lhs rhs = .fls ∧ lhs ≠ rhs ∧
        ((∃ m n, lhs = .intConst m ∧ rhs = .intConst n) ∨ (lhs = .tru ∧ rhs = .fls) ∨
          (lhs = .fls ∧ rhs = .tru))) ∨
      (lhs ≠ rhs ∧ (mkEq termId lhs rhs = .eq lhs rhs ∨ mkEq termId lhs rhs = .eq rhs lhs)) := by
  by_cases same : lhs = rhs
  · exact .inl ⟨by simp [mkEq, same], same⟩
  · right
    simp only [mkEq, same, if_false]
    split
    · exact .inl ⟨rfl, same, .inl ⟨_, _, rfl, rfl⟩⟩
    · exact .inl ⟨rfl, same, .inr (.inl ⟨rfl, rfl⟩)⟩
    · exact .inl ⟨rfl, same, .inr (.inr ⟨rfl, rfl⟩)⟩
    · right
      split
      · exact ⟨same, .inl rfl⟩
      · exact ⟨same, .inr rfl⟩

theorem value_mkEq {lhs rhs : Term} (sorts : lhs.sort = rhs.sort) :
    value termId atoms (mkEq termId lhs rhs) =
      eqValue termId atoms lhs (value termId atoms lhs) rhs (value termId atoms rhs) := by
  -- Folded constants compare equal or different; the two orientations compare the same truths.
  unfold eqValue
  by_cases boolean : lhs.sort = .bool
  · have other : rhs.sort = .bool := sorts ▸ boolean
    rcases @mkEq_cases termId lhs rhs with
      ⟨built, rfl⟩ | ⟨built, _, fold⟩ | ⟨_, built | built⟩
    · simp [built, boolean, value]
    · rcases fold with ⟨m, n, rfl, rfl⟩ | ⟨rfl, rfl⟩ | ⟨rfl, rfl⟩
      · simp [Term.sort] at boolean
      · simp [built, value, Term.sort]
      · simp [built, value, Term.sort]
    · simp [built, boolean, value]
    · simp only [built, boolean, other, value, if_true]
      exact Bool.beq_comm
  · have other : rhs.sort ≠ .bool := sorts ▸ boolean
    rcases @mkEq_cases termId lhs rhs with
      ⟨built, rfl⟩ | ⟨built, _, _⟩ | ⟨_, built | built⟩
    · simp [built, boolean, value]
    · simp [built, boolean, value]
    · simp [built, boolean, value]
    · simp [built, boolean, other, value]

theorem propositional_mkEq {lhs rhs : Term} (sorts : lhs.sort = rhs.sort)
    (left : lhs.sort = .bool → Propositional lhs) (right : rhs.sort = .bool → Propositional rhs)
    (leftIte : lhs.sort ≠ .bool → isIte lhs = false)
    (rightIte : rhs.sort ≠ .bool → isIte rhs = false) :
    Propositional (mkEq termId lhs rhs) := by
  rcases @mkEq_cases termId lhs rhs with
    ⟨built, _⟩ | ⟨built, _, _⟩ | ⟨_, built | built⟩
  · simp [built, Propositional]
  · simp [built, Propositional]
  · rw [built]
    exact ⟨sorts, fun boolean => ⟨left boolean, right (sorts ▸ boolean)⟩,
      fun theory => ⟨leftIte theory, rightIte (sorts ▸ theory)⟩⟩
  · rw [built]
    exact ⟨sorts.symm, fun boolean => ⟨right boolean, left (sorts ▸ boolean)⟩,
      fun theory => ⟨rightIte theory, leftIte (sorts ▸ theory)⟩⟩

variable {term : Term}

theorem propositional_child {child : Term} (wellFormed : Propositional term)
    (mem : child ∈ childTerms termId term) : Propositional child := by
  -- Every child is an operand, except that a distinct has built equalities.
  cases term with
  | not arg => simpa [childTerms, Propositional] using (by simpa [childTerms] using mem) ▸ wellFormed
  | and args => exact allPropositional_iff.mp wellFormed child mem
  | or args => exact allPropositional_iff.mp wellFormed child mem
  | xor lhs rhs =>
    simp only [childTerms, mem_cons, not_mem_nil, or_false] at mem
    rcases mem with rfl | rfl
    · exact wellFormed.1
    · exact wellFormed.2
  | implies lhs rhs =>
    simp only [childTerms, mem_cons, not_mem_nil, or_false] at mem
    rcases mem with rfl | rfl
    · exact wellFormed.1
    · exact wellFormed.2
  | ite cond thenBr elseBr =>
    simp only [childTerms, mem_cons, not_mem_nil, or_false] at mem
    rcases mem with rfl | rfl | rfl
    · exact wellFormed.1
    · exact wellFormed.2.1
    · exact wellFormed.2.2
  | eq lhs rhs =>
    simp only [childTerms] at mem
    split at mem
    · rename_i boolean
      simp only [mem_cons, not_mem_nil, or_false] at mem
      rcases mem with rfl | rfl
      · exact (wellFormed.2.1 boolean).1
      · exact (wellFormed.2.1 boolean).2
    · cases mem
  | distinct args =>
    simp only [childTerms, mem_map] at mem
    obtain ⟨pair, lies, rfl⟩ := mem
    obtain ⟨left, right⟩ := mem_of_mem_pairs lies
    obtain ⟨_, sorts, noIte, booleans⟩ := wellFormed
    exact propositional_mkEq (sorts _ left _ right)
      (boolPropositional_iff.mp booleans _ left) (boolPropositional_iff.mp booleans _ right)
      (noIte _ left) (noIte _ right)
  | _ => simp [childTerms] at mem

end

/-- The Boolean function of a gate over the truths of its children. -/
def gateFn : Term → List Bool → Bool
  | .tru, _ => true
  | .fls, _ => false
  | .not _, [arg] => !arg
  | .and _, args => args.all id
  | .or _, args => args.any id
  | .xor _ _, [lhs, rhs] => lhs != rhs
  | .implies _ _, [lhs, rhs] => !lhs || rhs
  | .ite _ _ _, [cond, thenValue, elseValue] => if cond then thenValue else elseValue
  | .eq _ _, [lhs, rhs] => lhs == rhs
  | .distinct _, equalities => equalities.all fun equal => !equal
  | _, _ => false

variable {termId : Term → Nat}

theorem value_gate {atoms : Term → Bool}
    (wellFormed : Propositional term) (gate : isAtom term = false) :
    value termId atoms term =
      gateFn term ((childTerms termId term).map (value termId atoms)) := by
  cases term with
  | tru => rfl
  | fls => rfl
  | not arg => simp [value, childTerms, gateFn]
  | and args => simp [value, childTerms, gateFn, values_eq_map]
  | or args => simp [value, childTerms, gateFn, values_eq_map]
  | xor lhs rhs => simp [value, childTerms, gateFn]
  | implies lhs rhs => simp [value, childTerms, gateFn]
  | ite cond thenBr elseBr => simp [value, childTerms, gateFn]
  | eq lhs rhs =>
    have boolean : lhs.sort = .bool := by simpa [isAtom] using gate
    simp [value, childTerms, gateFn, boolean]
  | distinct args =>
    -- Each pair's built equality compares the truths of the pair.
    obtain ⟨_, sorts, _, _⟩ := wellFormed
    have tagged : args.zip (values termId atoms args) =
        args.map fun arg => (arg, value termId atoms arg) := by
      rw [values_eq_map]
      exact zip_map_self _ args
    simp only [value, childTerms, gateFn, tagged, pairs_map, all_map]
    rw [Bool.eq_iff_iff]
    simp only [all_eq_true, Function.comp_apply]
    refine forall₂_congr fun pair lies => ?_
    obtain ⟨left, right⟩ := mem_of_mem_pairs lies
    rw [value_mkEq (sorts _ left _ right)]
  | _ => simp [isAtom] at gate

theorem value_atom {atoms : Term → Bool}
    (atom : isAtom term = true) : value termId atoms term = atoms term := by
  cases term with
  | eq lhs rhs =>
    have theory : lhs.sort ≠ .bool := by simpa [isAtom] using atom
    simp [value, theory]
  | _ => first | rfl | simp [isAtom] at atom

/-- One truth bounds another in the directions of a polarity. -/
def Agree (polarity : Polarity) (encoded actual : Bool) : Prop :=
  (polarity ≠ .negative → encoded = true → actual = true) ∧
    (polarity ≠ .positive → actual = true → encoded = true)

theorem agree_both {encoded actual : Bool} : Agree .both encoded actual ↔ encoded = actual := by
  cases encoded <;> cases actual <;> simp [Agree]

variable {polarity : Polarity}

theorem Agree.rfl {polarity : Polarity} {truth : Bool} : Agree polarity truth truth :=
  ⟨fun _ holds => holds, fun _ holds => holds⟩

theorem Agree.not {encoded actual : Bool}
    (agree : Agree polarity.flip encoded actual) : Agree polarity (!encoded) (!actual) := by
  cases polarity <;> cases encoded <;> cases actual <;> simp_all [Agree, Polarity.flip]

variable {stored : Polarity}

theorem Agree.of_covers {needed : Polarity} {encoded actual : Bool}
    (covers : stored.Covers needed) (agree : Agree stored encoded actual) :
    Agree needed encoded actual := by
  rcases covers with rfl | rfl
  · rw [agree_both.mp agree]
    exact Agree.rfl
  · exact agree

def AgreeAll : List Polarity → List Bool → List Bool → Prop
  | [], [], [] => True
  | polarity :: polarities, encoded :: rest, actual :: others =>
      Agree polarity encoded actual ∧ AgreeAll polarities rest others
  | _, _, _ => False

/-- Polarities of a term's children when the term occurs at the given polarity. -/
def childPolarities : Term → Polarity → List Polarity
  | .not _, polarity => [polarity.flip]
  | .and args, polarity => args.map fun _ => polarity
  | .or args, polarity => args.map fun _ => polarity
  | .xor _ _, _ => [.both, .both]
  | .implies _ _, polarity => [polarity.flip, polarity]
  | .ite _ _ _, polarity => [.both, polarity, polarity]
  | .eq lhs _, _ => if lhs.sort = .bool then [.both, .both] else []
  | .distinct args, _ => (pairs args).map fun _ => .both
  | _, _ => []

theorem AgreeAll.uniform {β : Type} : ∀ {items : List β}
    {encoded actual : List Bool}, AgreeAll (items.map fun _ => polarity) encoded actual →
    Agree polarity (encoded.all id) (actual.all id) ∧
      Agree polarity (encoded.any id) (actual.any id)
  | [], [], [], _ => ⟨Agree.rfl, Agree.rfl⟩
  | _ :: items, e :: encoded, a :: actual, agree => by
      obtain ⟨head, tail⟩ := agree
      obtain ⟨conj, disj⟩ := AgreeAll.uniform tail
      cases polarity <;> cases e <;> cases a <;> simp_all [Agree]

theorem AgreeAll.both {β : Type} : ∀ {items : List β} {encoded actual : List Bool},
    AgreeAll (items.map fun _ => .both) encoded actual → encoded = actual
  | [], [], [], _ => Eq.refl _
  | _ :: items, e :: encoded, a :: actual, agree => by
      obtain ⟨head, tail⟩ := agree
      rw [agree_both.mp head, AgreeAll.both tail]

theorem AgreeAll.none {encoded actual : List Bool} (agree : AgreeAll [] encoded actual) :
    encoded = actual := by
  cases encoded <;> cases actual <;> simp_all [AgreeAll]

theorem AgreeAll.one {p : Polarity} {encoded actual : List Bool}
    (agree : AgreeAll [p] encoded actual) :
    ∃ e a, encoded = [e] ∧ actual = [a] ∧ Agree p e a := by
  rcases encoded with _ | ⟨e, _ | ⟨e', encoded⟩⟩ <;>
    rcases actual with _ | ⟨a, _ | ⟨a', actual⟩⟩ <;> simp_all [AgreeAll]

theorem AgreeAll.two {p q : Polarity} {encoded actual : List Bool}
    (agree : AgreeAll [p, q] encoded actual) :
    ∃ e e' a a', encoded = [e, e'] ∧ actual = [a, a'] ∧ Agree p e a ∧ Agree q e' a' := by
  rcases encoded with _ | ⟨e, encoded⟩ <;> rcases actual with _ | ⟨a, actual⟩ <;>
    try exact agree.elim
  obtain ⟨head, tail⟩ := agree
  obtain ⟨e', a', rfl, rfl, last⟩ := AgreeAll.one tail
  exact ⟨e, e', a, a', Eq.refl _, Eq.refl _, head, last⟩

theorem AgreeAll.three {p q r : Polarity} {encoded actual : List Bool}
    (agree : AgreeAll [p, q, r] encoded actual) :
    ∃ e e' e'' a a' a'', encoded = [e, e', e''] ∧ actual = [a, a', a''] ∧
      Agree p e a ∧ Agree q e' a' ∧ Agree r e'' a'' := by
  rcases encoded with _ | ⟨e, encoded⟩ <;> rcases actual with _ | ⟨a, actual⟩ <;>
    try exact agree.elim
  obtain ⟨head, tail⟩ := agree
  obtain ⟨e', e'', a', a'', rfl, rfl, middle, last⟩ := AgreeAll.two tail
  exact ⟨e, e', e'', a, a', a'', Eq.refl _, Eq.refl _, head, middle, last⟩

theorem gateFn_agree {encoded actual : List Bool}
    (agree : AgreeAll (childPolarities term polarity) encoded actual) :
    Agree polarity (gateFn term encoded) (gateFn term actual) := by
  -- Conjunctions and disjunctions are monotone; the remaining mixed gates need equal children.
  cases term with
  | not arg =>
    obtain ⟨e, a, rfl, rfl, head⟩ := AgreeAll.one agree
    exact head.not
  | and args => exact agree.uniform.1
  | or args => exact agree.uniform.2
  | xor lhs rhs =>
    obtain ⟨e, e', a, a', rfl, rfl, left, right⟩ := AgreeAll.two agree
    rw [agree_both.mp left, agree_both.mp right]
    exact Agree.rfl
  | implies lhs rhs =>
    obtain ⟨e, e', a, a', rfl, rfl, left, right⟩ := AgreeAll.two agree
    cases polarity <;> cases e <;> cases e' <;> cases a <;> cases a' <;>
      simp_all [Agree, gateFn, Polarity.flip]
  | ite cond thenBr elseBr =>
    obtain ⟨e, e', e'', a, a', a'', rfl, rfl, test, left, right⟩ := AgreeAll.three agree
    rw [agree_both.mp test]
    cases a
    · simpa [gateFn] using right
    · simpa [gateFn] using left
  | eq lhs rhs =>
    by_cases boolean : lhs.sort = .bool
    · simp only [childPolarities, boolean, if_true] at agree
      obtain ⟨e, e', a, a', rfl, rfl, left, right⟩ := AgreeAll.two agree
      rw [agree_both.mp left, agree_both.mp right]
      exact Agree.rfl
    · simp only [childPolarities, boolean, if_false] at agree
      rw [AgreeAll.none agree]
      exact Agree.rfl
  | distinct args =>
    rw [AgreeAll.both agree]
    exact Agree.rfl
  | _ =>
    rw [AgreeAll.none agree]
    exact Agree.rfl

section

variable {m : Assignment}

variable {result : Lit}

variable {args : List Lit}

theorem andClauses_up (models : Models m (andClauses result args stored))
    (emitted : stored ≠ .negative) (holds : result.value m = true) :
    (args.map (Lit.value m)).all id = true := by
  -- Each argument has its own clause.
  simp only [andClauses, emitted, if_true, ne_eq, not_false_eq_true, models_append] at models
  simp only [all_map, all_eq_true, Function.comp_apply, id_eq]
  intro arg mem
  have clause := models.1 [result.negate, arg] (mem_map.mpr ⟨arg, mem, rfl⟩)
  simpa [Lit.holds_iff_value, holds] using clause

theorem andClauses_down (models : Models m (andClauses result args stored))
    (emitted : stored ≠ .positive) (holds : (args.map (Lit.value m)).all id = true) :
    result.value m = true := by
  -- With all arguments true, only the variable can satisfy the clause.
  simp only [andClauses, emitted, if_true, ne_eq, not_false_eq_true, models_append] at models
  simp only [all_map, all_eq_true, Function.comp_apply, id_eq] at holds
  have clause := models.2 _ (mem_singleton.mpr rfl)
  rw [satisfies_append] at clause
  rcases clause with ⟨lit, mem, lifted⟩ | last
  · obtain ⟨arg, lies, rfl⟩ := mem_map.mp mem
    rw [Lit.holds_iff_value, Lit.value_negate, holds arg lies] at lifted
    exact absurd lifted (by decide)
  · simpa [Lit.holds_iff_value] using last

theorem andClauses_exact (stored : Polarity)
    (exact_ : result.value m = (args.map (Lit.value m)).all id) :
    Models m (andClauses result args stored) := by
  unfold andClauses
  refine models_append.mpr ⟨?_, ?_⟩
  · split
    · intro clause mem
      obtain ⟨arg, lies, rfl⟩ := mem_map.mp mem
      simp only [satisfies_cons, satisfies_nil, or_false, Lit.holds_iff_value, Lit.value_negate]
      by_cases holds : result.value m = true
      · rw [exact_] at holds
        simp only [all_map, all_eq_true, Function.comp_apply, id_eq] at holds
        exact .inr (holds arg lies)
      · exact .inl (by simpa using holds)
    · exact models_nil
  · split
    · intro clause mem
      rw [mem_singleton.mp mem, satisfies_append]
      by_cases holds : result.value m = true
      · exact .inr (by simpa [Lit.holds_iff_value] using holds)
      · -- Some argument is false, and its negation is in the clause.
        rw [exact_] at holds
        simp only [all_map, all_eq_true, Function.comp_apply, id_eq, not_forall] at holds
        obtain ⟨arg, lies, fails⟩ := holds
        exact .inl ⟨arg.negate, mem_map.mpr ⟨arg, lies, rfl⟩, by
          rw [Lit.holds_iff_value, Lit.value_negate]
          simpa using fails⟩
    · exact models_nil

theorem orClauses_up (models : Models m (orClauses result args stored))
    (emitted : stored ≠ .negative) (holds : result.value m = true) :
    (args.map (Lit.value m)).any id = true := by
  simp only [orClauses, emitted, if_true, ne_eq, not_false_eq_true, models_append] at models
  have clause := models.1 _ (mem_singleton.mpr rfl)
  simp only [satisfies_cons, Lit.holds_iff_value, Lit.value_negate, holds, Bool.not_true,
    Bool.false_eq_true, false_or] at clause
  obtain ⟨arg, mem, lifted⟩ := clause
  rw [any_map, any_eq_true]
  exact ⟨arg, mem, Lit.holds_iff_value.mp lifted⟩

theorem orClauses_down (models : Models m (orClauses result args stored))
    (emitted : stored ≠ .positive) (holds : (args.map (Lit.value m)).any id = true) :
    result.value m = true := by
  simp only [orClauses, emitted, if_true, ne_eq, not_false_eq_true, models_append] at models
  rw [any_map, any_eq_true] at holds
  obtain ⟨arg, mem, lifted⟩ := holds
  have clause := models.2 [arg.negate, result] (mem_map.mpr ⟨arg, mem, rfl⟩)
  have lifted : arg.value m = true := lifted
  simpa [Lit.holds_iff_value, lifted] using clause

theorem orClauses_exact (stored : Polarity)
    (exact_ : result.value m = (args.map (Lit.value m)).any id) :
    Models m (orClauses result args stored) := by
  unfold orClauses
  refine models_append.mpr ⟨?_, ?_⟩
  · split
    · intro clause mem
      rw [mem_singleton.mp mem, satisfies_cons, Lit.holds_iff_value, Lit.value_negate]
      by_cases holds : result.value m = true
      · rw [exact_, any_map, any_eq_true] at holds
        obtain ⟨arg, lies, lifted⟩ := holds
        exact .inr ⟨arg, lies, Lit.holds_iff_value.mpr lifted⟩
      · exact .inl (by simpa using holds)
    · exact models_nil
  · split
    · intro clause mem
      obtain ⟨arg, lies, rfl⟩ := mem_map.mp mem
      simp only [satisfies_cons, satisfies_nil, or_false, Lit.holds_iff_value, Lit.value_negate]
      by_cases lifted : arg.value m = true
      · right
        rw [exact_, any_map, any_eq_true]
        exact ⟨arg, lies, lifted⟩
      · exact .inl (by simpa using lifted)
    · exact models_nil

theorem map_value_negate (args : List Lit) : (args.map Lit.negate).map (Lit.value m) =
      (args.map (Lit.value m)).map fun truth => !truth := by
  simp [Function.comp_def]

theorem gateClauses_binary {lhs rhs : Term} {a b : Lit} (stored : Polarity)
    (binary : term = .xor lhs rhs ∨ term = .implies lhs rhs ∨ term = .eq lhs rhs) :
    Models m (gateClauses term result [a, b] stored) ↔
      result.value m = gateFn term ([a, b].map (Lit.value m)) := by
  rcases binary with rfl | rfl | rfl
  all_goals
    simp only [gateClauses, models_cons, models_nil, satisfies_cons, satisfies_nil,
      Lit.holds_iff_value, Lit.value_negate, map_cons, map_nil, gateFn]
    cases result.value m <;> cases a.value m <;>
      cases b.value m <;> simp

theorem gateClauses_ite {cond thenBr elseBr : Term} {a b c : Lit} (stored : Polarity) :
    Models m (gateClauses (.ite cond thenBr elseBr) result [a, b, c] stored) ↔ result.value m =
        gateFn (.ite cond thenBr elseBr) ([a, b, c].map (Lit.value m)) := by
  simp only [gateClauses, models_cons, models_nil, satisfies_cons, satisfies_nil,
    Lit.holds_iff_value, Lit.value_negate, map_cons, map_nil, gateFn]
  cases result.value m <;> cases a.value m <;>
    cases b.value m <;> cases c.value m <;> simp

theorem gateClauses_exact (stored : Polarity)
    (exact_ : result.value m = gateFn term (args.map (Lit.value m))) :
    Models m (gateClauses term result args stored) := by
  cases term with
  | tru => simpa [gateClauses, gateFn, Lit.holds_iff_value] using exact_
  | fls => simpa [gateClauses, gateFn, Lit.holds_iff_value] using exact_
  | and terms => exact andClauses_exact stored exact_
  | or terms => exact orClauses_exact stored exact_
  | distinct terms =>
    refine andClauses_exact .both ?_
    rw [exact_, map_value_negate]
    simp [gateFn, all_map, Function.comp_def]
  | xor lhs rhs =>
    rcases args with _ | ⟨a, _ | ⟨b, _ | ⟨c, rest⟩⟩⟩ <;> try simp only [gateClauses, models_nil]
    exact (gateClauses_binary stored (.inl rfl)).mpr exact_
  | implies lhs rhs =>
    rcases args with _ | ⟨a, _ | ⟨b, _ | ⟨c, rest⟩⟩⟩ <;> try simp only [gateClauses, models_nil]
    exact (gateClauses_binary stored (.inr (.inl rfl))).mpr exact_
  | eq lhs rhs =>
    rcases args with _ | ⟨a, _ | ⟨b, _ | ⟨c, rest⟩⟩⟩ <;> try simp only [gateClauses, models_nil]
    exact (gateClauses_binary stored (.inr (.inr rfl))).mpr exact_
  | ite cond thenBr elseBr =>
    rcases args with _ | ⟨a, _ | ⟨b, _ | ⟨c, _ | ⟨d, rest⟩⟩⟩⟩ <;>
      try simp only [gateClauses, models_nil]
    exact (gateClauses_ite stored).mpr exact_
  | _ => simp [gateClauses]

theorem gateClauses_agree (arity : args.length = (childTerms termId term).length)
    (gate : isAtom term = false) (notNot : ∀ arg, term ≠ .not arg)
    (covers : isPolarised term = true → stored.Covers polarity)
    (models : Models m (gateClauses term result args stored)) :
    Agree polarity (result.value m)
      (gateFn term (args.map (Lit.value m))) := by
  cases term with
  | tru =>
    have holds : result.value m = true := by
      simpa [gateClauses, Lit.holds_iff_value] using models
    simp [Agree, gateFn, holds]
  | fls =>
    have fails : result.value m = false := by
      simpa [gateClauses, Lit.holds_iff_value] using models
    simp [Agree, gateFn, fails]
  | not arg => exact absurd rfl (notNot arg)
  | and terms =>
    refine ⟨fun up => andClauses_up models ?_, fun down => andClauses_down models ?_⟩
    · rcases covers rfl with rfl | rfl <;> simp_all
    · rcases covers rfl with rfl | rfl <;> simp_all
  | or terms =>
    refine ⟨fun up => orClauses_up models ?_, fun down => orClauses_down models ?_⟩
    · rcases covers rfl with rfl | rfl <;> simp_all
    · rcases covers rfl with rfl | rfl <;> simp_all
  | distinct terms =>
    have inner : (((args.map Lit.negate).map (Lit.value m)).all id) =
        gateFn (.distinct terms) (args.map (Lit.value m)) := by
      rw [map_value_negate]
      simp [gateFn, all_map, Function.comp_def]
    refine ⟨fun _ holds => ?_, fun _ holds => ?_⟩
    · rw [← inner]
      exact andClauses_up models (by decide) holds
    · rw [← inner] at holds
      exact andClauses_down models (by decide) holds
  | xor lhs rhs =>
    obtain ⟨a, b, rfl⟩ := length_eq_two.mp arity
    exact Agree.of_covers (.inl rfl)
      (agree_both.mpr ((gateClauses_binary stored (.inl rfl)).mp models))
  | implies lhs rhs =>
    obtain ⟨a, b, rfl⟩ := length_eq_two.mp arity
    exact Agree.of_covers (.inl rfl)
      (agree_both.mpr ((gateClauses_binary stored (.inr (.inl rfl))).mp models))
  | eq lhs rhs =>
    have boolean : lhs.sort = .bool := by simpa [isAtom] using gate
    simp only [childTerms, boolean, if_true] at arity
    obtain ⟨a, b, rfl⟩ := length_eq_two.mp arity
    exact Agree.of_covers (.inl rfl)
      (agree_both.mpr ((gateClauses_binary stored (.inr (.inr rfl))).mp models))
  | ite cond thenBr elseBr =>
    obtain ⟨a, b, c, rfl⟩ := length_eq_three.mp arity
    exact Agree.of_covers (.inl rfl) (agree_both.mpr ((gateClauses_ite stored).mp models))
  | _ => simp [isAtom] at gate

end

mutual

/-- Levels of recursion that encoding a term takes; a distinct adds its equalities' level. -/
def encodeHeight : Term → Nat
  | .not arg => encodeHeight arg + 1
  | .and args => encodeHeightAll args + 1
  | .or args => encodeHeightAll args + 1
  | .xor lhs rhs => max (encodeHeight lhs) (encodeHeight rhs) + 1
  | .implies lhs rhs => max (encodeHeight lhs) (encodeHeight rhs) + 1
  | .ite cond thenBr elseBr =>
      max (encodeHeight cond) (max (encodeHeight thenBr) (encodeHeight elseBr)) + 1
  | .eq lhs rhs => max (encodeHeight lhs) (encodeHeight rhs) + 1
  | .distinct args => encodeHeightAll args + 2
  | _ => 1

def encodeHeightAll : List Term → Nat
  | [] => 0
  | term :: rest => max (encodeHeight term) (encodeHeightAll rest)

end

theorem encodeHeight_le_all {args : List Term} {arg : Term} (mem : arg ∈ args) :
    encodeHeight arg ≤ encodeHeightAll args := by
  induction args with
  | nil => cases mem
  | cons term rest ih =>
    rcases mem_cons.mp mem with rfl | later
    · exact Nat.le_max_left _ _
    · exact Nat.le_trans (ih later) (Nat.le_max_right _ _)

theorem encodeHeight_mkEq (termId : Term → Nat) (lhs rhs : Term) :
    encodeHeight (mkEq termId lhs rhs) ≤ max (encodeHeight lhs) (encodeHeight rhs) + 1 := by
  rcases @mkEq_cases termId lhs rhs with
    ⟨built, _⟩ | ⟨built, _, _⟩ | ⟨_, built | built⟩
  · simp [built, encodeHeight]
  · simp [built, encodeHeight]
  · simp [built, encodeHeight]
  · simp [built, encodeHeight, Nat.max_comm]

theorem encodeHeight_child {child : Term}
    (mem : child ∈ childTerms termId term) : encodeHeight child < encodeHeight term := by
  cases term with
  | not arg =>
    simp only [childTerms, mem_singleton] at mem
    simp [mem, encodeHeight]
  | and args => exact Nat.lt_succ_of_le (encodeHeight_le_all mem)
  | or args => exact Nat.lt_succ_of_le (encodeHeight_le_all mem)
  | xor lhs rhs =>
    simp only [childTerms, mem_cons, not_mem_nil, or_false] at mem
    rcases mem with rfl | rfl <;> simp only [encodeHeight] <;> omega
  | implies lhs rhs =>
    simp only [childTerms, mem_cons, not_mem_nil, or_false] at mem
    rcases mem with rfl | rfl <;> simp only [encodeHeight] <;> omega
  | ite cond thenBr elseBr =>
    simp only [childTerms, mem_cons, not_mem_nil, or_false] at mem
    rcases mem with rfl | rfl | rfl <;> simp only [encodeHeight] <;> omega
  | eq lhs rhs =>
    simp only [childTerms] at mem
    split at mem
    · simp only [mem_cons, not_mem_nil, or_false] at mem
      rcases mem with rfl | rfl <;> simp only [encodeHeight] <;> omega
    · cases mem
  | distinct args =>
    simp only [childTerms, mem_map] at mem
    obtain ⟨pair, lies, rfl⟩ := mem
    obtain ⟨left, right⟩ := mem_of_mem_pairs lies
    have built := encodeHeight_mkEq termId pair.1 pair.2
    have first := encodeHeight_le_all left
    have second := encodeHeight_le_all right
    simp only [encodeHeight]
    omega
  | _ => simp [childTerms] at mem

end Tseitin

end Nixie
