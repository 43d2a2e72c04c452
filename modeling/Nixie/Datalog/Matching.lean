import Nixie.Datalog.Program
import Nixie.Logic.Stratified

/-! Matching a body finds the assignments under which it holds. -/

namespace Nixie.Datalog

open List Function Option

variable {Rel Var V : Type*}

def Term.vars : Term Var V → List Var
  | .var name => [name]
  | _ => []

def Atom.vars : Atom Rel Var V → List Var
  | .positive _ terms | .negated _ terms => terms.flatMap Term.vars
  | .comparison left _ right => left.vars ++ right.vars

def Atom.binds : Atom Rel Var V → List Var
  | .positive _ terms => terms.flatMap Term.vars
  | _ => []

/-- The other atoms use only variables that have a value. -/
def SafeAfter : List Var → List (Atom Rel Var V) → Prop
  | _, [] => True
  | bound, atom :: rest => (atom.vars ⊆ bound ++ atom.binds) ∧ SafeAfter (bound ++ atom.binds) rest

/-- Negated, compared and derived variables are bound by earlier positive atoms. -/
structure Rule.Safe (rule : Rule Rel Var V) : Prop where
  body : SafeAfter [] rule.body
  head : rule.head.terms.flatMap Term.vars ⊆ rule.body.flatMap Atom.binds

def Term.value (θ : Var → V) : Term Var V → Option V
  | .var name => some (θ name)
  | .const value => some value
  | .wildcard => none

def Term.Fits (θ : Var → V) : Term Var V → V → Prop
  | .var name, value => θ name = value
  | .const constVal, value => constVal = value
  | .wildcard, _ => True

/-- The atom holds, with the positive and the negative information given. -/
def Atom.Holds [LinearOrder V] (P N : Interp Rel (List V)) (θ : Var → V) : Atom Rel Var V → Prop
  | .positive rel terms => ∃ tuple ∈ P rel, List.Forall₂ (Term.Fits θ) terms tuple
  | .negated rel terms => ∀ tuple ∈ N rel, ¬List.Forall₂ (Term.Fits θ) terms tuple
  | .comparison left op right =>
    ∃ l r, left.value θ = some l ∧ right.value θ = some r ∧ op.satisfied l r

def Rule.Fires [LinearOrder V] (rule : Rule Rel Var V) (P N : Interp Rel (List V))
    (tuple : List V) : Prop :=
  ∃ θ : Var → V, (∀ atom ∈ rule.body, atom.Holds P N θ) ∧
    List.Forall₂ (fun term value => term.value θ = some value) rule.head.terms tuple

variable {atom : Atom Rel Var V}

theorem Atom.Holds.mono [LinearOrder V] {P P' N : Interp Rel (List V)} {θ : Var → V}
    (le : P ≤ P') (holds : atom.Holds P N θ) : atom.Holds P' N θ := by
  cases atom with
  | positive rel terms =>
    obtain ⟨tuple, mem, fits⟩ := holds
    exact ⟨tuple, le rel mem, fits⟩
  | negated rel terms => exact holds
  | comparison left op right => exact holds

theorem Atom.Holds.congr [LinearOrder V] {P P' N N' : Interp Rel (List V)} {θ : Var → V}
    (pos : ∀ q, atom.positiveRelation = some q → P q = P' q)
    (neg : ∀ q, atom.negatedRelation = some q → N q = N' q) (holds : atom.Holds P N θ) :
    atom.Holds P' N' θ := by
  cases atom with
  | positive rel terms =>
    obtain ⟨tuple, mem, fits⟩ := holds
    exact ⟨tuple, pos rel rfl ▸ mem, fits⟩
  | negated rel terms => exact fun tuple mem => holds tuple (neg rel rfl ▸ mem)
  | comparison left op right => exact holds

theorem Rule.Fires.mono [LinearOrder V] {P P' N : Interp Rel (List V)} {rule : Rule Rel Var V}
    {tuple : List V} (le : P ≤ P') (fires : rule.Fires P N tuple) : rule.Fires P' N tuple := by
  obtain ⟨θ, holds, derived⟩ := fires
  exact ⟨θ, fun atom mem => (holds atom mem).mono le, derived⟩

theorem Rule.Fires.congr [LinearOrder V] {P P' N N' : Interp Rel (List V)}
    {rule : Rule Rel Var V} {tuple : List V}
    (pos : ∀ atom ∈ rule.body, ∀ q, atom.positiveRelation = some q → P q = P' q)
    (neg : ∀ atom ∈ rule.body, ∀ q, atom.negatedRelation = some q → N q = N' q)
    (fires : rule.Fires P N tuple) : rule.Fires P' N' tuple := by
  obtain ⟨θ, holds, derived⟩ := fires
  exact ⟨θ, fun atom mem => (holds atom mem).congr (pos atom mem) (neg atom mem), derived⟩

/-- A binding is the set of the assignments that it agrees with. -/
def Binding.Below (binding : Binding Var V) (θ : Var → V) : Prop :=
  ∀ x v, binding x = some v → θ x = v

def Binding.Covers (binding : Binding Var V) (vars : List Var) : Prop :=
  ∀ x ∈ vars, ∃ v, binding x = some v

theorem Binding.below_empty (θ : Var → V) : Binding.Below (fun _ => none) θ :=
  fun _ _ found => nomatch found

theorem Binding.exists_below [Inhabited V] (binding : Binding Var V) : ∃ θ, binding.Below θ := by
  -- Unbound variables take any value.
  refine ⟨fun x => (binding x).getD default, fun x v found => ?_⟩
  simp [found]

variable {binding : Binding Var V}

theorem Binding.below_bind [DecidableEq Var] {x : Var} {v : V}
    (unbound : binding x = none) (θ : Var → V) :
    (binding.bind x v).Below θ ↔ binding.Below θ ∧ θ x = v := by
  constructor
  · intro below
    refine ⟨fun y w found => below y w ?_, below x v (update_self ..)⟩
    have other : y ≠ x := fun same => by simp [same, unbound] at found
    rw [Binding.bind, update_of_ne other]
    exact found
  · rintro ⟨below, same⟩ y w found
    by_cases other : y = x
    · subst other
      rw [Binding.bind, update_self] at found
      exact same.trans (some.inj found)
    · rw [Binding.bind, update_of_ne other] at found
      exact below y w found

theorem Binding.apply_of_covers {θ : Var → V} (below : binding.Below θ)
    {term : Term Var V} (covers : binding.Covers term.vars) :
    binding.apply term = term.value θ := by
  cases term with
  | var name =>
    obtain ⟨v, found⟩ := covers name (mem_singleton_self name)
    rw [Binding.apply, found, Term.value, below name v found]
  | const value => rfl
  | wildcard => rfl

theorem Binding.Covers.mono {binding : Binding Var V} {vars vars' : List Var}
    (covers : binding.Covers vars') (sub : vars ⊆ vars') : binding.Covers vars :=
  fun x mem => covers x (sub mem)

/-- What a match returns extends the binding, has values for the terms, and they fit. -/
structure Extends (terms : List (Term Var V)) (values : List V)
    (binding extended : Binding Var V) : Prop where
  grows : ∀ x v, binding x = some v → extended x = some v
  covers : extended.Covers (terms.flatMap Term.vars)
  fits : ∀ θ, extended.Below θ → List.Forall₂ (Term.Fits θ) terms values
  same : binding.Covers (terms.flatMap Term.vars) → extended = binding

theorem Extends.cons {term : Term Var V} {terms : List (Term Var V)} {value : V} {values : List V}
    {extended : Binding Var V} (rest : Extends terms values binding extended)
    (covers : extended.Covers term.vars) (fits : ∀ θ, extended.Below θ → term.Fits θ value) :
    Extends (term :: terms) (value :: values) binding extended where
  grows := rest.grows
  covers := by
    intro x mem
    rw [flatMap_cons, mem_append] at mem
    exact mem.elim (covers x) (rest.covers x)
  fits := fun θ below => .cons (fits θ below) (rest.fits θ below)
  same := fun all => rest.same (all.mono (subset_append_right _ _))

theorem Extends.below {terms : List (Term Var V)} {values : List V}
    {binding extended : Binding Var V} (ext : Extends terms values binding extended)
    {θ : Var → V} (below : extended.Below θ) : binding.Below θ :=
  fun x v found => below x v (ext.grows x v found)

variable {binding : Binding Var V} {terms : List (Term Var V)} {bindings : List (Binding Var V)}
  {tuple : List V} {rule : Rule Rel Var V}

section

variable [DecidableEq Var] [DecidableEq V]

theorem matchValues_below (terms : List (Term Var V)) :
    ∀ {values : List V} {binding : Binding Var V} {θ : Var → V},
      terms.length = values.length → binding.Below θ →
      List.Forall₂ (Term.Fits θ) terms values →
      ∃ extended, matchValues terms values binding = some extended ∧ extended.Below θ := by
  induction terms with
  | nil =>
    intro values binding θ same below fits
    cases fits
    exact ⟨binding, rfl, below⟩
  | cons term terms ih =>
    intro values binding θ same below fits
    cases fits with
    | @cons _ value _ values fit fits =>
      have rest : terms.length = values.length := by simpa using same
      cases term with
      | var name =>
        cases found : binding name with
        | some boundVal =>
          have agree : boundVal = value := (below name boundVal found).symm.trans fit
          simp only [matchValues, found, agree, if_true]
          exact ih rest below fits
        | none =>
          simp only [matchValues, found]
          exact ih rest ((Binding.below_bind found θ).mpr ⟨below, fit⟩) fits
      | const constVal =>
        have agree : constVal = value := fit
        simp only [matchValues, agree, if_true]
        exact ih rest below fits
      | wildcard =>
        simp only [matchValues]
        exact ih rest below fits

theorem matchValues_extends (terms : List (Term Var V)) :
    ∀ {values : List V} {binding extended : Binding Var V}, terms.length = values.length →
      matchValues terms values binding = some extended →
      Extends terms values binding extended := by
  induction terms with
  | nil =>
    intro values binding extended same found
    obtain rfl : values = [] := length_eq_zero_iff.mp same.symm
    obtain rfl : binding = extended := some.inj found
    exact ⟨fun _ _ found => found, fun _ mem => (nomatch mem), fun _ _ => .nil,
      fun _ => rfl⟩
  | cons term terms ih =>
    intro values binding extended same found
    cases values with
    | nil => exact absurd same (Nat.succ_ne_zero _)
    | cons value values =>
      have rest : terms.length = values.length := by simpa using same
      cases term with
      | var name =>
        cases old : binding name with
        | some boundVal =>
          simp only [matchValues, old] at found
          split_ifs at found with agree
          have step := ih rest found
          have kept : extended name = some value := agree ▸ step.grows name boundVal old
          refine step.cons (fun x mem => ?_) fun θ below => below name value kept
          obtain rfl := mem_singleton.mp mem
          exact ⟨value, kept⟩
        | none =>
          simp only [matchValues, old] at found
          have step := ih rest found
          have kept : extended name = some value := step.grows name value (update_self ..)
          refine ⟨fun x v found => step.grows x v ?_, fun x mem => ?_, fun θ below =>
            .cons (below name value kept) (step.fits θ below), fun all => ?_⟩
          · have other : x ≠ name := fun eq => by simp [eq, old] at found
            rw [Binding.bind, update_of_ne other]
            exact found
          · rw [flatMap_cons, mem_append] at mem
            refine mem.elim (fun here => ?_) (step.covers x)
            obtain rfl := mem_singleton.mp here
            exact ⟨value, kept⟩
          · -- A covered variable is bound.
            obtain ⟨v, bound⟩ := all name (by simp [Term.vars])
            exact absurd (old.symm.trans bound) (by simp)
      | const constVal =>
        simp only [matchValues] at found
        split_ifs at found with agree
        exact (ih rest found).cons (fun _ mem => nomatch mem) fun _ _ => agree
      | wildcard =>
        simp only [matchValues] at found
        exact (ih rest found).cons (fun _ mem => nomatch mem) fun _ _ => trivial

theorem matchTuple_extends {extended : Binding Var V}
    (found : matchTuple terms tuple binding = some extended) :
    Extends terms tuple binding extended := by
  rw [matchTuple] at found
  split_ifs at found with same
  exact matchValues_extends terms same found

theorem matchTuple_below {θ : Var → V} (below : binding.Below θ)
    (fits : List.Forall₂ (Term.Fits θ) terms tuple) :
    ∃ extended, matchTuple terms tuple binding = some extended ∧ extended.Below θ := by
  rw [matchTuple, if_pos fits.length_eq]
  exact matchValues_below terms fits.length_eq below fits

end

namespace Relations

theorem forall₂_left {α β : Type*} {R : α → β → Prop} {l : List α} {m : List β}
    (all : List.Forall₂ R l m) {a : α} (mem : a ∈ l) : ∃ b ∈ m, R a b := by
  induction all with
  | nil => cases mem
  | cons head _ ih =>
    rcases mem_cons.mp mem with rfl | mem
    · exact ⟨_, mem_cons_self, head⟩
    · obtain ⟨b, there, related⟩ := ih mem
      exact ⟨b, mem_cons_of_mem _ there, related⟩

theorem forall₂_right {α β : Type*} {R : α → β → Prop} {l : List α} {m : List β}
    (all : List.Forall₂ R l m) {b : β} (mem : b ∈ m) : ∃ a ∈ l, R a b :=
  forall₂_left all.flip mem

theorem forall₂_filterMap {α β : Type*} {f : α → Option β} {l : List α} {m : List β}
    (same : List.Forall₂ (fun a b => f a = some b) l m) : l.filterMap f = m := by
  induction same with
  | nil => rfl
  | cons head _ ih => rw [filterMap_cons, head, ih]

theorem filterMap_forall₂ {α β : Type*} {f : α → Option β} {l : List α}
    (all : (l.filterMap f).length = l.length) :
    List.Forall₂ (fun a b => f a = some b) l (l.filterMap f) := by
  induction l with
  | nil => exact .nil
  | cons a rest ih =>
    cases found : f a with
    | none =>
      rw [filterMap_cons, found, length_cons] at all
      exact absurd (all ▸ length_filterMap_le f rest) (Nat.not_succ_le_self _)
    | some b =>
      rw [filterMap_cons, found] at all ⊢
      exact .cons found (ih (Nat.succ.inj all))

theorem filterMap_complete {α β : Type*} {f : α → Option β} {l : List α} {m : List β} :
    l.filterMap f = m ∧ (l.filterMap f).length = l.length ↔
      List.Forall₂ (fun a b => f a = some b) l m := by
  constructor
  · rintro ⟨rfl, all⟩
    exact filterMap_forall₂ all
  · intro same
    have eq := forall₂_filterMap same
    exact ⟨eq, eq ▸ same.length_eq.symm⟩

theorem headTuple_eq_some {head : Head Rel Var V} : headTuple head binding = some tuple ↔
      List.Forall₂ (fun term value => binding.apply term = some value) head.terms tuple := by
  rw [headTuple, ← filterMap_complete]
  split_ifs with all
  · simp [all]
  · simp [all]

theorem mem_evaluateFact (ground : rule.head.terms.flatMap Term.vars ⊆ []) (θ : Var → V)
    (tuple : List V) :
    tuple ∈ evaluateFact rule ↔
      List.Forall₂ (fun term value => term.value θ = some value) rule.head.terms tuple := by
  have same : ∀ terms : List (Term Var V), terms.flatMap Term.vars ⊆ [] →
      terms.filterMap Term.asConst = terms.filterMap (Term.value θ) := by
    intro terms ground
    refine filterMap_congr fun term mem => ?_
    cases term with
    | var name =>
      exact absurd (ground (mem_flatMap.mpr ⟨_, mem, mem_singleton_self name⟩))
        not_mem_nil
    | const value => rfl
    | wildcard => rfl
  rw [evaluateFact, same _ ground, ← filterMap_complete]
  split_ifs with all
  · simp [all, eq_comm]
  · simp [all]

/-- Every relation of an atom was created. -/
def Created (schema : Rel → Option (List V → Bool)) (atom : Atom Rel Var V) : Prop :=
  ∀ q, atom.positiveRelation = some q ∨ atom.negatedRelation = some q → (schema q).isSome

theorem created_iff {schema : Rel → Option (List V → Bool)} {atom : Atom Rel Var V} :
    Created schema atom ↔ (∀ q ∈ atom.positiveRelation, (schema q).isSome) ∧
      ∀ q ∈ atom.negatedRelation, (schema q).isSome :=
  ⟨fun created => ⟨fun q named => created q (.inl named), fun q named => created q (.inr named)⟩,
    fun both q named => named.elim (both.1 q) (both.2 q)⟩

variable [LinearOrder V] {relations : Relations Rel V}

def interp (relations : Relations Rel V) : Interp Rel (List V) :=
  fun rel => { tuple | tuple ∈ relations.tuples rel }

/-- Bindings stand for the assignments that one of them agrees with. -/
def Represent (bindings : List (Binding Var V)) (θ : Var → V) : Prop :=
  ∃ binding ∈ bindings, binding.Below θ

/-- What matching leaves: all bindings have values, and stand for the assignments that satisfy. -/
structure Narrows (bindings bindings' : List (Binding Var V)) (vars : List Var)
    (holds : (Var → V) → Prop) : Prop where
  covers : ∀ binding ∈ bindings', binding.Covers vars
  represents : ∀ θ, Represent bindings' θ ↔ Represent bindings θ ∧ holds θ

variable {bound : List Var}

theorem matchComparison_spec {left right : Term Var V} {op : ComparisonOp}
    (covers : ∀ binding ∈ bindings, binding.Covers bound) (safe : left.vars ++ right.vars ⊆ bound) :
    Narrows bindings (matchComparison left op right bindings) bound
      fun θ => ∃ l r, left.value θ = some l ∧ right.value θ = some r ∧ op.satisfied l r where
  covers := fun binding mem => covers binding (mem_of_mem_filter mem)
  represents := by
    intro θ
    have same : ∀ binding ∈ bindings, binding.Below θ →
        binding.apply left = left.value θ ∧ binding.apply right = right.value θ := by
      intro binding mem below
      have all := (covers binding mem).mono safe
      exact ⟨Binding.apply_of_covers below (all.mono (subset_append_left _ _)),
        Binding.apply_of_covers below (all.mono (subset_append_right _ _))⟩
    constructor
    · rintro ⟨binding, mem, below⟩
      obtain ⟨earlier, satisfied⟩ := mem_filter.mp mem
      obtain ⟨sameLeft, sameRight⟩ := same binding earlier below
      rw [sameLeft, sameRight] at satisfied
      refine ⟨⟨binding, earlier, below⟩, ?_⟩
      cases first : left.value θ with
      | none => simp [first] at satisfied
      | some l =>
        cases second : right.value θ with
        | none => simp [first, second] at satisfied
        | some r => exact ⟨l, r, rfl, rfl, by simpa [first, second] using satisfied⟩
    · rintro ⟨⟨binding, earlier, below⟩, l, r, first, second, satisfied⟩
      obtain ⟨sameLeft, sameRight⟩ := same binding earlier below
      refine ⟨binding, mem_filter.mpr ⟨earlier, ?_⟩, below⟩
      rw [sameLeft, sameRight, first, second]
      exact satisfied

variable [DecidableEq Var]

theorem matchPositive_spec {rel : Rel} (covers : ∀ binding ∈ bindings, binding.Covers bound) :
    Narrows bindings
      (bindings.flatMap fun binding =>
        (relations.tuples rel).filterMap fun tuple => matchTuple terms tuple binding)
      (bound ++ terms.flatMap Term.vars)
      fun θ => ∃ tuple ∈ relations.interp rel, List.Forall₂ (Term.Fits θ) terms tuple where
  covers := by
    intro extended mem
    obtain ⟨binding, old, mem⟩ := mem_flatMap.mp mem
    obtain ⟨tuple, stored, found⟩ := mem_filterMap.mp mem
    have ext := matchTuple_extends found
    intro x used
    rcases mem_append.mp used with earlier | here
    · obtain ⟨v, found⟩ := covers binding old x earlier
      exact ⟨v, ext.grows x v found⟩
    · exact ext.covers x here
  represents := by
    intro θ
    constructor
    · rintro ⟨extended, mem, below⟩
      obtain ⟨binding, old, mem⟩ := mem_flatMap.mp mem
      obtain ⟨tuple, stored, found⟩ := mem_filterMap.mp mem
      have ext := matchTuple_extends found
      exact ⟨⟨binding, old, ext.below below⟩, tuple, stored, ext.fits θ below⟩
    · rintro ⟨⟨binding, old, below⟩, tuple, stored, fits⟩
      obtain ⟨extended, found, below⟩ := matchTuple_below below fits
      exact ⟨extended, mem_flatMap.mpr ⟨binding, old,
        mem_filterMap.mpr ⟨tuple, stored, found⟩⟩, below⟩

theorem matchNegated_spec {rel : Rel}
    (covers : ∀ binding ∈ bindings, binding.Covers bound) (safe : terms.flatMap Term.vars ⊆ bound) :
    Narrows bindings
      (bindings.flatMap fun binding =>
        if ((relations.tuples rel).filterMap fun tuple => matchTuple terms tuple binding).isEmpty
        then [binding] else [])
      bound
      fun θ => ∀ tuple ∈ relations.interp rel, ¬List.Forall₂ (Term.Fits θ) terms tuple where
  covers := by
    intro binding mem
    obtain ⟨old, earlier, mem⟩ := mem_flatMap.mp mem
    split_ifs at mem with unmatched
    · obtain rfl := mem_singleton.mp mem
      exact covers binding earlier
    · cases mem
  represents := by
    intro θ
    constructor
    · rintro ⟨binding, mem, below⟩
      obtain ⟨old, earlier, mem⟩ := mem_flatMap.mp mem
      split_ifs at mem with unmatched
      · obtain rfl := mem_singleton.mp mem
        refine ⟨⟨binding, earlier, below⟩, fun tuple stored fits => ?_⟩
        obtain ⟨extended, found, -⟩ := matchTuple_below below fits
        have kept : extended ∈ (relations.tuples rel).filterMap fun tuple =>
            matchTuple terms tuple binding := mem_filterMap.mpr ⟨tuple, stored, found⟩
        rw [isEmpty_iff.mp unmatched] at kept
        cases kept
      · cases mem
    · rintro ⟨⟨binding, earlier, below⟩, unmatched⟩
      refine ⟨binding, mem_flatMap.mpr ⟨binding, earlier, ?_⟩, below⟩
      have empty : ((relations.tuples rel).filterMap fun tuple =>
          matchTuple terms tuple binding) = [] := by
        refine eq_nil_iff_forall_not_mem.mpr fun extended mem => ?_
        -- All variables have values already, so that a match adds nothing.
        obtain ⟨tuple, stored, found⟩ := mem_filterMap.mp mem
        have ext := matchTuple_extends found
        have same := ext.same ((covers binding earlier).mono safe)
        exact unmatched tuple stored (ext.fits θ (same ▸ below))
      rw [empty]
      exact mem_singleton_self binding

theorem matchAtom_spec (created : Created relations.schema atom)
    (covers : ∀ binding ∈ bindings, binding.Covers bound) (safe : atom.vars ⊆ bound ++ atom.binds) :
    ∃ bindings', relations.matchAtom atom bindings = .ok bindings' ∧
      Narrows bindings bindings' (bound ++ atom.binds)
        (atom.Holds relations.interp relations.interp) := by
  cases atom with
  | positive rel terms =>
    obtain ⟨accepts, found⟩ := isSome_iff_exists.mp (created rel (.inl rfl))
    refine ⟨_, ?_, matchPositive_spec covers⟩
    simp [matchAtom, matchRelationAtom, found]
  | negated rel terms =>
    obtain ⟨accepts, found⟩ := isSome_iff_exists.mp (created rel (.inr rfl))
    have nothing : bound ++ (Atom.negated rel terms).binds = bound := append_nil _
    rw [nothing] at safe ⊢
    refine ⟨_, ?_, matchNegated_spec covers safe⟩
    simp [matchAtom, matchRelationAtom, found]
  | comparison left op right =>
    have nothing : bound ++ (Atom.comparison left op right : Atom Rel Var V).binds = bound :=
      append_nil _
    rw [nothing] at safe ⊢
    exact ⟨_, rfl, matchComparison_spec covers safe⟩

variable (relations) in
theorem matchBody_spec (body : List (Atom Rel Var V)) :
    ∀ (bindings : List (Binding Var V)) (bound : List Var),
      (∀ atom ∈ body, Created relations.schema atom) →
      (∀ binding ∈ bindings, binding.Covers bound) → SafeAfter bound body →
      ∃ bindings', relations.matchBody body bindings = .ok bindings' ∧
        Narrows bindings bindings' (bound ++ body.flatMap Atom.binds)
          fun θ => ∀ atom ∈ body, atom.Holds relations.interp relations.interp θ := by
  induction body with
  | nil =>
    intro bindings bound _ covers _
    refine ⟨bindings, rfl, ⟨fun binding mem => ?_, fun θ => ?_⟩⟩
    · simpa using covers binding mem
    · simp
  | cons atom rest ih =>
    intro bindings bound created covers safe
    obtain ⟨first, done, narrows⟩ := matchAtom_spec (created atom mem_cons_self) covers safe.1
    obtain ⟨last, rest_done, rest_narrows⟩ :=
      ih _ _ (fun atom mem => created atom (mem_cons_of_mem _ mem)) narrows.covers safe.2
    have all : ∀ θ, Represent last θ ↔ Represent bindings θ ∧
        ∀ a ∈ atom :: rest, a.Holds relations.interp relations.interp θ := by
      intro θ
      rw [rest_narrows.represents, narrows.represents, and_assoc, forall_mem_cons]
    rw [matchBody, done]
    by_cases empty : first.isEmpty
    · -- Nothing is left to match, and the rest could only remove bindings.
      refine ⟨[], if_pos empty, ⟨fun _ mem => (nomatch mem), fun θ => ?_⟩⟩
      rw [← all, rest_narrows.represents, isEmpty_iff.mp empty]
      simp [Represent]
    · refine ⟨last, (if_neg empty).trans rest_done, ⟨?_, all⟩⟩
      simpa [append_assoc] using rest_narrows.covers

variable [DecidableEq Rel] [Inhabited V] {program : Program Rel Var V} {order : HashOrder program}

variable (order) in
theorem evaluateRule_spec (safe : rule.Safe)
    (created : ∀ atom ∈ rule.body, Created relations.schema atom) :
    ∃ derived, relations.evaluateRule order rule = .ok derived ∧
      ∀ tuple, tuple ∈ derived ↔ rule.Fires relations.interp relations.interp tuple := by
  rw [evaluateRule]
  by_cases empty : rule.body.isEmpty
  · rw [if_pos empty]
    refine ⟨_, rfl, fun tuple => ?_⟩
    have noBody : rule.body = [] := isEmpty_iff.mp empty
    have ground : rule.head.terms.flatMap Term.vars ⊆ [] := by
      simpa [noBody] using safe.head
    -- Without variables every assignment derives the same.
    constructor
    · intro mem
      exact ⟨fun _ => default, by simp [noBody], (mem_evaluateFact ground _ _).mp mem⟩
    · rintro ⟨θ, -, derived⟩
      exact (mem_evaluateFact ground θ tuple).mpr derived
  · rw [if_neg empty]
    obtain ⟨bindings, done, narrows⟩ := matchBody_spec relations rule.body
      [fun _ => none] [] created
      (fun _ _ _ mem => nomatch mem) safe.body
    rw [done]
    refine ⟨_, rfl, fun tuple => ?_⟩
    rw [order.mem_drain, mem_filterMap]
    have all : ∀ θ : Var → V, Represent [fun _ => none] θ := fun θ =>
      ⟨_, mem_singleton_self _, Binding.below_empty θ⟩
    have same : ∀ binding ∈ bindings, ∀ θ, binding.Below θ →
        (List.Forall₂ (fun term value => binding.apply term = some value)
            rule.head.terms tuple ↔
          List.Forall₂ (fun term value => term.value θ = some value) rule.head.terms tuple) := by
      intro binding mem θ below
      have covers := (narrows.covers binding mem).mono safe.head
      have termwise : ∀ term ∈ rule.head.terms, binding.apply term = term.value θ :=
        fun term used => Binding.apply_of_covers below
          (covers.mono fun x mem => mem_flatMap.mpr ⟨term, used, mem⟩)
      rw [← filterMap_complete, ← filterMap_complete, filterMap_congr termwise]
    constructor
    · rintro ⟨binding, mem, derived⟩
      obtain ⟨θ, below⟩ := binding.exists_below
      have holds := ((narrows.represents θ).mp ⟨binding, mem, below⟩).2
      exact ⟨θ, holds, (same binding mem θ below).mp (headTuple_eq_some.mp derived)⟩
    · rintro ⟨θ, holds, derived⟩
      obtain ⟨binding, mem, below⟩ := (narrows.represents θ).mpr ⟨all θ, holds⟩
      exact ⟨binding, mem, headTuple_eq_some.mpr ((same binding mem θ below).mpr derived)⟩

end Relations

end Nixie.Datalog
