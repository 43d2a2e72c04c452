import Mathlib.Data.Real.Basic
import Nixie.Solver.EqualityGraph

/-! Satisfiability of the skeleton with transitivity clauses, and models over sized domains. -/

namespace Nixie.EqualityGraph

/-- An equality atom between two variables. -/
structure EqAtom where
  lhs : Nat
  lhsSort : SortKind
  rhs : Nat
  rhsSort : SortKind
  deriving DecidableEq

def EqAtom.term (atom : EqAtom) : Term :=
  .eq (.var atom.lhs atom.lhsSort) (.var atom.rhs atom.rhsSort)

def EqAtom.key (atom : EqAtom) : Nat × Nat := canonical atom.lhs atom.rhs

theorem EqAtom.term_injective : Function.Injective EqAtom.term := by
  intro left right same
  rcases left with ⟨a, s, b, s'⟩
  rcases right with ⟨c, r, d, r'⟩
  simp only [EqAtom.term, Term.eq.injEq, Term.var.injEq] at same
  simp [same]

def eqAtom : Term → Term → Option EqAtom
  | .var a sort, .var b sort' => some ⟨a, sort, b, sort'⟩
  | _, _ => none

mutual

def eqAtoms : Term → List EqAtom
  | .not arg => eqAtoms arg
  | .and args => allEqAtoms args
  | .or args => allEqAtoms args
  | .eq lhs rhs => (eqAtom lhs rhs).toList
  | _ => []

def allEqAtoms : List Term → List EqAtom
  | [] => []
  | term :: rest => eqAtoms term ++ allEqAtoms rest

end

theorem mem_allEqAtoms {terms : List Term} {term : Term} {atom : EqAtom}
    (listed : term ∈ terms) (lies : atom ∈ eqAtoms term) : atom ∈ allEqAtoms terms := by
  induction terms with
  | nil => cases listed
  | cons head rest ih =>
    rcases List.mem_cons.mp listed with rfl | later
    · exact List.mem_append_left _ lies
    · exact List.mem_append_right _ (ih later)

mutual

/-- Truth of the Boolean skeleton when each equality atom has a given truth. -/
def Holds (truth : EqAtom → Prop) : Term → Prop
  -- Terms outside the fragment never reach the evaluation.
  | .tru => True
  | .fls => False
  | .not arg => ¬ Holds truth arg
  | .and args => AllHold truth args
  | .or args => SomeHolds truth args
  | .eq lhs rhs => ∃ atom ∈ eqAtom lhs rhs, truth atom
  | _ => False

def AllHold (truth : EqAtom → Prop) : List Term → Prop
  | [] => True
  | term :: rest => Holds truth term ∧ AllHold truth rest

def SomeHolds (truth : EqAtom → Prop) : List Term → Prop
  | [] => False
  | term :: rest => Holds truth term ∨ SomeHolds truth rest

end

mutual

theorem holds_congr {truth truth' : EqAtom → Prop} :
    ∀ term, (∀ atom ∈ eqAtoms term, (truth atom ↔ truth' atom)) →
      (Holds truth term ↔ Holds truth' term)
  | .not arg, agree => not_congr (holds_congr arg agree)
  | .and args, agree => (lists_congr args agree).1
  | .or args, agree => (lists_congr args agree).2
  | .eq lhs rhs, agree => by
      simp only [Holds]
      constructor
      · rintro ⟨atom, mem, holds⟩
        exact ⟨atom, mem, (agree atom (by simpa [eqAtoms] using mem)).mp holds⟩
      · rintro ⟨atom, mem, holds⟩
        exact ⟨atom, mem, (agree atom (by simpa [eqAtoms] using mem)).mpr holds⟩
  | .tru, _ | .fls, _ | .var _ _, _ | .intConst _, _ | .xor _ _, _ | .implies _ _, _
  | .ite _ _ _, _ | .distinct _, _ | .le _ _, _ | .lt _ _, _ | .ge _ _, _ | .gt _ _, _
  | .add _, _ | .mul _, _ | .sub _ _, _ | .neg _, _ | .apply _ _ _, _
  | .forallQ _ _, _ | .existsQ _ _, _ => Iff.rfl

theorem lists_congr {truth truth' : EqAtom → Prop} :
    ∀ terms, (∀ atom ∈ allEqAtoms terms, (truth atom ↔ truth' atom)) →
      (AllHold truth terms ↔ AllHold truth' terms) ∧
        (SomeHolds truth terms ↔ SomeHolds truth' terms)
  | [], _ => ⟨Iff.rfl, Iff.rfl⟩
  | term :: rest, agree => by
      have head := holds_congr term fun atom mem => agree atom (by simp [allEqAtoms, mem])
      have tail := lists_congr rest fun atom mem => agree atom (by simp [allEqAtoms, mem])
      exact ⟨and_congr head tail.1, or_congr head tail.2⟩

end

def record (state : State) (edges : EdgeVar) (atom : EqAtom) : EdgeVar :=
  edges.insert atom.key ((state.termToVar atom.term).getD 0)

mutual

theorem collectEqEdges_spec (state : State) :
    ∀ term edges edges', collectEqEdges state term edges = some edges' →
      edges' = (eqAtoms term).foldl (record state) edges ∧
        ∀ atom ∈ eqAtoms term, ∃ var, state.termToVar atom.term = some var
  | .tru, edges, edges', walked => by simp_all [collectEqEdges, eqAtoms]
  | .fls, edges, edges', walked => by simp_all [collectEqEdges, eqAtoms]
  | .not arg, edges, edges', walked => collectEqEdges_spec state arg edges edges' walked
  | .and args, edges, edges', walked => collectAllEdges_spec state args edges edges' walked
  | .or args, edges, edges', walked => collectAllEdges_spec state args edges edges' walked
  | .eq lhs rhs, edges, edges', walked => by
      -- Only an equality between two variables with an encoded atom is recorded.
      simp only [collectEqEdges, recordEq] at walked
      split at walked
      · rename_i a sort b sort'
        split at walked
        · cases walked
        · split at walked
          · cases walked
          · rename_i var found
            cases walked
            have named : state.termToVar (EqAtom.term ⟨a, sort, b, sort'⟩) = some var := found
            simp [eqAtoms, eqAtom, record, named, EqAtom.key]
      · cases walked
  | .var _ _, _, _, walked | .intConst _, _, _, walked | .xor _ _, _, _, walked
  | .implies _ _, _, _, walked | .ite _ _ _, _, _, walked | .distinct _, _, _, walked
  | .le _ _, _, _, walked | .lt _ _, _, _, walked | .ge _ _, _, _, walked
  | .gt _ _, _, _, walked | .add _, _, _, walked | .mul _, _, _, walked
  | .sub _ _, _, _, walked | .neg _, _, _, walked | .apply _ _ _, _, _, walked
  | .forallQ _ _, _, _, walked | .existsQ _ _, _, _, walked => by
      simp [collectEqEdges] at walked

theorem collectAllEdges_spec (state : State) :
    ∀ terms edges edges', collectAllEdges state terms edges = some edges' →
      edges' = (allEqAtoms terms).foldl (record state) edges ∧
        ∀ atom ∈ allEqAtoms terms, ∃ var, state.termToVar atom.term = some var
  | [], edges, edges', walked => by simp_all [collectAllEdges, allEqAtoms]
  | term :: rest, edges, edges', walked => by
      simp only [collectAllEdges] at walked
      split at walked
      · cases walked
      · rename_i middle headWalk
        obtain ⟨head, headVars⟩ := collectEqEdges_spec state term edges middle headWalk
        obtain ⟨tail, tailVars⟩ := collectAllEdges_spec state rest middle edges' walked
        refine ⟨by rw [tail, head, allEqAtoms, List.foldl_append], fun atom mem => ?_⟩
        rcases List.mem_append.mp mem with left | right
        · exact headVars atom left
        · exact tailVars atom right

end

/-- Elements of every sort; uninterpreted sorts take the carrier chosen by the model. -/
def Domain (carrier : Nat → Type) : SortKind → Type
  | .bool => Bool
  | .int => Int
  | .real => ℝ
  | .bitVec width => BitVec width
  | .uninterpreted name => carrier name

/-- The same elements, except that bit-vector sorts have unlimitedly many. -/
def UnlimitedDomain (carrier : Nat → Type) : SortKind → Type
  | .bool => Bool
  | .int => Int
  | .real => ℝ
  | .bitVec _ => Nat
  | .uninterpreted name => carrier name

abbrev Valuation (domain : SortKind → Type) := (id : Nat) → (sort : SortKind) → domain sort

/-- Equality read as identity of the two variables' elements. -/
def Identical {domain : SortKind → Type} (value : Valuation domain) (atom : EqAtom) : Prop :=
  (⟨atom.lhsSort, value atom.lhs atom.lhsSort⟩ : Sigma domain) =
    ⟨atom.rhsSort, value atom.rhs atom.rhsSort⟩

theorem identical_iff {domain : SortKind → Type} {value : Valuation domain} {a b : Nat}
    {sort : SortKind} :
    Identical value ⟨a, sort, b, sort⟩ ↔ value a sort = value b sort := by
  simp [Identical]

/-- Some model over domains of the sorts' sizes satisfies every assertion. -/
def HasModel (assertions : List Term) : Prop :=
  ∃ (carrier : Nat → Type) (value : Valuation (Domain carrier)),
    ∀ term ∈ assertions, Holds (Identical value) term

/-- Some model with unlimited bit-vector sorts satisfies every assertion. -/
def HasUnlimitedModel (assertions : List Term) : Prop :=
  ∃ (carrier : Nat → Type) (value : Valuation (UnlimitedDomain carrier)),
    ∀ term ∈ assertions, Holds (Identical value) term

theorem HasModel.unlimited {assertions : List Term} (model : HasModel assertions) :
    HasUnlimitedModel assertions := by
  -- Bit-vectors are read as their unsigned numbers, which loses no distinction.
  obtain ⟨carrier, value, holds⟩ := model
  let widen : (sort : SortKind) → Domain carrier sort → UnlimitedDomain carrier sort := fun sort =>
    match sort with
    | .bool => id
    | .int => id
    | .real => id
    | .bitVec width => fun bits : BitVec width => bits.toNat
    | .uninterpreted _ => id
  have widen_injective : ∀ sort, Function.Injective (widen sort) := by
    intro sort
    cases sort with
    | bitVec width => exact fun left right same => BitVec.eq_of_toNat_eq same
    | bool => exact fun _ _ same => same
    | int => exact fun _ _ same => same
    | real => exact fun _ _ same => same
    | uninterpreted name => exact fun _ _ same => same
  refine ⟨carrier, fun id sort => widen sort (value id sort), fun term mem => ?_⟩
  refine (holds_congr term fun atom _ => ?_).mp (holds term mem)
  rcases atom with ⟨a, sort, b, sort'⟩
  by_cases sameSort : sort = sort'
  · subst sameSort
    rw [identical_iff, identical_iff]
    exact (widen_injective sort).eq_iff.symm
  · simp [Identical, sameSort]

/-- The SAT core makes the atom's variable true. -/
def AtomTrue (state : State) (assignment : Assignment) (atom : EqAtom) : Prop :=
  ∃ var, state.termToVar atom.term = some var ∧ assignment var = true

/-- The SAT core's value of a Boolean variable of the input. -/
def boolValue (state : State) (assignment : Assignment) (id : Nat) : Bool :=
  (state.termToVar (.var id .bool)).elim false assignment

/-- The assignment satisfies the skeleton and reads Boolean equalities as equivalences. -/
structure SkeletonModel (state : State) (assignment : Assignment) : Prop where
  holds : ∀ term ∈ state.assertions, Holds (AtomTrue state assignment) term
  gates : ∀ atom ∈ allEqAtoms state.assertions, atom.lhsSort = .bool →
    (AtomTrue state assignment atom ↔
      boolValue state assignment atom.lhs = boolValue state assignment atom.rhs)

/-- Terms whose SAT variable carries meaning: the atoms and the Boolean operands. -/
def Visible (state : State) (term : Term) : Prop :=
  ∃ atom ∈ allEqAtoms state.assertions, term = atom.term ∨
    (atom.lhsSort = .bool ∧ (term = .var atom.lhs .bool ∨ term = .var atom.rhs .bool))

/-- What interning and the Boolean encoder guarantee about the SAT core's clauses. -/
structure Encoded (state : State) (base : Cnf) : Prop where
  ordered : ∀ atom ∈ allEqAtoms state.assertions, atom.lhs < atom.rhs
  sorted : ∃ sortOf : Nat → SortKind, ∀ atom ∈ allEqAtoms state.assertions,
    atom.lhsSort = sortOf atom.lhs ∧ atom.rhsSort = sortOf atom.rhs ∧ atom.lhsSort = atom.rhsSort
  bounded : ∀ term var, state.termToVar term = some var → var < state.numVars
  injective : ∀ term term' var, state.termToVar term = some var →
    state.termToVar term' = some var → term = term'
  operands : ∀ atom ∈ allEqAtoms state.assertions, atom.lhsSort = .bool →
    (∃ var, state.termToVar (.var atom.lhs .bool) = some var) ∧
      ∃ var, state.termToVar (.var atom.rhs .bool) = some var
  below : VarsBelow state.numVars base
  faithful : ∀ assignment, (∃ extension, Models extension base ∧
      ∀ term var, Visible state term → state.termToVar term = some var →
        extension var = assignment var) ↔ SkeletonModel state assignment

end Nixie.EqualityGraph
