import Mathlib.Data.List.Zip
import Nixie.Solver.EncodePolarity
import Nixie.Solver.EncodeSpec

/-! What the skeleton clauses of an assertion say, and what emitting them achieves. -/

namespace Nixie.Tseitin

open List

variable {termId : Term → Nat}

/-- The SAT assignment gives every atom's variable the atom's truth. -/
def Realises (assignment : Assignment) (s : Solver) (atoms : Term → Bool) : Prop :=
  ∀ term var, isAtom term = true → s.termToVar term = some var → assignment var = atoms term

/-- The memo holds the directions that an occurrence needs. -/
def MemoCovers (s : Solver) (occurrence : Term × Polarity) : Prop :=
  ∃ lit stored, s.encodedTerms occurrence.1 = some (lit, stored) ∧ stored.Covers occurrence.2

/-- Every conjunction and disjunction that occurs at the root has the directions it needs. -/
def GatesCovered (termId : Term → Nat) (s : Solver) (root : Term × Polarity) : Prop :=
  ∀ occurrence, Occurs termId root occurrence → isPolarised occurrence.1 = true →
    MemoCovers s occurrence

variable {s : Solver}

theorem GatesCovered.below {s : Solver} {parent child : Term × Polarity}
    (covered : GatesCovered termId s parent) (below : child ∈ childOccurrences termId parent) :
    GatesCovered termId s child :=
  fun occurrence occurs => covered occurrence (.head below occurs)

theorem Agree.trans {polarity : Polarity} {a b c : Bool} (left : Agree polarity a b)
    (right : Agree polarity b c) : Agree polarity a c :=
  ⟨fun up holds => right.1 up (left.1 up holds), fun down holds => left.2 down (right.2 down holds)⟩

theorem childPolarities_length (term : Term) (polarity : Polarity) :
    (childPolarities term polarity).length = (childTerms termId term).length := by
  cases term with
  | eq lhs rhs => by_cases boolean : lhs.sort = .bool <;> simp [childPolarities, childTerms, boolean]
  | _ => simp [childPolarities, childTerms]

variable {m : Assignment}

theorem agreeAll_children {atoms : Term → Bool}
    {terms : List Term} {lits : List Lit} (children : ChildLits s terms lits) :
    ∀ {polarities : List Polarity}, polarities.length = terms.length →
      (∀ child ∈ terms.zip polarities, ∀ lit stored, s.encodedTerms child.1 = some (lit, stored) →
        Agree child.2 (lit.value m) (value termId atoms child.1)) →
      AgreeAll polarities (lits.map (Lit.value m)) (terms.map (value termId atoms)) := by
  induction children with
  | nil =>
    intro polarities length _
    rw [length_eq_zero_iff.mp length]
    trivial
  | cons found _ ih =>
    intro polarities length agree
    obtain ⟨stored, found⟩ := found
    cases polarities with
    | nil => simp at length
    | cons polarity rest =>
      refine ⟨agree (_, polarity) (by simp) _ stored found, ih (by simpa using length) ?_⟩
      exact fun child mem => agree child (by simp [mem])

theorem Sound.agree (sound : Sound termId s)
    {atoms : Term → Bool} (realises : Realises m s atoms)
    (models : Models m s.clauses) :
    ∀ (term : Term) {polarity : Polarity} {lit : Lit} {stored : Polarity},
      s.encodedTerms term = some (lit, stored) → GatesCovered termId s (term, polarity) →
      Agree polarity (lit.value m) (value termId atoms term) := by
  -- Children are lower than their term, so the induction is on the height.
  intro term
  induction height : encodeHeight term using Nat.strong_induction_on generalizing term with
  | _ bound ih =>
    intro polarity lit stored found covered
    have below : ∀ child ∈ childOccurrences termId (term, polarity), ∀ lit stored,
        s.encodedTerms child.1 = some (lit, stored) →
        Agree child.2 (lit.value m) (value termId atoms child.1) := by
      intro child mem lit stored found
      have lower := encodeHeight_child (of_mem_zip mem).1
      exact ih _ (height ▸ lower) child.1 rfl found (covered.below mem)
    have wellFormed := sound.wellFormed found
    cases sound.entries found with
    | not inner =>
      rename_i arg innerLit argStored
      rw [Lit.value_negate, value]
      exact (below (arg, polarity.flip) (by simp [childOccurrences, childTerms, childPolarities])
        innerLit argStored inner).not
    | gate notNot named children emitted =>
      rename_i var args
      by_cases atom : isAtom term = true
      · -- An atom's variable carries the atom's truth by assumption.
        rw [value_atom atom, Lit.value_pos, realises term var atom named]
        exact Agree.rfl
      · have gate : isAtom term = false := by simpa using atom
        have covers : isPolarised term = true → stored.Covers polarity := by
          intro polarised
          obtain ⟨lit', stored', found', covers⟩ := covered (term, polarity) .refl polarised
          have found' : s.encodedTerms term = some (lit', stored') := found'
          rw [found, Option.some.injEq] at found'
          cases found'
          exact covers
        -- The clauses bind the variable to the gate, and the gate is bound through its children.
        have own := gateClauses_agree children.length_eq.symm gate notNot covers
          fun clause mem => models clause (emitted clause mem)
        refine own.trans ?_
        rw [value_gate wellFormed gate]
        exact gateFn_agree (agreeAll_children children (childPolarities_length term polarity) below)

/-- The truth that a leaf contributes to its clause. -/
def leafHolds (termId : Term → Nat) (atoms : Term → Bool) (leaf : Term × Bool) : Prop :=
  value termId atoms leaf.1 = leaf.2

def leafOccurrence (leaf : Term × Bool) : Term × Polarity :=
  (leaf.1, if leaf.2 then .positive else .negative)

theorem leafOccurrence_not (arg : Term) (polarity : Bool) :
    leafOccurrence (arg, !polarity) ∈ childOccurrences termId (leafOccurrence (.not arg, polarity)) := by
  cases polarity <;> simp [leafOccurrence, childOccurrences, childTerms, childPolarities, Polarity.flip]

theorem leafOccurrence_implies (lhs rhs : Term) (polarity : Bool) :
    leafOccurrence (lhs, !polarity) ∈
        childOccurrences termId (leafOccurrence (.implies lhs rhs, polarity)) ∧
      leafOccurrence (rhs, polarity) ∈
        childOccurrences termId (leafOccurrence (.implies lhs rhs, polarity)) := by
  cases polarity <;>
    simp [leafOccurrence, childOccurrences, childTerms, childPolarities, Polarity.flip]

def Emission.leaves : Emission → List (Term × Bool)
  | .clause leaves => leaves
  | .noteFalse => []

def Emission.Holds (termId : Term → Nat) (atoms : Term → Bool) : Emission → Prop
  | .clause leaves => ∃ leaf ∈ leaves, leafHolds termId atoms leaf
  | .noteFalse => False

section

variable (termId : Term → Nat) (atoms : Term → Bool)

theorem clauseLeaves_holds : (∀ (term : Term) (polarity : Bool),
      (∃ leaf ∈ clauseLeaves term polarity, leafHolds termId atoms leaf) ↔
        value termId atoms term = polarity) ∧
    (∀ (terms : List Term) (polarity : Bool),
      (∃ leaf ∈ clauseLeavesAll terms polarity, leafHolds termId atoms leaf) ↔
        ∃ term ∈ terms, value termId atoms term = polarity) := by
  -- The cases are those of the walk itself.
  refine clauseLeaves.mutual_induct _ _ ?disjunction ?conjunction ?leaf ?nil ?cons
  case disjunction =>
    intro args ih
    rw [clauseLeaves, ih]
    simp [value, values_eq_map]
  case conjunction =>
    intro args ih
    rw [clauseLeaves, ih]
    simp [value, values_eq_map]
  case leaf =>
    intro term polarity notOr notAnd
    rw [clauseLeaves.eq_3 term polarity notOr notAnd]
    simp [leafHolds]
  case nil => simp [clauseLeavesAll]
  case cons =>
    intro term rest polarity head tail
    simp only [clauseLeavesAll, mem_append, or_and_right, exists_or, head, tail,
      mem_cons, exists_eq_left]

theorem assertionClauses_holds : (∀ (term : Term) (polarity : Bool),
      (∀ emission ∈ assertionClauses term polarity, emission.Holds termId atoms) ↔
        value termId atoms term = polarity) ∧
    (∀ (terms : List Term) (polarity : Bool),
      (∀ emission ∈ assertionClausesAll terms polarity, emission.Holds termId atoms) ↔
        ∀ term ∈ terms, value termId atoms term = polarity) := by
  obtain ⟨leaves, leavesAll⟩ := clauseLeaves_holds termId atoms
  refine assertionClauses.mutual_induct _ _ ?tt ?tf ?ft ?ff ?not ?andTrue ?andFalse ?orTrue
    ?orFalse ?impliesTrue ?impliesFalse ?leaf ?nil ?cons
  case tt => simp [assertionClauses, value]
  case tf => simp [assertionClauses, value, Emission.Holds]
  case ft => simp [assertionClauses, value, Emission.Holds]
  case ff => simp [assertionClauses, value]
  case not =>
    intro arg polarity ih
    rw [assertionClauses, ih, value]
    cases polarity <;> simp
  case andTrue =>
    intro args ih
    rw [assertionClauses, ih]
    simp [value, values_eq_map]
  case andFalse =>
    intro args
    have clause := leavesAll args false
    simpa [assertionClauses, Emission.Holds, value, values_eq_map] using clause
  case orTrue =>
    intro args
    have clause := leavesAll args true
    simpa [assertionClauses, Emission.Holds, value, values_eq_map] using clause
  case orFalse =>
    intro args ih
    rw [assertionClauses, ih]
    simp [value, values_eq_map]
  case impliesTrue =>
    intro lhs rhs
    have left := leaves lhs false
    have right := leaves rhs true
    simp only [assertionClauses, mem_singleton, forall_eq, Emission.Holds, mem_append,
      or_and_right, exists_or, left, right, value]
    cases value termId atoms lhs <;> cases value termId atoms rhs <;> simp
  case impliesFalse =>
    intro lhs rhs right left
    simp only [assertionClauses, mem_append, or_imp, forall_and, right, left, value]
    cases value termId atoms lhs <;> cases value termId atoms rhs <;> simp
  case leaf =>
    intro term polarity _ _ _ _ _ _ _ _ _ _ _
    have plain : assertionClauses term polarity = [.clause [(term, polarity)]] := by
      rw [assertionClauses.eq_12] <;> assumption
    simp [plain, Emission.Holds, leafHolds]
  case nil => simp [assertionClausesAll]
  case cons =>
    intro term rest polarity head tail
    simp only [assertionClausesAll, mem_append, or_imp, forall_and, head, tail, mem_cons, forall_eq]

end

theorem leafOccurrence_arg {args : List Term} {arg : Term} (mem : arg ∈ args)
    (polarity : Bool) :
    leafOccurrence (arg, polarity) ∈ childOccurrences termId (leafOccurrence (.and args, polarity)) ∧
      leafOccurrence (arg, polarity) ∈
        childOccurrences termId (leafOccurrence (.or args, polarity)) := by
  simp only [childOccurrences, leafOccurrence, childTerms, childPolarities, zip_map_self]
  exact ⟨mem_map.mpr ⟨arg, mem, rfl⟩, mem_map.mpr ⟨arg, mem, rfl⟩⟩

theorem clauseLeaves_occurs :
    (∀ (term : Term) (polarity : Bool), ∀ leaf ∈ clauseLeaves term polarity,
      Occurs termId (leafOccurrence (term, polarity)) (leafOccurrence leaf)) ∧
    (∀ (terms : List Term) (polarity : Bool), ∀ leaf ∈ clauseLeavesAll terms polarity,
      ∃ term ∈ terms, Occurs termId (leafOccurrence (term, polarity)) (leafOccurrence leaf)) := by
  refine clauseLeaves.mutual_induct _ _ ?disjunction ?conjunction ?leaf ?nil ?cons
  case disjunction =>
    intro args ih leaf mem
    obtain ⟨arg, lies, occurs⟩ := ih leaf (by simpa [clauseLeaves] using mem)
    exact .head (leafOccurrence_arg lies true).2 occurs
  case conjunction =>
    intro args ih leaf mem
    obtain ⟨arg, lies, occurs⟩ := ih leaf (by simpa [clauseLeaves] using mem)
    exact .head (leafOccurrence_arg lies false).1 occurs
  case leaf =>
    intro term polarity notOr notAnd leaf mem
    rw [clauseLeaves.eq_3 term polarity notOr notAnd] at mem
    rw [mem_singleton.mp mem]
    exact .refl
  case nil =>
    intro polarity leaf mem
    simp [clauseLeavesAll] at mem
  case cons =>
    intro term rest polarity head tail leaf mem
    rw [clauseLeavesAll, mem_append] at mem
    rcases mem with first | later
    · exact ⟨term, by simp, head leaf first⟩
    · obtain ⟨other, lies, occurs⟩ := tail leaf later
      exact ⟨other, by simp [lies], occurs⟩

theorem assertionClauses_occurs :
    (∀ (term : Term) (polarity : Bool), ∀ emission ∈ assertionClauses term polarity,
      ∀ leaf ∈ emission.leaves,
        Occurs termId (leafOccurrence (term, polarity)) (leafOccurrence leaf)) ∧
    (∀ (terms : List Term) (polarity : Bool), ∀ emission ∈ assertionClausesAll terms polarity,
      ∀ leaf ∈ emission.leaves,
        ∃ term ∈ terms, Occurs termId (leafOccurrence (term, polarity)) (leafOccurrence leaf)) := by
  obtain ⟨leaves, leavesAll⟩ := @clauseLeaves_occurs termId
  refine assertionClauses.mutual_induct _ _ ?tt ?tf ?ft ?ff ?not ?andTrue ?andFalse ?orTrue
    ?orFalse ?impliesTrue ?impliesFalse ?leaf ?nil ?cons
  case tt => simp [assertionClauses]
  case tf => simp [assertionClauses, Emission.leaves]
  case ft => simp [assertionClauses, Emission.leaves]
  case ff => simp [assertionClauses]
  case not =>
    intro arg polarity ih emission mem leaf lies
    rw [assertionClauses] at mem
    exact .head (leafOccurrence_not arg polarity) (ih emission mem leaf lies)
  case andTrue =>
    intro args ih emission mem leaf lies
    rw [assertionClauses] at mem
    obtain ⟨arg, listed, occurs⟩ := ih emission mem leaf lies
    exact .head (leafOccurrence_arg listed true).1 occurs
  case andFalse =>
    intro args emission mem leaf lies
    rw [assertionClauses, mem_singleton] at mem
    subst mem
    obtain ⟨arg, listed, occurs⟩ := leavesAll args false leaf lies
    exact .head (leafOccurrence_arg listed false).1 occurs
  case orTrue =>
    intro args emission mem leaf lies
    rw [assertionClauses, mem_singleton] at mem
    subst mem
    obtain ⟨arg, listed, occurs⟩ := leavesAll args true leaf lies
    exact .head (leafOccurrence_arg listed true).2 occurs
  case orFalse =>
    intro args ih emission mem leaf lies
    rw [assertionClauses] at mem
    obtain ⟨arg, listed, occurs⟩ := ih emission mem leaf lies
    exact .head (leafOccurrence_arg listed false).2 occurs
  case impliesTrue =>
    intro lhs rhs emission mem leaf lies
    rw [assertionClauses, mem_singleton] at mem
    subst mem
    rcases mem_append.mp lies with left | right
    · exact .head (leafOccurrence_implies lhs rhs true).1 (leaves lhs false leaf left)
    · exact .head (leafOccurrence_implies lhs rhs true).2 (leaves rhs true leaf right)
  case impliesFalse =>
    intro lhs rhs right left emission mem leaf lies
    rw [assertionClauses, mem_append] at mem
    rcases mem with first | second
    · exact .head (leafOccurrence_implies lhs rhs false).2 (right emission first leaf lies)
    · exact .head (leafOccurrence_implies lhs rhs false).1 (left emission second leaf lies)
  case leaf =>
    intro term polarity _ _ _ _ _ _ _ _ _ _ _ emission mem leaf lies
    have plain : assertionClauses term polarity = [.clause [(term, polarity)]] := by
      rw [assertionClauses.eq_12] <;> assumption
    rw [plain, mem_singleton] at mem
    subst mem
    rw [mem_singleton.mp lies]
    exact .refl
  case nil =>
    intro polarity emission mem
    simp [assertionClausesAll] at mem
  case cons =>
    intro term rest polarity head tail emission mem leaf lies
    rw [assertionClausesAll, mem_append] at mem
    rcases mem with first | later
    · exact ⟨term, by simp, head emission first leaf lies⟩
    · obtain ⟨other, listed, occurs⟩ := tail emission later leaf lies
      exact ⟨other, by simp [listed], occurs⟩

/-- The emission's leaves are encoded and its clause is live, or the false flag is set. -/
def InForce (s : Solver) : Emission → Prop
  | .clause leaves => ∃ lits, List.Forall₂ (Encoded s) (leaves.map Prod.fst) lits ∧
      List.zipWith leafLit lits (leaves.map Prod.snd) ∈ s.clauses
  | .noteFalse => s.hasFalseAssertion = true

/-- What emitting a list of emissions achieves. -/
structure Emits (termId : Term → Nat) (base s t : Solver) (emissions : List Emission) :
    Prop where
  writes : Writes s t
  later : Extends s t
  sound : Sound termId t
  closed : NewClosed termId base t
  polarities : t.polarities = s.polarities
  flag : s.hasFalseAssertion = true → t.hasFalseAssertion = true
  models : ∀ atoms, (∀ emission ∈ emissions, emission.Holds termId atoms) →
    Models (canonical termId s atoms) s.clauses ∧ s.hasFalseAssertion = false →
    Models (canonical termId t atoms) t.clauses ∧ t.hasFalseAssertion = false
  inForce : ∀ emission ∈ emissions, InForce t emission

variable {t : Solver}

theorem InForce.mono (later : Extends s t) (polarities : t.polarities = s.polarities)
    (flag : s.hasFalseAssertion = true → t.hasFalseAssertion = true) {emission : Emission}
    (inForce : InForce s emission) : InForce t emission := by
  cases emission with
  | noteFalse => exact flag inForce
  | clause leaves =>
    obtain ⟨lits, encoded, clause⟩ := inForce
    refine ⟨lits, List.Forall₂.imp (fun _ _ one => ?_) encoded, later.clauses _ clause⟩
    exact one.mono later polarities

theorem Emits.append {base u : Solver} {first second : List Emission}
    (left : Emits termId base s t first) (right : Emits termId base t u second) :
    Emits termId base s u (first ++ second) where
  writes := left.writes.trans right.writes
  later := left.later.trans right.later
  sound := right.sound
  closed := right.closed
  polarities := right.polarities.trans left.polarities
  flag := fun set => right.flag (left.flag set)
  models := fun atoms holds before => by
    refine right.models atoms (fun emission mem => holds emission ?_)
      (left.models atoms (fun emission mem => holds emission ?_) before)
    · exact mem_append_right _ mem
    · exact mem_append_left _ mem
  inForce := fun emission mem => by
    rcases mem_append.mp mem with old | new
    · exact (left.inForce emission old).mono right.later right.polarities right.flag
    · exact right.inForce emission new

theorem leafLit_value {lit : Lit} {polarity : Bool} :
    (leafLit lit polarity).Holds m ↔ lit.value m = polarity := by
  cases polarity <;> simp [leafLit, Lit.holds_iff_value]

theorem satisfies_leafClause {leaves : List (Term × Bool)}
    {lits : List Lit} (length : lits.length = leaves.length) :
    Satisfies m (List.zipWith leafLit lits (leaves.map Prod.snd)) ↔
      ∃ pair ∈ leaves.zip lits, pair.2.value m = pair.1.2 := by
  induction leaves generalizing lits with
  | nil => simp [Satisfies]
  | cons leaf rest ih =>
    cases lits with
    | nil => simp at length
    | cons lit others =>
      have tail := @ih others (by simpa using length)
      simp only [map_cons, zipWith_cons_cons, satisfies_cons, tail, leafLit_value,
        zip_cons_cons, mem_cons, exists_eq_or_imp]

theorem leafClause_vars {lits : List Lit} {polarities : List Bool} {lit : Lit}
    (mem : lit ∈ List.zipWith leafLit lits polarities) : ∃ leaf ∈ lits, lit.var = leaf.var := by
  induction lits generalizing polarities with
  | nil => simp at mem
  | cons head rest ih =>
    cases polarities with
    | nil => simp at mem
    | cons polarity others =>
      rcases mem_cons.mp mem with rfl | later
      · exact ⟨head, by simp, by cases polarity <;> rfl⟩
      · obtain ⟨leaf, lies, same⟩ := ih later
        exact ⟨leaf, by simp [lies], same⟩

theorem exists_partner {α β : Type} {items : List α} {others : List β}
    (length : others.length = items.length) {item : α} (mem : item ∈ items) :
    ∃ other, (item, other) ∈ items.zip others := by
  obtain ⟨index, within, here⟩ := mem_iff_getElem.mp mem
  have bound : index < (items.zip others).length := by
    rw [length_zip]
    omega
  refine ⟨others.get ⟨index, by omega⟩, ?_⟩
  simp only [← here, get_eq_getElem]
  rw [← getElem_zip (h := bound)]
  exact getElem_mem bound

theorem emitClause_spec {base : Solver} {leaves : List (Term × Bool)}
    (encodable : ∀ leaf ∈ leaves, Propositional leaf.1 ∧ encodeHeight leaf.1 ≤ encodeDepthLimit + 1)
    (sound : Sound termId s) (closed : NewClosed termId base s) :
    Emits termId base s (emit termId (.clause leaves) s) [.clause leaves] := by
  have works : ∀ term ∈ leaves.map Prod.fst, Encodes termId base (encode termId) term := by
    intro term mem
    obtain ⟨leaf, lies, rfl⟩ := mem_map.mp mem
    obtain ⟨wellFormed, within⟩ := encodable leaf lies
    exact encodeDepth_spec wellFormed within
  obtain ⟨progress, encoded⟩ := encodeArgs_spec works sound closed
  unfold emit
  dsimp only
  generalize encodeArgs (encode termId) (leaves.map Prod.fst) s = args at progress encoded
  obtain ⟨lits, t⟩ := args
  dsimp only at progress encoded ⊢
  -- The new clause is over the literals of encoded leaves.
  generalize added : zipWith leafLit lits (leaves.map Prod.snd) = clause
  have later : Extends t (addClauses [clause] t) :=
    ⟨id, fun {_ _ stored} found => ⟨stored, found, .refl _⟩,
      fun clause mem => mem_append_left _ mem⟩
  have length : lits.length = leaves.length := by
    rw [← encoded.length_eq, length_map]
  have memoised : ∀ {leaf : Term × Bool} {lit : Lit}, (leaf, lit) ∈ leaves.zip lits →
      ∃ stored, t.encodedTerms leaf.1 = some (lit, stored) := by
    intro leaf lit mem
    obtain ⟨stored, found, _⟩ :=
      (forall₂_iff_zip.mp (forall₂_map_left_iff.mp encoded)).2 mem
    exact ⟨stored, found⟩
  have sound' : Sound termId (addClauses [clause] t) := by
    refine
      { entries := fun found => (progress.sound.entries found).mono later
        wellFormed := progress.sound.wellFormed
        recorded := progress.sound.recorded
        bounded := progress.sound.bounded
        injective := progress.sound.injective
        mapped := fun other mem lit lies => ?_ }
    rcases mem_append.mp mem with old | new
    · exact progress.sound.mapped other old lit lies
    · rw [mem_singleton.mp new, ← added] at lies
      obtain ⟨leafLiteral, listed, same⟩ := leafClause_vars lies
      obtain ⟨leaf, zipped⟩ := exists_partner length.symm listed
      have swapped : (leaf, leafLiteral) ∈ leaves.zip lits := by
        rw [← zip_swap]
        exact mem_map.mpr ⟨_, zipped, rfl⟩
      obtain ⟨stored, found⟩ := memoised swapped
      rw [same]
      exact progress.sound.lit_mapped _ found
  refine
    { writes := progress.writes.trans (.single (.clauses _))
      later := progress.later.trans later
      sound := sound'
      closed := progress.closed
      polarities := progress.polarities
      flag := fun set => by rw [← set]; exact progress.hasFalseAssertion
      models := fun atoms holds before => ⟨?_, ?_⟩
      inForce := fun emission mem => ?_ }
  · refine models_append.mpr ⟨progress.models atoms before.1, models_cons.mpr ⟨?_, models_nil⟩⟩
    -- Some leaf is true, and so is its literal.
    obtain ⟨leaf, lies, truth⟩ := holds _ (mem_singleton.mpr rfl)
    obtain ⟨lit, zipped⟩ := exists_partner length lies
    obtain ⟨stored, found⟩ := memoised zipped
    rw [← added, satisfies_leafClause length]
    exact ⟨(leaf, lit), zipped, (progress.sound.canonical_lit atoms _ found).trans truth⟩
  · exact progress.hasFalseAssertion.trans before.2
  · rw [mem_singleton.mp mem]
    refine ⟨lits, List.Forall₂.imp (fun _ _ one => one.mono later rfl) encoded, ?_⟩
    exact mem_append_right _ (mem_singleton.mpr added)

/-- The second state has the variables, memo and clauses of the first, and wider polarities. -/
structure SameCore (s t : Solver) : Prop where
  termToVar : t.termToVar = s.termToVar
  encodedTerms : t.encodedTerms = s.encodedTerms
  clauses : t.clauses = s.clauses
  numVars : s.numVars ≤ t.numVars
  widens : Widens s.polarities t.polarities

theorem Shadows.sameCore {s t : Solver} (shadows : Shadows s t) : SameCore s t :=
  { shadows with }

theorem SameCore.extends (same : SameCore s t) : Extends s t where
  termToVar := fun named => by rw [same.termToVar]; exact named
  encoded := fun {_ _ stored} found =>
    ⟨stored, by rw [same.encodedTerms]; exact found, .refl stored⟩
  clauses := fun clause mem => by rw [same.clauses]; exact mem

theorem SameCore.canonical (same : SameCore s t) (atoms : Term → Bool) :
    canonical termId t atoms = canonical termId s atoms := by
  unfold Tseitin.canonical
  rw [same.termToVar]

theorem Sound.sameCore (sound : Sound termId s) (same : SameCore s t) : Sound termId t where
  entries := fun {term lit stored} found => by
    rw [same.encodedTerms] at found
    exact (sound.entries found).mono same.extends
  wellFormed := fun {term entry} found => by
    rw [same.encodedTerms] at found
    exact sound.wellFormed found
  recorded := fun {term lit stored} found => by
    rw [same.encodedTerms] at found
    -- The collected polarity may have widened since the entry was stored.
    rcases sound.recorded found with both | ⟨gate, wide, collected, covers⟩
    · exact .inl both
    · obtain ⟨wider, collected', covers'⟩ := same.widens _ _ collected
      exact .inr ⟨gate, wider, collected', covers'.trans covers⟩
  bounded := fun {term var} found => by
    rw [same.termToVar] at found
    exact Nat.lt_of_lt_of_le (sound.bounded found) same.numVars
  injective := fun {term term' var} found found' => by
    rw [same.termToVar] at found found'
    exact sound.injective found found'
  mapped := fun clause mem lit lies => by
    rw [same.clauses] at mem
    rw [same.termToVar]
    exact sound.mapped clause mem lit lies

theorem noteFalse_fields (s : Solver) :
    SameCore s (noteFalse s) ∧ (noteFalse s).polarities = s.polarities ∧
      (noteFalse s).hasFalseAssertion = true := by
  cases set : s.hasFalseAssertion with
  | true =>
    have same : noteFalse s = s := by simp [noteFalse, set]
    rw [same]
    exact ⟨⟨rfl, rfl, rfl, Nat.le_refl _, .refl _⟩, rfl, set⟩
  | false =>
    simp only [noteFalse, set]
    exact ⟨⟨rfl, rfl, rfl, Nat.le_refl _, .refl _⟩, rfl, rfl⟩

theorem emitFalse_spec {base : Solver} (sound : Sound termId s) (closed : NewClosed termId base s) :
    Emits termId base s (emit termId .noteFalse s) [.noteFalse] := by
  obtain ⟨same, polarities, set⟩ := noteFalse_fields s
  have sameReusable : ∀ term, Reusable (noteFalse s) term ↔ Reusable s term := by
    intro term
    simp only [Reusable, needed, same.encodedTerms, polarities]
  refine
    { writes := .single .false_
      later := same.extends
      sound := sound.sameCore same
      closed := fun term reusable fresh child mem => ?_
      polarities := polarities
      flag := fun _ => set
      models := fun atoms holds _ => (holds _ (mem_singleton.mpr rfl)).elim
      inForce := fun emission mem => ?_ }
  · exact (sameReusable child).mpr (closed term ((sameReusable term).mp reusable) fresh child mem)
  · rw [mem_singleton.mp mem]
    exact set

theorem emitAll_spec {base : Solver} : ∀ {emissions : List Emission} {s : Solver},
    (∀ emission ∈ emissions, ∀ leaf ∈ emission.leaves, Propositional leaf.1 ∧
      encodeHeight leaf.1 ≤ encodeDepthLimit + 1) →
    Sound termId s → NewClosed termId base s →
    Emits termId base s (emissions.foldl (fun s emission => emit termId emission s) s)
      emissions := by
  intro emissions
  induction emissions with
  | nil =>
    intro s _ sound closed
    exact ⟨.refl, .refl s, sound, closed, rfl, id, fun _ _ before => before,
      fun _ mem => (not_mem_nil mem).elim⟩
  | cons emission rest ih =>
    intro s encodable sound closed
    have head : Emits termId base s (emit termId emission s) [emission] := by
      cases emission with
      | noteFalse => exact emitFalse_spec sound closed
      | clause leaves =>
        exact emitClause_spec (encodable (.clause leaves) (by simp)) sound closed
    exact head.append (ih (fun other mem => encodable other (by simp [mem]))
      head.sound head.closed)

end Nixie.Tseitin
