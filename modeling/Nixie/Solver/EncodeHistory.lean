import Mathlib.Data.List.Induction
import Nixie.Solver.EncodeEmit

/-! Histories of assertions, lemmas, and scopes, and when their clauses mean what they assert. -/

namespace Nixie.Tseitin

open List

section

variable (termId : Term → Nat)

/-- Terms that encoding the leaves reaches without meeting a memo hit. -/
inductive Fresh (s : Solver) (leaves : List (Term × Bool)) : Term → Prop where
  /-- A leaf that the memo does not answer for. -/
  | leaf {leaf : Term × Bool} (member : leaf ∈ leaves) (miss : ¬ Reusable s leaf.1) :
      Fresh s leaves leaf.1
  | child {parent child : Term} (reached : Fresh s leaves parent)
      (member : child ∈ childTerms termId parent) (miss : ¬ Reusable s child) :
      Fresh s leaves child

/-- Every gate occurrence has its directions in the memo, or no memo hit hides the gate. -/
def Unshadowed (s : Solver) (leaves : List (Term × Bool)) : Prop :=
  ∀ leaf ∈ leaves, ∀ occurrence, Occurs termId (leafOccurrence leaf) occurrence →
    isPolarised occurrence.1 = true → MemoCovers s occurrence ∨ Fresh termId s leaves occurrence.1

/-- Every gate occurrence without its directions in the memo was collected in them. -/
def Collected (s : Solver) (leaves : List (Term × Bool)) : Prop :=
  ∀ leaf ∈ leaves, ∀ occurrence, Occurs termId (leafOccurrence leaf) occurrence →
    isPolarised occurrence.1 = true →
      MemoCovers s occurrence ∨ (needed s occurrence.1).Covers occurrence.2

/-- Leaves that the recursive encoder reaches the bottom of. -/
def Shallow (leaves : List (Term × Bool)) : Prop :=
  ∀ leaf ∈ leaves, encodeHeight leaf.1 ≤ encodeDepthLimit + 1

instance (leaves : List (Term × Bool)) : Decidable (Shallow leaves) :=
  inferInstanceAs (Decidable (∀ leaf ∈ leaves, encodeHeight leaf.1 ≤ encodeDepthLimit + 1))

def assertionLeaves (term : Term) : List (Term × Bool) :=
  (assertionClauses term true).flatMap Emission.leaves

/-- The state in which an assertion starts to encode its leaves. -/
def collected (term : Term) (s : Solver) : Solver :=
  { recordAssertion term s with polarities := collectPolarities term .positive s.polarities }

/-- A call whose assertion or lemma is Boolean and small enough for the recursive encoder. -/
def InScope : Call → Prop
  | .assert term => Propositional term ∧ termExceedsEncodeDepth term true = false ∧
      Shallow (assertionLeaves term)
  | .lemma_ term => Propositional term ∧ Shallow [(term, true)]
  | .push => True
  | .pop => True

/-- A call before which no memo hit hides a gate that lacks a direction. -/
def Meets (s : Solver) : Call → Prop
  | .assert term => Unshadowed termId (collected term s) (assertionLeaves term)
  | .lemma_ term => Unshadowed termId s [(term, true)] ∧ Collected termId s [(term, true)]
  | .push => True
  | .pop => True

/-- Every call of the history satisfies a condition on the state before it. -/
def EveryStep (condition : Solver → Call → Prop) (history : List Call) : Prop :=
  ∀ before call after, history = before ++ call :: after → condition (run termId before) call

end

/-- Asserted terms of the open scopes after one more call, innermost scope first. -/
def stepScopes (scopes : List (List Term)) : Call → List (List Term)
  | .assert term => scopes.modifyHead (term :: ·)
  | .lemma_ term => scopes.modifyHead (term :: ·)
  | .push => [] :: scopes
  | .pop => match scopes with
      | _ :: next :: outer => next :: outer
      | scopes => scopes

/-- Asserted terms of each open scope after a history. -/
def scopesOf (history : List Call) : List (List Term) := history.foldl stepScopes [[]]

/-- Assertions and lemmas that are live after a history. -/
def live (history : List Call) : List Term := (scopesOf history).flatten

/-- The atoms' truths extend to a model of the live clauses. -/
def ExtendsToModel (s : Solver) (atoms : Term → Bool) : Prop :=
  s.hasFalseAssertion = false ∧
    ∃ assignment, Realises assignment s atoms ∧ Models assignment s.clauses

variable {termId : Term → Nat}
variable {s t : Solver} {scopes : List (List Term)} {term : Term} {emissions : List Emission}
  {terms : List Term}

/-- The clauses mean exactly the listed terms. -/
structure Faithful (termId : Term → Nat) (s : Solver) (terms : List Term) : Prop where
  sound : Sound termId s
  complete : ∀ atoms, (∀ term ∈ terms, value termId atoms term = true) →
    Models (canonical termId s atoms) s.clauses ∧ s.hasFalseAssertion = false
  established : ∀ atoms assignment, Realises assignment s atoms →
    Models assignment s.clauses → s.hasFalseAssertion = false →
    ∀ term ∈ terms, value termId atoms term = true

theorem Sound.realises (sound : Sound termId s) (atoms : Term → Bool) :
    Realises (canonical termId s atoms) s atoms := by
  intro term var atom named
  rw [sound.canonical_var atoms named, value_atom atom]

theorem Faithful.extends_iff (faithful : Faithful termId s terms) (atoms : Term → Bool) :
    ExtendsToModel s atoms ↔ ∀ term ∈ terms, value termId atoms term = true := by
  constructor
  · intro extends_
    obtain ⟨flag, m, realises, models⟩ := extends_
    exact faithful.established atoms m realises models flag
  · intro holds
    obtain ⟨models, flag⟩ := faithful.complete atoms holds
    exact ⟨flag, canonical termId s atoms, faithful.sound.realises atoms, models⟩

theorem Faithful.sameCore (faithful : Faithful termId s terms)
    (same : SameCore s t) (flag : t.hasFalseAssertion = s.hasFalseAssertion) :
    Faithful termId t terms where
  sound := faithful.sound.sameCore same
  complete := fun atoms holds => by
    rw [same.canonical, same.clauses, flag]
    exact faithful.complete atoms holds
  established := fun atoms m realises models unset => by
    rw [flag] at unset
    rw [same.clauses] at models
    refine faithful.established atoms m (fun term var atom named => ?_) models unset
    exact realises term var atom (same.extends.termToVar named)

theorem Fresh.miss {leaves : List (Term × Bool)}
    (fresh : Fresh termId s leaves term) : ¬ Reusable s term := by
  cases fresh with
  | leaf _ miss => exact miss
  | child _ _ miss => exact miss

theorem Fresh.reusable {base : Solver} (emits : Emits termId base base t emissions)
    (fresh : Fresh termId base (emissions.flatMap Emission.leaves) term) : Reusable t term := by
  -- Leaves are encoded, and new reusable terms have reusable children.
  induction fresh with
  | leaf mem _ =>
    obtain ⟨emission, listed, lies⟩ := mem_flatMap.mp mem
    cases emission with
    | noteFalse => cases lies
    | clause leaves =>
      obtain ⟨lits, encoded, _⟩ := emits.inForce _ listed
      exact reusable_of_encoded encoded _ (mem_map.mpr ⟨_, lies, rfl⟩)
  | child reached mem _ ih => exact emits.closed _ ih reached.miss _ mem

theorem Emits.covered {base : Solver} (emits : Emits termId base base t emissions)
    (unshadowed : Unshadowed termId base (emissions.flatMap Emission.leaves))
    (requested : Collected termId base (emissions.flatMap Emission.leaves)) :
    ∀ leaf ∈ emissions.flatMap Emission.leaves, GatesCovered termId t (leafOccurrence leaf) := by
  intro leaf mem occurrence occurs polarised
  have old : MemoCovers base occurrence → MemoCovers t occurrence := by
    intro covers
    obtain ⟨lit, stored, found, covers⟩ := covers
    obtain ⟨wider, found', covers'⟩ := emits.later.encoded found
    exact ⟨lit, wider, found', covers'.trans covers⟩
  rcases unshadowed leaf mem occurrence occurs polarised with before | fresh
  · exact old before
  · rcases requested leaf mem occurrence occurs polarised with before | asked
    · exact old before
    · -- A reached gate was emitted in the collected directions.
      obtain ⟨lit, stored, found, covers⟩ := fresh.reusable emits
      refine ⟨lit, stored, found, covers.trans ?_⟩
      simp only [needed, emits.polarities]
      exact asked

theorem Emits.holds {base : Solver} (emits : Emits termId base base t emissions)
    (covered : ∀ leaf ∈ emissions.flatMap Emission.leaves,
      GatesCovered termId t (leafOccurrence leaf))
    {atoms : Term → Bool} {m : Assignment} (realises : Realises m t atoms)
    (models : Models m t.clauses) (unset : t.hasFalseAssertion = false) :
    ∀ emission ∈ emissions, emission.Holds termId atoms := by
  intro emission mem
  have inForce := emits.inForce emission mem
  cases emission with
  | noteFalse =>
    have set : t.hasFalseAssertion = true := inForce
    rw [unset] at set
    cases set
  | clause leaves =>
    obtain ⟨lits, encoded, clause⟩ := inForce
    have length : lits.length = leaves.length := by
      rw [← encoded.length_eq, length_map]
    -- The satisfied clause has a leaf whose literal has the leaf's truth.
    obtain ⟨⟨leaf, lit⟩, zipped, truth⟩ := (satisfies_leafClause length).mp (models _ clause)
    have lies := (of_mem_zip zipped).1
    obtain ⟨stored, found, _⟩ :=
      (forall₂_iff_zip.mp (forall₂_map_left_iff.mp encoded)).2 zipped
    have gates := covered leaf (mem_flatMap.mpr ⟨_, mem, lies⟩)
    have agree := emits.sound.agree realises models leaf.1 found gates
    refine ⟨leaf, lies, ?_⟩
    have truth : lit.value m = leaf.2 := truth
    unfold leafHolds
    cases polarity : leaf.2 with
    | true =>
      rw [polarity] at truth agree
      exact agree.1 (by decide) truth
    | false =>
      rw [polarity] at truth agree
      have down := agree.2 (by decide)
      cases holds : value termId atoms leaf.1 with
      | true =>
        rw [down holds] at truth
        cases truth
      | false => rfl

theorem Faithful.emit {base : Solver} (faithful : Faithful termId base terms)
    (emits : Emits termId base base t emissions)
    (covered : ∀ leaf ∈ emissions.flatMap Emission.leaves,
      GatesCovered termId t (leafOccurrence leaf))
    (meaning : ∀ atoms, (∀ emission ∈ emissions, emission.Holds termId atoms) ↔
      value termId atoms term = true) :
    Faithful termId t (term :: terms) where
  sound := emits.sound
  complete := fun atoms holds => by
    obtain ⟨head, tail⟩ := forall_mem_cons.mp holds
    exact emits.models atoms ((meaning atoms).mpr head) (faithful.complete atoms tail)
  established := fun atoms m realises models unset => by
    refine forall_mem_cons.mpr ⟨?_, ?_⟩
    · exact (meaning atoms).mp (emits.holds covered realises models unset)
    · -- The earlier clauses are still there, so the earlier terms hold as before.
      have before : base.hasFalseAssertion = false := by
        cases set : base.hasFalseAssertion with
        | false => rfl
        | true =>
          rw [emits.flag set] at unset
          cases unset
      refine faithful.established atoms m (fun other var atom named => ?_)
        (fun clause mem => models clause (emits.later.clauses clause mem)) before
      exact realises other var atom (emits.later.termToVar named)

theorem newClosed_self (s : Solver) : NewClosed termId s s :=
  fun _ reusable fresh => absurd reusable fresh

theorem collected_spec (handed : ∀ size, HandedDown size s.polarities) :
    Writes s (collected term s) ∧ SameCore s (collected term s) ∧
      (∀ size, HandedDown size (collected term s).polarities) ∧
      Delivered (collected term s).polarities (term, .positive) := by
  have spec := fun bound => collectPolarities_spec (sizeOf term) term (Nat.le_refl _) .positive
    (max (sizeOf term) bound) s.polarities (Nat.le_max_left _ _) (handed _)
  have widens := (spec 0).widens
  refine ⟨?_, ⟨rfl, rfl, rfl, Nat.le_refl _, widens⟩, fun size => ?_, ?_⟩
  · have record : Write s (recordAssertion term s) := .record term
    exact (Relation.ReflTransGen.single record).tail (.collect _ widens)
  · intro other stored small
    exact (spec size).handedDown other stored (by omega)
  · exact (spec 0).delivered _ (mem_singleton.mpr rfl)

theorem collected_requested (wellFormed : Propositional term)
    (handed : ∀ size, HandedDown size s.polarities) :
    Collected termId (collected term s) (assertionLeaves term) := by
  obtain ⟨_, _, handed', delivered⟩ := @collected_spec _ term handed
  intro leaf mem occurrence occurs polarised
  obtain ⟨emission, listed, lies⟩ := mem_flatMap.mp mem
  have above := (@assertionClauses_occurs termId).1 term true emission listed leaf lies
  have root : Ready termId (collected term s).polarities (leafOccurrence (term, true)) :=
    .inl delivered
  rcases root.occurs handed' wellFormed (Relation.ReflTransGen.trans above occurs) with
    direct | ⟨unpolarised, _⟩
  · obtain ⟨stored, found, covers⟩ := direct
    right
    simp only [needed, found, Option.getD_some]
    exact covers
  · rw [polarised] at unpolarised
    cases unpolarised

/-- What one assertion or lemma achieves inside the innermost scope. -/
structure Adds (termId : Term → Nat) (s t : Solver) (terms : List Term) : Prop where
  writes : Writes s t
  faithful : Faithful termId t terms
  handedDown : ∀ size, HandedDown size t.polarities

theorem assertTerm_cases (shallow : termExceedsEncodeDepth term true = false) (s : Solver) :
    (term = .fls ∧ assertTerm termId term s = noteFalse (recordAssertion term s)) ∨
      (term = .tru ∧ assertTerm termId term s = recordAssertion term s) ∨
      assertTerm termId term s = emitAssertionClauses termId term (collected term s) := by
  unfold assertTerm
  simp only [shallow, Bool.false_eq_true, if_false]
  split
  · exact .inl ⟨rfl, rfl⟩
  · exact .inr (.inl ⟨rfl, rfl⟩)
  · exact .inr (.inr rfl)

theorem recordAssertion_sameCore (term : Term) (s : Solver) : SameCore s (recordAssertion term s) :=
  ⟨rfl, rfl, rfl, Nat.le_refl _, .refl _⟩

theorem assertTerm_adds (faithful : Faithful termId s terms)
    (handed : ∀ size, HandedDown size s.polarities) (inScope : InScope (.assert term))
    (meets : Meets termId s (.assert term)) :
    Adds termId s (assertTerm termId term s) (term :: terms) := by
  obtain ⟨wellFormed, notDeep, shallow⟩ := inScope
  have record : Write s (recordAssertion term s) := .record term
  have recorded := faithful.sameCore (recordAssertion_sameCore term s) rfl
  rcases @assertTerm_cases termId _ notDeep s with ⟨false_, path⟩ | ⟨true_, path⟩ | path <;>
    rw [path]
  · -- A false assertion only sets the flag.
    obtain ⟨same, polarities, set⟩ := noteFalse_fields (recordAssertion term s)
    refine ⟨(Relation.ReflTransGen.single record).tail .false_,
      ⟨recorded.sound.sameCore same, fun atoms holds => ?_, fun _ _ _ _ unset => ?_⟩, ?_⟩
    · have head := (forall_mem_cons.mp holds).1
      rw [false_, value] at head
      cases head
    · rw [set] at unset
      cases unset
    · rw [polarities]
      exact handed
  · -- A true assertion is only recorded.
    refine ⟨.single record, ⟨recorded.sound, fun atoms holds => ?_,
      fun atoms m realises models unset => ?_⟩, handed⟩
    · exact recorded.complete atoms (forall_mem_cons.mp holds).2
    · refine forall_mem_cons.mpr ⟨by rw [true_, value], ?_⟩
      exact recorded.established atoms m realises models unset
  · obtain ⟨writes, same, handed', _⟩ := @collected_spec _ term handed
    have base := faithful.sameCore same rfl
    have encodable : ∀ emission ∈ assertionClauses term true, ∀ leaf ∈ emission.leaves,
        Propositional leaf.1 ∧ encodeHeight leaf.1 ≤ encodeDepthLimit + 1 := by
      intro emission listed leaf lies
      have occurs := (@assertionClauses_occurs termId).1 term true emission listed
        leaf lies
      exact ⟨occurs.propositional wellFormed, shallow leaf (mem_flatMap.mpr ⟨_, listed, lies⟩)⟩
    have emits := emitAll_spec encodable base.sound (newClosed_self _)
    refine ⟨writes.trans emits.writes, ?_, ?_⟩
    · refine base.emit emits ?_ fun atoms => (assertionClauses_holds termId atoms).1 term true
      exact emits.covered meets (collected_requested wellFormed handed)
    · rw [show (emitAssertionClauses termId term (collected term s)).polarities = _ from
        emits.polarities]
      exact handed'

theorem assertGroundLemma_eq (term : Term) (s : Solver) :
    assertGroundLemma termId term s = emit termId (.clause [(term, true)]) s := by
  simp [assertGroundLemma, emit, encodeArgs, leafLit]

theorem assertGroundLemma_adds (faithful : Faithful termId s terms)
    (handed : ∀ size, HandedDown size s.polarities) (inScope : InScope (.lemma_ term))
    (meets : Meets termId s (.lemma_ term)) :
    Adds termId s (assertGroundLemma termId term s) (term :: terms) := by
  obtain ⟨wellFormed, shallow⟩ := inScope
  obtain ⟨unshadowed, requested⟩ := meets
  have emits : Emits termId s s (assertGroundLemma termId term s) [.clause [(term, true)]] := by
    rw [assertGroundLemma_eq]
    refine emitClause_spec (fun leaf lies => ?_) faithful.sound (newClosed_self s)
    have within := shallow leaf lies
    rw [mem_singleton.mp lies] at within ⊢
    exact ⟨wellFormed, within⟩
  have leaves : [Emission.clause [(term, true)]].flatMap Emission.leaves = [(term, true)] := rfl
  refine ⟨emits.writes, faithful.emit emits (emits.covered ?_ ?_) fun atoms => ?_, ?_⟩
  · rw [leaves]
    exact unshadowed
  · rw [leaves]
    exact requested
  · simp [Emission.Holds, leafHolds]
  · rw [emits.polarities]
    exact handed

/-- Every open scope's restored state means the terms of the scopes that stay open. -/
inductive Good (termId : Term → Nat) : Solver → List (List Term) → Prop where
  | base {s : Solver} {terms : List Term} (faithful : Faithful termId s terms)
      (bottom : s.contextStack = []) : Good termId s [terms]
  | scope {s : Solver} {terms : List Term} {outer : List (List Term)}
      (faithful : Faithful termId s (terms ++ outer.flatten)) (open_ : s.contextStack ≠ [])
      (inside : InsideScope s) (below : Good termId (pop s) outer) :
      Good termId s (terms :: outer)

theorem Good.faithful (good : Good termId s scopes) : Faithful termId s scopes.flatten := by
  cases good with
  | base faithful _ => simpa using faithful
  | scope faithful _ _ _ => simpa using faithful

theorem Shadows.insideScope (shadows : Shadows s t) (lies : InsideScope s) : InsideScope t := by
  intro context mem
  rw [shadows.contextStack] at mem
  rw [shadows.trail, shadows.clauses]
  exact lies context mem

theorem Good.shadows (good : Good termId s scopes) :
    ∀ {t : Solver}, Shadows s t → Good termId t scopes := by
  induction good with
  | base faithful bottom =>
    intro t shadows
    refine .base (faithful.sameCore shadows.sameCore shadows.hasFalseAssertion) ?_
    rw [shadows.contextStack]
    exact bottom
  | scope faithful open_ lies _ ih =>
    intro t shadows
    refine .scope (faithful.sameCore shadows.sameCore shadows.hasFalseAssertion) ?_
      (shadows.insideScope lies) (ih shadows.pop)
    rw [shadows.contextStack]
    exact open_

theorem Good.adds (good : Good termId s scopes) (adds : Adds termId s t (term :: scopes.flatten)) :
    Good termId t (scopes.modifyHead (term :: ·)) := by
  have stack := adds.writes.journalled.contextStack
  cases good with
  | base _ bottom =>
    refine .base (by simpa using adds.faithful) ?_
    rw [stack]
    exact bottom
  | scope _ open_ lies below =>
    -- Closing the scope takes the new writes back.
    refine .scope (by simpa using adds.faithful) ?_ (lies.writes adds.writes)
      (below.shadows (pop_writes lies open_ adds.writes))
    rw [stack]
    exact open_

theorem Good.push (good : Good termId s scopes) : Good termId (push s) ([] :: scopes) := by
  have same : SameCore s (Tseitin.push s) := ⟨rfl, rfl, rfl, Nat.le_refl _, .refl _⟩
  refine .scope (good.faithful.sameCore same rfl) (by simp [Tseitin.push]) ?_ ?_
  · intro context mem
    simp only [Tseitin.push, List.head?_cons, Option.mem_def, Option.some.injEq] at mem
    subst mem
    exact ⟨Nat.le_refl _, Nat.le_refl _⟩
  · rw [pop_push]
    exact good

theorem Good.pop (good : Good termId s scopes) : Good termId (pop s) (stepScopes scopes .pop) := by
  cases good with
  | base faithful bottom =>
    -- Without an open scope the call does nothing.
    have same : pop s = s := by simp [pop, bottom]
    rw [same]
    exact .base faithful bottom
  | scope _ _ _ below =>
    cases below with
    | base faithful bottom => exact .base faithful bottom
    | scope faithful open_ lies below => exact .scope faithful open_ lies below

theorem pop_polarities (s : Solver) : (pop s).polarities = s.polarities := by
  unfold pop
  split
  · rfl
  · exact (undoTo_rest _ _ _).polarities

theorem Good.step (good : Good termId s scopes)
    (handed : ∀ size, HandedDown size s.polarities) {call : Call} (inScope : InScope call)
    (meets : Meets termId s call) :
    Good termId (step termId call s) (stepScopes scopes call) ∧
      ∀ size, HandedDown size (step termId call s).polarities := by
  cases call with
  | assert term =>
    have adds := assertTerm_adds good.faithful handed inScope meets
    exact ⟨good.adds adds, adds.handedDown⟩
  | lemma_ term =>
    have adds := assertGroundLemma_adds good.faithful handed inScope meets
    exact ⟨good.adds adds, adds.handedDown⟩
  | push => exact ⟨good.push, handed⟩
  | pop =>
    refine ⟨good.pop, ?_⟩
    simp only [Tseitin.step, pop_polarities]
    exact handed

theorem good_new : Good termId Solver.new [[]] := by
  refine .base ⟨⟨?_, ?_, ?_, ?_, ?_, ?_⟩, fun _ _ => ⟨models_nil, rfl⟩,
    fun _ _ _ _ _ _ mem => (not_mem_nil mem).elim⟩ rfl
  · intro _ _ _ found; cases found
  · intro _ _ found; cases found
  · intro _ _ _ found; cases found
  · intro _ _ found; cases found
  · intro _ _ _ found; cases found
  · intro _ mem; cases mem

theorem good_run {history : List Call} (inScope : ∀ call ∈ history, InScope call)
    (meets : EveryStep termId (Meets termId) history) :
    Good termId (run termId history) (scopesOf history) ∧
      ∀ size, HandedDown size (run termId history).polarities := by
  -- Calls are added at the end, each from the state that the earlier ones reach.
  induction history using reverseRecOn with
  | nil => exact ⟨good_new, fun _ _ _ _ found => by cases found⟩
  | append_singleton earlier call ih =>
    obtain ⟨good, handed⟩ := ih (fun other mem => inScope other (by simp [mem]))
      fun before other after same => meets before other (after ++ [call]) (by simp [same])
    have last := good.step handed (inScope call (by simp)) (meets earlier call [] rfl)
    simpa only [run, scopesOf, foldl_append, foldl_cons, foldl_nil] using last

/-- While no memo hit hides a gate direction, the clauses mean exactly what is asserted. -/
theorem history_faithful {history : List Call} (inScope : ∀ call ∈ history, InScope call)
    (meets : EveryStep termId (Meets termId) history) (atoms : Term → Bool) :
    ExtendsToModel (run termId history) atoms ↔
      ∀ term ∈ live history, value termId atoms term = true :=
  (good_run inScope meets).1.faithful.extends_iff atoms

theorem everyStep_append {condition : Solver → Call → Prop} {history : List Call} {call : Call} :
    EveryStep termId condition (history ++ [call]) ↔
      EveryStep termId condition history ∧ condition (run termId history) call := by
  constructor
  · intro every
    exact ⟨fun before other after same => every before other (after ++ [call]) (by simp [same]),
      every history call [] rfl⟩
  · intro both before other after same
    obtain ⟨every, last⟩ := both
    rcases eq_nil_or_concat after with rfl | ⟨front, final, rfl⟩
    · obtain ⟨rfl, rfl⟩ := append_inj' same rfl |>.imp_right (cons.inj · |>.1)
      exact last
    · have longer : history ++ [call] = (before ++ other :: front) ++ [final] := by
        simpa using same
      exact every before other front (append_inj_left' longer rfl)

def boolVar (id : Nat) : Term := .var id .bool

/-- A disjunction with a conjunction among its leaves, between a scope's opening and closing. -/
def scopedHistory : List Call :=
  [.push, .assert (.or [boolVar 0, .and [boolVar 1, boolVar 2]]), .pop]

/-- The condition is met when a gate is encoded for the first time. -/
theorem scopedHistory_faithful :
    ExtendsToModel (run (fun _ => 0) scopedHistory) (fun term => decide (term = boolVar 0)) ↔
      ∀ term ∈ live scopedHistory,
        value (fun _ => 0) (fun term => decide (term = boolVar 0)) term = true := by
  refine history_faithful (fun call member => ?_) ?_ _
  · simp only [scopedHistory, mem_cons, not_mem_nil, or_false] at member
    rcases member with rfl | rfl | rfl
    · trivial
    · exact ⟨by simp [Propositional, AllPropositional, boolVar], by decide, by decide⟩
    · trivial
  · -- Only the assertion has a condition, and its gate is new.
    have opened : EveryStep (fun _ => 0) (Meets fun _ => 0) [.push] :=
      (@everyStep_append _ _ [] _).mpr
        ⟨fun before other after same => by simp at same, trivial⟩
    have asserted := (@everyStep_append _ _ [.push]
      (.assert (.or [boolVar 0, .and [boolVar 1, boolVar 2]]))).mpr ⟨opened, ?_⟩
    · exact (@everyStep_append _ _ _ .pop).mpr ⟨asserted, trivial⟩
    · intro leaf member occurrence occurs polarised
      have atomic : ∀ {id : Nat} {polarity : Polarity},
          Occurs (fun _ => 0) (boolVar id, polarity) occurrence → False := by
        intro id polarity below
        rcases below.cases_head with same | ⟨child, edge, _⟩
        · rw [← same] at polarised
          cases polarised
        · cases edge
      have listed : leaf ∈ [(boolVar 0, true), (.and [boolVar 1, boolVar 2], true)] := member
      simp only [mem_cons, not_mem_nil, or_false] at listed
      rcases listed with rfl | rfl
      · exact (atomic occurs).elim
      · rcases occurs.cases_head with same | ⟨child, edge, below⟩
        · right
          rw [← same]
          exact .leaf member (memoHit_none.mp rfl)
        · have edge : child ∈ [(boolVar 1, .positive), (boolVar 2, .positive)] := edge
          simp only [mem_cons, not_mem_nil, or_false] at edge
          rcases edge with rfl | rfl
          · exact (atomic below).elim
          · exact (atomic below).elim

/-- A conjunction below a negation, first needed in one direction and then in the other. -/
def shadowedHistory : List Call :=
  [.assert (.or [boolVar 0, .not (.and [boolVar 1, boolVar 2])]),
    .assert (.implies (.not (.and [boolVar 1, boolVar 2])) (boolVar 3))]

/-- A memo hit on the negation hides the conjunction, whose second direction is never emitted. -/
theorem shadowedHistory_unfaithful : (∀ call ∈ shadowedHistory, InScope call) ∧
      ¬ ∀ atoms, ExtendsToModel (run (fun _ => 0) shadowedHistory) atoms ↔
        ∀ term ∈ live shadowedHistory, value (fun _ => 0) atoms term = true := by
  refine ⟨?_, fun faithful => ?_⟩
  · intro call member
    simp only [shadowedHistory, mem_cons, not_mem_nil, or_false] at member
    rcases member with rfl | rfl
    · exact ⟨by simp [Propositional, AllPropositional, boolVar], by decide, by decide⟩
    · exact ⟨by simp [Propositional, AllPropositional, boolVar], by decide, by decide⟩
  · -- Only the first variable is true, yet the gate's variable may be true as well.
    have named : (run (fun _ => 0) shadowedHistory).termToVar = fun term =>
        if term = boolVar 3 then some 4
        else if term = boolVar 2 then some 3
        else if term = boolVar 1 then some 2
        else if term = .and [boolVar 1, boolVar 2] then some 1
        else if term = boolVar 0 then some 0
        else none := rfl
    have extends_ : ExtendsToModel (run (fun _ => 0) shadowedHistory)
        (fun term => decide (term = boolVar 0)) := by
      refine ⟨by decide, fun var => decide (var ≤ 1), ?_, by decide⟩
      intro term var atom found
      rw [named] at found
      dsimp only at found
      -- Each named term is an atom with the right value, apart from the gate itself.
      split at found
      · rename_i here
        cases found
        rw [here]
        decide
      split at found
      · rename_i here
        cases found
        rw [here]
        decide
      split at found
      · rename_i here
        cases found
        rw [here]
        decide
      split at found
      · rename_i here
        rw [here] at atom
        cases atom
      split at found
      · rename_i here
        cases found
        rw [here]
        decide
      · cases found
    have wrong := (faithful _).mp extends_
      (.implies (.not (.and [boolVar 1, boolVar 2])) (boolVar 3)) (by decide)
    exact absurd wrong (by decide)

end Nixie.Tseitin
