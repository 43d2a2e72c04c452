import Mathlib.Logic.Relation
import Nixie.Solver.Encode

/-! Every write of the encoder is journalled, so a scope exit restores what the scope entry saw. -/

namespace Nixie.Tseitin

open List

def Widens (old new : TermMap Polarity) : Prop :=
  -- A stored polarity may be replaced by one that includes it.
  ∀ term stored, old term = some stored → ∃ wider, new term = some wider ∧ wider.Covers stored

theorem Polarity.Covers.refl (polarity : Polarity) : polarity.Covers polarity := .inr rfl

theorem Polarity.Covers.trans {a b c : Polarity} (left : a.Covers b) (right : b.Covers c) :
    a.Covers c := by
  -- A wider polarity is either both or unchanged.
  rcases left with rfl | rfl
  · exact .inl rfl
  · exact right

theorem Widens.refl (map : TermMap Polarity) : Widens map map :=
  fun _ stored found => ⟨stored, found, .refl stored⟩

theorem Widens.trans {first second third : TermMap Polarity} (left : Widens first second)
    (right : Widens second third) : Widens first third := by
  -- Each key's polarity grows along both changes.
  intro term stored found
  obtain ⟨middle, foundMiddle, covers⟩ := left term stored found
  obtain ⟨last, foundLast, covers'⟩ := right term middle foundMiddle
  exact ⟨last, foundLast, covers'.trans covers⟩

inductive Write : Solver → Solver → Prop where
  | newVar {s : Solver} {term : Term} (absent : s.termToVar term = none) :
      Write s (getOrCreateVar term s).2
  | clauses {s : Solver} (clauses : Cnf) : Write s (addClauses clauses s)
  | memo {s : Solver} (term : Term) (lit : Lit) (polarity : Polarity) :
      Write s (memoizeEncoding term lit polarity s)
  | false_ {s : Solver} : Write s (noteFalse s)
  | record {s : Solver} (term : Term) : Write s (recordAssertion term s)
  | collect {s : Solver} (map : TermMap Polarity) (widens : Widens s.polarities map) :
      Write s { s with polarities := map }
  | deep {s : Solver} : Write s { s with encodeDepthExceeded := true }

abbrev Writes : Solver → Solver → Prop := Relation.ReflTransGen Write

/-- The fields that journal entries restore agree. -/
structure SameTerms (s t : Solver) : Prop where
  termToVar : s.termToVar = t.termToVar
  encodedTerms : s.encodedTerms = t.encodedTerms
  assertions : s.assertions = t.assertions

theorem SameTerms.undo {s t : Solver} (same : SameTerms s t) (op : TrailOp) :
    SameTerms (undo op s) (undo op t) := by
  -- Each entry overwrites one field by a function of that field.
  cases op with
  | varCreated var term =>
    exact ⟨by simp [Tseitin.undo, same.termToVar], same.encodedTerms, same.assertions⟩
  | encodedTermAdded term previous =>
    exact ⟨same.termToVar, by simp [Tseitin.undo, same.encodedTerms], same.assertions⟩
  | assertionAdded index =>
    exact ⟨same.termToVar, same.encodedTerms, by simp [Tseitin.undo, same.assertions]⟩
  | falseAssertionSet => exact { same with }

/-- The fields that no journal entry touches agree. -/
structure SameRest (s t : Solver) : Prop where
  polarities : s.polarities = t.polarities
  numVars : s.numVars = t.numVars
  clauses : s.clauses = t.clauses
  contextStack : s.contextStack = t.contextStack

theorem undo_rest (op : TrailOp) (s : Solver) : SameRest (undo op s) s := by
  cases op <;> exact ⟨rfl, rfl, rfl, rfl⟩

theorem undoTo_rest (position : Nat) :
    ∀ (trail : List TrailOp) (s : Solver), SameRest (undoTo position trail s) s := by
  -- Each entry leaves them alone, and the end of the walk only stores the journal.
  intro trail
  induction trail with
  | nil => intro s; exact ⟨rfl, rfl, rfl, rfl⟩
  | cons op rest ih =>
    intro s
    unfold undoTo
    split
    · have tail := ih (undo op s)
      have head := undo_rest op s
      exact ⟨tail.polarities.trans head.polarities, tail.numVars.trans head.numVars,
        tail.clauses.trans head.clauses, tail.contextStack.trans head.contextStack⟩
    · exact ⟨rfl, rfl, rfl, rfl⟩

theorem SameTerms.undoTo {position : Nat} : ∀ {trail : List TrailOp} {s t : Solver}, SameTerms s t →
      SameTerms (undoTo position trail s) (undoTo position trail t) ∧
        (undoTo position trail s).trail = (undoTo position trail t).trail := by
  intro trail
  induction trail with
  | nil =>
    intro s t same
    exact ⟨{ same with }, rfl⟩
  | cons op rest ih =>
    intro s t same
    simp only [Tseitin.undoTo]
    split
    · exact ih (same.undo op)
    · exact ⟨{ same with }, rfl⟩

theorem undoTo_append {position : Nat} {old : List TrailOp} (lies : position ≤ old.length) :
    ∀ (ops : List TrailOp) (s : Solver), undoTo position (ops ++ old) s =
        undoTo position old (ops.foldl (fun s op => undo op s) s) := by
  intro ops
  induction ops with
  | nil => intro s; rfl
  | cons op rest ih =>
    intro s
    have above : position < (op :: (rest ++ old)).length := by
      simp only [length_cons, length_append]
      omega
    rw [cons_append, undoTo, if_pos above, ih, foldl_cons]

/-- What a run of writes leaves behind, seen from the state it started in. -/
structure Journalled (s t : Solver) : Prop where
  journal : ∃ ops, t.trail = ops ++ s.trail ∧ SameTerms (ops.foldl (fun s op => undo op s) t) s
  clauses : ∃ added, t.clauses = s.clauses ++ added
  contextStack : t.contextStack = s.contextStack
  numVars : s.numVars ≤ t.numVars
  widens : Widens s.polarities t.polarities

theorem Journalled.refl (s : Solver) : Journalled s s where
  journal := ⟨[], rfl, ⟨rfl, rfl, rfl⟩⟩
  clauses := ⟨[], by simp⟩
  contextStack := rfl
  numVars := Nat.le_refl _
  widens := .refl _

theorem TermMap.set_restore {α : Type} {map : TermMap α} {key : Term} {value : Option α}
    {stored : Option α} (before : map key = stored) : (map.set key value).set key stored = map := by
  -- Only the overwritten key differs, and it gets its old value back.
  funext term
  by_cases here : term = key
  · simp [TermMap.set, here, before]
  · simp [TermMap.set, here]

theorem Write.journalled {s t : Solver} (write : Write s t) : Journalled s t := by
  cases write with
  | newVar absent =>
    rename_i term
    simp only [getOrCreateVar, absent]
    exact ⟨⟨[.varCreated s.numVars term], rfl, ⟨TermMap.set_restore absent, rfl, rfl⟩⟩,
      ⟨[], by simp⟩, rfl, Nat.le_succ _, .refl _⟩
  | clauses added => exact ⟨⟨[], rfl, ⟨rfl, rfl, rfl⟩⟩, ⟨added, rfl⟩, rfl, Nat.le_refl _, .refl _⟩
  | memo term lit polarity =>
    by_cases unchanged : s.encodedTerms term = some (lit, polarity)
    · -- Writing the stored entry again changes nothing, so nothing is journalled.
      refine ⟨⟨[], ?_, ⟨?_, ?_, ?_⟩⟩, ⟨[], ?_⟩, ?_, ?_, ?_⟩ <;>
        simp only [memoizeEncoding, unchanged, if_true, foldl_nil, nil_append,
          append_nil, Nat.le_refl]
      · funext other
        by_cases here : other = term
        · simp [TermMap.set, here, unchanged]
        · simp [TermMap.set, here]
      · exact .refl _
    · refine ⟨⟨[.encodedTermAdded term (s.encodedTerms term)], ?_, ⟨?_, ?_, ?_⟩⟩, ⟨[], ?_⟩,
        ?_, ?_, ?_⟩ <;>
        simp only [memoizeEncoding, unchanged, if_false, foldl_cons, foldl_nil, undo,
          cons_append, nil_append, append_nil, Nat.le_refl]
      · exact TermMap.set_restore rfl
      · exact .refl _
  | false_ =>
    by_cases already : s.hasFalseAssertion = true
    · simp only [noteFalse, already, if_true]
      exact .refl s
    · simp only [noteFalse, already]
      exact ⟨⟨[.falseAssertionSet], rfl, ⟨rfl, rfl, rfl⟩⟩, ⟨[], by simp⟩, rfl, Nat.le_refl _,
        .refl _⟩
  | record term =>
    exact ⟨⟨[.assertionAdded s.assertions.length], rfl, ⟨rfl, rfl, by
      simp [recordAssertion, undo]⟩⟩, ⟨[], by simp [recordAssertion]⟩, rfl, Nat.le_refl _, .refl _⟩
  | collect map widens =>
    exact ⟨⟨[], rfl, ⟨rfl, rfl, rfl⟩⟩, ⟨[], by simp⟩, rfl, Nat.le_refl _, widens⟩
  | deep => exact ⟨⟨[], rfl, ⟨rfl, rfl, rfl⟩⟩, ⟨[], by simp⟩, rfl, Nat.le_refl _, .refl _⟩

theorem SameTerms.foldl_undo {ops : List TrailOp} : ∀ {s t : Solver}, SameTerms s t →
    SameTerms (ops.foldl (fun s op => Tseitin.undo op s) s)
      (ops.foldl (fun s op => Tseitin.undo op s) t) := by
  induction ops with
  | nil => exact fun same => same
  | cons op rest ih => exact fun same => ih (same.undo op)

theorem Journalled.trans {s t u : Solver} (left : Journalled s t) (right : Journalled t u) :
    Journalled s u := by
  obtain ⟨ops, trail, restored⟩ := left.journal
  obtain ⟨ops', trail', restored'⟩ := right.journal
  obtain ⟨added, clauses⟩ := left.clauses
  obtain ⟨added', clauses'⟩ := right.clauses
  -- The later entries come off first and expose the state the earlier ones restore.
  refine ⟨⟨ops' ++ ops, by rw [trail', trail, append_assoc], ?_⟩,
    ⟨added ++ added', by rw [clauses', clauses, append_assoc]⟩,
    right.contextStack.trans left.contextStack, Nat.le_trans left.numVars right.numVars,
    left.widens.trans right.widens⟩
  rw [foldl_append]
  have inner := @SameTerms.foldl_undo ops _ _ restored'
  exact ⟨inner.termToVar.trans restored.termToVar, inner.encodedTerms.trans restored.encodedTerms,
    inner.assertions.trans restored.assertions⟩

theorem Writes.journalled {s t : Solver} (writes : Writes s t) : Journalled s t := by
  induction writes with
  | refl => exact .refl s
  | tail _ write ih => exact ih.trans write.journalled

/-- A state that differs only by wider polarities and more created variables. -/
structure Shadows (s t : Solver) : Prop where
  termToVar : t.termToVar = s.termToVar
  encodedTerms : t.encodedTerms = s.encodedTerms
  clauses : t.clauses = s.clauses
  assertions : t.assertions = s.assertions
  hasFalseAssertion : t.hasFalseAssertion = s.hasFalseAssertion
  encodeDepthExceeded : t.encodeDepthExceeded = s.encodeDepthExceeded
  trail : t.trail = s.trail
  contextStack : t.contextStack = s.contextStack
  numVars : s.numVars ≤ t.numVars
  widens : Widens s.polarities t.polarities

/-- The innermost scope remembers positions that still exist. -/
def InsideScope (s : Solver) : Prop :=
  ∀ context ∈ s.contextStack.head?, context.trailPosition ≤ s.trail.length ∧
    context.numClauses ≤ s.clauses.length

theorem InsideScope.writes {s t : Solver} (lies : InsideScope s) (writes : Writes s t) :
    InsideScope t := by
  obtain ⟨ops, trail, _⟩ := writes.journalled.journal
  obtain ⟨added, clauses⟩ := writes.journalled.clauses
  intro context mem
  rw [writes.journalled.contextStack] at mem
  obtain ⟨first, second⟩ := lies context mem
  rw [trail, clauses, length_append, length_append]
  omega

theorem restoreContext_shadows {context : ContextState} {u v : Solver} (same : SameTerms v u)
    (trail : v.trail = u.trail) (stack : v.contextStack = u.contextStack)
    (clauses : v.clauses.take context.numClauses = u.clauses.take context.numClauses)
    (numVars : u.numVars ≤ v.numVars) (widens : Widens u.polarities v.polarities) :
    Shadows (restoreContext context u) (restoreContext context v) where
  termToVar := same.termToVar
  encodedTerms := same.encodedTerms
  clauses := clauses
  assertions := by simp only [restoreContext, same.assertions]
  hasFalseAssertion := rfl
  encodeDepthExceeded := rfl
  trail := trail
  contextStack := stack
  numVars := numVars
  widens := widens

theorem undoTo_shadows {context : ContextState} {old : List TrailOp} {u v : Solver} (same : SameTerms v u)
    (stack : v.contextStack = u.contextStack)
    (clauses : v.clauses.take context.numClauses = u.clauses.take context.numClauses)
    (numVars : u.numVars ≤ v.numVars) (widens : Widens u.polarities v.polarities) :
    Shadows (restoreContext context (undoTo context.trailPosition old u))
      (restoreContext context (undoTo context.trailPosition old v)) := by
  have restU := undoTo_rest context.trailPosition old u
  have restV := undoTo_rest context.trailPosition old v
  obtain ⟨terms, trail⟩ := @SameTerms.undoTo context.trailPosition old _ _ same
  refine restoreContext_shadows terms trail ?_ ?_ ?_ ?_
  · rw [restU.contextStack, restV.contextStack, stack]
  · rw [restU.clauses, restV.clauses, clauses]
  · rw [restU.numVars, restV.numVars]
    exact numVars
  · rw [restU.polarities, restV.polarities]
    exact widens

theorem foldl_undo_rest (ops : List TrailOp) :
    ∀ s : Solver, SameRest (ops.foldl (fun s op => undo op s) s) s := by
  induction ops with
  | nil => exact fun s => ⟨rfl, rfl, rfl, rfl⟩
  | cons op rest ih =>
    intro s
    have tail := ih (undo op s)
    have head := undo_rest op s
    exact ⟨tail.polarities.trans head.polarities, tail.numVars.trans head.numVars,
      tail.clauses.trans head.clauses, tail.contextStack.trans head.contextStack⟩

theorem pop_writes {s t : Solver} (lies : InsideScope s) (open_ : s.contextStack ≠ [])
    (writes : Writes s t) : Shadows (pop s) (pop t) := by
  have journalled := writes.journalled
  obtain ⟨ops, trail, restored⟩ := journalled.journal
  obtain ⟨added, clauses⟩ := journalled.clauses
  cases stack : s.contextStack with
  | nil => exact absurd stack open_
  | cons context outer =>
    obtain ⟨position, count⟩ := lies context (by simp [stack])
    have stack' : t.contextStack = context :: outer := journalled.contextStack.trans stack
    simp only [pop, stack, stack']
    -- After the newer entries are gone, both walks read the same journal on the same fields.
    have walk := undoTo_append position ops { t with contextStack := outer }
    rw [← trail] at walk
    rw [walk]
    have start : SameTerms { t with contextStack := outer } t := ⟨rfl, rfl, rfl⟩
    have folded := @SameTerms.foldl_undo ops _ _ start
    have rest := foldl_undo_rest ops { t with contextStack := outer }
    refine undoTo_shadows ⟨folded.termToVar.trans restored.termToVar,
      folded.encodedTerms.trans restored.encodedTerms,
      folded.assertions.trans restored.assertions⟩ rest.contextStack ?_ ?_ ?_
    · rw [rest.clauses, clauses]
      exact take_append_of_le_length count
    · rw [rest.numVars]
      exact journalled.numVars
    · rw [rest.polarities]
      exact journalled.widens

theorem Shadows.pop {s t : Solver} (shadows : Shadows s t) : Shadows (pop s) (pop t) := by
  cases stack : s.contextStack with
  | nil =>
    have stack' : t.contextStack = [] := shadows.contextStack.trans stack
    simpa only [Tseitin.pop, stack, stack'] using shadows
  | cons context outer =>
    have stack' : t.contextStack = context :: outer := shadows.contextStack.trans stack
    simp only [Tseitin.pop, stack, stack']
    rw [shadows.trail]
    exact undoTo_shadows
      { shadows with } rfl
      (by simp only [shadows.clauses]) shadows.numVars shadows.widens

theorem pop_push (s : Solver) : pop (push s) = s := by
  -- No entry lies above the remembered journal length.
  have none_ : undoTo s.trail.length s.trail s = s := by
    cases trail : s.trail with
    | nil => simp [undoTo, ← trail]
    | cons op rest => simp [undoTo, ← trail]
  simp only [pop, push]
  rw [show ({ s with contextStack := s.contextStack } : Solver) = s from rfl, none_]
  simp [restoreContext]

end Nixie.Tseitin
