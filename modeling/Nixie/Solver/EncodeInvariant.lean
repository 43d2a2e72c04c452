import Mathlib.Data.List.Forall2
import Mathlib.Data.Nat.Init
import Nixie.Solver.EncodeJournal
import Nixie.Solver.EncodeValue

/-! One encoding keeps every memo entry backed by its clauses and every clause true in meaning. -/

namespace Nixie.Tseitin

open List

variable {termId : Term → Nat}

/-- The listed literals are the memoised literals of the listed terms. -/
def ChildLits (s : Solver) (terms : List Term) (lits : List Lit) : Prop :=
  List.Forall₂ (fun term lit => ∃ stored, s.encodedTerms term = some (lit, stored)) terms lits

/-- A memo entry that the solver's variables, children and clauses back up. -/
inductive Entry (termId : Term → Nat) (s : Solver) : Term → Lit → Polarity → Prop where
  | not {arg : Term} {inner : Lit} {argStored stored : Polarity}
      (found : s.encodedTerms arg = some (inner, argStored)) :
      Entry termId s (.not arg) inner.negate stored
  /-- Any other term owns a variable and the clauses of its gate. -/
  | gate {term : Term} {var : Nat} {stored : Polarity} {args : List Lit}
      (notNot : ∀ arg, term ≠ .not arg) (named : s.termToVar term = some var)
      (children : ChildLits s (childTerms termId term) args)
      (emitted : ∀ clause ∈ gateClauses term (.pos var) args stored, clause ∈ s.clauses) :
      Entry termId s term (.pos var) stored

/-- The entry's stored directions are among the collected ones. -/
def Recorded (s : Solver) (term : Term) (stored : Polarity) : Prop :=
  stored = .both ∨
    (isPolarised term = true ∧ ∃ wider, s.polarities term = some wider ∧ wider.Covers stored)

/-- Every memo entry is backed up, and variables identify terms. -/
structure Sound (termId : Term → Nat) (s : Solver) : Prop where
  entries : ∀ {term lit stored}, s.encodedTerms term = some (lit, stored) →
    Entry termId s term lit stored
  wellFormed : ∀ {term entry}, s.encodedTerms term = some entry → Propositional term
  recorded : ∀ {term lit stored}, s.encodedTerms term = some (lit, stored) → Recorded s term stored
  bounded : ∀ {term var}, s.termToVar term = some var → var < s.numVars
  injective : ∀ {term term' var}, s.termToVar term = some var →
    s.termToVar term' = some var → term = term'
  mapped : ∀ clause ∈ s.clauses, ∀ lit ∈ clause, ∃ term, s.termToVar term = some lit.var

/-- A later state keeps variables, literals, covered directions and clauses. -/
structure Extends (s t : Solver) : Prop where
  termToVar : ∀ {term var}, s.termToVar term = some var → t.termToVar term = some var
  encoded : ∀ {term lit stored}, s.encodedTerms term = some (lit, stored) →
    ∃ wider, t.encodedTerms term = some (lit, wider) ∧ wider.Covers stored
  clauses : ∀ clause ∈ s.clauses, clause ∈ t.clauses

theorem Extends.refl (s : Solver) : Extends s s where
  termToVar := id
  encoded := fun {_ _ stored} found => ⟨stored, found, .refl stored⟩
  clauses := fun _ => id

variable {s : Solver}

variable {t : Solver}

theorem Extends.trans {u : Solver} (left : Extends s t) (right : Extends t u) : Extends s u where
  termToVar := fun named => right.termToVar (left.termToVar named)
  encoded := fun found => by
    obtain ⟨middle, found', covers⟩ := left.encoded found
    obtain ⟨wider, found'', covers'⟩ := right.encoded found'
    exact ⟨wider, found'', covers'.trans covers⟩
  clauses := fun clause mem => right.clauses clause (left.clauses clause mem)

theorem ChildLits.mono (later : Extends s t) {terms : List Term}
    {lits : List Lit} (children : ChildLits s terms lits) : ChildLits t terms lits := by
  refine List.Forall₂.imp (fun term lit found => ?_) children
  obtain ⟨stored, found⟩ := found
  obtain ⟨wider, found', _⟩ := later.encoded found
  exact ⟨wider, found'⟩

variable {term : Term}

theorem Entry.mono (later : Extends s t) {lit : Lit}
    {stored : Polarity} (entry : Entry termId s term lit stored) :
    Entry termId t term lit stored := by
  cases entry with
  | not found =>
    obtain ⟨wider, found', _⟩ := later.encoded found
    exact .not found'
  | gate notNot named children emitted =>
    exact .gate notNot (later.termToVar named) (children.mono later)
      fun clause mem => later.clauses clause (emitted clause mem)

theorem Sound.lit_mapped (sound : Sound termId s) :
    ∀ (term : Term) {lit : Lit} {stored : Polarity}, s.encodedTerms term = some (lit, stored) →
      ∃ owner, s.termToVar owner = some lit.var := by
  -- Negations pass on their operand's variable, so the induction is on the height.
  intro term
  induction height : encodeHeight term using Nat.strong_induction_on generalizing term with
  | _ bound ih =>
    intro lit stored found
    cases sound.entries found with
    | not inner =>
      rename_i arg innerLit argStored
      have lower : encodeHeight arg < bound := by
        rw [← height]
        simp [encodeHeight]
      obtain ⟨owner, named⟩ := ih _ lower arg rfl inner
      exact ⟨owner, named⟩
    | gate _ named _ _ => exact ⟨term, named⟩

/-- The assignment that gives every term's variable the term's own truth. -/
noncomputable def canonical (termId : Term → Nat) (s : Solver) (atoms : Term → Bool) :
    Assignment := fun var =>
  open Classical in decide (∃ term, s.termToVar term = some var ∧ value termId atoms term = true)

theorem Sound.canonical_var (sound : Sound termId s) (atoms : Term → Bool)
    {var : Nat} (named : s.termToVar term = some var) :
    canonical termId s atoms var = value termId atoms term := by
  -- No other term shares the variable.
  rw [Bool.eq_iff_iff]
  simp only [canonical, decide_eq_true_eq]
  constructor
  · rintro ⟨other, named', holds⟩
    rwa [sound.injective named named']
  · exact fun holds => ⟨term, named, holds⟩

theorem Sound.canonical_lit (sound : Sound termId s) (atoms : Term → Bool) :
    ∀ (term : Term) {lit : Lit} {stored : Polarity}, s.encodedTerms term = some (lit, stored) →
      lit.value (canonical termId s atoms) = value termId atoms term := by
  -- Negations pass on their operand's literal, so the induction is on the height.
  intro term
  induction height : encodeHeight term using Nat.strong_induction_on generalizing term with
  | _ bound ih =>
    intro lit stored found
    cases sound.entries found with
    | not inner =>
      rename_i arg innerLit argStored
      have lower : encodeHeight arg < bound := by
        rw [← height]
        simp [encodeHeight]
      rw [Lit.value_negate, ih _ lower arg rfl inner, value]
    | gate _ named _ _ => rw [Lit.value_pos, sound.canonical_var atoms named]

theorem Sound.canonical_children (sound : Sound termId s) (atoms : Term → Bool)
    {terms : List Term} {lits : List Lit} (children : ChildLits s terms lits) :
    lits.map (Lit.value (canonical termId s atoms)) = terms.map (value termId atoms) := by
  induction children with
  | nil => rfl
  | cons found _ ih =>
    obtain ⟨stored, found⟩ := found
    rw [map_cons, map_cons, sound.canonical_lit atoms _ found, ih]

theorem Sound.canonical_mono (sound : Sound termId s) (sound' : Sound termId t)
    (later : Extends s t) {atoms : Term → Bool}
    (models : Models (canonical termId s atoms) s.clauses) :
    Models (canonical termId t atoms) s.clauses := by
  -- A mapped variable keeps its term, hence its truth.
  intro clause mem
  refine (satisfies_congr fun lit lies => ?_).mp (models clause mem)
  obtain ⟨term, named⟩ := sound.mapped clause mem lit lies
  rw [sound.canonical_var atoms named, sound'.canonical_var atoms (later.termToVar named)]

/-- The memo answers for the term at its collected polarity. -/
def Reusable (s : Solver) (term : Term) : Prop :=
  ∃ lit stored, s.encodedTerms term = some (lit, stored) ∧ stored.Covers (needed s term)

theorem memoHit_some {lit : Lit} : memoHit s term = some lit ↔
      ∃ stored, s.encodedTerms term = some (lit, stored) ∧ stored.Covers (needed s term) := by
  unfold memoHit
  cases entry : s.encodedTerms term with
  | none => simp
  | some pair =>
    rcases pair with ⟨other, stored⟩
    by_cases covers : stored.Covers (needed s term) <;> simp [covers]

theorem memoHit_none : memoHit s term = none ↔ ¬ Reusable s term := by
  constructor
  · rintro miss ⟨lit, stored, found, covers⟩
    rw [memoHit_some.mpr ⟨stored, found, covers⟩] at miss
    cases miss
  · intro fails
    cases hit : memoHit s term with
    | none => rfl
    | some lit =>
      obtain ⟨stored, found, covers⟩ := memoHit_some.mp hit
      exact absurd ⟨lit, stored, found, covers⟩ fails

theorem Reusable.mono (later : Extends s t)
    (polarities : t.polarities = s.polarities) (reusable : Reusable s term) :
    Reusable t term := by
  obtain ⟨lit, stored, found, covers⟩ := reusable
  obtain ⟨wider, found', covers'⟩ := later.encoded found
  refine ⟨lit, wider, found', ?_⟩
  simp only [needed, polarities]
  exact covers'.trans covers

/-- Whatever has become reusable since the base state has reusable children. -/
def NewClosed (termId : Term → Nat) (base s : Solver) : Prop :=
  ∀ term, Reusable s term → ¬ Reusable base term →
    ∀ child ∈ childTerms termId term, Reusable s child

/-- What encoding keeps on its way from one state to a later one. -/
structure Progress (termId : Term → Nat) (base s t : Solver) : Prop where
  writes : Writes s t
  later : Extends s t
  sound : Sound termId t
  closed : NewClosed termId base t
  polarities : t.polarities = s.polarities
  models : ∀ atoms, Models (canonical termId s atoms) s.clauses →
    Models (canonical termId t atoms) t.clauses
  hasFalseAssertion : t.hasFalseAssertion = s.hasFalseAssertion
  encodeDepthExceeded : t.encodeDepthExceeded = s.encodeDepthExceeded

variable {base : Solver}

theorem Progress.refl {base s : Solver} (sound : Sound termId s)
    (closed : NewClosed termId base s) : Progress termId base s s :=
  ⟨.refl, .refl s, sound, closed, rfl, fun _ => id, rfl, rfl⟩

theorem Progress.trans {u : Solver} (left : Progress termId base s t)
    (right : Progress termId base t u) : Progress termId base s u where
  writes := left.writes.trans right.writes
  later := left.later.trans right.later
  sound := right.sound
  closed := right.closed
  polarities := right.polarities.trans left.polarities
  models := fun atoms models => right.models atoms (left.models atoms models)
  hasFalseAssertion := right.hasFalseAssertion.trans left.hasFalseAssertion
  encodeDepthExceeded := right.encodeDepthExceeded.trans left.encodeDepthExceeded

theorem getOrCreateVar_progress (sound : Sound termId s)
    (closed : NewClosed termId base s) (term : Term) :
    Progress termId base s (getOrCreateVar term s).2 ∧
      (getOrCreateVar term s).2.termToVar term = some (getOrCreateVar term s).1 ∧
      (getOrCreateVar term s).2.encodedTerms = s.encodedTerms := by
  cases named : s.termToVar term with
  | some var =>
    simp only [getOrCreateVar, named]
    exact ⟨.refl sound closed, trivial, trivial⟩
  | none =>
    have write : Write s (getOrCreateVar term s).2 := .newVar named
    simp only [getOrCreateVar, named] at write ⊢
    -- The fresh variable is above every used one, so it identifies the new term.
    have later : Extends s { s with
        termToVar := s.termToVar.set term (some s.numVars)
        numVars := s.numVars + 1
        trail := .varCreated s.numVars term :: s.trail } := by
      refine ⟨fun {other var} found => ?_, fun {_ _ stored} found => ⟨stored, found, .refl _⟩,
        fun _ => id⟩
      by_cases here : other = term
      · rw [here, named] at found
        cases found
      · simpa [TermMap.set, here] using found
    have sound' : Sound termId { s with
        termToVar := s.termToVar.set term (some s.numVars)
        numVars := s.numVars + 1
        trail := .varCreated s.numVars term :: s.trail } := by
      refine
        { entries := fun found => (sound.entries found).mono later
          wellFormed := sound.wellFormed
          recorded := sound.recorded
          bounded := fun {other var} found => ?_
          injective := fun {left right var} found found' => ?_
          mapped := fun clause mem lit lies => ?_ }
      · by_cases here : other = term
        · simp only [TermMap.set, here, if_true, Option.some.injEq] at found
          exact found ▸ Nat.lt_succ_self _
        · simp only [TermMap.set, here, if_false] at found
          exact Nat.lt_succ_of_lt (sound.bounded found)
      · by_cases here : left = term
        · by_cases there : right = term
          · rw [here, there]
          · simp only [TermMap.set, here, if_true, Option.some.injEq] at found
            simp only [TermMap.set, there, if_false] at found'
            have := sound.bounded found'
            omega
        · simp only [TermMap.set, here, if_false] at found
          by_cases there : right = term
          · simp only [TermMap.set, there, if_true, Option.some.injEq] at found'
            have := sound.bounded found
            omega
          · simp only [TermMap.set, there, if_false] at found'
            exact sound.injective found found'
      · obtain ⟨owner, found⟩ := sound.mapped clause mem lit lies
        exact ⟨owner, later.termToVar found⟩
    exact ⟨⟨.single write, later, sound', closed, rfl,
      fun atoms models => sound.canonical_mono sound' later models, rfl, rfl⟩,
      by simp [TermMap.set], trivial⟩

theorem gateClauses_vars {result : Lit} {args : List Lit} {stored : Polarity}
    {clause : Clause} (mem : clause ∈ gateClauses term result args stored) {lit : Lit}
    (lies : lit ∈ clause) : lit.var = result.var ∨ ∃ arg ∈ args, lit.var = arg.var := by
  have conj : ∀ {lits : List Lit} {polarity : Polarity}, clause ∈ andClauses result lits polarity →
      lit.var = result.var ∨ ∃ arg ∈ lits, lit.var = arg.var := by
    intro lits polarity mem
    simp only [andClauses, mem_append] at mem
    rcases mem with mem | mem
    · split at mem
      · obtain ⟨arg, listed, rfl⟩ := mem_map.mp mem
        simp only [mem_cons, not_mem_nil, or_false] at lies
        rcases lies with rfl | rfl
        · exact .inl rfl
        · exact .inr ⟨_, listed, rfl⟩
      · cases mem
    · split at mem
      · rw [mem_singleton.mp mem] at lies
        rcases mem_append.mp lies with listed | last
        · obtain ⟨arg, inner, rfl⟩ := mem_map.mp listed
          exact .inr ⟨arg, inner, rfl⟩
        · rw [mem_singleton.mp last]
          exact .inl rfl
      · cases mem
  cases term with
  | and terms => exact conj mem
  | distinct terms =>
    rcases conj mem with here | ⟨arg, listed, same⟩
    · exact .inl here
    · obtain ⟨equality, inner, rfl⟩ := mem_map.mp listed
      exact .inr ⟨equality, inner, same⟩
  | or terms =>
    simp only [gateClauses, orClauses, mem_append] at mem
    rcases mem with mem | mem
    · split at mem
      · rw [mem_singleton.mp mem] at lies
        rcases mem_cons.mp lies with rfl | listed
        · exact .inl rfl
        · exact .inr ⟨lit, listed, rfl⟩
      · cases mem
    · split at mem
      · obtain ⟨arg, listed, rfl⟩ := mem_map.mp mem
        simp only [mem_cons, not_mem_nil, or_false] at lies
        rcases lies with rfl | rfl
        · exact .inr ⟨arg, listed, rfl⟩
        · exact .inl rfl
      · cases mem
  | tru =>
    simp only [gateClauses, mem_singleton] at mem
    subst mem
    exact .inl (by rw [mem_singleton.mp lies])
  | fls =>
    simp only [gateClauses, mem_singleton] at mem
    subst mem
    exact .inl (by rw [mem_singleton.mp lies]; rfl)
  | xor lhs rhs =>
    rcases args with _ | ⟨a, _ | ⟨b, _ | ⟨c, rest⟩⟩⟩ <;>
      simp only [gateClauses, not_mem_nil, mem_cons, or_false] at mem
    rcases mem with rfl | rfl | rfl | rfl <;> simp at lies <;> rcases lies with
      rfl | rfl | rfl <;> simp
  | implies lhs rhs =>
    rcases args with _ | ⟨a, _ | ⟨b, _ | ⟨c, rest⟩⟩⟩ <;>
      simp only [gateClauses, not_mem_nil, mem_cons, or_false] at mem
    rcases mem with rfl | rfl | rfl
    · simp at lies
      rcases lies with rfl | rfl | rfl <;> simp
    · simp at lies
      rcases lies with rfl | rfl <;> simp
    · simp at lies
      rcases lies with rfl | rfl <;> simp
  | eq lhs rhs =>
    rcases args with _ | ⟨a, _ | ⟨b, _ | ⟨c, rest⟩⟩⟩ <;>
      simp only [gateClauses, not_mem_nil, mem_cons, or_false] at mem
    rcases mem with rfl | rfl | rfl | rfl <;> simp at lies <;> rcases lies with
      rfl | rfl | rfl <;> simp
  | ite cond thenBr elseBr =>
    rcases args with _ | ⟨a, _ | ⟨b, _ | ⟨c, _ | ⟨d, rest⟩⟩⟩⟩ <;>
      simp only [gateClauses, not_mem_nil, mem_cons, or_false] at mem
    rcases mem with rfl | rfl | rfl | rfl <;> simp at lies <;> rcases lies with
      rfl | rfl | rfl <;> simp
  | _ => simp [gateClauses] at mem

theorem addGate_progress (sound : Sound termId s)
    (closed : NewClosed termId base s) (wellFormed : Propositional term)
    (gate : isAtom term = false) {var : Nat} (named : s.termToVar term = some var) {args : List Lit}
    (children : ChildLits s (childTerms termId term) args) (stored : Polarity) :
    Progress termId base s (addClauses (gateClauses term (.pos var) args stored) s) := by
  have later : Extends s (addClauses (gateClauses term (.pos var) args stored) s) :=
    ⟨id, fun {_ _ stored} found => ⟨stored, found, .refl _⟩,
      fun clause mem => mem_append_left _ mem⟩
  have sound' : Sound termId (addClauses (gateClauses term (.pos var) args stored) s) := by
    refine
      { entries := fun found => (sound.entries found).mono later
        wellFormed := sound.wellFormed
        recorded := sound.recorded
        bounded := sound.bounded
        injective := sound.injective
        mapped := fun clause mem lit lies => ?_ }
    rcases mem_append.mp mem with old | new
    · exact sound.mapped clause old lit lies
    · rcases gateClauses_vars new lies with same | ⟨arg, listed, same⟩
      · exact ⟨term, by rw [same]; exact named⟩
      · -- An argument's literal is the memoised literal of some child.
        obtain ⟨index, bound, here⟩ := mem_iff_getElem.mp listed
        have length := children.length_eq
        obtain ⟨dirs, found⟩ := forall₂_iff_get.mp children |>.2 index (by omega) bound
        have owner := sound.lit_mapped _ found
        rw [same, ← here]
        exact owner
  refine ⟨.single (.clauses _), later, sound', closed, rfl, fun atoms models => ?_, rfl, rfl⟩
  refine models_append.mpr ⟨sound.canonical_mono sound' later models, ?_⟩
  -- The gate's variable has the gate's truth because its children do.
  refine gateClauses_exact stored ?_
  rw [Lit.value_pos, sound'.canonical_var atoms (later.termToVar named),
    sound'.canonical_children atoms (children.mono later), value_gate wellFormed gate]

theorem memoize_progress (sound : Sound termId s)
    (closed : NewClosed termId base s) (wellFormed : Propositional term)
    {lit : Lit} {stored : Polarity} (entry : Entry termId s term lit stored)
    (recorded : Recorded s term stored)
    (wider : ∀ {old dirs}, s.encodedTerms term = some (old, dirs) → old = lit ∧ stored.Covers dirs)
    (children : ∀ child ∈ childTerms termId term, Reusable s child) :
    Progress termId base s (memoizeEncoding term lit stored s) ∧
      (memoizeEncoding term lit stored s).encodedTerms term = some (lit, stored) := by
  have fields : (memoizeEncoding term lit stored s).encodedTerms =
      s.encodedTerms.set term (some (lit, stored)) ∧
      (memoizeEncoding term lit stored s).termToVar = s.termToVar ∧
      (memoizeEncoding term lit stored s).clauses = s.clauses ∧
      (memoizeEncoding term lit stored s).numVars = s.numVars ∧
      (memoizeEncoding term lit stored s).polarities = s.polarities ∧
      (memoizeEncoding term lit stored s).hasFalseAssertion = s.hasFalseAssertion ∧
      (memoizeEncoding term lit stored s).encodeDepthExceeded = s.encodeDepthExceeded := by
    by_cases unchanged : s.encodedTerms term = some (lit, stored)
    · simp [memoizeEncoding, unchanged]
    · simp [memoizeEncoding, unchanged]
  obtain ⟨memo, vars, clauses, numVars, polarities, false_, depth⟩ := fields
  generalize after : memoizeEncoding term lit stored s = t at *
  have write : Write s t := after ▸ .memo term lit stored
  have lookup : ∀ other, t.encodedTerms other =
      if other = term then some (lit, stored) else s.encodedTerms other := fun other => by
    rw [memo]
    rfl
  have later : Extends s t := by
    refine ⟨fun found => by rw [vars]; exact found, fun {other old dirs} found => ?_,
      fun clause mem => by rw [clauses]; exact mem⟩
    rw [lookup]
    by_cases here : other = term
    · subst here
      obtain ⟨rfl, covers⟩ := wider found
      exact ⟨stored, by simp, covers⟩
    · exact ⟨dirs, by simpa [here] using found, .refl _⟩
  have sound' : Sound termId t := by
    refine
      { entries := fun {other old dirs} found => ?_
        wellFormed := fun {other old} found => ?_
        recorded := fun {other old dirs} found => ?_
        bounded := fun found => by rw [numVars]; rw [vars] at found; exact sound.bounded found
        injective := fun found found' => by
          rw [vars] at found found'
          exact sound.injective found found'
        mapped := fun clause mem lit lies => by
          rw [clauses] at mem
          rw [vars]
          exact sound.mapped clause mem lit lies }
    · rw [lookup] at found
      split at found
      · rename_i here
        cases found
        subst here
        exact entry.mono later
      · exact (sound.entries found).mono later
    · rw [lookup] at found
      split at found
      · rename_i here
        exact here ▸ wellFormed
      · exact sound.wellFormed found
    · rw [lookup] at found
      have same : ∀ {dirs}, Recorded s other dirs → Recorded t other dirs := by
        intro dirs before
        rcases before with both | ⟨gate, wide, collected, covers⟩
        · exact .inl both
        · exact .inr ⟨gate, wide, by rw [polarities]; exact collected, covers⟩
      split at found
      · rename_i here
        cases found
        subst here
        exact same recorded
      · exact same (sound.recorded found)
  refine ⟨⟨.single write, later, sound', fun other reusable fresh child mem => ?_, polarities,
    fun atoms models => ?_, false_, depth⟩, by simp [lookup]⟩
  · -- The stored term has reusable children by assumption; other terms had them before.
    by_cases here : other = term
    · subst here
      exact (children child mem).mono later polarities
    · have before : Reusable s other := by
        obtain ⟨old, dirs, found, covers⟩ := reusable
        rw [lookup, if_neg here] at found
        refine ⟨old, dirs, found, ?_⟩
        simpa only [needed, polarities] using covers
      exact (closed other before fresh child mem).mono later polarities
  · have mono := sound.canonical_mono sound' later models
    rwa [clauses]

end Nixie.Tseitin
