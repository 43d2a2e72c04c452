import Nixie.Solver.EncodeInvariant

/-! What encoding one term achieves: progress from any backed-up state, and a memo entry. -/

namespace Nixie.Tseitin

open Option

variable {termId : Term → Nat}
variable {encode : Term → Solver → Lit × Solver} {term : Term} {s base : Solver}

/-- The memo maps the term to the literal and answers for it. -/
def Encoded (s : Solver) (term : Term) (lit : Lit) : Prop :=
  ∃ stored, s.encodedTerms term = some (lit, stored) ∧ stored.Covers (needed s term)

theorem Encoded.reusable {lit : Lit} (encoded : Encoded s term lit) : Reusable s term := by
  obtain ⟨stored, found, covers⟩ := encoded
  exact ⟨lit, stored, found, covers⟩

theorem Encoded.mono {t : Solver} (later : Extends s t)
    (polarities : t.polarities = s.polarities) {lit : Lit}
    (encoded : Encoded s term lit) : Encoded t term lit := by
  obtain ⟨stored, found, covers⟩ := encoded
  -- The stored directions can only have grown.
  obtain ⟨wider, found', covers'⟩ := later.encoded found
  refine ⟨wider, found', ?_⟩
  simp only [needed, polarities]
  exact covers'.trans covers

theorem childLits_of_encoded {terms : List Term} {lits : List Lit}
    (encoded : List.Forall₂ (Encoded s) terms lits) : ChildLits s terms lits := by
  refine List.Forall₂.imp (fun term lit one => ?_) encoded
  obtain ⟨stored, found, _⟩ := one
  exact ⟨stored, found⟩

theorem reusable_of_encoded {terms : List Term} {lits : List Lit}
    (encoded : List.Forall₂ (Encoded s) terms lits) : ∀ term ∈ terms, Reusable s term := by
  -- Walk the two lists together until the term is met.
  induction encoded with
  | nil => intro term mem; cases mem
  | cons head _ ih =>
    intro term mem
    rcases List.mem_cons.mp mem with here | later
    · rw [here]
      exact head.reusable
    · exact ih term later

/-- An encoder that works for the term from every state that grows out of the base. -/
def Encodes (termId : Term → Nat) (base : Solver) (encode : Term → Solver → Lit × Solver)
    (term : Term) : Prop :=
  ∀ s, Sound termId s → NewClosed termId base s →
    Progress termId base s (encode term s).2 ∧ Encoded (encode term s).2 term (encode term s).1

theorem encodeArgs_spec :
    ∀ {terms : List Term} {s : Solver}, (∀ term ∈ terms, Encodes termId base encode term) →
      Sound termId s → NewClosed termId base s →
      Progress termId base s (encodeArgs encode terms s).2 ∧
        List.Forall₂ (Encoded (encodeArgs encode terms s).2) terms
          (encodeArgs encode terms s).1 := by
  intro terms
  induction terms with
  | nil =>
    intro s _ sound closed
    exact ⟨.refl sound closed, .nil⟩
  | cons term rest ih =>
    intro s works sound closed
    -- The head is encoded first, and the tail keeps its entry.
    obtain ⟨first, encoded⟩ := works term (by simp) s sound closed
    obtain ⟨second, others⟩ := ih (fun other mem => works other (by simp [mem]))
      first.sound first.closed
    simp only [encodeArgs]
    exact ⟨first.trans second, .cons (encoded.mono second.later second.polarities) others⟩

/-- Only memo entries of terms below the given height may have changed. -/
def MemoFrame (height : Nat) (s t : Solver) : Prop :=
  ∀ term, height ≤ encodeHeight term → t.encodedTerms term = s.encodedTerms term

theorem MemoFrame.trans {height : Nat} {s t u : Solver} (left : MemoFrame height s t)
    (right : MemoFrame height t u) : MemoFrame height s u :=
  fun term above => (right term above).trans (left term above)

theorem MemoFrame.weaken {low high : Nat} {s t : Solver} (le : low ≤ high)
    (frame : MemoFrame low s t) : MemoFrame high s t :=
  fun term above => frame term (Nat.le_trans le above)

@[simp] theorem getOrCreateVar_encodedTerms (term : Term) (s : Solver) :
    (getOrCreateVar term s).2.encodedTerms = s.encodedTerms := by
  unfold getOrCreateVar
  split <;> rfl

theorem memoizeEncoding_encodedTerms (term : Term) (lit : Lit) (stored : Polarity) (s : Solver) :
    (memoizeEncoding term lit stored s).encodedTerms =
      s.encodedTerms.set term (some (lit, stored)) := by
  by_cases unchanged : s.encodedTerms term = some (lit, stored)
  · simp [memoizeEncoding, unchanged]
  · simp [memoizeEncoding, unchanged]

theorem encodeArgs_frame {height : Nat} : ∀ {terms : List Term} {s : Solver},
      (∀ term ∈ terms, ∀ s, MemoFrame height s (encode term s).2) →
      MemoFrame height s (encodeArgs encode terms s).2 := by
  intro terms
  induction terms with
  | nil => exact fun _ _ _ => rfl
  | cons term rest ih =>
    intro s frames
    exact (frames term (by simp) s).trans (ih fun other mem => frames other (by simp [mem]))

theorem encodeDepthUncached_cases (wellFormed : Propositional term) (s : Solver) :
    (∃ arg, term = .not arg) ∨
      (isAtom term = true ∧ encodeDepthUncached termId encode term s = encodeAtom term s) ∨
      (isPolarised term = true ∧ isAtom term = false ∧
        encodeDepthUncached termId encode term s = encodePolarised termId encode term s) ∨
      (isPolarised term = false ∧ isAtom term = false ∧
        (encodeDepthUncached termId encode term s = gateBeforeArgs termId encode term .both s ∨
          encodeDepthUncached termId encode term s = gateAfterArgs termId encode term s)) := by
  -- A distinct of a Boolean term has two arguments, so it is never folded to a constant.
  cases term with
  | not arg => exact .inl ⟨arg, rfl⟩
  | tru => exact .inr (.inr (.inr ⟨rfl, rfl, .inl rfl⟩))
  | fls => exact .inr (.inr (.inr ⟨rfl, rfl, .inl rfl⟩))
  | and args => exact .inr (.inr (.inl ⟨rfl, rfl, rfl⟩))
  | or args => exact .inr (.inr (.inl ⟨rfl, rfl, rfl⟩))
  | xor lhs rhs => exact .inr (.inr (.inr ⟨rfl, rfl, .inr rfl⟩))
  | implies lhs rhs => exact .inr (.inr (.inr ⟨rfl, rfl, .inr rfl⟩))
  | ite cond thenBr elseBr => exact .inr (.inr (.inr ⟨rfl, rfl, .inr rfl⟩))
  | eq lhs rhs =>
    by_cases boolean : lhs.sort = .bool
    · exact .inr (.inr (.inr ⟨rfl, by simp [isAtom, boolean],
        .inr (by simp [encodeDepthUncached, boolean])⟩))
    · exact .inr (.inl ⟨by simp [isAtom, boolean], by simp [encodeDepthUncached, boolean]⟩)
  | distinct args =>
    have several : ¬ args.length ≤ 1 := by
      have two : 2 ≤ args.length := wellFormed.1
      omega
    exact .inr (.inr (.inr ⟨rfl, rfl, .inl (by simp [encodeDepthUncached, several])⟩))
  | _ => exact .inr (.inl ⟨rfl, rfl⟩)

section

variable {encode : Term → Solver → Lit × Solver}

/-- An encoder that changes no memo entry above the terms of a list. -/
def Frames (encode : Term → Solver → Lit × Solver) (terms : List Term) : Prop :=
  ∀ term ∈ terms, ∀ s, MemoFrame (encodeHeight term + 1) s (encode term s).2

theorem encodeChildren_frame (frames : Frames encode (childTerms termId term)) (s : Solver) :
    MemoFrame (encodeHeight term) s (encodeArgs encode (childTerms termId term) s).2 := by
  refine encodeArgs_frame fun child mem s => (frames child mem s).weaken ?_
  exact encodeHeight_child mem

theorem gateBeforeArgs_frame (frames : Frames encode (childTerms termId term))
    (stored : Polarity) (s : Solver) :
    MemoFrame (encodeHeight term) s (gateBeforeArgs termId encode term stored s).2 := by
  intro other above
  -- Naming the gate and adding clauses leave the memo alone.
  have children := encodeChildren_frame frames (getOrCreateVar term s).2 other above
  simpa [gateBeforeArgs, addClauses] using children

theorem gateAfterArgs_frame (frames : Frames encode (childTerms termId term)) (s : Solver) :
    MemoFrame (encodeHeight term) s (gateAfterArgs termId encode term s).2 := by
  intro other above
  have children := encodeChildren_frame frames s other above
  simpa [gateAfterArgs, addClauses] using children

theorem encodeAtom_frame (term : Term) (height : Nat) (s : Solver) :
    MemoFrame height s (encodeAtom term s).2 := by
  intro other _
  simp [encodeAtom]

theorem memoizeEncoding_frame (term : Term) (lit : Lit) (stored : Polarity) (s : Solver) :
    MemoFrame (encodeHeight term + 1) s (memoizeEncoding term lit stored s) := by
  intro other above
  have ne : other ≠ term := by
    intro same
    rw [same] at above
    omega
  rw [memoizeEncoding_encodedTerms]
  simp [TermMap.set, ne]

end

theorem encodeDepth_frame : ∀ (budget : Nat) (term : Term) (s : Solver), Propositional term →
    MemoFrame (encodeHeight term + 1) s (encodeDepth termId budget term s).2 := by
  intro budget
  induction budget with
  | zero =>
    intro term s _
    unfold encodeDepth
    split
    · exact fun _ _ => rfl
    · exact encodeAtom_frame term _ _
  | succ remaining ih =>
    intro term s wellFormed
    have frames : Frames (encodeDepth termId remaining) (childTerms termId term) :=
      fun child mem s => ih child s (propositional_child wellFormed mem)
    have step := Nat.le_succ (encodeHeight term)
    -- Only the term itself is written besides what its lower children write.
    have uncached : MemoFrame (encodeHeight term + 1) s
        (encodeDepthUncached termId (encodeDepth termId remaining) term s).2 := by
      rcases @encodeDepthUncached_cases termId
        (encodeDepth termId remaining) _ wellFormed s with
        ⟨arg, rfl⟩ | ⟨_, arm⟩ | ⟨_, _, arm⟩ | ⟨_, _, arm | arm⟩
      · exact (ih arg s wellFormed).weaken step
      · rw [arm]
        exact encodeAtom_frame term _ s
      · rw [arm]
        exact ((gateBeforeArgs_frame frames _ s).weaken step).trans
          (memoizeEncoding_frame term _ _ _)
      · rw [arm]
        exact (gateBeforeArgs_frame frames _ s).weaken step
      · rw [arm]
        exact (gateAfterArgs_frame frames s).weaken step
    unfold encodeDepth
    split
    · exact fun _ _ => rfl
    · dsimp only
      split
      · exact uncached.trans (memoizeEncoding_frame term _ _ _)
      · exact uncached

theorem encodeHeight_pos (term : Term) : 0 < encodeHeight term := by
  cases term <;> simp [encodeHeight]

theorem Entry.owned {lit : Lit} {stored : Polarity}
    (entry : Entry termId s term lit stored) (notNot : ∀ arg, term ≠ .not arg) :
    ∃ var, lit = .pos var ∧ s.termToVar term = some var := by
  cases entry with
  | not _ => exact absurd rfl (notNot _)
  | gate _ named _ _ => exact ⟨_, rfl, named⟩

/-- A finished encoding of a term that is not memoised yet. -/
structure Backed (termId : Term → Nat) (base s : Solver) (term : Term) (stored : Polarity)
    (result : Lit × Solver) : Prop where
  progress : Progress termId base s result.2
  entry : Entry termId result.2 term result.1 stored
  children : ∀ child ∈ childTerms termId term, Reusable result.2 child

theorem atom_leaf (atom : isAtom term = true) :
    childTerms termId term = [] ∧ ∀ result stored, gateClauses term result [] stored = [] := by
  cases term with
  | eq lhs rhs =>
    have theory : lhs.sort ≠ .bool := by simpa [isAtom] using atom
    exact ⟨by simp [childTerms, theory], fun _ _ => rfl⟩
  | _ => first | exact ⟨rfl, fun _ _ => rfl⟩ | simp [isAtom] at atom

theorem encodeAtom_backed (sound : Sound termId s)
    (closed : NewClosed termId base s) (atom : isAtom term = true) :
    Backed termId base s term .both (encodeAtom term s) := by
  obtain ⟨childless, clauseless⟩ := @atom_leaf termId _ atom
  obtain ⟨progress, named, _⟩ := getOrCreateVar_progress sound closed term
  refine ⟨progress, ?_, ?_⟩
  · refine @Entry.gate _ _ _ _ _ [] ?_ named ?_ ?_
    · -- A negation is not an atom.
      intro arg same
      rw [same] at atom
      cases atom
    · rw [childless]
      exact .nil
    · rw [clauseless]
      intro clause mem
      cases mem
  · rw [childless]
    intro child mem
    cases mem

theorem encodeNot_backed {arg : Term}
    (works : Encodes termId base encode arg) (sound : Sound termId s)
    (closed : NewClosed termId base s) :
    Backed termId base s (.not arg) .both (encodeDepthUncached termId encode (.not arg) s) := by
  obtain ⟨progress, encoded⟩ := works s sound closed
  obtain ⟨stored, found, _⟩ := id encoded
  refine ⟨progress, .not found, ?_⟩
  intro child mem
  rw [List.mem_singleton.mp mem]
  exact encoded.reusable

theorem gateBeforeArgs_backed (wellFormed : Propositional term) (gate : isAtom term = false)
    (notNot : ∀ arg, term ≠ .not arg) (stored : Polarity)
    (works : ∀ child ∈ childTerms termId term, Encodes termId base encode child)
    (sound : Sound termId s) (closed : NewClosed termId base s) :
    Backed termId base s term stored (gateBeforeArgs termId encode term stored s) := by
  -- Name the gate, encode the children, and then add the clauses over their literals.
  obtain ⟨first, named, _⟩ := getOrCreateVar_progress sound closed term
  obtain ⟨second, encoded⟩ := encodeArgs_spec works first.sound first.closed
  have named' := second.later.termToVar named
  have children := childLits_of_encoded encoded
  have third := addGate_progress second.sound second.closed wellFormed gate named' children stored
  refine ⟨(first.trans second).trans third, ?_, ?_⟩
  · refine .gate notNot (third.later.termToVar named') (children.mono third.later) ?_
    exact fun clause mem => List.mem_append_right _ mem
  · exact fun child mem =>
      (reusable_of_encoded encoded child mem).mono third.later third.polarities

theorem gateAfterArgs_backed (wellFormed : Propositional term) (gate : isAtom term = false)
    (notNot : ∀ arg, term ≠ .not arg)
    (works : ∀ child ∈ childTerms termId term, Encodes termId base encode child)
    (sound : Sound termId s) (closed : NewClosed termId base s) :
    Backed termId base s term .both (gateAfterArgs termId encode term s) := by
  -- Encode the children, name the gate, and then add the clauses over their literals.
  obtain ⟨first, encoded⟩ := encodeArgs_spec works sound closed
  obtain ⟨second, named, _⟩ := getOrCreateVar_progress first.sound first.closed term
  have children := (childLits_of_encoded encoded).mono second.later
  have third := addGate_progress second.sound second.closed wellFormed gate named children .both
  refine ⟨(first.trans second).trans third, ?_, ?_⟩
  · refine .gate notNot (third.later.termToVar named) (children.mono third.later) ?_
    exact fun clause mem => List.mem_append_right _ mem
  · intro child mem
    have reusable := reusable_of_encoded encoded child mem
    exact (reusable.mono second.later second.polarities).mono third.later third.polarities

theorem Backed.memoize {stored : Polarity}
    {result : Lit × Solver} (backed : Backed termId base s term stored result)
    (wellFormed : Propositional term) (recorded : Recorded s term stored)
    (covers : stored.Covers (needed s term))
    (wider : ∀ {old dirs}, result.2.encodedTerms term = some (old, dirs) →
      old = result.1 ∧ stored.Covers dirs) :
    Progress termId base s (memoizeEncoding term result.1 stored result.2) ∧
      Encoded (memoizeEncoding term result.1 stored result.2) term result.1 := by
  have progress := backed.progress
  -- Collected polarities have not moved since the encoding started.
  have recorded' : Recorded result.2 term stored := by
    rcases recorded with both | ⟨gate, wide, collected, includes⟩
    · exact .inl both
    · exact .inr ⟨gate, wide, by rw [progress.polarities]; exact collected, includes⟩
  obtain ⟨last, found⟩ := memoize_progress progress.sound progress.closed wellFormed
    backed.entry recorded' wider backed.children
  refine ⟨progress.trans last, stored, found, ?_⟩
  simp only [needed, last.polarities, progress.polarities]
  exact covers

theorem unmemoised (sound : Sound termId s)
    (miss : ¬ Reusable s term) (whole : isPolarised term = false) :
    s.encodedTerms term = none := by
  cases entry : s.encodedTerms term with
  | none => rfl
  | some pair =>
    obtain ⟨lit, stored⟩ := pair
    -- Only conjunctions and disjunctions are stored with less than both directions.
    rcases sound.recorded entry with both | ⟨gate, _⟩
    · exact absurd ⟨lit, stored, entry, .inl both⟩ miss
    · rw [whole] at gate
      cases gate

theorem Backed.finish {result : Lit × Solver}
    (backed : Backed termId base s term .both result) (wellFormed : Propositional term)
    (missing : s.encodedTerms term = none) (frame : MemoFrame (encodeHeight term) s result.2) :
    let finished := if (result.2.encodedTerms term).isNone then
      (result.1, memoizeEncoding term result.1 .both result.2) else result
    Progress termId base s finished.2 ∧ Encoded finished.2 term finished.1 := by
  have absent : result.2.encodedTerms term = none := by
    rw [frame term (Nat.le_refl _)]
    exact missing
  simp only [absent, isNone_none, if_true]
  refine backed.memoize wellFormed (.inl rfl) (.inl rfl) ?_
  intro old dirs found
  rw [absent] at found
  cases found

theorem encodePolarised_spec (wellFormed : Propositional term) (polarised : isPolarised term = true)
    (gate : isAtom term = false) (notNot : ∀ arg, term ≠ .not arg)
    (works : ∀ child ∈ childTerms termId term, Encodes termId base encode child)
    (frames : Frames encode (childTerms termId term)) (sound : Sound termId s)
    (closed : NewClosed termId base s) (miss : ¬ Reusable s term) :
    Progress termId base s (encodePolarised termId encode term s).2 ∧
      Encoded (encodePolarised termId encode term s).2 term
        (encodePolarised termId encode term s).1 := by
  have backed := gateBeforeArgs_backed wellFormed gate notNot (needed s term) works sound closed
  have recorded : Recorded s term (needed s term) := by
    unfold needed
    cases collected : s.polarities term with
    | none => exact .inl rfl
    | some polarity => exact .inr ⟨polarised, polarity, collected, .inr rfl⟩
  refine backed.memoize wellFormed recorded (.inr rfl) ?_
  -- An older entry for the term is over the same variable and was emitted for fewer directions.
  intro old dirs found
  have found' : s.encodedTerms term = some (old, dirs) := by
    rw [← gateBeforeArgs_frame frames (needed s term) s term (Nat.le_refl _)]
    exact found
  constructor
  · obtain ⟨var, here, named⟩ := (backed.progress.sound.entries found).owned notNot
    obtain ⟨var', here', named'⟩ := backed.entry.owned notNot
    rw [named, some.injEq] at named'
    rw [here, here', named']
  · rcases sound.recorded found' with both | ⟨_, wide, collected, includes⟩
    · exact absurd ⟨old, dirs, found', .inl both⟩ miss
    · simp only [needed, collected, getD_some]
      exact includes

theorem encodeDepth_spec : ∀ {budget : Nat} {term : Term},
    Propositional term → encodeHeight term ≤ budget →
    Encodes termId base (encodeDepth termId budget) term := by
  intro budget
  induction budget with
  | zero =>
    intro term _ within
    have := encodeHeight_pos term
    omega
  | succ remaining ih =>
    intro term wellFormed within s sound closed
    -- Children are lower, so the remaining budget suffices for them.
    have works : ∀ child ∈ childTerms termId term,
        Encodes termId base (encodeDepth termId remaining) child := by
      intro child mem
      have lower := encodeHeight_child mem
      exact ih (propositional_child wellFormed mem) (by omega)
    have frames : Frames (encodeDepth termId remaining) (childTerms termId term) :=
      fun child mem s => encodeDepth_frame remaining child s (propositional_child wellFormed mem)
    unfold encodeDepth
    cases hit : memoHit s term with
    | some lit =>
      -- A memo hit changes nothing.
      obtain ⟨stored, found, covers⟩ := memoHit_some.mp hit
      exact ⟨.refl sound closed, stored, found, covers⟩
    | none =>
      have miss := memoHit_none.mp hit
      dsimp only
      by_cases negation : ∃ arg, term = .not arg
      · -- A negation shares its operand's literal.
        obtain ⟨arg, rfl⟩ := negation
        refine (encodeNot_backed (works arg (by simp [childTerms])) sound closed).finish
          wellFormed (unmemoised sound miss rfl) ?_
        exact encodeDepth_frame remaining arg s wellFormed
      have notNot : ∀ arg, term ≠ .not arg := fun arg same => negation ⟨arg, same⟩
      rcases @encodeDepthUncached_cases termId
        (encodeDepth termId remaining) _ wellFormed s with
        operand | ⟨atom, arm⟩ | ⟨polarised, gate, arm⟩ | ⟨whole, gate, arm | arm⟩
      · exact absurd operand negation
      · rw [arm]
        have whole : isPolarised term = false := by cases term <;> first | rfl | cases atom
        exact (encodeAtom_backed sound closed atom).finish wellFormed
          (unmemoised sound miss whole) (encodeAtom_frame term _ s)
      · rw [arm]
        obtain ⟨progress, encoded⟩ := encodePolarised_spec wellFormed polarised gate notNot
          works frames sound closed miss
        obtain ⟨stored, found, _⟩ := id encoded
        -- The arm has memoised the term itself, so the tail has nothing to store.
        simp only [found, isNone_some, Bool.false_eq_true, if_false]
        exact ⟨progress, encoded⟩
      · rw [arm]
        exact (gateBeforeArgs_backed wellFormed gate notNot .both works sound closed).finish
          wellFormed (unmemoised sound miss whole) (gateBeforeArgs_frame frames .both s)
      · rw [arm]
        exact (gateAfterArgs_backed wellFormed gate notNot works sound closed).finish
          wellFormed (unmemoised sound miss whole) (gateAfterArgs_frame frames s)

end Nixie.Tseitin
