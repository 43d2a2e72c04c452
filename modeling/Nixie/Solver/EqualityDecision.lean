import Nixie.Solver.EqualityLogic

/-! Transitivity clauses decide equality logic exactly up to the sizes of bit-vector sorts. -/

namespace Nixie.EqualityGraph

open List Option

variable {state : State} {base : Cnf}

theorem Encoded.key_injective (encoded : Encoded state base) {atom atom' : EqAtom}
    (mem : atom ∈ allEqAtoms state.assertions) (mem' : atom' ∈ allEqAtoms state.assertions)
    (same : atom.key = atom'.key) : atom = atom' := by
  -- Ordered operands rule out a swap, and interning fixes the sorts.
  obtain ⟨sortOf, sorted⟩ := encoded.sorted
  have first := encoded.ordered atom mem
  have second := encoded.ordered atom' mem'
  rcases atom with ⟨a, s, b, s'⟩
  rcases atom' with ⟨c, r, d, r'⟩
  have left := sorted _ mem
  have right := sorted _ mem'
  simp only [EqAtom.key, canonical_eq_iff] at same first second left right
  rcases same with ⟨rfl, rfl⟩ | ⟨rfl, rfl⟩
  · simp [left.1, left.2.1, right.1, right.2.1]
  · omega

theorem foldl_record_lookup {atoms : List EqAtom}
    (unique : ∀ atom ∈ atoms, ∀ atom' ∈ atoms, atom.key = atom'.key → atom = atom')
    (named : ∀ atom ∈ atoms, ∃ var, state.termToVar atom.term = some var) (edges : EdgeVar)
    {key : Nat × Nat} {var : Nat} :
    (atoms.foldl (record state) edges).lookup key = some var ↔
      (∃ atom ∈ atoms, atom.key = key ∧ state.termToVar atom.term = some var) ∨
        ((∀ atom ∈ atoms, atom.key ≠ key) ∧ edges.lookup key = some var) := by
  -- The induction follows the fold; a later record of the same key repeats the same atom.
  induction atoms generalizing edges with
  | nil => simp
  | cons atom rest ih =>
    have tail := ih (fun a m a' m' => unique a (by simp [m]) a' (by simp [m']))
      (fun a m => named a (by simp [m])) (record state edges atom)
    obtain ⟨own, ownVar⟩ := named atom (by simp)
    rw [foldl_cons, tail]
    by_cases here : atom.key = key
    · subst here
      simp only [record, AList.lookup_insert, ownVar, getD_some, some.injEq]
      constructor
      · rintro (⟨other, mem, sameKey, found⟩ | ⟨_, rfl⟩)
        · exact .inl ⟨other, by simp [mem], sameKey, found⟩
        · exact .inl ⟨atom, by simp, rfl, ownVar⟩
      · rintro (⟨other, mem, sameKey, found⟩ | ⟨absent, _⟩)
        · have only : other = atom := unique other mem atom (by simp) sameKey
          subst only
          by_cases again : ∃ later ∈ rest, later.key = other.key
          · obtain ⟨later, inRest, laterKey⟩ := again
            have equal := unique later (by simp [inRest]) other (by simp) laterKey
            exact .inl ⟨later, inRest, laterKey, equal ▸ found⟩
          · refine .inr ⟨fun later inRest laterKey => again ⟨later, inRest, laterKey⟩, ?_⟩
            rw [ownVar] at found
            exact some.inj found
        · exact absurd rfl (absent atom (by simp))
    · simp only [record, AList.lookup_insert_ne (Ne.symm here), mem_cons,
        exists_eq_or_imp, forall_eq_or_imp, here, false_and, false_or, ne_eq,
        not_false_eq_true, true_and]

theorem numberTerms_spec : ∀ (keys : List (Nat × Nat)) (idxTerm : List Nat), idxTerm.Nodup →
    (numberTerms keys idxTerm).Nodup ∧ (∀ t ∈ idxTerm, t ∈ numberTerms keys idxTerm) ∧
      ∀ key ∈ keys, key.1 ∈ numberTerms keys idxTerm ∧ key.2 ∈ numberTerms keys idxTerm := by
  have push : ∀ (idxTerm : List Nat) (term : Nat), idxTerm.Nodup →
      (pushTerm idxTerm term).Nodup ∧ (∀ t ∈ idxTerm, t ∈ pushTerm idxTerm term) ∧
        term ∈ pushTerm idxTerm term := by
    intro idxTerm term nodup
    by_cases known : term ∈ idxTerm
    · simp [pushTerm, known, nodup]
    · simp only [pushTerm, known, if_false]
      refine ⟨nodup.append (by simp) (by simpa using known), fun t mem => ?_, by simp⟩
      simp [mem]
  -- Each edge pushes its two endpoints, and numbering never forgets a term.
  intro keys
  induction keys with
  | nil => intro idxTerm nodup; exact ⟨nodup, fun _ mem => mem, by simp⟩
  | cons key rest ih =>
    intro idxTerm nodup
    rcases key with ⟨a, b⟩
    obtain ⟨nodupA, keepA, hasA⟩ := push idxTerm a nodup
    obtain ⟨nodupB, keepB, hasB⟩ := push (pushTerm idxTerm a) b nodupA
    obtain ⟨nodupRest, keepRest, hasRest⟩ := ih _ nodupB
    refine ⟨nodupRest, fun t mem => keepRest t (keepB t (keepA t mem)), ?_⟩
    intro key mem
    rcases mem_cons.mp mem with rfl | mem
    · exact ⟨keepRest a (keepB a hasA), keepRest b hasB⟩
    · exact hasRest key mem

variable {idxTerm : List Nat}

theorem buildAdj_iff : ∀ (keys : List (Nat × Nat)) (adj : Adj) (i j : Nat),
      buildAdj idxTerm keys adj i j = true ↔ adj i j = true ∨
        ∃ key ∈ keys, idxTerm.idxOf key.1 ≠ idxTerm.idxOf key.2 ∧
          ((i = idxTerm.idxOf key.1 ∧ j = idxTerm.idxOf key.2) ∨
            (i = idxTerm.idxOf key.2 ∧ j = idxTerm.idxOf key.1)) := by
  -- Every enumerated edge contributes its two orientations unless it is a loop.
  intro keys
  induction keys with
  | nil => simp [buildAdj]
  | cons key rest ih =>
    intro adj i j
    rcases key with ⟨a, b⟩
    rw [buildAdj, ih]
    by_cases loop : idxTerm.idxOf a = idxTerm.idxOf b
    · simp [loop]
    · simp only [ne_eq, loop, not_false_eq_true, if_true, connect_iff, mem_cons,
        exists_eq_or_imp, true_and]
      exact or_assoc

theorem termAt_idxOf {t : Nat} (mem : t ∈ idxTerm) : termAt idxTerm (idxTerm.idxOf t) = t := by
  have lies := idxOf_lt_length_of_mem mem
  simp [termAt, getD_eq_getElem?_getD, getElem?_eq_getElem lies]

theorem buildAdj_linked {edges : EdgeVar} {keys : List (Nat × Nat)} {start : Nat}
    (perm : keys.Perm edges.keys) (ordered : ∀ key ∈ edges, key.1 < key.2)
    (injective : ∀ {key key' var}, edges.lookup key = some var →
      edges.lookup key' = some var → key = key')
    (below : ∀ {key var}, edges.lookup key = some var → var < start) :
    Linked (numberTerms keys []) start edges
      ⟨buildAdj (numberTerms keys []) keys (fun _ _ => false), edges, start⟩ := by
  obtain ⟨nodup, _, covered⟩ := numberTerms_spec keys [] nodup_nil
  have mem_iff : ∀ key, key ∈ keys ↔ key ∈ edges := fun key => perm.mem_iff
  have adj : ∀ i j, buildAdj (numberTerms keys []) keys (fun _ _ => false) i j = true ↔
      ∃ key ∈ keys, (numberTerms keys []).idxOf key.1 ≠ (numberTerms keys []).idxOf key.2 ∧
        ((i = (numberTerms keys []).idxOf key.1 ∧ j = (numberTerms keys []).idxOf key.2) ∨
          (i = (numberTerms keys []).idxOf key.2 ∧ j = (numberTerms keys []).idxOf key.1)) := by
    intro i j
    rw [buildAdj_iff]
    simp
  refine
    { simple := ⟨fun {i j} edge => ?_, fun i => ?_, fun {i j} edge => ?_⟩
      linked := fun {i j} iIn jIn differ => ?_
      injective := injective
      below := below
      extends_ := fun found => found
      fresh := fun found => .inl found
      grows := le_rfl }
  · obtain ⟨key, mem, distinct, ends⟩ := (adj i j).mp edge
    exact (adj j i).mpr ⟨key, mem, distinct, by tauto⟩
  · rw [← Bool.not_eq_true, adj]
    rintro ⟨key, _, distinct, ⟨left, right⟩ | ⟨left, right⟩⟩
    · exact distinct (left.symm.trans right)
    · exact distinct (right.symm.trans left)
  · obtain ⟨key, mem, _, ⟨rfl, _⟩ | ⟨rfl, _⟩⟩ := (adj i j).mp edge
    · exact idxOf_lt_length_of_mem (covered key mem).1
    · exact idxOf_lt_length_of_mem (covered key mem).2
  · rw [adj]
    constructor
    · -- An enumerated edge is stored under its own canonical pair.
      rintro ⟨⟨a, b⟩, mem, _, ends⟩
      have hasA := (covered _ mem).1
      have hasB := (covered _ mem).2
      have stored : (a, b) ∈ edges := (mem_iff _).mp mem
      have less : a < b := ordered _ stored
      rcases ends with ⟨rfl, rfl⟩ | ⟨rfl, rfl⟩
      · simpa [termAt_idxOf hasA, termAt_idxOf hasB, canonical, less] using stored
      · rw [canonical_comm]
        simpa [termAt_idxOf hasA, termAt_idxOf hasB, canonical, less] using stored
    · -- A stored pair over two indices is enumerated and read back through the numbering.
      intro stored
      have position : ∀ k < (numberTerms keys []).length,
          (numberTerms keys []).idxOf (termAt (numberTerms keys []) k) = k := by
        intro k lies
        have back : termAt (numberTerms keys []) k ∈ numberTerms keys [] := by
          simp [termAt, getD_eq_getElem?_getD, getElem?_eq_getElem lies]
        exact termAt_injective nodup (idxOf_lt_length_of_mem back) lies (termAt_idxOf back)
      rcases Nat.lt_or_ge (termAt (numberTerms keys []) i) (termAt (numberTerms keys []) j)
        with less | more
      · simp only [canonical, less, if_true] at stored
        refine ⟨_, (mem_iff _).mpr stored, ?_, .inl ⟨?_, ?_⟩⟩
        · simpa [position i iIn, position j jIn] using differ
        · exact (position i iIn).symm
        · exact (position j jIn).symm
      · simp only [canonical, Nat.not_lt.mpr more, if_false] at stored
        refine ⟨_, (mem_iff _).mpr stored, ?_, .inr ⟨?_, ?_⟩⟩
        · simpa [position i iIn, position j jIn] using differ.symm
        · exact (position i iIn).symm
        · exact (position j jIn).symm

theorem varOf_comm {edgeVar : EdgeVar} (i j : Nat) :
    varOf idxTerm edgeVar i j = varOf idxTerm edgeVar j i := by
  rw [varOf, varOf, canonical_comm]

theorem mem_trianglesAt {fill : Fill} {v : Nat} {clause : Clause} :
    ∀ {larger : List Nat}, larger.Pairwise (· < ·) → (clause ∈ trianglesAt idxTerm fill v larger ↔
        ∃ a ∈ larger, ∃ b ∈ larger, a < b ∧ fill.adj a b = true ∧
          clause ∈ triangleClauses (varOf idxTerm fill.edgeVar v a)
            (varOf idxTerm fill.edgeVar v b) (varOf idxTerm fill.edgeVar a b)) := by
  -- Sorted order turns "later in the list" into "larger index".
  intro larger
  induction larger with
  | nil => simp [trianglesAt]
  | cons a rest ih =>
    intro sorted
    obtain ⟨above, tail⟩ := pairwise_cons.mp sorted
    rw [trianglesAt, mem_append, ih tail]
    simp only [mem_flatMap, mem_filter]
    constructor
    · rintro (⟨b, ⟨mem, edge⟩, lies⟩ | ⟨c, cIn, b, bIn, less, edge, lies⟩)
      · exact ⟨a, by simp, b, by simp [mem], above b mem, edge, lies⟩
      · exact ⟨c, by simp [cIn], b, by simp [bIn], less, edge, lies⟩
    · rintro ⟨c, cIn, b, bIn, less, edge, lies⟩
      rcases mem_cons.mp cIn with rfl | cRest
      · rcases mem_cons.mp bIn with rfl | bRest
        · omega
        · exact .inl ⟨b, ⟨bRest, edge⟩, lies⟩
      · rcases mem_cons.mp bIn with rfl | bRest
        · have := above c cRest
          omega
        · exact .inr ⟨c, cRest, b, bRest, less, edge, lies⟩

theorem mem_transitivityClauses {n : Nat} {fill : Fill} {clause : Clause}
    (simple : SimpleAdj n fill.adj) :
    clause ∈ transitivityClauses idxTerm n fill ↔
      ∃ v a b, v < a ∧ a < b ∧ fill.adj v a = true ∧ fill.adj v b = true ∧ fill.adj a b = true ∧
        clause ∈ triangleClauses (varOf idxTerm fill.edgeVar v a)
          (varOf idxTerm fill.edgeVar v b) (varOf idxTerm fill.edgeVar a b) := by
  -- Filtering a range keeps it sorted, so each vertex lists its larger neighbours in order.
  have sorted : ∀ v, ((range n).filter fun u => fill.adj v u && decide (v < u)).Pairwise
      (· < ·) := fun v => pairwise_lt_range.filter _
  have bounded : ∀ {i j}, fill.adj i j = true → j < n := fun edge =>
    simple.bounded (simple.symm edge)
  simp only [transitivityClauses, mem_flatMap, mem_trianglesAt (sorted _), mem_filter,
    mem_range, Bool.and_eq_true, decide_eq_true_eq]
  constructor
  · rintro ⟨v, _, a, ⟨_, va, less⟩, b, ⟨_, vb, _⟩, ab, edge, lies⟩
    exact ⟨v, a, b, less, ab, va, vb, edge, lies⟩
  · rintro ⟨v, a, b, less, ab, va, vb, edge, lies⟩
    exact ⟨v, simple.bounded va, a, ⟨bounded va, va, less⟩, b,
      ⟨bounded vb, vb, less.trans ab⟩, ab, edge, lies⟩

theorem models_triangleClauses {m : Assignment} {va vb ab : Nat} :
    Models m (triangleClauses va vb ab) ↔ (m va = true → m vb = true → m ab = true) ∧
        (m va = true → m ab = true → m vb = true) ∧
        (m vb = true → m ab = true → m va = true) := by
  simp only [triangleClauses, models_cons, models_nil, satisfies_cons, satisfies_nil,
    Lit.holds_pos, Lit.holds_neg]
  cases m va <;> cases m vb <;> cases m ab <;> simp

/-- The edge between two indices is chosen by the assignment. -/
def Chosen (idxTerm : List Nat) (fill : Fill) (assignment : Assignment) (i j : Nat) : Prop :=
  fill.adj i j = true ∧ assignment (varOf idxTerm fill.edgeVar i j) = true

def chosenGraph {n : Nat} (idxTerm : List Nat) (fill : Fill) (assignment : Assignment)
    (simple : SimpleAdj n fill.adj) : SimpleGraph Nat where
  Adj := Chosen idxTerm fill assignment
  symm := ⟨fun _ _ chosen => ⟨simple.symm chosen.1, by rw [varOf_comm]; exact chosen.2⟩⟩
  loopless := ⟨fun i chosen => by simp [Chosen, simple.loopless] at chosen⟩

theorem chosen_triangleClosed {n : Nat} {fill : Fill}
    {m : Assignment} (simple : SimpleAdj n fill.adj)
    (models : Models m (transitivityClauses idxTerm n fill)) :
    TriangleClosed (filledGraph fill.adj simple)
      (chosenGraph idxTerm fill m simple) := by
  -- A triangle in increasing order carries all three implications.
  have sorted : ∀ {v a b}, v < a → a < b → fill.adj v a = true → fill.adj v b = true →
      fill.adj a b = true →
      Models m (triangleClauses (varOf idxTerm fill.edgeVar v a)
        (varOf idxTerm fill.edgeVar v b) (varOf idxTerm fill.edgeVar a b)) :=
    fun va ab edgeVA edgeVB edgeAB clause lies => models clause
      ((mem_transitivityClauses simple).mpr ⟨_, _, _, va, ab, edgeVA, edgeVB, edgeAB, lies⟩)
  refine ⟨fun i j chosen => chosen.1, fun {a b c} first second edge => ⟨edge, ?_⟩⟩
  have ab := first.1
  have bc := second.1
  have ac : fill.adj a c = true := edge
  have trueAB : m (varOf idxTerm fill.edgeVar a b) = true := first.2
  have trueBC : m (varOf idxTerm fill.edgeVar b c) = true := second.2
  -- The six orders of the corners read the same three clauses in different roles.
  rcases Nat.lt_trichotomy a b with aLtB | same | bLtA
  · rcases Nat.lt_trichotomy b c with bLtC | same | cLtB
    · exact (models_triangleClauses.mp (sorted aLtB bLtC ab ac bc)).2.1 trueAB trueBC
    · exact absurd same (simple.ne bc)
    · rcases Nat.lt_trichotomy a c with aLtC | same | cLtA
      · rw [varOf_comm b c] at trueBC
        exact (models_triangleClauses.mp (sorted aLtC cLtB ac ab (simple.symm bc))).2.2
          trueAB trueBC
      · exact absurd same (simple.ne ac)
      · rw [varOf_comm b c] at trueBC
        rw [varOf_comm a c]
        exact (models_triangleClauses.mp (sorted cLtA aLtB (simple.symm ac) (simple.symm bc)
          ab)).2.2 trueBC trueAB
  · exact absurd same (simple.ne ab)
  · rcases Nat.lt_trichotomy a c with aLtC | same | cLtA
    · rw [varOf_comm a b] at trueAB
      exact (models_triangleClauses.mp (sorted bLtA aLtC (simple.symm ab) bc ac)).1 trueAB trueBC
    · exact absurd same (simple.ne ac)
    · rw [varOf_comm a b] at trueAB
      rcases Nat.lt_trichotomy b c with bLtC | same | cLtB
      · rw [varOf_comm a c]
        exact (models_triangleClauses.mp (sorted bLtC cLtA bc (simple.symm ab)
          (simple.symm ac))).1 trueBC trueAB
      · exact absurd same (simple.ne bc)
      · rw [varOf_comm b c] at trueBC
        rw [varOf_comm a c]
        exact (models_triangleClauses.mp (sorted cLtB bLtA (simple.symm bc) (simple.symm ac)
          (simple.symm ab))).2.1 trueBC trueAB

/-- What an accepted run has computed by the time it adds clauses. -/
structure Prepared (state : State) (outcome : Outcome) (idxTerm : List Nat) (edges : EdgeVar)
    (fill : Fill) : Prop where
  nodup : idxTerm.Nodup
  linked : Linked idxTerm state.numVars edges fill
  perfect : ∃ rank, PerfectElimination (filledGraph fill.adj linked.simple) rank
  added : outcome.added = transitivityClauses idxTerm idxTerm.length fill
  recorded : ∀ {key var}, edges.lookup key = some var ↔
    ∃ atom ∈ allEqAtoms state.assertions, atom.key = key ∧ state.termToVar atom.term = some var
  named : ∀ atom ∈ allEqAtoms state.assertions, ∃ var, state.termToVar atom.term = some var
  numbered : ∀ atom ∈ allEqAtoms state.assertions, atom.lhs ∈ idxTerm ∧ atom.rhs ∈ idxTerm

theorem prepared_of_accepted {order : HashOrder} {outcome : Outcome}
    (encoded : Encoded state base)
    (accepted : equalityTransitivityPreprocess order state = some outcome) :
    ∃ idxTerm edges fill, Prepared state outcome idxTerm edges fill := by
  unfold equalityTransitivityPreprocess at accepted
  split at accepted
  · cases accepted
  split at accepted
  · cases accepted
  rename_i edges walked
  split at accepted
  · cases accepted
  cases accepted
  -- The walk records the encoded atoms and nothing else.
  obtain ⟨folded, named⟩ := collectAllEdges_spec state _ _ _ walked
  have recorded : ∀ {key var}, edges.lookup key = some var ↔
      ∃ atom ∈ allEqAtoms state.assertions, atom.key = key ∧
        state.termToVar atom.term = some var := by
    intro key var
    rw [folded, foldl_record_lookup
      (fun atom mem atom' mem' => encoded.key_injective mem mem') named]
    simp
  have keyOf : ∀ key ∈ edges, ∃ atom ∈ allEqAtoms state.assertions, atom.key = key := by
    intro key mem
    obtain ⟨var, found⟩ := isSome_iff_exists.mp (AList.lookup_isSome.mpr mem)
    obtain ⟨atom, lies, same, _⟩ := recorded.mp found
    exact ⟨atom, lies, same⟩
  have start := @buildAdj_linked edges _ state.numVars
    (order.perm edges.keys)
    (by
      intro key mem
      obtain ⟨atom, lies, rfl⟩ := keyOf key mem
      have less := encoded.ordered atom lies
      simp [EqAtom.key, canonical, less])
    (by
      intro key key' var found found'
      obtain ⟨atom, _, rfl, first⟩ := recorded.mp found
      obtain ⟨atom', _, rfl, second⟩ := recorded.mp found'
      rw [EqAtom.term_injective (encoded.injective _ _ _ first second)])
    (by
      intro key var found
      obtain ⟨atom, _, _, first⟩ := recorded.mp found
      exact encoded.bounded _ _ first)
  have nodup := (numberTerms_spec (order.arrange edges.keys) [] nodup_nil).1
  obtain ⟨linked, perfect⟩ := eliminate_perfect nodup start
  refine ⟨_, edges, _, nodup, linked, perfect, rfl, recorded, named, fun atom mem => ?_⟩
  -- Each atom's key is among the enumerated edges, so both its operands were pushed.
  obtain ⟨var, found⟩ := named atom mem
  have stored : atom.key ∈ edges :=
    AList.lookup_isSome.mp (by rw [recorded.mpr ⟨atom, mem, rfl, found⟩]; rfl)
  have covered := (numberTerms_spec (order.arrange edges.keys) [] nodup_nil).2.2 atom.key
    ((order.perm edges.keys).mem_iff.mpr stored)
  have less := encoded.ordered atom mem
  simp only [EqAtom.key, canonical, less, if_true] at covered
  exact covered

section

variable {outcome : Outcome} {idxTerm : List Nat} {edges : EdgeVar} {fill : Fill}

theorem Prepared.atom_edge (prepared : Prepared state outcome idxTerm edges fill)
    (encoded : Encoded state base) {atom : EqAtom}
    (mem : atom ∈ allEqAtoms state.assertions) :
    fill.adj (idxTerm.idxOf atom.lhs) (idxTerm.idxOf atom.rhs) = true ∧ state.termToVar atom.term =
        some (varOf idxTerm fill.edgeVar (idxTerm.idxOf atom.lhs) (idxTerm.idxOf atom.rhs)) := by
  obtain ⟨left, right⟩ := prepared.numbered atom mem
  obtain ⟨var, found⟩ := prepared.named atom mem
  have stored : fill.edgeVar.lookup atom.key = some var :=
    prepared.linked.extends_ (prepared.recorded.mpr ⟨atom, mem, rfl, found⟩)
  have less := encoded.ordered atom mem
  have differ : idxTerm.idxOf atom.lhs ≠ idxTerm.idxOf atom.rhs := fun same =>
    absurd ((idxOf_inj left).mp same) (by omega)
  constructor
  · rw [prepared.linked.linked (idxOf_lt_length_of_mem left)
      (idxOf_lt_length_of_mem right) differ, termAt_idxOf left, termAt_idxOf right]
    exact AList.lookup_isSome.mp (by rw [EqAtom.key] at stored; rw [stored]; rfl)
  · rw [varOf, termAt_idxOf left, termAt_idxOf right, found]
    rw [EqAtom.key] at stored
    rw [stored, getD_some]

theorem Prepared.edge_var (prepared : Prepared state outcome idxTerm edges fill) {i j : Nat}
    (edge : fill.adj i j = true) :
    fill.edgeVar.lookup (canonical (termAt idxTerm i) (termAt idxTerm j)) =
      some (varOf idxTerm fill.edgeVar i j) := by
  -- The link turns the edge into a stored pair, which the lookup then returns.
  have simple := prepared.linked.simple
  have stored := (prepared.linked.linked (simple.bounded edge)
    (simple.bounded (simple.symm edge)) (simple.ne edge)).mp edge
  obtain ⟨var, found⟩ := isSome_iff_exists.mp (AList.lookup_isSome.mpr stored)
  rw [varOf, found, getD_some]

/-- The class of a variable: a fixed member of its component among the chosen edges. -/
noncomputable def classOf (prepared : Prepared state outcome idxTerm edges fill)
    (assignment : Assignment) (id : Nat) : Nat :=
  ((chosenGraph idxTerm fill assignment prepared.linked.simple).connectedComponentMk
    (idxTerm.idxOf id)).out

theorem classOf_eq_iff (prepared : Prepared state outcome idxTerm edges fill)
    (encoded : Encoded state base) {m : Assignment}
    (models : Models m outcome.added) {atom : EqAtom}
    (mem : atom ∈ allEqAtoms state.assertions) :
    classOf prepared m atom.lhs = classOf prepared m atom.rhs ↔
      AtomTrue state m atom := by
  obtain ⟨edge, named⟩ := prepared.atom_edge encoded mem
  have meaning : AtomTrue state m atom ↔ (chosenGraph idxTerm fill m prepared.linked.simple).Adj
        (idxTerm.idxOf atom.lhs) (idxTerm.idxOf atom.rhs) := by
    constructor
    · rintro ⟨var, found, true_⟩
      rw [named, some.injEq] at found
      exact ⟨edge, found ▸ true_⟩
    · rintro ⟨_, true_⟩
      exact ⟨_, named, true_⟩
  rw [meaning]
  constructor
  · -- Connected neighbours of a chordal graph with closed triangles are joined directly.
    intro same
    have component := congrArg
      (chosenGraph idxTerm fill m prepared.linked.simple).connectedComponentMk same
    have represents : ∀ whole : (chosenGraph idxTerm fill m
        prepared.linked.simple).ConnectedComponent,
        (chosenGraph idxTerm fill m prepared.linked.simple).connectedComponentMk
          (Quot.out whole) = whole := Quot.out_eq
    simp only [classOf, represents] at component
    obtain ⟨rank, perfect⟩ := prepared.perfect
    have closed := chosen_triangleClosed prepared.linked.simple (prepared.added ▸ models)
    exact closed.adj_of_reachable perfect (SimpleGraph.ConnectedComponent.exact component) edge
  · intro joined
    rw [classOf, classOf, SimpleGraph.ConnectedComponent.sound joined.reachable]

/-- The class numbers read as elements of each sort. -/
noncomputable def classValue (prepared : Prepared state outcome idxTerm edges fill)
    (assignment : Assignment) : Valuation (UnlimitedDomain fun _ => Nat) := fun id sort =>
  match sort with
  | .bool => boolValue state assignment id
  | .int => (classOf prepared assignment id : Int)
  | .real => (classOf prepared assignment id : ℝ)
  | .bitVec _ => classOf prepared assignment id
  | .uninterpreted _ => classOf prepared assignment id

theorem unlimited_of_satisfiable (prepared : Prepared state outcome idxTerm edges fill)
    (encoded : Encoded state base) (sat : Satisfiable (base ++ outcome.added)) :
    HasUnlimitedModel state.assertions := by
  obtain ⟨m, models⟩ := sat
  rw [models_append] at models
  have skeleton : SkeletonModel state m := (encoded.faithful m).mp ⟨m, models.1, fun _ _ _ _ => rfl⟩
  refine ⟨fun _ => Nat, classValue prepared m, fun term asserted => ?_⟩
  refine (holds_congr term fun atom lies => ?_).mp (skeleton.holds term asserted)
  have mem : atom ∈ allEqAtoms state.assertions := mem_allEqAtoms asserted lies
  have classes := classOf_eq_iff prepared encoded models.2 mem
  obtain ⟨sortOf, sorted⟩ := encoded.sorted
  have sameSort := (sorted atom mem).2.2
  have gate := skeleton.gates atom mem
  -- Boolean atoms read their gate; all other sorts read the class number injectively.
  rcases atom with ⟨a, sort, b, sort'⟩
  simp only at sameSort classes gate
  subst sameSort
  rw [identical_iff]
  cases sort with
  | bool => exact gate rfl
  | int => exact classes.symm.trans Int.natCast_inj.symm
  | real => exact classes.symm.trans (Nat.cast_inj (R := ℝ)).symm
  | bitVec width => exact classes.symm
  | uninterpreted name => exact classes.symm

/-- Truth of an input term in a model: identity for atoms, the value for Boolean variables. -/
def InputTruth {carrier : Nat → Type} (value : Valuation (UnlimitedDomain carrier)) : Term → Prop
  | .eq lhs rhs => ∃ atom ∈ eqAtom lhs rhs, Identical value atom
  | .var id .bool => value id .bool = true
  | _ => False

/-- The SAT values that a model gives to the variables of the input terms. -/
noncomputable def inputAssignment {carrier : Nat → Type} (state : State)
    (value : Valuation (UnlimitedDomain carrier)) : Assignment := fun var =>
  open Classical in decide (∃ term, state.termToVar term = some var ∧ InputTruth value term)

theorem inputAssignment_iff {carrier : Nat → Type} (encoded : Encoded state base)
    (value : Valuation (UnlimitedDomain carrier)) {term : Term} {var : Nat}
    (named : state.termToVar term = some var) :
    inputAssignment state value var = true ↔ InputTruth value term := by
  -- No other term shares the variable.
  simp only [inputAssignment, decide_eq_true_eq]
  constructor
  · rintro ⟨other, otherNamed, holds⟩
    rwa [encoded.injective _ _ _ named otherNamed]
  · exact fun holds => ⟨term, named, holds⟩

theorem skeletonModel_of_model {carrier : Nat → Type}
    (prepared : Prepared state outcome idxTerm edges fill) (encoded : Encoded state base)
    {value : Valuation (UnlimitedDomain carrier)}
    (holds : ∀ term ∈ state.assertions, Holds (Identical value) term) :
    SkeletonModel state (inputAssignment state value) := by
  have atoms : ∀ atom ∈ allEqAtoms state.assertions,
      (Identical value atom ↔ AtomTrue state (inputAssignment state value) atom) := by
    intro atom mem
    obtain ⟨var, named⟩ := prepared.named atom mem
    have meaning := inputAssignment_iff encoded value named
    simp only [EqAtom.term, InputTruth, eqAtom, mem_some_iff, exists_eq_left'] at meaning
    rw [← meaning]
    constructor
    · exact fun true_ => ⟨var, named, true_⟩
    · rintro ⟨var', named', true_⟩
      rw [named, some.injEq] at named'
      exact named' ▸ true_
  have bools : ∀ id var, state.termToVar (.var id .bool) = some var →
      boolValue state (inputAssignment state value) id = value id .bool := by
    intro id var named
    have meaning := inputAssignment_iff encoded value named
    simp only [InputTruth] at meaning
    simp only [boolValue, named, elim_some]
    exact Bool.eq_iff_iff.mpr meaning
  refine ⟨fun term asserted => ?_, fun atom mem boolean => ?_⟩
  · exact (holds_congr term fun atom lies =>
      atoms atom (mem_allEqAtoms asserted lies)).mp (holds term asserted)
  · -- Identity of Boolean elements is the equivalence that the gate states.
    obtain ⟨sortOf, sorted⟩ := encoded.sorted
    obtain ⟨⟨left, leftNamed⟩, ⟨right, rightNamed⟩⟩ := encoded.operands atom mem boolean
    rw [← atoms atom mem, bools _ _ leftNamed, bools _ _ rightNamed]
    have sameSort := (sorted atom mem).2.2
    rcases atom with ⟨a, sort, b, sort'⟩
    simp only at sameSort boolean
    subst sameSort boolean
    exact identical_iff

def element {carrier : Nat → Type} (sortOf : Nat → SortKind)
    (value : Valuation (UnlimitedDomain carrier)) (id : Nat) :
    Sigma (UnlimitedDomain carrier) := ⟨sortOf id, value id (sortOf id)⟩

/-- The old values below the bound, and identity of the operands on the chord variables. -/
noncomputable def extendAssignment {carrier : Nat → Type} (bound : Nat) (fill : Fill)
    (sortOf : Nat → SortKind) (value : Valuation (UnlimitedDomain carrier))
    (old : Assignment) : Assignment := fun var =>
  open Classical in
  if var < bound then old var
  else decide (∃ key, fill.edgeVar.lookup key = some var ∧
    element sortOf value key.1 = element sortOf value key.2)

theorem element_canonical {carrier : Nat → Type} (sortOf : Nat → SortKind)
    (value : Valuation (UnlimitedDomain carrier)) (a b : Nat) :
    element sortOf value (canonical a b).1 = element sortOf value (canonical a b).2 ↔
      element sortOf value a = element sortOf value b := by
  unfold canonical
  split
  · exact Iff.rfl
  · exact eq_comm

theorem satisfiable_of_unlimited (prepared : Prepared state outcome idxTerm edges fill)
    (encoded : Encoded state base) (model : HasUnlimitedModel state.assertions) :
    Satisfiable (base ++ outcome.added) := by
  obtain ⟨carrier, value, holds⟩ := model
  obtain ⟨sortOf, sorted⟩ := encoded.sorted
  obtain ⟨old, oldModels, agrees⟩ :=
    (encoded.faithful _).mpr (skeletonModel_of_model prepared encoded holds)
  refine ⟨extendAssignment state.numVars fill sortOf value old, models_append.mpr ⟨?_, ?_⟩⟩
  · -- Chord variables are new, so the old clauses keep their values.
    refine (models_congr encoded.below fun var bound => ?_).mp oldModels
    simp [extendAssignment, bound]
  -- Every edge variable now says whether its operands are identical.
  have meaning : ∀ {key var}, fill.edgeVar.lookup key = some var →
      (extendAssignment state.numVars fill sortOf value old var = true ↔
        element sortOf value key.1 = element sortOf value key.2) := by
    intro key var found
    rcases prepared.linked.fresh found with original | ⟨_, chord⟩
    · obtain ⟨atom, mem, rfl, named⟩ := prepared.recorded.mp original
      have bound : var < state.numVars := encoded.bounded _ _ named
      have visible := agrees atom.term var ⟨atom, mem, .inl rfl⟩ named
      have truth := inputAssignment_iff encoded value named
      simp only [EqAtom.term, InputTruth, eqAtom, mem_some_iff, exists_eq_left'] at truth
      simp only [extendAssignment, bound, if_true]
      rw [visible, truth, EqAtom.key, element_canonical]
      obtain ⟨leftSort, rightSort, _⟩ := sorted atom mem
      have left : element sortOf value atom.lhs =
          ⟨atom.lhsSort, value atom.lhs atom.lhsSort⟩ := by rw [element, leftSort]
      have right : element sortOf value atom.rhs =
          ⟨atom.rhsSort, value atom.rhs atom.rhsSort⟩ := by rw [element, rightSort]
      rw [left, right, Identical]
    · have late : ¬ var < state.numVars := Nat.not_lt.mpr chord
      simp only [extendAssignment, late, if_false, decide_eq_true_eq]
      constructor
      · rintro ⟨other, otherFound, same⟩
        rwa [prepared.linked.injective found otherFound]
      · exact fun same => ⟨key, found, same⟩
  rw [prepared.added]
  intro clause mem
  obtain ⟨v, a, b, _, _, edgeVA, edgeVB, edgeAB, lies⟩ :=
    (mem_transitivityClauses prepared.linked.simple).mp mem
  -- Identity is transitive, so the clauses of every triangle hold.
  have va := meaning (prepared.edge_var edgeVA)
  have vb := meaning (prepared.edge_var edgeVB)
  have ab := meaning (prepared.edge_var edgeAB)
  rw [element_canonical] at va vb ab
  refine models_triangleClauses.mpr ⟨?_, ?_, ?_⟩ clause lies
  · exact fun first second => ab.mpr ((va.mp first).symm.trans (vb.mp second))
  · exact fun first second => vb.mpr ((va.mp first).trans (ab.mp second))
  · exact fun first second => va.mpr ((vb.mp first).trans (ab.mp second).symm)

end

theorem equality_clauses_exact {order : HashOrder} {outcome : Outcome}
    (encoded : Encoded state base)
    (accepted : equalityTransitivityPreprocess order state = some outcome) :
    Satisfiable (base ++ outcome.added) ↔ HasUnlimitedModel state.assertions := by
  obtain ⟨idxTerm, edges, fill, prepared⟩ := prepared_of_accepted encoded accepted
  exact ⟨unlimited_of_satisfiable prepared encoded, satisfiable_of_unlimited prepared encoded⟩

/-- The clauses decide the assertions exactly when the bit-vector sorts are large enough. -/
theorem equality_transitivity_decides_iff (order : HashOrder) (state : State) (base : Cnf)
    (outcome : Outcome) (encoded : Encoded state base)
    (accepted : equalityTransitivityPreprocess order state = some outcome) :
    (Satisfiable (base ++ outcome.added) ↔ HasModel state.assertions) ↔
      (HasUnlimitedModel state.assertions → HasModel state.assertions) := by
  -- The clauses decide the unlimited reading, which every model of the sized reading satisfies.
  rw [equality_clauses_exact encoded accepted]
  exact ⟨fun exact_ unlimited => exact_.mp unlimited,
    fun enough => ⟨enough, HasModel.unlimited⟩⟩

/-- The disequality of two bit-vector variables of width one. -/
def bitsDiffer (a b : Nat) : Term := .not (.eq (.var a (.bitVec 1)) (.var b (.bitVec 1)))

def threeBits : State where
  hasQuantifiers := false
  hasArrayOps := false
  eufHasApps := false
  assertions := [bitsDiffer 0 1, bitsDiffer 0 2, bitsDiffer 1 2]
  termToVar := fun term =>
    if term = .eq (.var 0 (.bitVec 1)) (.var 1 (.bitVec 1)) then some 0
    else if term = .eq (.var 0 (.bitVec 1)) (.var 2 (.bitVec 1)) then some 1
    else if term = .eq (.var 1 (.bitVec 1)) (.var 2 (.bitVec 1)) then some 2
    else none
  numVars := 3

/-- The unit clauses that the three assertions encode to. -/
def threeBitsClauses : Cnf := [[.neg 0], [.neg 1], [.neg 2]]

/-- Keys enumerated in the order the map stores them. -/
def storedOrder : HashOrder := ⟨id, fun _ => .refl _⟩

theorem threeBits_assertions :
    threeBits.assertions = [bitsDiffer 0 1, bitsDiffer 0 2, bitsDiffer 1 2] := rfl

theorem threeBits_atoms : allEqAtoms threeBits.assertions =
    [⟨0, .bitVec 1, 1, .bitVec 1⟩, ⟨0, .bitVec 1, 2, .bitVec 1⟩,
      ⟨1, .bitVec 1, 2, .bitVec 1⟩] := rfl

theorem threeBits_encoded : Encoded threeBits threeBitsClauses := by
  have cases_ : ∀ term var, threeBits.termToVar term = some var →
      (term = .eq (.var 0 (.bitVec 1)) (.var 1 (.bitVec 1)) ∧ var = 0) ∨
        (term = .eq (.var 0 (.bitVec 1)) (.var 2 (.bitVec 1)) ∧ var = 1) ∨
        (term = .eq (.var 1 (.bitVec 1)) (.var 2 (.bitVec 1)) ∧ var = 2) := by
    intro term var named
    simp only [threeBits] at named
    split at named
    · exact .inl ⟨by assumption, by simpa using named.symm⟩
    · split at named
      · exact .inr (.inl ⟨by assumption, by simpa using named.symm⟩)
      · split at named
        · exact .inr (.inr ⟨by assumption, by simpa using named.symm⟩)
        · cases named
  refine
    { ordered := by rw [threeBits_atoms]; decide
      sorted := ⟨fun _ => .bitVec 1, by rw [threeBits_atoms]; decide⟩
      bounded := ?_
      injective := ?_
      operands := by rw [threeBits_atoms]; simp
      below := by simp [VarsBelow, threeBitsClauses, threeBits]
      faithful := ?_ }
  · intro term var named
    rcases cases_ term var named with ⟨_, rfl⟩ | ⟨_, rfl⟩ | ⟨_, rfl⟩ <;> decide
  · intro term term' var named named'
    rcases cases_ term var named with ⟨rfl, rfl⟩ | ⟨rfl, rfl⟩ | ⟨rfl, rfl⟩ <;>
      rcases cases_ term' _ named' with ⟨rfl, same⟩ | ⟨rfl, same⟩ | ⟨rfl, same⟩ <;> simp_all
  · -- Both sides say that the three atom variables are false.
    intro m
    have truth : ∀ atom var, threeBits.termToVar atom.term = some var →
        (AtomTrue threeBits m atom ↔ m var = true) := by
      intro atom var named
      simp [AtomTrue, named]
    have model : SkeletonModel threeBits m ↔
        m 0 = false ∧ m 1 = false ∧ m 2 = false := by
      have first := truth ⟨0, .bitVec 1, 1, .bitVec 1⟩ 0 rfl
      have second := truth ⟨0, .bitVec 1, 2, .bitVec 1⟩ 1 rfl
      have third := truth ⟨1, .bitVec 1, 2, .bitVec 1⟩ 2 rfl
      constructor
      · intro skeleton
        have holds := skeleton.holds
        rw [threeBits_assertions] at holds
        simpa [bitsDiffer, Holds, eqAtom, first, second, third] using holds
      · intro values
        refine ⟨?_, by rw [threeBits_atoms]; simp⟩
        rw [threeBits_assertions]
        simpa [bitsDiffer, Holds, eqAtom, first, second, third] using values
    rw [model]
    constructor
    · rintro ⟨extension, models, agree⟩
      have value : ∀ atom var, atom ∈ allEqAtoms threeBits.assertions →
          threeBits.termToVar atom.term = some var → extension var = m var :=
        fun atom var mem named => agree atom.term var ⟨atom, mem, .inl rfl⟩ named
      rw [← value ⟨0, .bitVec 1, 1, .bitVec 1⟩ 0 (by decide) rfl,
        ← value ⟨0, .bitVec 1, 2, .bitVec 1⟩ 1 (by decide) rfl,
        ← value ⟨1, .bitVec 1, 2, .bitVec 1⟩ 2 (by decide) rfl]
      simpa [threeBitsClauses] using models
    · intro values
      exact ⟨m, by simpa [threeBitsClauses] using values, fun _ _ _ _ => rfl⟩

/-- Three pairwise different bits do not exist, yet all added and encoded clauses hold. -/
theorem threeBits_satisfiable_without_model : ∃ outcome, Encoded threeBits threeBitsClauses ∧
      equalityTransitivityPreprocess storedOrder threeBits = some outcome ∧
      Satisfiable (threeBitsClauses ++ outcome.added) ∧ ¬ HasModel threeBits.assertions := by
  -- The all-false assignment satisfies every clause; a fourth element is missing for a model.
  have accepted : (equalityTransitivityPreprocess storedOrder threeBits).isSome = true := by
    decide
  obtain ⟨outcome, run⟩ := isSome_iff_exists.mp accepted
  refine ⟨outcome, threeBits_encoded, run, ?_, ?_⟩
  · refine (equality_clauses_exact threeBits_encoded run).mpr
      ⟨fun _ => Nat, fun id sort => match sort with
        | .bool => false
        | .int => (0 : Int)
        | .real => (0 : ℝ)
        | .bitVec _ => id
        | .uninterpreted _ => (0 : Nat), ?_⟩
    simp [threeBits, bitsDiffer, Holds, eqAtom, identical_iff]
    show ¬ (1 : Nat) = 2
    decide
  · rintro ⟨carrier, value, holds⟩
    simp only [threeBits, bitsDiffer, mem_cons, not_mem_nil, or_false,
      forall_eq_or_imp, forall_eq, Holds, eqAtom, mem_some_iff, exists_eq_left',
      identical_iff] at holds
    -- Two of three one-bit values coincide.
    have pigeon : ∀ x y z : BitVec 1, ¬ (x ≠ y ∧ x ≠ z ∧ y ≠ z) := by decide
    exact pigeon (value 0 (.bitVec 1)) (value 1 (.bitVec 1)) (value 2 (.bitVec 1)) holds

/-- The decision criterion at the three bits: neither side of it holds. -/
theorem threeBits_decides_iff : ∃ outcome,
    equalityTransitivityPreprocess storedOrder threeBits = some outcome ∧
      ((Satisfiable (threeBitsClauses ++ outcome.added) ↔ HasModel threeBits.assertions) ↔
        (HasUnlimitedModel threeBits.assertions → HasModel threeBits.assertions)) := by
  have accepted : (equalityTransitivityPreprocess storedOrder threeBits).isSome = true := by
    decide
  obtain ⟨outcome, run⟩ := isSome_iff_exists.mp accepted
  exact ⟨outcome, run, equality_transitivity_decides_iff storedOrder threeBits threeBitsClauses
    outcome threeBits_encoded run⟩

end Nixie.EqualityGraph
