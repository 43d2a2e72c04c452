import Nixie.Euf.Disequality

/-! Closing a scope restores the index of disequalities. -/

namespace Nixie.Euf

open UndoTrail List Function

namespace DiseqIndex

def entryIdx : DiseqPairTrailEntry → Nat
  | .asserted idx => idx
  | .rewrote idx _ => idx

def cutPairs (numDiseqs : Nat) (data : (Nat × Nat → Nat) × List Diseq) :
    (Nat × Nat → Nat) × List Diseq :=
  (data.1, data.2.take numDiseqs)

/-- Every undo entry is about a disequality of its scope. -/
def InRange : List Nat → List DiseqPairTrailEntry → Nat → List (Nat × DiseqIndex) → Prop
  | _, trail, length, [] => ∀ entry ∈ trail, entryIdx entry < length
  | [], trail, length, _ :: _ => ∀ entry ∈ trail, entryIdx entry < length
  | limit :: limits, trail, length, (_, before) :: older =>
    (∀ entry ∈ trail, entryIdx entry < length) ∧ before.diseqs.length ≤ length ∧
      InRange limits (below limit trail) before.diseqs.length older

/-- The saved conflicts are those of the scope entries. -/
def ConflictsSaved : List Nat → List (Option Nat) → List (Nat × DiseqIndex) → Prop
  | [], [], [] => True
  | limit :: limits, conflict :: conflicts, (_, before) :: older =>
    limit = conflicts.length ∧ conflict = before.pendingDiseqConflict ∧
      ConflictsSaved limits conflicts older
  | _, _, _ => False

/-- The scopes restore the saved indices, each saved with the number of nodes. -/
structure Restores (index : DiseqIndex) (saved : List (Nat × DiseqIndex)) : Prop where
  scopes : saved.length = index.diseqPairTrailLimits.length
  pairs : Saved undoPair cutPairs index.diseqPairTrailLimits index.diseqPairTrail
    (index.diseqPairCounts, index.diseqs)
    (saved.map fun scope =>
      (scope.2.diseqs.length, scope.2.diseqPairCounts, scope.2.diseqs))
  range : InRange index.diseqPairTrailLimits index.diseqPairTrail index.diseqs.length saved
  watch : index.diseqWatch.Restores
    (saved.map fun scope => (scope.1, scope.2.diseqWatch.lists))
  conflicts : ConflictsSaved index.pendingTrailLimits index.pendingTrail saved

theorem InRange.all {limits : List Nat} {trail : List DiseqPairTrailEntry} {length : Nat}
    {saved : List (Nat × DiseqIndex)} (range : InRange limits trail length saved) :
    ∀ entry ∈ trail, entryIdx entry < length := by
  cases saved with
  | nil => cases limits <;> exact range
  | cons scope older =>
    cases limits with
    | nil => exact range
    | cons limit limits => exact range.1

theorem InRange.record {limits : List Nat} {trail : List DiseqPairTrailEntry}
    {length larger : Nat} {saved : List (Nat × DiseqIndex)} {entry : DiseqPairTrailEntry}
    {data : (Nat × Nat → Nat) × List Diseq}
    {others : List (Nat × (Nat × Nat → Nat) × List Diseq)}
    (kept : Saved undoPair cutPairs limits trail data others) (same : others.length = saved.length)
    (range : InRange limits trail length saved) (more : length ≤ larger)
    (lies : entryIdx entry < larger) : InRange limits (entry :: trail) larger saved := by
  have whole : ∀ other ∈ entry :: trail, entryIdx other < larger := by
    intro other mem
    rcases mem_cons.mp mem with rfl | old
    · exact lies
    · have := range.all other old
      omega
  cases saved with
  | nil => cases limits <;> exact whole
  | cons scope older =>
    cases limits with
    | nil => exact whole
    | cons limit limits =>
      cases others with
      | nil => simp at same
      | cons other rest =>
        obtain ⟨within, _, _⟩ := kept
        obtain ⟨_, shorter, outer⟩ := range
        refine ⟨whole, by omega, ?_⟩
        rw [below_cons within]
        exact outer

theorem InRange.more {limits : List Nat} {trail : List DiseqPairTrailEntry}
    {length larger : Nat} {saved : List (Nat × DiseqIndex)}
    (range : InRange limits trail length saved) (more : length ≤ larger) :
    InRange limits trail larger saved := by
  have whole : ∀ other ∈ trail, entryIdx other < larger := by
    intro other mem
    have := range.all other mem
    omega
  cases saved with
  | nil => cases limits <;> exact whole
  | cons scope older =>
    cases limits with
    | nil => exact whole
    | cons limit limits => exact ⟨whole, by have := range.2.1; omega, range.2.2⟩

theorem setPair_append (diseq : Diseq) (pair : Nat × Nat) :
    ∀ (diseqs : List Diseq) (idx : Nat), idx < diseqs.length →
      setPair idx pair (diseqs ++ [diseq]) = setPair idx pair diseqs ++ [diseq] := by
  intro diseqs
  induction diseqs with
  | nil => simp
  | cons first rest ih =>
    intro idx lies
    cases idx with
    | zero => rfl
    | succ idx =>
      have bound : idx < rest.length := by simpa using lies
      have later := ih idx bound
      simp only [setPair] at later ⊢
      rw [cons_append, modify_succ_cons, modify_succ_cons, later, cons_append]

theorem undoEach_append (diseq : Diseq) :
    ∀ (entries : List DiseqPairTrailEntry) (counts : Nat × Nat → Nat) (diseqs : List Diseq),
      (∀ entry ∈ entries, entryIdx entry < diseqs.length) →
      undoEach undoPair entries (counts, diseqs ++ [diseq]) =
          ((undoEach undoPair entries (counts, diseqs)).1,
            (undoEach undoPair entries (counts, diseqs)).2 ++ [diseq]) ∧
        (undoEach undoPair entries (counts, diseqs)).2.length = diseqs.length := by
  intro entries
  induction entries with
  | nil => exact fun _ _ _ => ⟨rfl, rfl⟩
  | cons entry rest ih =>
    intro counts diseqs lies
    have here := lies entry (mem_cons_self ..)
    have rest_ := fun other mem => lies other (mem_cons_of_mem entry mem)
    cases entry with
    | asserted idx =>
      have bound : idx < diseqs.length := here
      have one : undoPair (.asserted idx) (counts, diseqs) =
          (decPair (diseqs[idx]).cachedPair counts, diseqs) := by
        simp [undoPair, getElem?_eq_getElem bound]
      have two : undoPair (.asserted idx) (counts, diseqs ++ [diseq]) =
          (decPair (diseqs[idx]).cachedPair counts, diseqs ++ [diseq]) := by
        simp [undoPair, getElem?_append_left bound, getElem?_eq_getElem bound]
      rw [undoEach_cons, undoEach_cons, one, two]
      exact ih _ _ rest_
    | rewrote idx old =>
      have bound : idx < diseqs.length := here
      have one : undoPair (.rewrote idx old) (counts, diseqs) =
          (incPair old (decPair (diseqs[idx]).cachedPair counts), setPair idx old diseqs) := by
        simp [undoPair, getElem?_eq_getElem bound]
      have two : undoPair (.rewrote idx old) (counts, diseqs ++ [diseq]) =
          (incPair old (decPair (diseqs[idx]).cachedPair counts),
            setPair idx old diseqs ++ [diseq]) := by
        simp only [undoPair, getElem?_append_left bound, getElem?_eq_getElem bound]
        rw [setPair_append diseq old diseqs idx bound]
      have length : (setPair idx old diseqs).length = diseqs.length := by simp [setPair]
      rw [undoEach_cons, undoEach_cons, one, two, ← length]
      exact ih _ _ (by rw [length]; exact rest_)

variable {index : DiseqIndex} {saved : List (Nat × DiseqIndex)}

theorem Restores.congr {changed : DiseqIndex} (restores : index.Restores saved)
    (limits : changed.diseqPairTrailLimits = index.diseqPairTrailLimits)
    (trail : changed.diseqPairTrail = index.diseqPairTrail)
    (counts : changed.diseqPairCounts = index.diseqPairCounts)
    (diseqs : changed.diseqs = index.diseqs)
    (watch : changed.diseqWatch.Restores
      (saved.map fun scope => (scope.1, scope.2.diseqWatch.lists)))
    (conflictLimits : changed.pendingTrailLimits = index.pendingTrailLimits)
    (conflicts : changed.pendingTrail = index.pendingTrail) : changed.Restores saved where
  scopes := by rw [limits]; exact restores.scopes
  pairs := by rw [limits, trail, counts, diseqs]; exact restores.pairs
  range := by rw [limits, trail, diseqs]; exact restores.range
  watch := watch
  conflicts := by rw [conflictLimits, conflicts]; exact restores.conflicts

theorem Restores.recordPair {changed : DiseqIndex} {entry : DiseqPairTrailEntry}
    (restores : index.Restores saved)
    (limits : changed.diseqPairTrailLimits = index.diseqPairTrailLimits)
    (trail : changed.diseqPairTrail = index.diseqPairTrail)
    (watch : changed.diseqWatch.Restores
      (saved.map fun scope => (scope.1, scope.2.diseqWatch.lists)))
    (conflictLimits : changed.pendingTrailLimits = index.pendingTrailLimits)
    (conflicts : changed.pendingTrail = index.pendingTrail)
    (longer : index.diseqs.length ≤ changed.diseqs.length)
    (lies : entryIdx entry < changed.diseqs.length)
    (undone : ∃ appended, undoPair entry (changed.diseqPairCounts, changed.diseqs) =
        (index.diseqPairCounts, index.diseqs ++ appended) ∧ appended.length ≤ 1) :
    (changed.recordPair entry).Restores saved := by
  have unrecorded : (changed.recordPair entry).diseqPairTrailLimits =
      index.diseqPairTrailLimits := by
    rw [recordPair_eq]
    exact limits
  cases open_ : index.diseqPairTrailLimits with
  | nil =>
    -- Without a scope there is nothing to restore.
    have none_ : saved = [] := length_eq_zero_iff.mp (by rw [restores.scopes, open_]; rfl)
    have same : changed.recordPair entry = changed := by
      rw [DiseqIndex.recordPair, limits, open_, if_pos rfl]
    subst none_
    rw [same]
    have range := restores.range
    exact {
      scopes := by rw [limits, open_]; rfl
      pairs := by simp [Saved]
      range := by rw [limits, trail]; exact range.more longer
      watch := watch
      conflicts := by rw [conflictLimits, conflicts]; exact restores.conflicts }
  | cons limit rest =>
    have recorded : changed.recordPair entry =
        { changed with diseqPairTrail := entry :: changed.diseqPairTrail } := by
      rw [DiseqIndex.recordPair, limits, open_, if_neg (by simp)]
    obtain ⟨appended, undone, short⟩ := undone
    -- The innermost scope drops what was appended.
    have extended : Saved undoPair cutPairs index.diseqPairTrailLimits index.diseqPairTrail
        (index.diseqPairCounts, index.diseqs ++ appended)
        (saved.map fun scope =>
          (scope.2.diseqs.length, scope.2.diseqPairCounts, scope.2.diseqs)) := by
      cases appended with
      | nil => simpa using restores.pairs
      | cons diseq more =>
        have single : more = [] := by
          apply length_eq_zero_iff.mp
          simp only [length_cons] at short
          omega
        subst single
        cases saved with
        | nil => simp [Saved]
        | cons scope older =>
          have range := restores.range
          have pairs := restores.pairs
          rw [open_] at range pairs ⊢
          obtain ⟨within, gives, outer⟩ := pairs
          obtain ⟨all, shorter, _⟩ := range
          refine ⟨within, ?_, outer⟩
          rw [← gives]
          obtain ⟨unseen, length⟩ := undoEach_append diseq
            (above limit index.diseqPairTrail) index.diseqPairCounts index.diseqs
            fun entry mem => all entry (mem_of_mem_take mem)
          rw [unseen]
          simp only [cutPairs, Prod.mk.injEq, true_and]
          rw [take_append_of_le_length (by rw [length]; exact shorter)]
    have kept := extended.record undone
    rw [recorded]
    exact {
      scopes := by
        show saved.length = changed.diseqPairTrailLimits.length
        rw [limits]
        exact restores.scopes
      pairs := by
        show Saved _ _ changed.diseqPairTrailLimits (entry :: changed.diseqPairTrail) _ _
        rw [limits, trail]
        exact kept
      range := by
        show InRange changed.diseqPairTrailLimits (entry :: changed.diseqPairTrail) _ saved
        rw [limits, trail]
        exact restores.range.record restores.pairs (by simp) longer lies
      watch := watch
      conflicts := by
        show ConflictsSaved changed.pendingTrailLimits changed.pendingTrail saved
        rw [conflictLimits, conflicts]
        exact restores.conflicts }

theorem setPair_back {didx : Nat} {diseq : Diseq} {diseqs : List Diseq} (new : Nat × Nat)
    (here : diseqs[didx]? = some diseq) :
    setPair didx diseq.cachedPair (setPair didx new diseqs) = diseqs := by
  apply ext_getElem?
  intro idx
  rw [setPair_getElem?, setPair_getElem?]
  by_cases same : didx = idx
  · subst same
    rw [here]
    simp
  · cases diseqs[idx]? <;> simp [same]

theorem incPair_back {counts : Nat × Nat → Nat} {old new : Nat × Nat} (present : 0 < counts old) :
    incPair old (decPair new (incPair new (decPair old counts))) = counts := by
  funext key
  simp only [incPair, decPair, update_apply]
  grind

theorem Restores.rewritePair (restores : index.Restores saved)
    (counts : ∀ key, index.diseqPairCounts key =
      index.diseqs.countP fun diseq => diseq.cachedPair = key)
    (rootA rootB newRoot didx : Nat) :
    (index.rewritePair rootA rootB newRoot didx).Restores saved := by
  unfold DiseqIndex.rewritePair
  split
  · exact restores
  · rename_i diseq here
    split
    · exact restores
    · dsimp only
      split
      · exact restores.congr rfl rfl rfl rfl restores.watch rfl rfl
      · have bound := (List.getElem?_eq_some_iff.mp here).1
        have length : ∀ pair, (setPair didx pair index.diseqs).length = index.diseqs.length := by
          intro pair
          simp [setPair]
        have present : 0 < index.diseqPairCounts diseq.cachedPair := by
          rw [counts]
          exact countP_pos_iff.mpr ⟨diseq, mem_of_getElem? here, by simp⟩
        refine restores.recordPair rfl rfl restores.watch rfl rfl ?_ ?_ ?_
        · exact Nat.le_of_eq (length _).symm
        · exact Nat.lt_of_lt_of_eq bound (length _).symm
        · refine ⟨[], ?_, by simp⟩
          have now := setPair_getElem? didx
            (renamePair rootA rootB newRoot diseq.cachedPair) index.diseqs didx
          rw [here, Option.map_some, if_pos rfl] at now
          simp only [undoPair, now]
          rw [setPair_back _ here, incPair_back present, append_nil]

theorem Restores.merged {count : Nat} {image : Nat → Nat} {rootA rootB winner loser : Nat}
    (restores : index.Restores saved) (valid : index.Valid count image)
    (roots : (winner = rootA ∧ loser = rootB) ∨ (winner = rootB ∧ loser = rootA)) :
    (index.merged rootA rootB winner loser).Restores saved := by
  -- The rewriting keeps the pairs counted, which each single rewrite needs.
  have rewrite_ : ∀ (remaining watched : List Nat) (index before : DiseqIndex),
      Rewriting before (renamePair rootA rootB winner) watched remaining index →
        index.Restores saved →
        (remaining.foldl (fun index didx => index.rewritePair rootA rootB winner didx)
          index).Restores saved := by
    intro remaining
    induction remaining with
    | nil => exact fun _ _ _ _ restores => restores
    | cons didx rest ih =>
      intro watched index before rewriting restores
      exact ih watched _ before (rewriting.step (renamePair_idem roots))
        (restores.rewritePair rewriting.counts rootA rootB winner didx)
  have test : ∀ (watched : List Nat) (index : DiseqIndex), index.Restores saved →
      (watched.foldl (fun index didx => index.testWatched winner didx) index).Restores saved := by
    intro watched
    induction watched with
    | nil => exact fun _ restores => restores
    | cons didx rest ih =>
      intro index restores
      refine ih _ ?_
      unfold testWatched
      dsimp only
      split
      · exact restores.congr rfl rfl rfl rfl (restores.watch.append _ _) rfl rfl
      · exact restores.congr rfl rfl rfl rfl (restores.watch.append _ _) rfl rfl
  exact test _ _ (rewrite_ _ _ _ _ (valid.rewriting _ _)
    (restores.congr rfl rfl rfl rfl restores.watch rfl rfl))

theorem Restores.assertDiseq (restores : index.Restores saved) (a b ra rb reason : Nat) :
    (index.assertDiseq a b ra rb reason).Restores saved := by
  let diseq : Diseq := ⟨a, b, reason, orderedPair ra rb⟩
  let counted : DiseqIndex := { index with
    diseqPairCounts := incPair (orderedPair ra rb) index.diseqPairCounts
    diseqs := index.diseqs ++ [diseq]
    diseqStamp := update index.diseqStamp index.diseqs.length 0 }
  have recorded : (counted.recordPair (.asserted index.diseqs.length)).Restores saved := by
    refine restores.recordPair rfl rfl restores.watch rfl rfl ?_ ?_ ?_
    · simp [counted]
    · simp [counted, entryIdx]
    · refine ⟨[diseq], ?_, by simp⟩
      have here : (index.diseqs ++ [diseq])[index.diseqs.length]? = some diseq := by simp
      have back : decPair (orderedPair ra rb)
          (incPair (orderedPair ra rb) index.diseqPairCounts) = index.diseqPairCounts := by
        funext key
        simp only [incPair, decPair, update_apply]
        grind
      simp only [undoPair, counted, here, diseq, back]
  -- Recording before or after the disequality is appended is the same.
  have swapped : ∀ index' : DiseqIndex,
      index' = counted.recordPair (.asserted index.diseqs.length) →
      (if ra ≠ rb then (index'.watchPush ra index.diseqs.length).watchPush rb index.diseqs.length
        else (index'.watchPush ra index.diseqs.length).noteConflict
          index.diseqs.length).Restores saved := by
    rintro _ rfl
    split
    · exact recorded.congr rfl rfl rfl rfl ((recorded.watch.append _ _).append _ _) rfl rfl
    · exact recorded.congr rfl rfl rfl rfl (recorded.watch.append _ _) rfl rfl
  refine swapped _ ?_
  simp only [counted, DiseqIndex.recordPair]
  split <;> rfl

theorem Restores.mark {count : Nat} {image : Nat → Nat} (restores : index.Restores saved)
    (valid : index.Valid count image) : index.mark.Restores ((count, index) :: saved) where
  scopes := by simp [DiseqIndex.mark, restores.scopes]
  pairs := by
    refine restores.pairs.mark ?_
    simp [cutPairs]
  range := by
    have all := restores.range.all
    refine ⟨all, Nat.le_refl _, ?_⟩
    show InRange index.diseqPairTrailLimits (below index.diseqPairTrail.length
      index.diseqPairTrail) _ _
    rw [below_length]
    exact restores.range
  watch := restores.watch.mark valid.watchRange
  conflicts := ⟨rfl, rfl, restores.conflicts⟩

theorem Restores.rewind {numNodes : Nat} {before : DiseqIndex}
    {older : List (Nat × DiseqIndex)} (restores : index.Restores ((numNodes, before) :: older)) :
    let after := index.rewind numNodes before.diseqs.length
    after.diseqs = before.diseqs ∧ after.diseqPairCounts = before.diseqPairCounts ∧
      after.diseqWatch.lists = before.diseqWatch.lists ∧
      after.pendingDiseqConflict = before.pendingDiseqConflict ∧
      after.diseqStampGen = index.diseqStampGen ∧
      (∀ idx, after.diseqStamp idx ≤ index.diseqStamp idx) ∧ after.Restores older := by
  obtain ⟨scopes, pairs, range, watch, conflicts⟩ := restores
  cases open_ : index.diseqPairTrailLimits with
  | nil => simp [open_] at scopes
  | cons limit limits =>
    rw [open_] at scopes pairs range
    obtain ⟨gives, outer⟩ := pairs.close
    obtain ⟨_, _, inner⟩ := range
    obtain ⟨lists, watched⟩ := watch.rewind
    cases marks : index.pendingTrailLimits with
    | nil =>
      rw [marks] at conflicts
      cases entries : index.pendingTrail <;> simp [entries, ConflictsSaved] at conflicts
    | cons mark marks' =>
      cases entries : index.pendingTrail with
      | nil =>
        rw [marks, entries] at conflicts
        exact conflicts.elim
      | cons conflict conflicts' =>
        rw [marks, entries] at conflicts
        obtain ⟨same, noted, saved_⟩ := conflicts
        -- The conflict of the scope entry lies directly above its limit.
        have above_ : above mark (conflict :: conflicts') = [conflict] := by
          rw [same, above_cons (Nat.le_refl _), above_length]
        have below_ : below mark (conflict :: conflicts') = conflicts' := by
          rw [same, below_cons (Nat.le_refl _), below_length]
        have gives' : (undoEach undoPair (above limit index.diseqPairTrail)
            (index.diseqPairCounts, index.diseqs)).1 = before.diseqPairCounts ∧
            ((undoEach undoPair (above limit index.diseqPairTrail)
              (index.diseqPairCounts, index.diseqs)).2).take before.diseqs.length =
                before.diseqs := by
          simp only [cutPairs, Prod.mk.injEq] at gives
          exact gives
        obtain ⟨counts, diseqs⟩ := gives'
        simp only [DiseqIndex.rewind, rewindPairs, restoreConflict, open_, marks, entries, above_,
          below_, List.getLast?_singleton, Option.getD_some, counts, diseqs]
        refine ⟨trivial, trivial, lists, noted, trivial, ?_, ?_⟩
        · intro idx
          split
          · exact Nat.le_refl _
          · exact Nat.zero_le _
        · exact {
            scopes := by simpa using scopes
            pairs := outer
            range := inner
            watch := watched
            conflicts := saved_ }

end DiseqIndex

end Nixie.Euf
