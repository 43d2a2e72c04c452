import Nixie.Euf.Intern

/-! The index of disequalities follows the classes through merges and assertions. -/

namespace Nixie.Euf

open UndoTrail List Function Option

namespace DiseqIndex

/-- The index describes the disequalities under given representatives. -/
structure Valid (index : DiseqIndex) (count : Nat) (image : Nat → Nat) : Prop where
  inside : ∀ diseq ∈ index.diseqs, diseq.lhs < count ∧ diseq.rhs < count
  pairs : ∀ diseq ∈ index.diseqs, diseq.cachedPair = (image diseq.lhs, image diseq.rhs) ∨
    diseq.cachedPair = (image diseq.rhs, image diseq.lhs)
  watched : ∀ idx diseq, index.diseqs[idx]? = some diseq →
    idx ∈ index.diseqWatch.lists (image diseq.lhs) ∧ idx ∈ index.diseqWatch.lists (image diseq.rhs)
  watchRange : ∀ rep, count ≤ rep → index.diseqWatch.lists rep = []
  counts : ∀ key, index.diseqPairCounts key =
    index.diseqs.countP fun diseq => diseq.cachedPair = key
  stamps : ∀ idx, index.diseqStamp idx ≤ index.diseqStampGen
  conflict : ∀ idx, index.pendingDiseqConflict = some idx →
    ∃ diseq, index.diseqs[idx]? = some diseq ∧ image diseq.lhs = image diseq.rhs

theorem recordPair_eq (entry : DiseqPairTrailEntry) (index : DiseqIndex) :
    index.recordPair entry = { index with
      diseqPairTrail := (index.recordPair entry).diseqPairTrail } := by
  unfold recordPair
  split <;> rfl

theorem countP_modify {α : Type} {change : α → α} {keeps : α → Bool} :
    ∀ {items : List α} {idx : Nat} {item : α}, items[idx]? = some item →
      (items.modify idx change).countP keeps + (if keeps item then 1 else 0) =
        items.countP keeps + (if keeps (change item) then 1 else 0) := by
  intro items
  induction items with
  | nil => simp
  | cons first rest ih =>
    intro idx item here
    cases idx with
    | zero =>
      simp only [getElem?_cons_zero, some.injEq] at here
      subst here
      rw [modify_zero_cons, countP_cons, countP_cons]
      omega
    | succ idx =>
      rw [getElem?_cons_succ] at here
      have := ih here
      rw [modify_succ_cons, countP_cons, countP_cons]
      omega

theorem setPair_getElem? (didx : Nat) (pair : Nat × Nat) (diseqs : List Diseq) (idx : Nat) :
    (setPair didx pair diseqs)[idx]? = (diseqs[idx]?).map fun diseq =>
      if didx = idx then { diseq with cachedPair := pair } else diseq := by
  rw [setPair, getElem?_modify]
  rfl

theorem setPair_counts {index : DiseqIndex} {didx : Nat} {diseq : Diseq} (new : Nat × Nat)
    (here : index.diseqs[didx]? = some diseq)
    (counts : ∀ key, index.diseqPairCounts key =
      index.diseqs.countP fun diseq => diseq.cachedPair = key) (key : Nat × Nat) :
    incPair new (decPair diseq.cachedPair index.diseqPairCounts) key =
      (setPair didx new index.diseqs).countP fun diseq => diseq.cachedPair = key := by
  -- The old pair loses one count and the new pair gains one.
  have changed := @countP_modify Diseq (fun diseq => { diseq with cachedPair := new })
    (fun diseq => diseq.cachedPair = key) index.diseqs didx diseq here
  simp only [incPair, decPair, update_apply, counts]
  rw [setPair]
  have own : diseq.cachedPair = key →
      0 < index.diseqs.countP fun diseq => diseq.cachedPair = key := by
    intro same
    exact countP_pos_iff.mpr ⟨diseq, mem_of_getElem? here, by simp [same]⟩
  simp only [decide_eq_true_eq] at changed
  grind

/-- What rewriting some watched pairs has done to an index. -/
structure Rewriting (before : DiseqIndex) (rename : Nat × Nat → Nat × Nat)
    (watched remaining : List Nat) (index : DiseqIndex) : Prop where
  each : ∀ idx diseq, before.diseqs[idx]? = some diseq →
    ∃ pair, index.diseqs[idx]? = some { diseq with cachedPair := pair } ∧
      (pair = diseq.cachedPair ∨ pair = rename diseq.cachedPair) ∧
      (index.diseqStamp idx = index.diseqStampGen → pair = rename diseq.cachedPair)
  length : index.diseqs.length = before.diseqs.length
  visited : ∀ idx ∈ watched, idx ∈ remaining ∨ index.diseqStamp idx = index.diseqStampGen ∨
    before.diseqs[idx]? = none
  counts : ∀ key, index.diseqPairCounts key =
    index.diseqs.countP fun diseq => diseq.cachedPair = key
  stamps : ∀ idx, index.diseqStamp idx ≤ index.diseqStampGen
  watch : index.diseqWatch = before.diseqWatch
  conflict : index.pendingDiseqConflict = before.pendingDiseqConflict

theorem Rewriting.step {before index : DiseqIndex} {rootA rootB newRoot didx : Nat}
    {watched remaining : List Nat}
    (idem : ∀ pair, renamePair rootA rootB newRoot (renamePair rootA rootB newRoot pair) =
      renamePair rootA rootB newRoot pair)
    (rewriting : Rewriting before (renamePair rootA rootB newRoot) watched (didx :: remaining)
      index) :
    Rewriting before (renamePair rootA rootB newRoot) watched remaining
      (index.rewritePair rootA rootB newRoot didx) := by
  unfold rewritePair
  split
  · rename_i missing
    -- A disequality that does not exist needs no visit.
    have absent : before.diseqs[didx]? = none := by
      rw [getElem?_eq_none_iff] at missing ⊢
      rw [← rewriting.length]
      exact missing
    refine { rewriting with visited := fun idx mem => ?_ }
    rcases rewriting.visited idx mem with later | done
    · rcases mem_cons.mp later with rfl | later
      · exact .inr (.inr absent)
      · exact .inl later
    · exact .inr done
  · rename_i diseq here
    split
    · rename_i stamped
      refine { rewriting with visited := fun idx mem => ?_ }
      rcases rewriting.visited idx mem with later | done
      · rcases mem_cons.mp later with rfl | later
        · exact .inr (.inl stamped)
        · exact .inl later
      · exact .inr done
    · rename_i fresh
      -- The stored pair is the old one or the renamed one, so renaming it gives the renamed one.
      have renamed : ∀ old, before.diseqs[didx]? = some old →
          renamePair rootA rootB newRoot diseq.cachedPair =
            renamePair rootA rootB newRoot old.cachedPair ∧
          ({ old with cachedPair := diseq.cachedPair } : Diseq) = diseq := by
        intro old was
        obtain ⟨pair, now, either, _⟩ := rewriting.each didx old was
        rw [here] at now
        cases now
        rcases either with same | same
        · exact ⟨by rw [same], rfl⟩
        · refine ⟨?_, rfl⟩
          rw [same]
          exact idem _
      have visited : ∀ idx ∈ watched, idx ∈ remaining ∨
          update index.diseqStamp didx index.diseqStampGen idx = index.diseqStampGen ∨
            before.diseqs[idx]? = none := by
        intro idx mem
        by_cases same : idx = didx
        · subst same
          exact .inr (.inl (update_self ..))
        · rw [update_of_ne same]
          rcases rewriting.visited idx mem with later | done
          · exact .inl ((mem_cons.mp later).resolve_left same)
          · exact .inr done
      have stamps : ∀ idx, update index.diseqStamp didx index.diseqStampGen idx ≤
          index.diseqStampGen := by
        intro idx
        rw [update_apply]
        split
        · exact Nat.le_refl _
        · exact rewriting.stamps idx
      dsimp only
      split
      · rename_i kept
        refine { rewriting with visited := visited, stamps := stamps, each := ?_ }
        intro idx old was
        obtain ⟨pair, now, either, final_⟩ := rewriting.each idx old was
        refine ⟨pair, now, either, ?_⟩
        by_cases same : idx = didx
        · subst same
          intro _
          rw [here] at now
          cases now
          exact kept.symm.trans (renamed old was).1
        · dsimp only
          rw [update_of_ne same]
          exact final_
      · rw [recordPair_eq]
        refine {
          each := ?_
          length := by simpa [setPair] using rewriting.length
          visited := visited
          counts := setPair_counts _ here rewriting.counts
          stamps := stamps
          watch := rewriting.watch
          conflict := rewriting.conflict }
        intro idx old was
        dsimp only
        rw [setPair_getElem?]
        obtain ⟨pair, now, either, final_⟩ := rewriting.each idx old was
        by_cases same : didx = idx
        · subst same
          obtain ⟨target, rest⟩ := renamed old was
          refine ⟨renamePair rootA rootB newRoot old.cachedPair, ?_, .inr rfl, fun _ => rfl⟩
          rw [here, map_some, if_pos rfl, target, ← rest]
        · refine ⟨pair, ?_, either, ?_⟩
          · rw [now, map_some, if_neg same]
          · rw [update_of_ne (Ne.symm same)]
            exact final_

theorem Rewriting.run {before : DiseqIndex} {rootA rootB newRoot : Nat} {watched : List Nat}
    (idem : ∀ pair, renamePair rootA rootB newRoot (renamePair rootA rootB newRoot pair) =
      renamePair rootA rootB newRoot pair) :
    ∀ (remaining : List Nat) {index : DiseqIndex},
      Rewriting before (renamePair rootA rootB newRoot) watched remaining index →
        Rewriting before (renamePair rootA rootB newRoot) watched []
          (remaining.foldl (fun index didx => index.rewritePair rootA rootB newRoot didx) index) := by
  intro remaining
  induction remaining with
  | nil => exact fun rewriting => rewriting
  | cons didx rest ih => exact fun rewriting => ih (rewriting.step idem)

theorem testWatched_fold {newRoot : Nat} : ∀ (watched : List Nat) (index : DiseqIndex),
      let after := watched.foldl (fun index didx => index.testWatched newRoot didx) index
      after.diseqs = index.diseqs ∧ after.diseqPairCounts = index.diseqPairCounts ∧
        after.diseqStamp = index.diseqStamp ∧ after.diseqStampGen = index.diseqStampGen ∧
        after.diseqWatch = EufSolver.useListPush newRoot watched index.diseqWatch ∧
        (after.pendingDiseqConflict = index.pendingDiseqConflict ∨
          ∃ didx diseq, after.pendingDiseqConflict = some didx ∧
            index.diseqs[didx]? = some diseq ∧ diseq.cachedPair.1 = diseq.cachedPair.2) := by
  intro watched
  induction watched with
  | nil => exact fun index => ⟨rfl, rfl, rfl, rfl, rfl, .inl rfl⟩
  | cons didx rest ih =>
    intro index
    obtain ⟨diseqs, counts, stamp, gen, watch, conflict⟩ := ih (index.testWatched newRoot didx)
    simp only [foldl_cons]
    rw [diseqs, counts, stamp, gen, watch]
    have one : index.testWatched newRoot didx = { index with
        diseqWatch := index.diseqWatch.append newRoot didx
        pendingDiseqConflict := (index.testWatched newRoot didx).pendingDiseqConflict } := by
      unfold testWatched
      dsimp only
      split <;> rfl
    have noted : (index.testWatched newRoot didx).pendingDiseqConflict =
          index.pendingDiseqConflict ∨
        ∃ diseq, (index.testWatched newRoot didx).pendingDiseqConflict = some didx ∧
          index.diseqs[didx]? = some diseq ∧ diseq.cachedPair.1 = diseq.cachedPair.2 := by
      unfold testWatched
      dsimp only
      cases here : index.diseqs[didx]? with
      | none => exact .inl rfl
      | some diseq =>
        by_cases violated : diseq.cachedPair.1 = diseq.cachedPair.2
        · simp only [any_some, violated, decide_true, if_true, watchPush, noteConflict]
          split
          · exact .inr ⟨diseq, rfl, rfl, violated⟩
          · exact .inl rfl
        · simp only [any_some, violated, decide_false, Bool.false_eq_true, if_false, watchPush]
          exact .inl trivial
    have sameDiseqs : (index.testWatched newRoot didx).diseqs = index.diseqs := by rw [one]
    refine ⟨sameDiseqs, by rw [one], by rw [one], by rw [one], ?_, ?_⟩
    · rw [one]
      rfl
    · rcases conflict with unchanged | ⟨found, diseq, now, here, violated⟩
      · rw [unchanged]
        rcases noted with same | ⟨diseq, now, here, violated⟩
        · exact .inl same
        · exact .inr ⟨didx, diseq, now, here, violated⟩
      · rw [sameDiseqs] at here
        exact .inr ⟨found, diseq, now, here, violated⟩

variable {index : DiseqIndex} {count : Nat} {image coarser : Nat → Nat}
  {rootA rootB winner loser : Nat}

theorem renamePair_image
    (roots : (winner = rootA ∧ loser = rootB) ∨ (winner = rootB ∧ loser = rootA))
    (joined : ∀ x, coarser x = if image x = loser then winner else image x) (x y : Nat) :
    renamePair rootA rootB winner (image x, image y) = (coarser x, coarser y) := by
  rw [renamePair, joined, joined]
  rcases roots with ⟨rfl, rfl⟩ | ⟨rfl, rfl⟩ <;> grind

theorem renamePair_idem
    (roots : (winner = rootA ∧ loser = rootB) ∨ (winner = rootB ∧ loser = rootA))
    (pair : Nat × Nat) : renamePair rootA rootB winner (renamePair rootA rootB winner pair) =
      renamePair rootA rootB winner pair := by
  simp only [renamePair]
  rcases roots with ⟨rfl, rfl⟩ | ⟨rfl, rfl⟩ <;> grind

theorem Valid.rewriting (valid : index.Valid count image) (rename : Nat × Nat → Nat × Nat)
    (watched : List Nat) :
    Rewriting { index with diseqStampGen := index.diseqStampGen + 1 } rename watched watched
      { index with diseqStampGen := index.diseqStampGen + 1 } where
  each := by
    intro idx diseq here
    refine ⟨diseq.cachedPair, here, .inl rfl, fun stamped => ?_⟩
    -- No disequality was stamped by this merge yet.
    have old := valid.stamps idx
    have stamped : index.diseqStamp idx = index.diseqStampGen + 1 := stamped
    omega
  length := rfl
  visited := fun idx mem => .inl mem
  counts := valid.counts
  stamps := fun idx => Nat.le_succ_of_le (valid.stamps idx)
  watch := rfl
  conflict := rfl

theorem Valid.rewritePairs (valid : index.Valid count image)
    (roots : (winner = rootA ∧ loser = rootB) ∨ (winner = rootB ∧ loser = rootA)) :
    Rewriting { index with diseqStampGen := index.diseqStampGen + 1 }
      (renamePair rootA rootB winner)
      (index.diseqWatch.lists winner ++ index.diseqWatch.lists loser) []
      (index.rewritePairs rootA rootB winner loser) :=
  (valid.rewriting _ _).run (renamePair_idem roots) _

theorem Valid.rewritten (valid : index.Valid count image)
    (roots : (winner = rootA ∧ loser = rootB) ∨ (winner = rootB ∧ loser = rootA)) :
    (index.rewritePairs rootA rootB winner loser).diseqs = index.diseqs.map fun diseq =>
      { diseq with cachedPair := renamePair rootA rootB winner diseq.cachedPair } := by
  have rewriting := valid.rewritePairs roots
  apply ext_getElem?
  intro idx
  rw [getElem?_map]
  cases here : index.diseqs[idx]? with
  | none =>
    rw [getElem?_eq_none_iff] at here
    rw [map_none, getElem?_eq_none_iff, rewriting.length]
    exact here
  | some diseq =>
    obtain ⟨pair, now, either, stamped⟩ := rewriting.each idx diseq here
    rw [now, map_some]
    congr 2
    by_cases watched : idx ∈ index.diseqWatch.lists winner ++ index.diseqWatch.lists loser
    · rcases rewriting.visited idx watched with none_ | visited | absent
      · cases none_
      · exact stamped visited
      · have absent : index.diseqs[idx]? = none := absent
        rw [here] at absent
        cases absent
    · -- A pair that neither class watches names neither representative.
      obtain ⟨watchL, watchR⟩ := valid.watched idx diseq here
      have outside : ∀ rep, idx ∈ index.diseqWatch.lists rep → rep ≠ rootA ∧ rep ≠ rootB := by
        intro rep listed
        rw [mem_append, not_or] at watched
        constructor
        · rintro rfl
          rcases roots with ⟨rfl, _⟩ | ⟨_, rfl⟩
          · exact watched.1 listed
          · exact watched.2 listed
        · rintro rfl
          rcases roots with ⟨_, rfl⟩ | ⟨rfl, _⟩
          · exact watched.2 listed
          · exact watched.1 listed
      have kept : renamePair rootA rootB winner diseq.cachedPair = diseq.cachedPair := by
        obtain ⟨leftA, leftB⟩ := outside _ watchL
        obtain ⟨rightA, rightB⟩ := outside _ watchR
        rcases valid.pairs diseq (mem_of_getElem? here) with same | same <;>
          simp [renamePair, same, leftA, leftB, rightA, rightB]
      rw [kept]
      rcases either with same | same
      · exact same
      · rw [same, kept]

theorem Valid.merged_diseqs (valid : index.Valid count image)
    (roots : (winner = rootA ∧ loser = rootB) ∨ (winner = rootB ∧ loser = rootA)) :
    (index.merged rootA rootB winner loser).diseqs = index.diseqs.map fun diseq =>
      { diseq with cachedPair := renamePair rootA rootB winner diseq.cachedPair } := by
  obtain ⟨diseqs, _⟩ := @testWatched_fold winner
    ((index.rewritePairs rootA rootB winner loser).diseqWatch.lists loser)
    (index.rewritePairs rootA rootB winner loser)
  rw [← valid.rewritten roots, ← diseqs]
  rfl

theorem Valid.merged (valid : index.Valid count image)
    (roots : (winner = rootA ∧ loser = rootB) ∨ (winner = rootB ∧ loser = rootA))
    (lies : winner < count)
    (joined : ∀ x, coarser x = if image x = loser then winner else image x) :
    (index.merged rootA rootB winner loser).Valid count coarser := by
  have rewriting := valid.rewritePairs roots
  have rewritten := valid.rewritten roots
  have lists : (index.rewritePairs rootA rootB winner loser).diseqWatch.lists =
      index.diseqWatch.lists := by rw [rewriting.watch]
  obtain ⟨diseqs, counts, stamp, gen, watch, conflict⟩ := @testWatched_fold winner
    ((index.rewritePairs rootA rootB winner loser).diseqWatch.lists loser)
    (index.rewritePairs rootA rootB winner loser)
  have listed : ∀ rep, (index.merged rootA rootB winner loser).diseqWatch.lists rep =
      if rep = winner then index.diseqWatch.lists winner ++ index.diseqWatch.lists loser
      else index.diseqWatch.lists rep := by
    intro rep
    unfold DiseqIndex.merged
    rw [watch, EufSolver.useListPush_lists, lists]
  have mapped : (index.merged rootA rootB winner loser).diseqs = index.diseqs.map fun diseq =>
      { diseq with cachedPair := renamePair rootA rootB winner diseq.cachedPair } :=
    valid.merged_diseqs roots
  have pairs : ∀ diseq ∈ (index.merged rootA rootB winner loser).diseqs,
      diseq.cachedPair = (coarser diseq.lhs, coarser diseq.rhs) ∨
        diseq.cachedPair = (coarser diseq.rhs, coarser diseq.lhs) := by
    intro diseq mem
    rw [mapped] at mem
    obtain ⟨old, was, rfl⟩ := mem_map.mp mem
    rcases valid.pairs old was with same | same
    · exact .inl (by rw [same]; exact renamePair_image roots joined _ _)
    · exact .inr (by rw [same]; exact renamePair_image roots joined _ _)
  exact {
    inside := by
      intro diseq mem
      rw [mapped] at mem
      obtain ⟨old, was, rfl⟩ := mem_map.mp mem
      exact valid.inside old was
    pairs := pairs
    watched := by
      intro idx diseq here
      rw [mapped, getElem?_map] at here
      obtain ⟨old, was, rfl⟩ := map_eq_some_iff.mp here
      obtain ⟨left, right⟩ := valid.watched idx old was
      have moves : ∀ x, idx ∈ index.diseqWatch.lists (image x) →
          idx ∈ (index.merged rootA rootB winner loser).diseqWatch.lists (coarser x) := by
        intro x mem
        rw [joined, listed]
        by_cases lost : image x = loser
        · rw [if_pos lost, if_pos rfl]
          rw [lost] at mem
          exact mem_append_right _ mem
        · rw [if_neg lost]
          split
          · rename_i won
            rw [won] at mem
            exact mem_append_left _ mem
          · exact mem
      exact ⟨moves _ left, moves _ right⟩
    watchRange := by
      intro rep outside
      rw [listed, if_neg (by omega)]
      exact valid.watchRange rep outside
    counts := by
      intro key
      have counted := rewriting.counts key
      rw [← counts, ← diseqs] at counted
      exact counted
    stamps := by
      intro idx
      have bound := rewriting.stamps idx
      rw [← stamp, ← gen] at bound
      exact bound
    conflict := by
      intro idx noted
      rcases conflict with unchanged | ⟨found, diseq, now, here, violated⟩
      · have old : index.pendingDiseqConflict = some idx := by
          rw [← rewriting.conflict.trans rfl, ← unchanged]
          exact noted
        obtain ⟨diseq, here, equal⟩ := valid.conflict idx old
        refine ⟨{ diseq with cachedPair := renamePair rootA rootB winner diseq.cachedPair }, ?_, ?_⟩
        · rw [mapped, getElem?_map, here]
          rfl
        · show coarser diseq.lhs = coarser diseq.rhs
          rw [joined, joined, equal]
      · have same : found = idx := some.inj (now.symm.trans noted)
        subst same
        rw [← diseqs] at here
        refine ⟨diseq, here, ?_⟩
        rcases pairs diseq (mem_of_getElem? here) with pair | pair
        · rw [pair] at violated
          exact violated
        · rw [pair] at violated
          exact violated.symm }

theorem Valid.assertDiseq (valid : index.Valid count image) {a b : Nat} (reason : Nat)
    (insideA : a < count) (insideB : b < count)
    (ranged : ∀ x, x < count → image x < count) :
    (index.assertDiseq a b (image a) (image b) reason).Valid count image := by
  have rangedA := ranged a insideA
  have rangedB := ranged b insideB
  -- Whether or not both nodes are equal, the new disequality is watched on both classes.
  have state : ∃ lists conflict trail, (index.assertDiseq a b (image a) (image b) reason) =
      { index with
        diseqs := index.diseqs ++ [⟨a, b, reason, orderedPair (image a) (image b)⟩]
        diseqWatch := lists
        diseqPairCounts := incPair (orderedPair (image a) (image b)) index.diseqPairCounts
        diseqPairTrail := trail
        diseqStamp := update index.diseqStamp index.diseqs.length 0
        pendingDiseqConflict := conflict } ∧
      (∀ rep idx, idx ∈ index.diseqWatch.lists rep → idx ∈ lists.lists rep) ∧
      index.diseqs.length ∈ lists.lists (image a) ∧
      index.diseqs.length ∈ lists.lists (image b) ∧
      (∀ rep, rep ≠ image a → rep ≠ image b → lists.lists rep = index.diseqWatch.lists rep) ∧
      (conflict = index.pendingDiseqConflict ∨
        (conflict = some index.diseqs.length ∧ image a = image b)) := by
    unfold DiseqIndex.assertDiseq
    dsimp only
    rw [recordPair_eq]
    by_cases equal : image a = image b
    · rw [if_neg (by simpa using equal)]
      refine ⟨_, _, _, rfl, ?_, ?_, ?_, ?_, ?_⟩
      · intro rep idx mem
        simp only [watchPush, AppendTable.append, update_apply]
        split
        · rename_i same
          rw [same] at mem
          exact mem_append_left _ mem
        · exact mem
      · simp [watchPush, AppendTable.append]
      · rw [← equal]
        simp [watchPush, AppendTable.append]
      · intro rep ne _
        simp [watchPush, AppendTable.append, update_of_ne ne]
      · dsimp only [watchPush]
        by_cases free : index.pendingDiseqConflict = none
        · exact .inr ⟨by simp [free], equal⟩
        · exact .inl (by simp [free])
    · rw [if_pos equal]
      refine ⟨_, _, _, rfl, ?_, ?_, ?_, ?_, .inl rfl⟩
      · intro rep idx mem
        simp only [watchPush, AppendTable.append, update_apply]
        grind
      · simp [watchPush, AppendTable.append, update_of_ne equal]
      · simp [watchPush, AppendTable.append]
      · intro rep differentA differentB
        simp [watchPush, AppendTable.append, update_of_ne differentA, update_of_ne differentB]
  obtain ⟨lists, conflict, trail, state, keeps, listedA, listedB, others, noted⟩ := state
  rw [state]
  exact {
    inside := by
      intro diseq mem
      rcases mem_append.mp mem with old | new
      · exact valid.inside diseq old
      · rw [mem_singleton.mp new]
        exact ⟨insideA, insideB⟩
    pairs := by
      intro diseq mem
      rcases mem_append.mp mem with old | new
      · exact valid.pairs diseq old
      · rw [mem_singleton.mp new]
        show orderedPair (image a) (image b) = _ ∨ orderedPair (image a) (image b) = _
        unfold orderedPair
        split
        · exact .inl rfl
        · exact .inr rfl
    watched := by
      intro idx diseq here
      by_cases old : idx < index.diseqs.length
      · rw [getElem?_append_left old] at here
        obtain ⟨left, right⟩ := valid.watched idx diseq here
        exact ⟨keeps _ _ left, keeps _ _ right⟩
      · have bound := (List.getElem?_eq_some_iff.mp here).1
        rw [length_append, length_singleton] at bound
        have same : idx = index.diseqs.length := by omega
        subst same
        rw [getElem?_append_right (Nat.le_refl _)] at here
        simp only [Nat.sub_self, getElem?_cons_zero, some.injEq] at here
        subst here
        exact ⟨listedA, listedB⟩
    watchRange := by
      intro rep outside
      show lists.lists rep = []
      rw [others rep (by omega) (by omega)]
      exact valid.watchRange rep outside
    counts := by
      intro key
      dsimp only
      rw [countP_append, incPair, update_apply, countP_singleton]
      simp only [decide_eq_true_eq]
      split
      · rename_i same
        subst same
        rw [if_pos rfl, valid.counts]
      · rename_i ne
        rw [if_neg (Ne.symm ne), valid.counts]
        rfl
    stamps := by
      intro idx
      dsimp only
      rw [update_apply]
      split
      · exact Nat.zero_le _
      · exact valid.stamps idx
    conflict := by
      intro idx found
      have found : conflict = some idx := found
      rcases noted with same | ⟨same, equal⟩
      · obtain ⟨diseq, here, violated⟩ := valid.conflict idx (same ▸ found)
        refine ⟨diseq, ?_, violated⟩
        rw [List.getElem?_append_left (List.getElem?_eq_some_iff.mp here).1]
        exact here
      · have here : idx = index.diseqs.length := some.inj (found.symm.trans same)
        subst here
        refine ⟨⟨a, b, reason, orderedPair (image a) (image b)⟩, ?_, equal⟩
        rw [getElem?_append_right (Nat.le_refl _)]
        simp }

theorem Valid.grow {larger : Nat} (valid : index.Valid count image) (more : count ≤ larger) :
    index.Valid larger image :=
  { valid with
    inside := fun diseq mem =>
      ⟨Nat.lt_of_lt_of_le (valid.inside diseq mem).1 more,
        Nat.lt_of_lt_of_le (valid.inside diseq mem).2 more⟩
    watchRange := fun rep outside => valid.watchRange rep (Nat.le_trans more outside) }

end DiseqIndex

end Nixie.Euf
