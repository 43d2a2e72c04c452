import Nixie.Euf.Conflict

/-! The solver decides its live assertions, and explains why two nodes differ. -/

namespace Nixie.Euf

open EufSolver List

namespace DiseqIndex

/-- Unless a violation is noted, every disequality is between two classes. -/
def Alert (index : DiseqIndex) : Prop :=
  index.pendingDiseqConflict = none →
    ∀ diseq ∈ index.diseqs, diseq.cachedPair.1 ≠ diseq.cachedPair.2

variable {index : DiseqIndex} {count rootA rootB winner loser : Nat} {image : Nat → Nat}

theorem noteConflict_ne_none {idx : Nat} : (index.noteConflict idx).pendingDiseqConflict ≠ none := by
  unfold noteConflict
  dsimp only
  split
  · exact Option.some_ne_none idx
  · assumption

theorem testWatched_silent {newRoot : Nat} : ∀ {watched : List Nat} {index : DiseqIndex},
    (watched.foldl (fun index didx => index.testWatched newRoot didx) index).pendingDiseqConflict =
        none →
      index.pendingDiseqConflict = none ∧ ∀ didx ∈ watched, ∀ diseq,
        index.diseqs[didx]? = some diseq → diseq.cachedPair.1 ≠ diseq.cachedPair.2 := by
  intro watched
  induction watched with
  | nil => exact fun silent => ⟨silent, fun _ mem => absurd mem not_mem_nil⟩
  | cons didx rest ih =>
    intro index silent
    obtain ⟨tested, later⟩ := ih silent
    have diseqs : (index.testWatched newRoot didx).diseqs = index.diseqs := by
      unfold testWatched
      dsimp only
      split <;> rfl
    rw [diseqs] at later
    unfold testWatched at tested
    dsimp only [watchPush] at tested
    split at tested
    · -- A violation would have been noted.
      exact absurd tested noteConflict_ne_none
    · rename_i sound
      refine ⟨tested, forall_mem_cons.mpr ⟨fun diseq here => ?_, later⟩⟩
      simpa [here] using sound

theorem Alert.merged (alert : index.Alert) (valid : index.Valid count image)
    (roots : (winner = rootA ∧ loser = rootB) ∨ (winner = rootB ∧ loser = rootA)) :
    (index.merged rootA rootB winner loser).Alert := by
  have rewriting := valid.rewritePairs roots
  intro silent diseq mem
  obtain ⟨calm, tested⟩ := testWatched_silent silent
  rw [valid.merged_diseqs roots] at mem
  obtain ⟨idx, lt, rfl⟩ := getElem_of_mem mem
  rw [length_map] at lt
  rw [getElem_map]
  have here := getElem?_eq_getElem lt
  have old := alert (rewriting.conflict.symm.trans calm) _ (getElem_mem lt)
  intro equal
  -- A pair that the merge joins has an end in the lost class, whose watches are tested.
  have ends : index.diseqs[idx].cachedPair.1 = loser ∨ index.diseqs[idx].cachedPair.2 = loser := by
    simp only [renamePair] at equal
    rcases roots with ⟨rfl, rfl⟩ | ⟨rfl, rfl⟩ <;> grind
  obtain ⟨left, right⟩ := valid.watched idx _ here
  have watched : idx ∈ index.diseqWatch.lists loser := by
    rcases valid.pairs _ (getElem_mem lt) with pair | pair <;> rw [pair] at ends <;>
      rcases ends with rfl | rfl <;> assumption
  refine tested idx (rewriting.watch ▸ watched) _ ?_ equal
  rw [valid.rewritten roots, getElem?_map, here]
  rfl

theorem Alert.assertDiseq (alert : index.Alert) (a b ra rb reason : Nat) :
    (index.assertDiseq a b ra rb reason).Alert := by
  intro silent diseq mem
  rw [assertDiseq_diseqs] at mem
  unfold DiseqIndex.assertDiseq at silent
  dsimp only at silent
  rw [recordPair_eq] at silent
  dsimp only [watchPush] at silent
  split at silent
  · rename_i other
    rcases mem_append.mp mem with old | new
    · exact alert silent diseq old
    · rw [mem_singleton.mp new]
      unfold orderedPair
      split
      · exact other
      · exact other.symm
  · exact absurd silent noteConflict_ne_none

end DiseqIndex

variable {s : EufSolver} {saved : List EufSolver} {merges diseqs : List (Nat × Nat × Nat)}
  {log : List (Nat × Nat × MergeReason)} {reasons : List Nat} {a b : Nat}

theorem Sound.propagate_alert (sound : Sound s merges saved) (alert : s.diseq.Alert) :
    s.propagate.diseq.Alert := by
  have run := @propagateLoop_run (fun s => Sound s merges saved ∧ s.diseq.Alert)
    (fun s a b reason rest holds next => ⟨holds.1.applyMerge next, by
      obtain ⟨log, inv⟩ := holds.1.inv
      obtain ⟨-, -, skipped | ⟨winner, loser, unites⟩⟩ := inv.nextMerge next
      · obtain ⟨uf, -, state⟩ := skipped.state
        rw [state]
        exact holds.2
      · obtain ⟨uf, -, state⟩ := unites.state
        rw [state]
        exact holds.2.merged holds.1.diseq unites.roots⟩)
  exact (run s.propagateFuel s ⟨sound, alert⟩).2

theorem Allowed.alert {condition : EufSolver → Op → Prop}
    {properties : Nat → FunctionProperties} {history : List Op}
    (allowed : Allowed condition properties history) :
    ∃ saved, Holds (fun _ s => s.diseq.Alert) (liveCalls history) (replay properties history)
      saved := by
  refine Allowed.holds (fun _ _ mem => absurd mem not_mem_nil) ?_ (fun holds => holds.property) ?_
    allowed
  · intro op live s saved inner legal _ holds
    have alert : s.diseq.Alert := holds.property
    cases holds.sound.effect holds.settled legal inner with
    | propagates scheduled _ state sound diseq _ =>
      rw [state]
      exact sound.propagate_alert (diseq ▸ alert)
    | separates a b reason call =>
      subst call
      exact alert.assertDiseq a b _ _ reason
    | keeps _ _ diseq _ _ =>
      rw [diseq]
      exact alert
  · intro live after before core _ alert
    rw [DiseqIndex.Alert, core.conflict, core.diseqs]
    exact alert

/-- An interpretation of the nodes and the function symbols under which some assertions hold. -/
structure Model {α : Type} (s : EufSolver) (merges diseqs : List (Nat × Nat × Nat))
    (value : Nat → α) (apply : Nat → List α → α) : Prop
    extends Interprets (appOf s.nodes) (fun func => (s.functionProperties func).commutative) value
      apply where
  equal : ∀ x y reason, (x, y, reason) ∈ merges → value x = value y
  apart : ∀ x y reason, (x, y, reason) ∈ diseqs → value x ≠ value y

theorem Listed.mem {live : List Op} (listed : Listed live s) {entry : Nat × Nat × Nat} :
    entry ∈ diseqsOf live ↔
      ∃ diseq ∈ s.diseq.diseqs, (diseq.lhs, diseq.rhs, diseq.reason) = entry := by
  rw [← mem_reverse, ← listed, mem_map]

/-- After every history a conflict is reported exactly when no interpretation of the nodes and the
function symbols satisfies the live equalities and disequalities. -/
theorem checkConflicts_iff {properties : Nat → FunctionProperties} {history : List Op}
    (legal : LegalHistory properties history) :
    let s := replay properties history
    s.checkConflicts.1 = none ↔ ∃ (α : Type) (value : Nat → α) (apply : Nat → List α → α),
      Model s (mergesOf (liveCalls history)) (diseqsOf (liveCalls history)) value apply := by
  obtain ⟨_, settled, sound, listed⟩ := Allowed.listed legal
  obtain ⟨_, _, _, cached⟩ := Allowed.cached legal
  obtain ⟨_, _, _, alert⟩ := Allowed.alert legal
  obtain ⟨log, inv⟩ := sound.inv
  intro s
  constructor
  · intro quiet
    refine ⟨Nat, s.root, _, interprets_applied fun left right order images => ?_,
      fun x y reason mem => (inv.root_eq_iff settled x y).mpr (.base ⟨reason, mem⟩),
      fun x y reason mem => ?_⟩
    · obtain ⟨length, pairs⟩ := map_eq_map_iff_zip.mp images
      exact inv.congruent settled left right order length pairs
    obtain ⟨diseq, lies, eq⟩ := listed.mem.mp mem
    cases eq
    -- Nothing is noted, or a conflict would be reported.
    have calm : s.diseq.pendingDiseqConflict = none := by
      cases noted : s.diseq.pendingDiseqConflict with
      | none => rfl
      | some idx =>
        obtain ⟨found, here, -⟩ := sound.diseq.conflict idx noted
        unfold checkConflicts at quiet
        rw [noted, Option.bind_some, here] at quiet
        cases quiet
    have apart := alert calm diseq lies
    rcases sound.diseq.pairs diseq lies with pair | pair <;> rw [pair] at apart
    · exact apart
    · exact apart.symm
  · rintro ⟨α, value, apply, model⟩
    cases reported : s.checkConflicts.1 with
    | none => rfl
    | some core =>
      obtain ⟨-, x, y, term, mem, -, follows⟩ := sound.checkConflicts cached listed reported
      refine absurd (follows.holds model.toInterprets ?_) (model.apart x y term (mem_reverse.mp mem))
      rintro u v ⟨reason, merged, -⟩
      exact model.equal u v reason merged

theorem findDiseq_some {count ra rb : Nat} : ∀ (watched : List Nat) {s : EufSolver}
    {found : Nat × Nat × Nat}, s.uf.WellFormed count → (findDiseq ra rb watched s).1 = some found →
      s.root found.1 = ra ∧ s.root found.2.1 = rb ∧ ∃ diseq ∈ s.diseq.diseqs,
        found = (diseq.lhs, diseq.rhs, diseq.reason) ∨
          found = (diseq.rhs, diseq.lhs, diseq.reason) := by
  intro watched
  induction watched with
  | nil =>
    intro s found wf eq
    cases eq
  | cons idx rest ih =>
    intro s found wf eq
    unfold findDiseq at eq
    split at eq
    · cases eq
    · rename_i diseq here
      have mem := mem_of_getElem? here
      have left := UnionFind.find_sameClasses wf diseq.lhs
      have both := left.trans (UnionFind.find_sameClasses (left.wellFormed _ wf) diseq.rhs)
      simp only [find_fst, left.find] at eq
      split at eq
      · rename_i same
        cases eq
        exact ⟨same.1, same.2, diseq, mem, .inl rfl⟩
      · split at eq
        · rename_i same
          cases eq
          exact ⟨same.2, same.1, diseq, mem, .inr rfl⟩
        · obtain ⟨first, second, listed⟩ := ih (both.wellFormed _ wf) eq
          exact ⟨(both.find _).symm.trans first, (both.find _).symm.trans second, listed⟩

/-- The assertions whose reason is zero or listed. -/
def named (reasons : List Nat) (assertions : List (Nat × Nat × Nat)) : List (Nat × Nat × Nat) :=
  assertions.filter fun entry => entry.2.2 = 0 ∨ entry.2.2 ∈ reasons

theorem Explains.holds {all : List Nat} (explains : Explains s merges reasons a b)
    (listed : reasons ⊆ all) {α : Type} {value : Nat → α} {apply : Nat → List α → α}
    (model : Model s (named all merges) (named all diseqs) value apply) : value a = value b := by
  refine explains.entails.holds model.toInterprets ?_
  rintro x y ⟨term, merged, reason⟩
  refine model.equal x y term (mem_filter.mpr ⟨merged, decide_eq_true ?_⟩)
  exact reason.imp_right fun mem => listed mem

theorem Sound.tryExplainDiseq_some (sound : Sound s merges saved) (cached : CacheValid s merges)
    (insideA : a < s.nodes.length) (insideB : b < s.nodes.length)
    (explained : (s.tryExplainDiseq a b).1 = some reasons) :
    ∃ sideA sideB reasonsA reasonsB, ∃ diseq ∈ s.diseq.diseqs,
      ((sideA, sideB) = (diseq.lhs, diseq.rhs) ∨ (sideA, sideB) = (diseq.rhs, diseq.lhs)) ∧
        Explains s merges reasonsA a sideA ∧ Explains s merges reasonsB b sideB ∧
          reasons = reasonsA ++ (if diseq.reason ≠ 0 then [diseq.reason] else []) ++ reasonsB := by
  obtain ⟨log, inv⟩ := sound.inv
  have left := UnionFind.find_sameClasses inv.uf a
  have both := left.trans (UnionFind.find_sameClasses (left.wellFormed _ inv.uf) b)
  unfold EufSolver.tryExplainDiseq at explained
  simp only [find_fst, left.find] at explained
  split at explained
  · cases explained
  obtain ⟨uf, same, state⟩ := @findDiseq_state _ (s.root a) (s.root b)
    (s.diseq.diseqWatch.lists (s.root a)) { s with uf := ((s.uf.find a).2.find b).2 }
    (both.wellFormed _ inv.uf)
  split at explained
  · cases explained
  · rename_i sideA sideB reason s' found
    obtain ⟨rootA, rootB, diseq, mem, ends⟩ :=
      findDiseq_some _ (both.wellFormed _ inv.uf) (congrArg Prod.fst found)
    rw [found] at state
    obtain rfl : s' = { s with uf := uf } := state
    -- Both ends exist, and one is in each class.
    have lies : sideA < s.nodes.length ∧ sideB < s.nodes.length := by
      have := sound.diseq.inside diseq mem
      rcases ends with eq | eq <;> cases eq
      · exact this
      · exact this.symm
    have roots := both.trans same
    have sound' := sound.sameClasses roots s.explCache
    obtain ⟨log', inv'⟩ := sound'.inv
    obtain ⟨cachedA, first⟩ := inv'.tryExplainEquality
      (CacheValid.extend s prefix_rfl rfl cached) a sideA
    obtain ⟨cacheA, stateA⟩ := tryExplainEquality_state { s with uf := uf } a sideA
    obtain ⟨reasonsA, eqA, explainsA⟩ := first insideA lies.1
      ((roots.find a).trans (rootA.symm.trans ((both.find sideA).trans (roots.find sideA).symm)))
    rw [stateA] at cachedA
    rw [show ({ s with uf := uf } : EufSolver).tryExplainEquality a sideA = (some reasonsA, _) from
      Prod.ext eqA stateA] at explained
    obtain ⟨_, inv''⟩ := (sound'.sameClasses (.refl uf) cacheA).inv
    obtain ⟨reasonsB, eqB, explainsB⟩ := (inv''.tryExplainEquality cachedA b sideB).2 insideB lies.2
      ((roots.find b).trans (rootB.symm.trans ((both.find sideB).trans (roots.find sideB).symm)))
    dsimp only at explained
    rw [eqB] at explained
    cases explained
    obtain rfl : reason = diseq.reason := by rcases ends with eq | eq <;> cases eq <;> rfl
    exact ⟨sideA, sideB, reasonsA, reasonsB, diseq, mem, by simpa using ends,
      explainsA.extend prefix_rfl rfl, explainsB.extend prefix_rfl rfl, rfl⟩

/-- After every history, the reasons that explain a disequality label live assertions, which make
the values of the two nodes differ in every interpretation. -/
theorem tryExplainDiseq_entails {properties : Nat → FunctionProperties} {history : List Op}
    (legal : LegalHistory properties history) {a b : Nat} {reasons : List Nat}
    (insideA : a < (replay properties history).nodes.length)
    (insideB : b < (replay properties history).nodes.length)
    (explained : ((replay properties history).tryExplainDiseq a b).1 = some reasons) :
    let merges := mergesOf (liveCalls history)
    let diseqs := diseqsOf (liveCalls history)
    (∀ term ∈ reasons, ∃ x y, (x, y, term) ∈ merges ∨ (x, y, term) ∈ diseqs) ∧
      ∀ (α : Type) (value : Nat → α) (apply : Nat → List α → α),
        Model (replay properties history) (named reasons merges) (named reasons diseqs) value apply →
          value a ≠ value b := by
  obtain ⟨_, _, _, listed⟩ := Allowed.listed legal
  obtain ⟨_, _, sound, cached⟩ := Allowed.cached legal
  obtain ⟨sideA, sideB, reasonsA, reasonsB, diseq, mem, ends, fromA, fromB, rfl⟩ :=
    sound.tryExplainDiseq_some cached insideA insideB explained
  have asserted := listed.mem.mpr ⟨diseq, mem, rfl⟩
  intro merges diseqs
  constructor
  · intro term lies
    simp only [mem_append, mem_ite_nil_right, mem_singleton] at lies
    rcases lies with (lies | ⟨-, rfl⟩) | lies
    · obtain ⟨-, x, y, merged⟩ := fromA.live term lies
      exact ⟨x, y, .inl merged⟩
    · exact ⟨_, _, .inr asserted⟩
    · obtain ⟨-, x, y, merged⟩ := fromB.live term lies
      exact ⟨x, y, .inl merged⟩
  · intro α value apply model equal
    have apart := model.apart _ _ _ (mem_filter.mpr ⟨asserted, by
      by_cases zero : diseq.reason = 0 <;> simp [zero]⟩)
    have sides : value sideA = value sideB := by
      rw [← fromA.holds (fun _ mem => by simp [mem]) model,
        ← fromB.holds (fun _ mem => by simp [mem]) model, equal]
    rcases ends with eq | eq <;> cases eq
    · exact apart sides
    · exact apart sides.symm

/-- The ends of a disequality that a merge extends differ from the merged node too. -/
theorem merged_node_apart :
    let history := [.merge 0 2 5, .assertDiseq 0 1 7, .intern 3, .intern 2, .intern 1]
    ∀ (α : Type) (value : Nat → α) (apply : Nat → List α → α),
      Model (replay plain history) (named [5, 7] (mergesOf (liveCalls history)))
        (named [5, 7] (diseqsOf (liveCalls history))) value apply → value 2 ≠ value 1 := by
  intro history
  have legal : LegalHistory plain history := by decide +kernel
  exact (tryExplainDiseq_entails legal (by decide +kernel) (by decide +kernel)
    (by decide +kernel)).2

/-- A disequality of two nodes contradicts their merge. -/
theorem merged_apart_unsatisfiable :
    let history := [.assertDiseq 0 1 7, .merge 0 1 6, .intern 2, .intern 1]
    ¬ ∃ (α : Type) (value : Nat → α) (apply : Nat → List α → α),
      Model (replay plain history) (mergesOf (liveCalls history)) (diseqsOf (liveCalls history))
        value apply := by
  intro history
  have legal : LegalHistory plain history := by decide +kernel
  exact (checkConflicts_iff legal).not.mp (by decide +kernel)

end Nixie.Euf
