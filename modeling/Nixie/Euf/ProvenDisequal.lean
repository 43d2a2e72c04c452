import Nixie.Euf.Classes

/-! When the counted pairs answer which classes are proven disequal. -/

namespace Nixie.Euf

open EufSolver List

namespace EufSolver

/-- Representative that a merge of two classes gives up. -/
def lost (s : EufSolver) (a b : Nat) : Nat :=
  if s.survivor a b = s.root a then s.root b else s.root a

/-- A disequality from the lost class to a third one keeps the order of its representatives. -/
def KeepsOrder (s : EufSolver) (a b : Nat) : Prop :=
  s.root a ≠ s.root b → ∀ diseq ∈ s.diseq.diseqs, ∀ x ∈ [diseq.lhs, diseq.rhs],
    ∀ y ∈ [diseq.lhs, diseq.rhs], s.root x = s.lost a b → s.root y ≠ s.root a →
      s.root y ≠ s.root b → (s.lost a b < s.root y ↔ s.survivor a b < s.root y)

instance (s : EufSolver) (a b : Nat) : Decidable (s.KeepsOrder a b) :=
  inferInstanceAs (Decidable (_ → _))

/-- A condition on the state before each merge that propagation applies. -/
def EveryMerge (condition : EufSolver → Nat → Nat → Prop) : Nat → EufSolver → Prop
  | 0, _ => True
  | fuel + 1, s =>
    match s.pending with
    | [] => True
    | (a, b, reason) :: rest => condition { s with pending := rest } a b ∧
        EveryMerge condition fuel (applyMerge a b reason { s with pending := rest })

/-- Whether the condition holds before each merge can be evaluated. -/
def EveryMerge.decide {condition : EufSolver → Nat → Nat → Prop}
    [each : ∀ s a b, Decidable (condition s a b)] :
    ∀ fuel s, Decidable (EveryMerge condition fuel s)
  | 0, _ => .isTrue trivial
  | fuel + 1, s => by
    unfold EveryMerge
    cases s.pending with
    | nil => exact .isTrue trivial
    | cons next rest =>
      obtain ⟨a, b, reason⟩ := next
      have : Decidable (condition { s with pending := rest } a b) := each _ _ _
      have := @EveryMerge.decide condition each fuel
        (applyMerge a b reason { s with pending := rest })
      exact inferInstanceAs (Decidable (_ ∧ _))

instance {condition : EufSolver → Nat → Nat → Prop} [∀ s a b, Decidable (condition s a b)]
    (fuel : Nat) (s : EufSolver) : Decidable (EveryMerge condition fuel s) :=
  EveryMerge.decide fuel s

theorem EveryMerge.run {property : EufSolver → Prop} {condition : EufSolver → Nat → Nat → Prop}
    (step : ∀ (s : EufSolver) (a b : Nat) (reason : MergeReason)
      (rest : List (Nat × Nat × MergeReason)), property s → s.pending = (a, b, reason) :: rest →
      condition { s with pending := rest } a b →
      property (({ s with pending := rest } : EufSolver).applyMerge a b reason)) :
    ∀ (fuel : Nat) (s : EufSolver), property s → EveryMerge condition fuel s →
      property (propagateLoop fuel s) := by
  intro fuel
  induction fuel with
  | zero => exact fun s holds _ => holds
  | succ fuel ih =>
    intro s holds every
    rw [propagateLoop]
    unfold EveryMerge at every
    cases next : s.pending with
    | nil => exact holds
    | cons entry rest =>
      obtain ⟨a, b, reason⟩ := entry
      rw [next] at every
      exact ih _ (step s a b reason rest holds next every.1) every.2

end EufSolver

/-- A condition on the state before each merge of a call. -/
def Op.EveryMerge (condition : EufSolver → Nat → Nat → Prop) (s : EufSolver) (op : Op) : Prop :=
  match op.scheduled s with
  | none => True
  | some scheduled => EufSolver.EveryMerge condition scheduled.propagateFuel scheduled

instance {condition : EufSolver → Nat → Nat → Prop} [∀ s a b, Decidable (condition s a b)]
    (s : EufSolver) (op : Op) : Decidable (op.EveryMerge condition s) := by
  unfold Op.EveryMerge
  cases op.scheduled s with
  | none => exact .isTrue trivial
  | some scheduled => exact inferInstanceAs (Decidable (EufSolver.EveryMerge _ _ _))

/-- A call that keeps the order of representatives at each of its merges. -/
def OrderKept (s : EufSolver) (op : Op) : Prop := op.EveryMerge EufSolver.KeepsOrder s

instance (s : EufSolver) (op : Op) : Decidable (OrderKept s op) :=
  inferInstanceAs (Decidable (op.EveryMerge EufSolver.KeepsOrder s))

/-- The disequalities are the live ones, in the order of their assertion. -/
def Listed (live : List Op) (s : EufSolver) : Prop :=
  s.diseq.diseqs.map (fun diseq => (diseq.lhs, diseq.rhs, diseq.reason)) = (diseqsOf live).reverse

/-- Every cached pair is in normal order. -/
def Ordered (s : EufSolver) : Prop :=
  ∀ diseq ∈ s.diseq.diseqs, diseq.cachedPair.1 ≤ diseq.cachedPair.2

variable {s : EufSolver} {saved : List EufSolver} {merges : List (Nat × Nat × Nat)}
  {a b : Nat} {reason : MergeReason} {rest : List (Nat × Nat × MergeReason)}

theorem Sound.applyMerge_diseqs (sound : Sound s merges saved)
    (next : s.pending = (a, b, reason) :: rest) :
    let after := ({ s with pending := rest } : EufSolver).applyMerge a b reason
    after.diseq.diseqs = s.diseq.diseqs ∨ (s.root a ≠ s.root b ∧
      after.diseq.diseqs = s.diseq.diseqs.map fun diseq =>
        { diseq with cachedPair :=
            DiseqIndex.renamePair (s.root a) (s.root b) (s.survivor a b) diseq.cachedPair }) := by
  obtain ⟨log, inv⟩ := sound.inv
  obtain ⟨-, -, skipped | ⟨winner, loser, unites⟩⟩ := inv.nextMerge next
  · obtain ⟨uf, same, state⟩ := skipped.state
    exact .inl (by rw [state])
  · obtain ⟨uf, joined, state⟩ := unites.state
    refine .inr ⟨unites.apart, ?_⟩
    have wins : winner = s.survivor a b := unites.wins
    rw [state, ← wins]
    exact sound.diseq.merged_diseqs unites.roots

theorem survivor_cases (wf : s.uf.WellFormed s.nodes.length) (insideA : a < s.nodes.length)
    (insideB : b < s.nodes.length) (apart : s.root a ≠ s.root b) :
    (s.survivor a b = s.root a ∧ s.lost a b = s.root b) ∨
      (s.survivor a b = s.root b ∧ s.lost a b = s.root a) := by
  rcases @applyMerge_cases s a b (.assertion 0) wf insideA insideB with
    skipped | ⟨winner, loser, unites⟩
  · exact absurd skipped.equal apart
  · have wins := unites.wins
    rcases unites.roots with ⟨won, _⟩ | ⟨won, _⟩
    · exact .inl ⟨wins.symm.trans won, by rw [lost, ← wins, won, if_pos rfl]⟩
    · refine .inr ⟨wins.symm.trans won, ?_⟩
      rw [lost, ← wins, won, if_neg (Ne.symm apart)]

theorem Sound.applyMerge_ordered (sound : Sound s merges saved)
    (next : s.pending = (a, b, reason) :: rest) (ordered : Ordered s)
    (keeps : s.KeepsOrder a b) :
    Ordered (({ s with pending := rest } : EufSolver).applyMerge a b reason) := by
  obtain ⟨log, inv⟩ := sound.inv
  obtain ⟨insideA, insideB⟩ := (inv.scheduled (a, b, reason) (by simp [next])).inside
  rcases sound.applyMerge_diseqs next with same | ⟨apart, renamed⟩
  · unfold Ordered
    rw [same]
    exact ordered
  · intro diseq mem
    rw [renamed] at mem
    obtain ⟨old, was, rfl⟩ := mem_map.mp mem
    have before := ordered old was
    have kept := keeps apart old was
    have sides := survivor_cases inv.uf insideA insideB apart
    simp only [mem_cons, not_mem_nil, or_false, forall_eq_or_imp, forall_eq] at kept
    show (DiseqIndex.renamePair _ _ _ old.cachedPair).1 ≤
      (DiseqIndex.renamePair _ _ _ old.cachedPair).2
    -- The pair names the representatives of both ends, in one order or the other.
    rcases sound.diseq.pairs old was with pair | pair
    · rw [pair] at before ⊢
      simp only [DiseqIndex.renamePair] at before ⊢
      grind
    · rw [pair] at before ⊢
      simp only [DiseqIndex.renamePair] at before ⊢
      grind

theorem Sound.propagate_ordered (sound : Sound s merges saved) (ordered : Ordered s)
    (every : EufSolver.EveryMerge EufSolver.KeepsOrder s.propagateFuel s) :
    Ordered s.propagate := by
  have run := @EufSolver.EveryMerge.run (fun s => Sound s merges saved ∧ Ordered s)
    EufSolver.KeepsOrder (fun s a b reason rest holds next keeps =>
      ⟨holds.1.applyMerge next, holds.1.applyMerge_ordered next holds.2 keeps⟩)
  exact (run s.propagateFuel s ⟨sound, ordered⟩ every).2

theorem Sound.propagate_listed (sound : Sound s merges saved) {live : List Op}
    (listed : Listed live s) : Listed live s.propagate := by
  have run := @propagateLoop_run (fun s => Sound s merges saved ∧ Listed live s)
    (fun s a b reason rest holds next => ⟨holds.1.applyMerge next, by
      have list : _ = _ := holds.2
      rcases holds.1.applyMerge_diseqs next with same | ⟨_, renamed⟩
      · unfold Listed
        rw [same]
        exact list
      · unfold Listed
        rw [renamed, ← list, map_map]
        rfl⟩)
  exact (run s.propagateFuel s ⟨sound, listed⟩).2

theorem assertDiseq_diseqs (a b ra rb reason : Nat) (index : DiseqIndex) :
    (index.assertDiseq a b ra rb reason).diseqs =
      index.diseqs ++ [⟨a, b, reason, orderedPair ra rb⟩] := by
  unfold DiseqIndex.assertDiseq
  dsimp only
  rw [DiseqIndex.recordPair_eq]
  split <;> rfl

theorem orderedPair_le (x y : Nat) : (orderedPair x y).1 ≤ (orderedPair x y).2 := by
  unfold orderedPair
  split <;> dsimp only <;> omega

theorem Allowed.listed {condition : EufSolver → Op → Prop}
    {properties : Nat → FunctionProperties} {history : List Op}
    (allowed : Allowed condition properties history) :
    ∃ saved, Holds Listed (liveCalls history) (replay properties history) saved := by
  refine Allowed.holds rfl ?_ (fun holds => holds.property) ?_ allowed
  · intro op live s saved inner legal _ holds
    have listed : s.diseq.diseqs.map (fun diseq => (diseq.lhs, diseq.rhs, diseq.reason)) =
        (diseqsOf live).reverse := holds.property
    cases holds.sound.effect holds.settled legal inner with
    | propagates scheduled _ state sound diseq same =>
      rw [state]
      refine sound.propagate_listed ?_
      unfold Listed
      rw [diseq, same]
      exact listed
    | separates a b reason call =>
      subst call
      show (s.diseq.assertDiseq _ _ _ _ _).diseqs.map _ = _
      rw [assertDiseq_diseqs, map_append, listed]
      exact (reverse_cons ..).symm
    | keeps _ _ diseq _ same =>
      unfold Listed
      rw [diseq, same]
      exact listed
  · intro live after before core _ listed
    unfold Listed
    rw [core.diseqs]
    exact listed

theorem Allowed.ordered {properties : Nat → FunctionProperties} {history : List Op}
    (allowed : Allowed OrderKept properties history) :
    ∃ saved, Holds (fun _ => Ordered) (liveCalls history) (replay properties history) saved := by
  refine Allowed.holds ?_ ?_ (fun holds => holds.property) ?_ allowed
  · simp [Ordered, new, DiseqIndex.empty]
  · intro op live s saved inner legal kept holds
    have ordered : Ordered s := holds.property
    cases holds.sound.effect holds.settled legal inner with
    | propagates scheduled starts state sound diseq _ =>
      rw [state]
      refine sound.propagate_ordered ?_ ?_
      · unfold Ordered
        rw [diseq]
        exact ordered
      · simpa only [OrderKept, Op.EveryMerge, starts] using kept
    | separates a b reason call =>
      subst call
      intro diseq mem
      have mem : diseq ∈ (s.diseq.assertDiseq _ _ _ _ _).diseqs := mem
      rw [assertDiseq_diseqs] at mem
      rcases mem_append.mp mem with old | new
      · exact ordered diseq old
      · rw [mem_singleton.mp new]
        exact orderedPair_le _ _
    | keeps _ _ diseq _ _ =>
      unfold Ordered
      rw [diseq]
      exact ordered
  · intro live after before core _ ordered
    unfold Ordered
    rw [core.diseqs]
    exact ordered

theorem Ordered.cached (ordered : Ordered s) (valid : s.diseq.Valid s.nodes.length s.root)
    {diseq : Diseq} (mem : diseq ∈ s.diseq.diseqs) :
    diseq.cachedPair = orderedPair (s.root diseq.lhs) (s.root diseq.rhs) := by
  have le := ordered diseq mem
  rcases valid.pairs diseq mem with pair | pair
  · rw [pair] at le ⊢
    exact (if_pos le).symm
  · rw [pair] at le ⊢
    unfold orderedPair
    dsimp only at le
    split
    · rename_i other
      rw [Nat.le_antisymm le other]
    · rfl

theorem orderedPair_eq_iff {x y u v : Nat} :
    orderedPair x y = orderedPair u v ↔ (x = u ∧ y = v) ∨ (x = v ∧ y = u) := by
  unfold orderedPair
  split <;> split <;> simp only [Prod.mk.injEq] <;> omega

/-- A disequality with one end in each of two classes. -/
def Separates (s : EufSolver) (a b : Nat) (diseq : Nat × Nat × Nat) : Prop :=
  (s.areEqual diseq.1 a = true ∧ s.areEqual diseq.2.1 b = true) ∨
    (s.areEqual diseq.1 b = true ∧ s.areEqual diseq.2.1 a = true)

instance (s : EufSolver) (a b : Nat) : DecidablePred (Separates s a b) :=
  fun _ => inferInstanceAs (Decidable (_ ∨ _))

/-- As long as every merge keeps the order of representatives, each pair of classes is counted by
the live disequalities between them, and two nodes are proven disequal exactly when their classes
differ and a live disequality separates them. -/
theorem provenDisequal_iff {properties : Nat → FunctionProperties} {history : List Op}
    (allowed : Allowed OrderKept properties history) (a b : Nat) :
    let s := replay properties history
    s.diseq.diseqPairCounts (orderedPair (s.root a) (s.root b)) =
        (diseqsOf (liveCalls history)).countP (fun diseq => Separates s a b diseq) ∧
      (s.areProvenDisequal a b = true ↔ s.areEqual a b = false ∧
        ∃ diseq ∈ diseqsOf (liveCalls history), Separates s a b diseq) := by
  obtain ⟨saved, _, sound, ordered⟩ := allowed.ordered
  obtain ⟨_, _, _, listed⟩ := allowed.listed
  intro s
  have listed : s.diseq.diseqs.map (fun diseq => (diseq.lhs, diseq.rhs, diseq.reason)) =
    (diseqsOf (liveCalls history)).reverse := listed
  have ordered : Ordered s := ordered
  have valid : s.diseq.Valid s.nodes.length s.root := sound.diseq
  -- The cached pairs are the pairs of representatives, so both counts agree entry by entry.
  have counted : s.diseq.diseqPairCounts (orderedPair (s.root a) (s.root b)) =
      (diseqsOf (liveCalls history)).countP (fun diseq => Separates s a b diseq) := by
    rw [← countP_reverse (l := diseqsOf (liveCalls history)), ← listed, countP_map, valid.counts]
    refine countP_congr fun diseq member => ?_
    rw [ordered.cached valid member]
    simp only [decide_eq_true_eq, orderedPair_eq_iff, Separates, areEqual, Function.comp]
  refine ⟨counted, ?_⟩
  have positive : s.diseq.diseqPairCounts (orderedPair (s.root a) (s.root b)) ≠ 0 ↔
      ∃ diseq ∈ diseqsOf (liveCalls history), Separates s a b diseq := by
    rw [counted, ← Nat.pos_iff_ne_zero, countP_pos_iff]
    simp
  rw [← positive]
  simp only [areProvenDisequal, areEqual, decide_eq_true_eq, decide_eq_false_iff_not]

/-- A merge makes the surviving representative larger than that of a separated class. -/
def crossedOrder : List Op := [.merge 2 0 8, .assertDiseq 0 1 7, .intern 3, .intern 2, .intern 1]

/-- The live disequality between the two classes is not found. -/
theorem crossedOrder_missed : LegalHistory plain crossedOrder ∧
      (0, 1, 7) ∈ diseqsOf (liveCalls crossedOrder) ∧
      (replay plain crossedOrder).areEqual 0 1 = false ∧
      (replay plain crossedOrder).areProvenDisequal 0 1 = false := by
  decide +kernel

/-- Merging in the other direction keeps the order. -/
theorem keptOrder_found :
    (replay plain [.merge 0 2 8, .assertDiseq 0 1 7, .intern 3, .intern 2, .intern 1]).areProvenDisequal
      2 1 = true := by
  have allowed : Allowed OrderKept plain
      [.merge 0 2 8, .assertDiseq 0 1 7, .intern 3, .intern 2, .intern 1] := by decide +kernel
  exact (provenDisequal_iff allowed 2 1).2.mpr
    ⟨by decide +kernel, (0, 1, 7), by decide +kernel, by decide +kernel⟩

end Nixie.Euf
