import Nixie.Euf.Explanation
import Nixie.Euf.ProvenDisequal

/-! After every history explanations are complete and conflicts are contradictory. -/

namespace Nixie.Euf

open EufSolver List

variable {s : EufSolver} {saved : List EufSolver} {merges : List (Nat × Nat × Nat)}
  {log : List (Nat × Nat × MergeReason)} {reasons : List Nat} {a b : Nat}

/-- Every cached explanation explains the equality of its pair. -/
def CacheValid (s : EufSolver) (merges : List (Nat × Nat × Nat)) : Prop :=
  ∀ entry ∈ s.explCache, Explains s merges entry.2 entry.1.1 entry.1.2

theorem Explains.symm (explains : Explains s merges reasons a b) : Explains s merges reasons b a :=
  ⟨explains.live, explains.entails.symm⟩

theorem explains_orderedPair : Explains s merges reasons (orderedPair a b).1 (orderedPair a b).2 ↔
      Explains s merges reasons a b := by
  unfold orderedPair
  split
  · exact Iff.rfl
  · exact ⟨.symm, .symm⟩

theorem Explains.extend {after : EufSolver} (explains : Explains s merges reasons a b)
    (nodes : s.nodes <+: after.nodes) (properties : after.functionProperties = s.functionProperties) :
    Explains after merges reasons a b := by
  refine ⟨explains.live, ?_⟩
  rw [Follows, properties]
  refine Closure.extend (fun x value app => ?_) explains.entails
  -- An old node is found where it was.
  obtain ⟨node, here, isApp, func, args⟩ := appOf_eq_some.mp app
  obtain ⟨newer, split⟩ := nodes
  refine appOf_eq_some.mpr ⟨node, ?_, isApp, func, args⟩
  rw [← split, List.getElem?_append_left (List.getElem?_eq_some_iff.mp here).1]
  exact here

theorem CacheValid.extend (s : EufSolver) {after : EufSolver} (nodes : s.nodes <+: after.nodes)
    (properties : after.functionProperties = s.functionProperties)
    (each : ∀ entry ∈ after.explCache, Explains s merges entry.2 entry.1.1 entry.1.2) :
    CacheValid after merges :=
  fun entry mem => (each entry mem).extend nodes properties

theorem Invariant.tryExplainEquality (inv : Invariant s merges log) (cached : CacheValid s merges)
    (a b : Nat) :
    CacheValid (s.tryExplainEquality a b).2 merges ∧
      (a < s.nodes.length → b < s.nodes.length → s.root a = s.root b →
        ∃ reasons, (s.tryExplainEquality a b).1 = some reasons ∧
          Explains s merges reasons a b) := by
  unfold EufSolver.tryExplainEquality
  dsimp only
  split
  · rename_i same
    subst same
    exact ⟨cached, fun _ _ _ => ⟨[], rfl, by simp, .refl _⟩⟩
  · split
    · rename_i outside
      exact ⟨cached, fun insideA insideB _ => by omega⟩
    · rename_i lies
      rw [not_or] at lies
      split
      · rename_i apart
        rw [areEqual, decide_eq_false_iff_not] at apart
        exact ⟨cached, fun _ _ equal => absurd equal apart⟩
      · rename_i notApart
        have equal : s.root a = s.root b := by
          by_contra apart
          exact notApart (decide_eq_false apart)
        cases found : s.explCache.find? fun entry => entry.1 = orderedPair a b with
        | some entry =>
          have mem := mem_of_find?_eq_some found
          have key : entry.1 = orderedPair a b := by
            have := find?_some found
            exact of_decide_eq_true this
          have explains : Explains s merges entry.2 a b := by
            have := cached entry mem
            rw [key] at this
            exact explains_orderedPair.mp this
          simp only [ExplCache.get, found]
          refine ⟨CacheValid.extend s prefix_rfl rfl ?_, fun _ _ _ => ⟨entry.2, rfl, explains⟩⟩
          intro other listed
          rcases mem_cons.mp listed with rfl | old
          · exact cached other mem
          · exact cached other (mem_filter.mp old).1
        | none =>
          simp only [ExplCache.get, found]
          -- The first goal is the pair itself.
          have start : Progress s log ⟨[(a, b)], [orderedPair a b], []⟩ [] := by
            refine ⟨⟨?_, by simp, ?_, ?_, by simp⟩, by simp, ?_⟩
            · simpa using orderedPair_inside (by omega : a < s.nodes.length) (by omega)
            · simpa using ⟨by omega, by omega⟩
            · simpa using equal
            · intro pair mem
              exact .inr ⟨(a, b), by simp, (mem_singleton.mp mem).symm⟩
          obtain ⟨final, chosen, result, progress, done, keeps⟩ :=
            inv.explainLoop (s.nodes.length * s.nodes.length + 1) start
              (by
                have := start.valid.enqueued_length
                simp only [length_singleton] at this ⊢
                omega)
          have explains := progress.explains inv done (keeps (orderedPair a b) (by simp))
          rw [result]
          refine ⟨CacheValid.extend s prefix_rfl rfl ?_,
            fun _ _ _ => ⟨final.reasons, rfl, explains⟩⟩
          intro other listed
          rcases mem_cons.mp listed with rfl | old
          · exact explains_orderedPair.mpr explains
          · exact cached other (mem_filter.mp (mem_of_mem_take old)).1

theorem propagate_cache (empty : s.explCache = []) : s.propagate.explCache = [] := by
  refine @propagateLoop_run (fun s => s.explCache = []) (fun s a b reason rest empty _ => ?_)
    s.propagateFuel s empty
  unfold applyMerge
  dsimp only
  split
  · exact empty
  · rfl

theorem registerUses_cache : ∀ (args : List Nat) (s : EufSolver) (idx : Nat),
    (s.registerUses idx args).explCache = s.explCache := by
  intro args
  induction args with
  | nil => exact fun _ _ => rfl
  | cons arg rest ih => exact fun s idx => (ih _ idx).trans rfl

theorem CacheValid.of_empty (empty : s.explCache = []) : CacheValid s merges := by
  intro entry mem
  rw [empty] at mem
  cases mem

theorem Sound.tryExplainDiseq (sound : Sound s merges saved) (cached : CacheValid s merges)
    (a b : Nat) : CacheValid (s.tryExplainDiseq a b).2 merges := by
  obtain ⟨log, inv⟩ := sound.inv
  have left := UnionFind.find_sameClasses inv.uf a
  have both := left.trans (UnionFind.find_sameClasses (left.wellFormed _ inv.uf) b)
  unfold EufSolver.tryExplainDiseq
  dsimp only
  split
  · exact CacheValid.extend s prefix_rfl rfl cached
  · obtain ⟨uf, same, state⟩ := @findDiseq_state s.nodes.length (s.uf.find a).1
      ((s.uf.find a).2.find b).1 (s.diseq.diseqWatch.lists (s.uf.find a).1)
      { s with uf := ((s.uf.find a).2.find b).2 } (both.wellFormed _ inv.uf)
    split
    · rename_i s' found
      rw [found] at state
      have state : s' = { s with uf := uf } := state
      rw [state]
      exact CacheValid.extend s prefix_rfl rfl cached
    · rename_i sideA sideB reason s' found
      rw [found] at state
      have state : s' = { s with uf := uf } := state
      have sound' : Sound s' merges saved := by
        rw [state]
        exact sound.sameClasses (both.trans same) s.explCache
      have cached' : CacheValid s' merges := by
        rw [state]
        exact CacheValid.extend s prefix_rfl rfl cached
      obtain ⟨log', inv'⟩ := sound'.inv
      obtain ⟨cachedA, _⟩ := inv'.tryExplainEquality cached' a sideA
      obtain ⟨cacheA, stateA⟩ := tryExplainEquality_state s' a sideA
      split
      · rename_i s'' explained
        rw [explained] at cachedA
        exact cachedA
      · rename_i reasonsA s'' explained
        rw [explained] at cachedA stateA
        have stateA : s'' = { s' with explCache := cacheA } := stateA
        have sound'' : Sound s'' merges saved := by
          rw [stateA]
          exact sound'.sameClasses (.refl s'.uf) cacheA
        obtain ⟨log'', inv''⟩ := sound''.inv
        exact (inv''.tryExplainEquality cachedA b sideB).1

/-- A set of reasons that contradicts itself: each labels a live merge or disequality, and
together with the merges under the reason zero they entail an equality that they deny. -/
structure Refutes (s : EufSolver) (merges diseqs : List (Nat × Nat × Nat)) (core : List Nat) :
    Prop where
  live : ∀ term ∈ core, (∃ x y, (x, y, term) ∈ merges) ∨ ∃ x y, (x, y, term) ∈ diseqs
  contradiction : ∃ x y term, (x, y, term) ∈ diseqs ∧ term ∈ core ∧
    Follows s (fun u v => ∃ term, (u, v, term) ∈ merges ∧ (term = 0 ∨ term ∈ core)) x y

theorem Allowed.cached {condition : EufSolver → Op → Prop}
    {properties : Nat → FunctionProperties} {history : List Op}
    (allowed : Allowed condition properties history) :
    ∃ saved, Holds (fun live s => CacheValid s (mergesOf live)) (liveCalls history)
      (replay properties history) saved := by
  refine Allowed.holds (CacheValid.of_empty rfl) ?_ ?_ (fun _ cache _ => .of_empty cache) allowed
  · intro op live s saved inner legal _ holds
    have cached : CacheValid s (mergesOf live) := holds.property
    obtain ⟨log, inv⟩ := holds.sound.inv
    cases op with
    | intern term =>
      show CacheValid (s.intern term).2 (mergesOf live)
      unfold intern
      split
      · exact cached
      · exact CacheValid.extend s (prefix_append _ _) rfl cached
    | internApp term func args =>
      show CacheValid (s.internApp term func args).2 (mergesOf live)
      cases known : s.termToNode term with
      | some idx =>
        rw [internApp, known]
        exact cached
      | none =>
        have flat := @Invariant.flattenArgs_lt s (mergesOf live) log inv func args legal.2
        obtain ⟨extended, _⟩ := inv.withApp_extended term func flat
        rcases inv.internApp_cases func args known with ⟨existing, _, state⟩ | ⟨_, state⟩
        · rw [state]
          exact CacheValid.of_empty (propagate_cache rfl)
        · rw [state]
          refine CacheValid.extend s ?_ extended.properties ?_
          · show s.nodes <+: (withApp s term func (s.flattenArgs func args)).nodes
            rw [extended.nodes]
            exact prefix_append _ _
          · have kept : (withSignature s term func (s.flattenArgs func args)).explCache =
                s.explCache := registerUses_cache _ _ _
            rw [kept]
            exact cached
    | merge a b reason => exact CacheValid.of_empty (propagate_cache rfl)
    | assertDiseq a b reason => exact CacheValid.extend s prefix_rfl rfl cached
    | push => cases inner
    | pop => cases inner
    | find a => exact CacheValid.extend s prefix_rfl rfl cached
    | explainEquality a b => exact (inv.tryExplainEquality cached a b).1
    | explainDiseq a b => exact holds.sound.tryExplainDiseq cached a b
    | checkConflicts =>
      show CacheValid s.checkConflicts.2 (mergesOf live)
      unfold checkConflicts
      split
      · exact cached
      · exact (inv.tryExplainEquality cached _ _).1
  · intro live s saved holds
    exact CacheValid.extend s prefix_rfl rfl holds.property

theorem Sound.checkConflicts {diseqs : List (Nat × Nat × Nat)} (sound : Sound s merges saved)
    (cached : CacheValid s merges)
    (listed : s.diseq.diseqs.map (fun diseq => (diseq.lhs, diseq.rhs, diseq.reason)) = diseqs)
    {core : List Nat} (reported : s.checkConflicts.1 = some core) :
    Refutes s merges diseqs core := by
  obtain ⟨log, inv⟩ := sound.inv
  unfold EufSolver.checkConflicts at reported
  cases noted : s.diseq.pendingDiseqConflict with
  | none =>
    rw [noted] at reported
    cases reported
  | some idx =>
    obtain ⟨diseq, here, equal⟩ := sound.diseq.conflict idx noted
    have mem : diseq ∈ s.diseq.diseqs := mem_of_getElem? here
    obtain ⟨insideL, insideR⟩ := sound.diseq.inside diseq mem
    obtain ⟨reasons, found, explains⟩ :=
      (inv.tryExplainEquality cached diseq.lhs diseq.rhs).2 insideL insideR equal
    have asserted : (diseq.lhs, diseq.rhs, diseq.reason) ∈ diseqs := by
      rw [← listed]
      exact mem_map.mpr ⟨diseq, mem, rfl⟩
    simp only [noted, Option.bind_some, here, found, Option.getD_some, Option.some.injEq]
      at reported
    -- The reported reasons are those of the explanation and of the disequality.
    have members : ∀ term, term ∈ core ↔ term ∈ reasons ∨ term = diseq.reason := by
      intro term
      rw [← reported]
      split
      · rename_i known
        constructor
        · exact .inl
        · rintro (old | rfl)
          · exact old
          · exact known
      · simp
    refine ⟨?_, diseq.lhs, diseq.rhs, diseq.reason, asserted, (members _).mpr (.inr rfl), ?_⟩
    · intro term inCore
      rcases (members term).mp inCore with old | rfl
      · exact .inl (explains.live term old).2
      · exact .inr ⟨diseq.lhs, diseq.rhs, asserted⟩
    · refine explains.entails.mono ?_
      rintro x y ⟨term, merged, reason⟩
      exact ⟨term, merged, reason.imp_right fun old => (members term).mpr (.inl old)⟩

/-- After every history every equality of two nodes is explained, and every reported conflict is
contradictory, by reasons of live merges and disequalities together with the merges under the
reason zero. -/
theorem explanations_entail {properties : Nat → FunctionProperties} {history : List Op}
    (legal : LegalHistory properties history) :
    let s := replay properties history
    (∀ a b, a < s.nodes.length → b < s.nodes.length → s.areEqual a b = true →
      ∃ reasons, (s.tryExplainEquality a b).1 = some reasons ∧
        Explains s (mergesOf (liveCalls history)) reasons a b) ∧
    ∀ core, s.checkConflicts.1 = some core →
      Refutes s (mergesOf (liveCalls history)) (diseqsOf (liveCalls history)) core := by
  obtain ⟨saved, _, sound, cached⟩ := Allowed.cached legal
  obtain ⟨_, _, _, listed⟩ := Allowed.listed legal
  obtain ⟨log, inv⟩ := sound.inv
  intro s
  constructor
  · intro a b insideA insideB equal
    rw [areEqual] at equal
    exact (inv.tryExplainEquality cached a b).2 insideA insideB (of_decide_eq_true equal)
  · intro core reported
    obtain ⟨live, x, y, term, asserted, inCore, follows⟩ :=
      sound.checkConflicts cached listed reported
    refine ⟨fun term member => (live term member).imp_right ?_, x, y, term, ?_, inCore, follows⟩
    · rintro ⟨x, y, asserted⟩
      exact ⟨x, y, mem_reverse.mp asserted⟩
    · exact mem_reverse.mp asserted

/-- A merge under the reason zero, which stands for no literal. -/
def unlabelled : List Op := [.merge 0 1 0, .intern 2, .intern 1]

/-- The explanation is empty, and nothing follows from no equation. -/
theorem unlabelled_unexplained :
    LegalHistory plain unlabelled ∧ (replay plain unlabelled).areEqual 0 1 = true ∧
      ((replay plain unlabelled).tryExplainEquality 0 1).1 = some [] ∧
      ¬ Follows (replay plain unlabelled)
        (fun x y => ∃ term ∈ ([] : List Nat), (x, y, term) ∈ mergesOf (liveCalls unlabelled))
        0 1 := by
  refine ⟨by decide +kernel, by decide +kernel, by decide +kernel, fun follows => ?_⟩
  have same : (0 : Nat) = 1 := by
    refine Closure.least ⟨fun _ => rfl, Eq.symm, Eq.trans⟩ (by simp) ?_ follows
    intro x y func args others arranged left
    -- No node is an application.
    obtain ⟨node, here, app, _⟩ := appOf_eq_some.mp left
    have leaves : ∀ node ∈ (replay plain unlabelled).nodes, node.isApp = false := by
      decide +kernel
    rw [leaves node (mem_of_getElem? here)] at app
    cases app
  cases same

def symmetric : Nat → FunctionProperties := fun _ =>
  { associative := false, commutative := true, hasIdentity := false }

/-- Two applications with exchanged arguments, one of which is merged with another node. -/
def exchanged : List Op :=
  [.assertDiseq 3 4 9, .merge 1 2 6, .internApp 11 5 [2, 0], .internApp 10 5 [0, 1], .intern 3,
    .intern 2, .intern 1]

/-- The conflict rests on the merge of the arguments. -/
theorem exchanged_refuted : Refutes (replay symmetric exchanged) (mergesOf (liveCalls exchanged))
      (diseqsOf (liveCalls exchanged)) [6, 9] := by
  have legal : LegalHistory symmetric exchanged := by decide +kernel
  exact (explanations_entail legal).2 [6, 9] (by decide +kernel)

end Nixie.Euf
